import GrammarGraph.Proofs.Bookkeeping

/-! The evaluators and the walks as scripts. What an evaluator does between its requests concerns
other books or none, so the books of each evaluator account for what is in progress wherever it is
asked, also by another evaluator in the middle of a computation. -/
namespace GrammarGraph

namespace Evaluation

variable {σ α β γ τ ρ : Type} {held : Held σ (Evaluation α)}

/-- The run is that of a script. -/
def Scripted (held : Held σ (Evaluation α)) (r : RunOf σ β) : Prop :=
  ∃ script : Script held β, script.run = r

namespace Scripted

variable {r : RunOf σ β} {f : β → RunOf σ γ}

theorem given (result : Except Fault β) : Scripted held (RunOf.ofExcept result) :=
  ⟨.given result, rfl⟩

/-- A run that leaves the books alone. -/
theorem act (spares : ∀ s result s', r s = some (result, s') → Spares (held.get s) (held.get s')) :
    Scripted held r :=
  ⟨.act r spares, rfl⟩

theorem spent : Scripted held (RunOf.spent : RunOf σ β) :=
  .act fun _ _ _ none => nomatch none

theorem read (p : σ → β) : Scripted held (RunOf.read p) := by
  refine .act ?_
  rintro s _ _ ⟨⟩
  exact .refl _

theorem update {p : σ → σ} (spares : ∀ s, Spares (held.get s) (held.get (p s))) :
    Scripted held (RunOf.update p) := by
  refine .act ?_
  rintro s _ _ ⟨⟩
  exact spares s

theorem bind (hr : Scripted held r) (hf : ∀ b, Scripted held (f b)) : Scripted held (r >>= f) := by
  obtain ⟨first, rfl⟩ := hr
  choose next same using hf
  exact ⟨.bind first next, congrArg _ (funext same)⟩

theorem outcome (hr : Scripted held r) : Scripted held r.outcome := by
  obtain ⟨first, rfl⟩ := hr
  exact ⟨.outcome first, rfl⟩

theorem ask {default body : RunOf σ α} (hd : Scripted held default) (hb : Scripted held body)
    (n : Nat) : Scripted held (demand held default body n) := by
  obtain ⟨default, rfl⟩ := hd
  obtain ⟨body, rfl⟩ := hb
  exact ⟨.ask n default body, rfl⟩

/-- A function that asks itself only as it is given to itself. -/
theorem solve {default : Nat → RunOf σ α} {step : (Nat → RunOf σ α) → Nat → RunOf σ α}
    (hd : ∀ n, Scripted held (default n))
    (hs : ∀ again, (∀ n, Scripted held (again n)) → ∀ n, Scripted held (step again n))
    (bound : Nat) : ∀ n, Scripted held (Evaluation.solve held default step bound n) := by
  induction bound with
  | zero => exact fun _ => .spent
  | succ bound ih => exact fun n => .ask (hd n) (hs _ ih n) n

/-- A request to another function, whose books are other ones. -/
theorem other {held' : Held σ (Evaluation τ)} {default body : RunOf σ τ}
    (apart : ∀ p s, Spares (held.get s) (held.get (held'.modify p s)))
    (hd : Scripted held default) (hb : Scripted held body) (n : Nat) :
    Scripted held (demand held' default body n) := by
  refine .bind (.read _) fun standing => ?_
  cases standing with
  | stored v => exact .given (.ok v)
  | active depth => exact .bind (.update fun _ => apart _ _) fun _ => hd
  | provisional entry => exact .bind (.update fun _ => apart _ _) fun _ => .given (.ok entry.value)
  | fresh depth =>
    refine .bind (.update fun _ => apart _ _) fun _ => .bind (.outcome hb) fun result =>
      .bind (.read _) fun lowlink => .bind (.update fun _ => apart _ _) fun _ =>
      .bind (.given result) fun v => ?_
    dsimp only
    split
    · exact .bind (.update fun _ => apart _ _) fun _ => .given (.ok v)
    · exact .bind (.update fun _ => apart _ _) fun _ => .given (.ok v)

theorem memo {held' : Held σ (Memo ρ)} {body : RunOf σ ρ}
    (apart : ∀ p s, Spares (held.get s) (held.get (held'.modify p s)))
    (hb : Scripted held body) (name : String) (n : Nat) (key : Value) :
    Scripted held (Memo.demand held' name body n key) := by
  refine .bind (.given _) fun key => .bind (.read _) fun progress => ?_
  cases progress with
  | finished result => exact .given (.ok result)
  | started => exact .given (.error _)
  | absent =>
    exact .bind (.update fun _ => apart _ _) fun _ => .bind (.outcome hb) fun result =>
      .bind (.update fun _ => apart _ _) fun _ => .bind (.given result) fun _ =>
      .bind (.update fun _ => apart _ _) fun _ => .given (.ok _)

end Scripted

theorem Spares.of_eq {e e' : Evaluation α} (same : e' = e) : Spares e e' :=
  same ▸ .refl e

theorem Spares.forget (e : Evaluation α) (n : Nat) : Spares e (e.forget n) where
  active := rfl
  frames := rfl
  provisional := rfl
  stored m v known := by
    rw [stored_forget] at known
    split at known
    · cases known
    · exact known

end Evaluation

open Evaluation

namespace Evaluator

variable (i : Evaluator)

theorem lawful : i.held.Lawful := by
  cases i <;> exact ⟨fun _ _ => rfl, fun _ _ => rfl⟩

theorem make_scripted (node : Node) : Scripted i.held (Run.make node) :=
  .bind (.read _) fun _ => .bind (.update fun _ => .of_eq (of_addNode node)) fun _ => .given (.ok _)

theorem defer_scripted (s : Suspension) : Scripted i.held (Run.defer s) :=
  .bind (.read _) fun _ => .bind (.update fun _ => .of_eq (of_addCell s)) fun _ => .given (.ok _)

theorem define_scripted (placeholder : NodeId) (body : Operand) :
    Scripted i.held (Grammar.define placeholder body) := by
  cases body with
  | node n =>
    have become : Scripted i.held (RunOf.update (Graph.become placeholder n)) := .update fun g => by
      rw [show i.held.get (g.become placeholder n) = _ from of_become placeholder n]
      exact .forget _ _
    refine .bind (.read _) fun kind => ?_
    dsimp only
    split
    · exact .bind (.given (.error _)) fun _ => .bind become fun _ => .given (.ok _)
    · exact .bind become fun _ => .given (.ok _)
  | deferred | other => exact .given (.error _)

/-- No construction concerns the books of an evaluator, but that a definition which is completed
has no values. -/
theorem scripted_constructive : Constructive fun _ r =>
    ∀ ask : Ask, (∀ q, Scripted i.held (ask q)) → Scripted i.held (r ask) where
  given result _ _ := .given result
  read p _ _ := .read p
  bind hr hf ask h := .bind (hr ask h) fun a => hf a ask h
  spent _ _ _ := .spent
  ask q _ h := h q
  make {node} _ _ _ _ := i.make_scripted node
  defer {s} _ _ _ := i.defer_scripted s
  postpone _ _ _ _ _ := i.defer_scripted _
  note _ _ _ _ := .update fun _ => .of_eq (of_journal _)
  letrec hb ask h := .bind (i.make_scripted _) fun n => .bind (hb n ask h) fun _ =>
    i.define_scripted n _
  anyNode _ node _ _ _ := i.make_scripted node

variable {ask : Ask} (h : ∀ q, Scripted i.held (ask q))
include h

theorem read_scripted (n : NodeId) (side : Side) : Scripted i.held (Child.read ask n side) := by
  have force (cell : CellId) (s : Suspension) : Scripted i.held (Child.force ask cell s) := by
    refine .bind (.update fun _ => .of_eq (of_setForcing ..)) fun _ =>
      .bind (.outcome (i.scripted_constructive.compute s.uses_true ask h)) fun _ =>
      .bind (.update fun _ => .of_eq (of_setForcing ..)) fun _ => .bind (.given _) fun o => ?_
    cases o with
    | node n => exact .given (.ok n)
    | deferred | other => exact .given (.error _)
  refine .bind (.read _) fun slot => ?_
  cases slot with
  | vacant => exact .given (.ok none)
  | node child => exact .given (.ok (some child))
  | deferred cell =>
    refine .bind (.read _) fun content => ?_
    split
    · exact .given (.ok none)
    · exact .given (.error _)
    · exact .bind (force cell _) fun _ => .bind (.update fun _ => .of_eq (of_setSlot ..)) fun _ =>
        .given (.ok _)

/-- An evaluator as it is asked by itself or another one. -/
theorem demand_scripted (j : Evaluator) (n : NodeId) :
    Scripted i.held (demand j.held (j.default n) (j.body ask n) n) := by
  have default : Scripted i.held (j.default n) := by
    cases j <;> exact .given (.ok _)
  have body : Scripted i.held (j.body ask n) :=
    i.scripted_constructive.toCompositional.body j n ask h
  by_cases same : j = i
  · subst same
    exact .ask default body n
  · exact .other (fun p g => .of_eq (of_modify_of_ne p fun back => same back.symm)) default body n

end Evaluator

namespace Engine

/-- Every query is a script to each evaluator. -/
theorem run_scripted (i : Evaluator) (bound : Nat) (q : Query) :
    Scripted i.held (run bound q) := by
  induction bound generalizing q with
  | zero => exact .spent
  | succ bound ih =>
    have parts := i.scripted_constructive.toCompositional
    cases q with
    | child n side => exact i.read_scripted ih n side
    | nullable n => exact i.demand_scripted ih .nullable n
    | forest n => exact i.demand_scripted ih .forest n
    | emptyLike n => exact i.demand_scripted ih .emptyLike n
    | epsLike n => exact i.demand_scripted ih .epsLike n
    | compact n => exact i.demand_scripted ih .compact n
    | derive c n =>
      exact .memo (fun p g => .of_eq (Evaluator.of_derivatives p)) (parts.derive c n _ ih) _ n c
    | nodeCount n => exact parts.nodeCount bound n _ ih

end Engine

namespace Tour

open Evaluation

theorem scripted_compositional : Compositional fun _ r => ∀ ask again,
    (∀ n, Scripted Held.results (again n)) → Scripted Held.results (r ask again) where
  given result _ _ _ := .given result
  read p _ _ _ := .read p
  bind hr hf ask again h := .bind (hr ask again h) fun a => hf a ask again h
  visit n _ _ _ := .update fun t => .of_eq (by
    simp only [visit, Held.results, Walk.meet]
    split <;> rfl)
  graph _ _ _ _ := .act fun t _ _ ends => by
    obtain ⟨_, -, same⟩ := Option.map_eq_some_iff.mp ends
    cases same
    exact .refl _
  again n _ _ h := h n

/-- A walk with a default is a script to itself. -/
theorem walk_scripted (ask : Ask) (rule : Rule) (d : Default) (bound : Nat) (n : NodeId) :
    Scripted .results (solve .results (atCycle d) (step ask rule) bound n) := by
  have default (n : NodeId) : Scripted .results (atCycle d n) := by
    cases d
    · exact .given (.ok _)
    · exact .read _
  exact .solve default (fun again h n => scripted_compositional.step rule n ask again h) bound n

/-- A walk that nothing is left over from keeps to its books. -/
theorem walk_upheld {t : Tour} (rest : t.walk.results.Resting) (ask : Ask) (rule : Rule)
    (d : Default) (bound : Nat) (n : NodeId) :
    ∃ script : Script Held.results Value,
      script.run = solve .results (atCycle d) (step ask rule) bound n ∧
      ∀ request, script.Makes [] t request → request.Upheld := by
  obtain ⟨script, same⟩ := walk_scripted ask rule d bound n
  have lawful : Held.results.Lawful := ⟨fun _ _ => rfl, fun _ _ => rfl⟩
  exact ⟨script, same, fun request => (script.upheld lawful []).2 t request (.of_resting rest)⟩

end Tour

/-- Whatever was done before, a query keeps to the books of each evaluator. -/
theorem Session.Reached.query_upheld {s : Session} (h : s.Reached) (i : Evaluator) (bound : Nat)
    (q : Query) : ∃ script : Script i.held q.Answer, script.run = Engine.run bound q ∧
      ∀ request, script.Makes [] s.graph request → request.Upheld := by
  obtain ⟨script, same⟩ := Engine.run_scripted i bound q
  have rest := h.resting.graph.books i
  exact ⟨script, same, fun request =>
    (script.upheld i.lawful []).2 s.graph request (.of_resting rest)⟩

end GrammarGraph
