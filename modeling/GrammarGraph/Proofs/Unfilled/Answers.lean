import GrammarGraph.Proofs.Unfilled.Overlooks

/-! The engine overlooks unfilled placeholders. A rule is applied to no placeholder, and it makes
nothing of a child but a question; compaction alone looks at the node under a reduction, after the
question whether the reduction takes more symbols was answered with a yes. -/
namespace GrammarGraph

/-- Evaluators saw what they know about, and no deferred slot waits for a term. -/
structure Graph.Lit (g : Graph) : Prop where
  sighted : g.Sighted
  termless : g.Termless

namespace Ask

/-- Questions whose answers do not depend on what the placeholders in `P` will be filled with. -/
structure Overlooks (P : NodeId → Prop) (look : NodeId → Node) (ask : Ask) : Prop where
  sighted : ask.Sighted
  quiet : quiet.Answers ask
  child? : ∀ {h n} side, h.Lit → ¬ P n → GrammarGraph.Overlooks P look h (ask.child? n side)
  child : ∀ {h n} side, h.Lit → GrammarGraph.Overlooks P look h (ask.child n side)
  evaluate : ∀ {h} (i : Evaluator) n, h.Lit → GrammarGraph.Overlooks P look h (i.ask ask n)
  derive : ∀ {h} c n, h.Lit → GrammarGraph.Overlooks P look h (ask.derive c n)

namespace Overlooks

open GrammarGraph.Overlooks (pure fault bind glance either both kind node ofExcept)
open Operand (plain_node plain_ofChild plain_derivative)

variable {P : NodeId → Prop} {look : NodeId → Node} {ask : Ask} {h h' : Graph} {n m : NodeId}
  {α : Type}
  (a : ask.Overlooks P look)
include a

/-- What an evaluator or a part of one leaves. -/
theorem after {r : Ask → Run α} {result : Except Fault α}
    (made : ∀ {Q}, Compositional Q → Q α r) (lit : h.Lit) (ends : r ask h = some (result, h')) :
    h'.Lit ∧ h.Evolves h' := by
  obtain ⟨_, evolves, sighted, -⟩ :=
    made sighted_constructive.toCompositional ask a.sighted.answers h lit.sighted _ _ ends
  obtain ⟨_, -, termless, -⟩ := made quiet_compositional ask a.quiet h lit.termless _ _ ends
  exact ⟨⟨sighted, termless⟩, evolves⟩

theorem asked {q : Query} {v : q.Answer} (lit : h.Lit) (ends : ask q h = some (.ok v, h')) :
    h'.Lit ∧ h.Evolves h' ∧ q.Shows h' v := by
  obtain ⟨_, -, -, shows⟩ := a.sighted q h lit.sighted _ _ ends
  obtain ⟨lit', evolves⟩ := a.after (r := fun ask => ask q) (fun c => c.ask q) lit ends
  exact ⟨lit', evolves, shows v rfl⟩

theorem onChild {f : NodeId → Run α} (lit : h.Lit) (n : NodeId) (side : Side)
    (rest : ∀ k h', h'.Lit → h.Evolves h' → (h'.node n).slot side = .node k →
      GrammarGraph.Overlooks P look h' (f k)) :
    GrammarGraph.Overlooks P look h (ask.child n side >>= f) := by
  refine bind (a.child side lit) fun k h' ended => ?_
  obtain ⟨lit', evolves⟩ := a.after (fun c => c.child n side) lit ended
  obtain ⟨_, -, -, slot⟩ := a.sighted.child lit.sighted n side _ _ ended
  exact rest k h' lit' evolves (slot k rfl)

/-- An evaluator is asked about a child. -/
theorem ofChild (i : Evaluator) (lit : h.Lit) (side : Side) :
    GrammarGraph.Overlooks P look h (ask.child n side >>= i.ask ask) :=
  a.onChild lit n side fun k _ lit' _ _ => a.evaluate i k lit'

theorem lit_ofChild (i : Evaluator) (lit : h.Lit) {side : Side} {v : i.Result}
    (ended : (ask.child n side >>= i.ask ask) h = some (.ok v, h')) : h'.Lit := by
  refine (a.after (r := fun ask => ask.child n side >>= i.ask ask) (fun c => ?_) lit ended).1
  refine c.onChild (fun k => ?_) n side
  cases i with
  | forest => exact c.ask (.forest k)
  | nullable => exact c.ask (.nullable k)
  | emptyLike => exact c.ask (.emptyLike k)
  | epsLike => exact c.ask (.epsLike k)
  | compact => exact c.ask (.compact k)

theorem nullable (lit : h.Lit) : GrammarGraph.Overlooks P look h (Emptiness.nullable ask n) := by
  refine kind (fun _ _ ends => (nomatch ends)) fun _ => ?_
  cases (h.node n).kind with
  | empty | char => exact pure false
  | eps | rep => exact pure true
  | delta | red => exact a.ofChild .nullable lit .first
  | alt =>
    exact either (a.ofChild .nullable lit .first) fun _ ended =>
      a.ofChild .nullable (a.lit_ofChild .nullable lit ended) .second
  | cat =>
    exact both (a.ofChild .nullable lit .first) fun _ ended =>
      a.ofChild .nullable (a.lit_ofChild .nullable lit ended) .second
  | placeholder | other => exact fault _

theorem emptyLike (lit : h.Lit) : GrammarGraph.Overlooks P look h (Emptiness.emptyLike ask n) := by
  refine kind (fun _ _ ends => (nomatch ends)) fun _ => ?_
  cases (h.node n).kind with
  | empty => exact pure true
  | eps | char | rep => exact pure false
  | alt =>
    exact both (a.ofChild .emptyLike lit .first) fun _ ended =>
      a.ofChild .emptyLike (a.lit_ofChild .emptyLike lit ended) .second
  | cat =>
    exact either (a.ofChild .emptyLike lit .first) fun _ ended =>
      a.ofChild .emptyLike (a.lit_ofChild .emptyLike lit ended) .second
  | red => exact a.ofChild .emptyLike lit .first
  | delta =>
    exact a.onChild lit n .first fun k _ lit' _ _ =>
      bind (a.evaluate .nullable k lit') fun _ _ _ => pure _
  | placeholder | other => exact fault _

theorem epsLike (lit : h.Lit) : GrammarGraph.Overlooks P look h (Emptiness.epsLike ask n) := by
  have settled {h : Graph} (lit : h.Lit) (k : NodeId) :
      GrammarGraph.Overlooks P look h (Run.either (ask.epsLike k) (ask.emptyLike k)) :=
    either (a.evaluate .epsLike k lit) fun _ ended =>
      a.evaluate .emptyLike k (a.asked (q := .epsLike k) lit ended).1
  refine kind (fun _ _ ends => (nomatch ends)) fun _ => ?_
  cases (h.node n).kind with
  | empty | char => exact pure false
  | eps | delta => exact pure true
  | rep =>
    exact a.onChild lit n .first fun k _ lit' _ _ =>
      either (a.evaluate .emptyLike k lit') fun _ ended =>
        a.evaluate .epsLike k (a.asked (q := .emptyLike k) lit' ended).1
  | alt =>
    refine a.onChild lit n .first fun first h₁ lit₁ _ _ =>
      a.onChild lit₁ n .second fun second h₂ lit₂ _ _ => ?_
    refine both (settled lit₂ first) fun h₃ ended => settled ?_ second
    exact (a.after (fun c => c.either (c.ask (.epsLike first)) (c.ask (.emptyLike first)))
      lit₂ ended).1
  | cat =>
    exact both (a.ofChild .epsLike lit .first) fun _ ended =>
      a.ofChild .epsLike (a.lit_ofChild .epsLike lit ended) .second
  | red => exact a.ofChild .epsLike lit .first
  | placeholder | other => exact fault _

theorem forest (lit : h.Lit) : GrammarGraph.Overlooks P look h (Extraction.forest ask n) := by
  refine node (fun unfilled _ _ ends => ?_) fun _ => ?_
  · simp only [unfilled] at ends
    cases ends
  cases (h.node n).kind with
  | empty | char => exact pure []
  | eps => exact pure _
  | delta => exact a.ofChild .forest lit .first
  | rep => exact pure _
  | alt | cat =>
    exact bind (a.ofChild .forest lit .first) fun _ _ ended =>
      bind (a.ofChild .forest (a.lit_ofChild .forest lit ended) .second) fun _ _ _ => ofExcept _
  | red => exact bind (a.ofChild .forest lit .first) fun _ _ _ => ofExcept _
  | placeholder | other => exact fault _

theorem derivative (lit : h.Lit) (symbol : Value) :
    GrammarGraph.Overlooks P look h (Derivative.derive ask symbol n) := by
  refine node (fun unfilled _ _ ends => ?_) fun other => ?_
  · simp only [unfilled] at ends
    cases ends
  dsimp only
  cases (h.node n).kind with
  | empty | eps | delta => exact pure _
  | char =>
    dsimp only
    split
    · exact .eps _
    · exact pure _
  | alt => exact .alt
  | cat =>
    refine bind (a.child? .first lit other) fun first h₁ ended₁ => ?_
    have lit₁ := (a.asked (q := .child n .first) lit ended₁).1
    refine bind .delta fun vanished h₂ ended₂ => bind .cat fun skipping h₃ ended₃ => ?_
    have lit₂ := (a.after (fun c => c.delta (c.slot (plain_ofChild first))) lit₁ ended₂).1
    have lit₃ := (a.after (fun c => c.cat (c.slot (plain_node vanished))
      (c.slot (plain_derivative symbol n .second))) lit₂ ended₃).1
    exact bind (a.child? .second lit₃ other) fun second h₄ _ => bind .cat fun taking h₅ _ => .alt
  | rep => exact .cat
  | red => exact .reduction _ _
  | placeholder | other => exact fault _

theorem settled? (lit : h.Lit) : GrammarGraph.Overlooks P look h (Compaction.settled? ask n) := by
  refine bind (a.evaluate .epsLike n lit) fun settled h₁ ended => ?_
  have lit₁ := (a.asked (q := .epsLike n) lit ended).1
  cases settled with
  | true => exact bind (a.evaluate .forest n lit₁) fun _ _ _ => pure _
  | false => exact pure none

theorem compactAlt (lit : h.Lit) : GrammarGraph.Overlooks P look h (Compaction.alt ask n m) := by
  refine bind (a.evaluate .emptyLike n lit) fun none h₁ ended => ?_
  have lit₁ := (a.asked (q := .emptyLike n) lit ended).1
  cases none with
  | true => exact a.evaluate .compact m lit₁
  | false =>
    refine bind (a.evaluate .emptyLike m lit₁) fun none h₂ ended => ?_
    cases none with
    | true => exact a.evaluate .compact n (a.asked (q := .emptyLike m) lit₁ ended).1
    | false => exact .alt

theorem compactCat (lit : h.Lit) : GrammarGraph.Overlooks P look h (Compaction.cat ask n m) := by
  refine bind (a.settled? lit) fun first h₁ ended => ?_
  have lit₁ := (a.after (fun c => c.settled? n) lit ended).1
  rcases first with _ | _ | ⟨head, _ | _⟩
  case some.nil => exact pure _
  case some.cons.nil => exact .reduction _ _
  -- Unless the first part decides, the second one is asked about.
  all_goals
    refine bind (a.settled? lit₁) fun second h₂ _ => ?_
    rcases second with _ | _ | ⟨tail, _ | _⟩
    · exact .cat
    · exact pure _
    · exact .reduction _ _
    · exact .cat

/-- The node under a reduction is looked at, but that node is filled. -/
theorem compactRed (lit : h.Lit) (filled : (h.node n).kind ≠ .placeholder) (t : Transform) :
    GrammarGraph.Overlooks P look h (Compaction.red ask n t) := by
  refine node (fun unfilled => absurd unfilled filled) fun _ => ?_
  cases kind : (h.node n).kind with
  | red => exact a.onChild lit n .first fun nested h₁ _ _ _ => .reduction _ _
  | cat =>
    refine a.onChild lit n .first fun first h₁ lit₁ _ _ => ?_
    refine bind (a.settled? lit₁) fun settled h₂ ended => ?_
    have lit₂ := (a.after (fun c => c.settled? first) lit₁ ended).1
    rcases settled with _ | _ | ⟨head, _ | _⟩
    · exact .reduction _ _
    · exact .reduction _ _
    · exact a.onChild lit₂ n .second fun rest h₃ _ _ _ => .reduction _ _
    · exact .reduction _ _
  | _ => exact .reduction _ _

theorem compound (lit : h.Lit) (seen : h.Seen n) :
    GrammarGraph.Overlooks P look h (Compaction.compound ask n) := by
  refine node (fun unfilled => absurd unfilled seen.filled) fun _ => ?_
  cases kind : (h.node n).kind with
  | rep => exact a.onChild lit n .first fun inner h₁ _ _ _ => .rep _
  | alt =>
    exact a.onChild lit n .first fun first h₁ lit₁ _ _ =>
      a.onChild lit₁ n .second fun second h₂ lit₂ _ _ => a.compactAlt lit₂
  | cat =>
    exact a.onChild lit n .first fun first h₁ lit₁ _ _ =>
      a.onChild lit₁ n .second fun second h₂ lit₂ _ _ => a.compactCat lit₂
  | red =>
    refine a.onChild lit n .first fun inner h₁ lit₁ evolves slot => a.compactRed lit₁ ?_ _
    obtain ⟨m, slot', filled⟩ :=
      (seen.evolves evolves).reduced (evolves.kind_eq kind Kind.noConfusion)
    cases slot.symm.trans slot'
    exact filled
  | _ => exact fault _

theorem compact (lit : h.Lit) : GrammarGraph.Overlooks P look h (Compaction.compact ask n) := by
  refine glance (fun g c => ?_) ?_
  -- A placeholder is no atom, and no more is what it is filled with, so the same questions follow.
  · rcases c.kind n with same | ⟨unfilled, compound⟩
    · rw [same]
    · rw [unfilled]
      generalize (g.node n).kind = kind at compound
      cases kind <;> first | rfl | cases compound
  · cases (h.node n).kind
    case empty | eps | char => exact pure n
    all_goals
      refine bind (a.evaluate .emptyLike n lit) fun none h₁ ended₁ => ?_
      cases none with
      | true => exact pure _
      | false =>
        have lit₁ := (a.asked (q := .emptyLike n) lit ended₁).1
        refine bind (a.evaluate .epsLike n lit₁) fun settled h₂ ended₂ => ?_
        obtain ⟨lit₂, -, shows⟩ := a.asked (q := .epsLike n) lit₁ ended₂
        cases settled with
        | false => exact a.compound lit₂ (shows rfl)
        | true =>
          refine bind (a.evaluate .forest n lit₂) fun ws h₃ _ => ?_
          cases ws with
          | nil => exact pure _
          | cons => exact .eps _

/-- The rules, all of them. -/
theorem body (i : Evaluator) (lit : h.Lit) : GrammarGraph.Overlooks P look h (i.body ask n) := by
  cases i with
  | forest => exact a.forest lit
  | nullable => exact a.nullable lit
  | emptyLike => exact a.emptyLike lit
  | epsLike => exact a.epsLike lit
  | compact => exact a.compact lit

theorem compute {s : Suspension} {cell : CellId} (lit : h.Lit)
    (there : h.suspension? cell = some s) :
    GrammarGraph.Overlooks P look h (Child.compute ask s) := by
  cases s with
  | derivative c m side =>
    exact a.onChild lit m side fun k h₁ lit₁ _ _ => bind (a.derive c k lit₁) fun _ _ _ => pure _
  | compacted m => exact bind (a.evaluate .compact m lit) fun _ _ _ => pure _
  | term body scope => exact absurd there (lit.termless cell body scope)

theorem read (lit : h.Lit) (other : ¬ P n) (side : Side) :
    GrammarGraph.Overlooks P look h (Child.read ask n side) := by
  refine .child other fun {cell s} suspended => ?_
  have same (c : CellId) : (h.setForcing cell true).suspension? c = h.suspension? c :=
    Graph.suspension_setForcing cell true c
  have lit' : (h.setForcing cell true).Lit :=
    ⟨lit.sighted.setForcing cell true, fun c body scope => by
      rw [same]
      exact lit.termless c body scope⟩
  exact a.compute lit' ((same cell).trans suspended)

theorem demand (i : Evaluator) (lit : h.Lit) (n : NodeId) :
    GrammarGraph.Overlooks P look h (Evaluation.demand i.held (i.default n) (i.body ask n) n) := by
  refine .evaluation (a.body i ⟨?_, fun cell body scope => ?_⟩)
  · exact lit.sighted.modify fun _ _ known => .inl known
  · rw [Graph.suspension_congr (Evaluator.cells_modify _)]
    exact lit.termless cell body scope

theorem answer (bound : Nat) : Overlooks P look (Engine.answer bound ask) where
  sighted := a.sighted.answer bound
  quiet := a.quiet.answer_quiet bound
  child? side lit other := a.read lit other side
  child {h n} side lit := by
    by_cases here : P n
    · refine .never fun g c v h' ends => ?_
      have none : Child.read ask n side h = some (.ok none, h) := by
        unfold Child.read
        rw [RunOf.read_bind, c.vacant here side]
        rfl
      cases (RunOf.bind_of_ok none).symm.trans ends
    · refine bind (a.read lit here side) fun k h' _ => ?_
      cases k with
      | some k => exact pure k
      | none => exact fault _
  evaluate i n lit := by cases i <;> exact a.demand _ lit n
  derive {h} c n lit :=
    .memo (a.derivative (h := Held.derivatives.modify (Memo.start n c) h)
      ⟨lit.sighted.congr (h.evolves_of_eq rfl rfl) rfl, lit.termless⟩ c)

end Overlooks

end Ask

/-- Within any bound, the engine overlooks what placeholders will be filled with. -/
theorem Engine.run_overlooks (P : NodeId → Prop) (look : NodeId → Node) :
    ∀ bound, (Engine.run bound).Overlooks P look
  | 0 => {
      sighted := run_sighted 0
      quiet := run_quiet 0
      child? := fun _ _ _ => .spent
      child := fun _ _ => .spent
      evaluate := fun i _ _ => by cases i <;> exact .spent
      derive := fun _ _ _ => .spent }
  | bound + 1 => (run_overlooks P look bound).answer bound

end GrammarGraph
