import GrammarGraph.Proofs.WriteOnce

/-! A sentence may be taken in parts. Whatever state a session has come to, taking a sentence leaves
on record what each of its symbols leaves of a node; taken again, at once or in two parts, the same
sentence follows the same record to the same node. -/
namespace GrammarGraph

/-- A demand that is made while nothing is in progress has its value stored. -/
theorem Evaluation.Resting.stored {σ α : Type} {held : Held σ (Evaluation α)}
    {default body : RunOf σ α} {n : Nat} {v : α} {s s' : σ} (rest : (held.get s).Resting)
    (modify : ∀ f t, held.get (held.modify f t) = f (held.get t))
    (ends : Evaluation.demand held default body n s = some (.ok v, s')) :
    (held.get s').stored.get? n = some v := by
  cases Evaluation.demanded ends with
  | stored stored => exact stored
  | active _ active => cases (rest.active n).symm.trans active
  | provisional _ _ provisional => cases (rest.provisional n).symm.trans provisional
  | postponed _ _ low =>
    rw [rest.frames] at low
    exact absurd low (Nat.not_lt_zero _)
  | computed _ _ _ =>
    rw [modify, stored_store, if_pos rfl]

theorem Memo.demand_found {σ ρ : Type} {held : Held σ (Memo ρ)} {name : String}
    {body : RunOf σ ρ} {n : Nat} {key : Value} {d : ρ} {s s' : σ}
    (modify : ∀ f t, held.get (held.modify f t) = f (held.get t))
    (ends : Memo.demand held name body n key s = some (.ok d, s')) :
    (held.get s').find? n key = some d := by
  cases Memo.demanded ends with
  | finished _ found => exact found
  | computed =>
    rw [modify, Memo.find?_finish, if_pos ⟨rfl, Value.same_refl key⟩]

namespace Engine

variable {bound : Nat} {g g' : Graph} {n : NodeId}

theorem derive_found {c : Value} {d : NodeId}
    (ends : run bound (.derive c n) g = some (.ok d, g')) :
    g'.derivatives.find? n c = some d := by
  cases bound with
  | zero => cases ends
  | succ bound =>
    have ends : Memo.demand .derivatives "derive" (Derivative.derive (run bound) c n) n c g =
        some (.ok d, g') := ends
    exact Memo.demand_found (fun _ _ => rfl) ends

theorem ask_stored {i : Evaluator} {v : i.Result} (rest : g.Resting)
    (ends : i.ask (run bound) n g = some (.ok v, g')) : (i.of g').stored.get? n = some v := by
  cases bound with
  | zero => cases i <;> cases ends
  | succ bound =>
    have ends : Evaluation.demand i.held (i.default n) (i.body (run bound) n) n g =
        some (.ok v, g') := by
      cases i <;> exact ends
    exact (rest.books i).stored (fun _ _ => i.of_modify _) ends

end Engine

namespace Graph

variable {g g' : Graph} {compaction : Bool} {c c' : Value} {s s' t : List Value}
  {n m m' k next next' : NodeId}

/-- It is on record what a symbol leaves of a node. -/
def Taken (g : Graph) (compaction : Bool) (c : Value) (n next : NodeId) : Prop :=
  ∃ d, g.derivatives.find? n c = some d ∧
    if compaction then g.compacted.stored.get? d = some next else d = next

namespace Taken

theorem mono (h : g.Balanced g') (taken : g.Taken compaction c n next) :
    g'.Taken compaction c n next := by
  obtain ⟨d, found, rest⟩ := taken
  refine ⟨d, h.derivatives.found found, ?_⟩
  cases compaction with
  | false => exact rest
  | true => exact (h.books .compact).stored d next rest

theorem unique (taken : g.Taken compaction c n next) (taken' : g.Taken compaction c' n next')
    (same : c.same c' = true) : next = next' := by
  obtain ⟨d, found, rest⟩ := taken
  obtain ⟨d', found', rest'⟩ := taken'
  obtain rfl : d = d' := Option.some.inj (found.symm.trans ((Memo.find?_congr same).trans found'))
  cases compaction with
  | false => exact Eq.trans (Eq.symm rest) rest'
  | true => exact Option.some.inj (Eq.trans (Eq.symm rest) rest')

theorem barren (tidy : g.Tidy) (empty : (g.node .empty).kind = .empty)
    (taken : g.Taken compaction c .empty next) : next = .empty := by
  obtain ⟨d, found, rest⟩ := taken
  obtain rfl : d = .empty := (tidy.found found).2.2 empty rfl
  cases compaction with
  | false => exact Eq.symm rest
  | true => exact (tidy.known .compact (.inl rest)).2 empty rfl

end Taken

/-- The record leads from `n` by the symbols of a sentence, or until nothing can follow. -/
inductive Trail (g : Graph) (compaction : Bool) : List Value → NodeId → NodeId → Prop where
  | ended {n : NodeId} : Trail g compaction [] n n
  | rejected {c : Value} {rest : List Value} {n : NodeId} :
      g.Taken compaction c n .empty → Trail g compaction (c :: rest) n .empty
  | taken {c : Value} {rest : List Value} {n next m : NodeId} : g.Taken compaction c n next →
      next ≠ .empty → Trail g compaction rest next m → Trail g compaction (c :: rest) n m

namespace Trail

theorem mono (h : g.Balanced g') (trail : g.Trail compaction s n m) :
    g'.Trail compaction s n m := by
  induction trail with
  | ended => exact .ended
  | rejected taken => exact .rejected (taken.mono h)
  | taken taken other _ ih => exact .taken (taken.mono h) other ih

theorem unique (trail : g.Trail compaction s n m) (trail' : g.Trail compaction s' n m')
    (same : s.Forall₂ (fun c c' => c.same c' = true) s') : m = m' := by
  induction trail generalizing s' with
  | ended =>
    cases same
    cases trail'
    rfl
  | rejected taken =>
    cases same with
    | cons first rest => cases trail' with
      | rejected => rfl
      | taken taken' other => exact absurd (taken.unique taken' first).symm other
  | taken taken other _ ih =>
    cases same with
    | cons first rest => cases trail' with
      | rejected taken' => exact absurd (taken.unique taken' first) other
      | taken taken' _ trail' =>
        obtain rfl := taken.unique taken' first
        exact ih trail' rest

theorem barren (tidy : g.Tidy) (empty : (g.node .empty).kind = .empty)
    (trail : g.Trail compaction s .empty m) : m = .empty := by
  cases trail with
  | ended => rfl
  | rejected => rfl
  | taken taken other => exact absurd (taken.barren tidy empty) other

/-- A sentence is taken in parts. Where its first part is rejected, nothing may follow the empty
node. -/
theorem append (first : g.Trail compaction s n m) (second : g.Trail compaction t m k)
    (still : m = .empty → k = .empty) : g.Trail compaction (s ++ t) n k := by
  induction first with
  | ended => exact second
  | rejected taken =>
    rw [still rfl]
    exact .rejected taken
  | taken taken other _ ih => exact .taken taken other (ih second still)

end Trail

end Graph

namespace Parse

variable {bound : Nat} {compaction : Bool} {g g' : Graph} {n : NodeId} {s : List Value}

theorem advance_taken {c : Value} {next : NodeId} (tidy : g.Tidy) (rest : g.Resting)
    (ends : advance (Engine.run bound) compaction c n g = some (.ok next, g')) :
    g'.Taken compaction c n next := by
  obtain ⟨d, g₁, derives, ends⟩ := RunOf.bind_ok ends
  have found := Engine.derive_found derives
  have keeps := (Engine.run_balances bound).keeps
  obtain ⟨_, step, tidy₁, -⟩ := keeps _ _ tidy _ _ derives
  cases compaction with
  | false =>
    cases ends
    exact ⟨_, found, rfl⟩
  | true =>
    obtain ⟨_, later, -⟩ := keeps (.compact d) _ tidy₁ _ _ ends
    exact ⟨d, later.derivatives.found found,
      Engine.ask_stored (i := .compact) (step.resting rest tidy₁) ends⟩

theorem residualFrom_trail {position : Nat} {r : Residual} (tidy : g.Tidy) (rest : g.Resting)
    (ends : residualFrom (Engine.run bound) compaction position s n g = some (.ok r, g')) :
    g'.Trail compaction s n r.node := by
  have keeps := (Engine.run_balances bound).keeps
  induction s generalizing position n g with
  | nil =>
    cases ends
    exact .ended
  | cons c s ih =>
    obtain ⟨next, g₁, advances, ends⟩ := RunOf.bind_ok ends
    have taken := advance_taken tidy rest advances
    obtain ⟨_, step, tidy₁, -⟩ :=
      balanced_constructive.advance compaction c n _ keeps _ tidy _ _ advances
    split at ends
    · next same =>
      rw [RunOf.update_bind] at ends
      cases ends
      rw [eq_of_beq same] at taken ⊢
      exact .rejected (taken.mono (tidy₁.journal _).1)
    · next other =>
      obtain ⟨told, g₂, tells, ends⟩ := RunOf.bind_ok ends
      obtain ⟨_, later, tidy₂, -⟩ :=
        balanced_constructive.report position c next _ keeps _ tidy₁ _ _ tells
      have rest₂ := later.resting (step.resting rest tidy₁) tidy₂
      obtain ⟨_, later', -⟩ :=
        balanced_constructive.residualFrom compaction s (position + 1) next _ keeps _ tidy₂ _ _ ends
      exact .taken (taken.mono (later.trans later')) (fun same => other (beq_iff_eq.mpr same))
        (ih tidy₂ rest₂ ends)

end Parse

/-- What a sentence is taken for. -/
inductive Aim where
  | residual
  | recognize
  | parse

namespace Aim

@[reducible]
def Answer : Aim → Type
  | .residual => NodeId
  | .recognize => Bool
  | .parse => Forest

/-- The answer about a sentence: the node that it leaves, whether that is nullable, or its
witnesses. -/
def run (ask : Ask) (compaction : Bool) (s : List Value) (n : NodeId) : (aim : Aim) → Run aim.Answer
  | .residual => do return (← Parse.residual ask compaction s n).node
  | .recognize => do return (← Parse.recognize ask compaction s n).1
  | .parse => do return (← Parse.parse ask compaction s n).1

/-- It is on record what is asked about the node that a sentence left. -/
def Recorded (g : Graph) (m : NodeId) : (aim : Aim) → aim.Answer → Prop
  | .residual, v => v = m
  | .recognize, v => g.nullable.stored.get? m = some v
  | .parse, v => ∃ ws, g.forests.stored.get? m = some ws ∧ Forest.ofWitnesses ws = .ok v

theorem assembled (compaction : Bool) (s : List Value) (n : NodeId) (aim : Aim) :
    Assembled fun ask => aim.run ask compaction s n := by
  intro P parts
  cases aim with
  | residual => exact parts.bind (parts.residual compaction s n) fun _ => parts.pure _
  | recognize => exact parts.bind (parts.recognize compaction s n) fun _ => parts.pure _
  | parse => exact parts.bind (parts.parse compaction s n) fun _ => parts.pure _

variable {aim : Aim} {bound : Nat} {compaction : Bool} {g g' : Graph} {n m : NodeId}
  {s : List Value} {v v' : aim.Answer}

theorem Recorded.mono (h : g.Balanced g') (recorded : Recorded g m aim v) :
    Recorded g' m aim v := by
  cases aim with
  | residual => exact recorded
  | recognize => exact (h.books .nullable).stored m v recorded
  | parse =>
    obtain ⟨ws, stored, gives⟩ := recorded
    exact ⟨ws, (h.books .forest).stored m ws stored, gives⟩

theorem Recorded.unique (recorded : Recorded g m aim v) (recorded' : Recorded g m aim v') :
    v = v' := by
  cases aim with
  | residual => exact Eq.trans recorded (Eq.symm recorded')
  | recognize => exact Option.some.inj (Eq.trans (Eq.symm recorded) recorded')
  | parse =>
    obtain ⟨ws, stored, gives⟩ := recorded
    obtain ⟨ws', stored', gives'⟩ := recorded'
    obtain rfl := Option.some.inj (stored.symm.trans stored')
    exact Except.ok.inj (gives.symm.trans gives')

theorem run_trail (tidy : g.Tidy) (rest : g.Resting)
    (ends : aim.run (Engine.run bound) compaction s n g = some (.ok v, g')) :
    ∃ m, g'.Trail compaction s n m ∧ Recorded g' m aim v := by
  have keeps := (Engine.run_balances bound).keeps
  have left {r : Residual} {g₁ : Graph}
      (ends : Parse.residual (Engine.run bound) compaction s n g = some (.ok r, g₁)) :
      g₁.Trail compaction s n r.node ∧ g₁.Tidy ∧ g₁.Resting := by
    obtain ⟨_, step, tidy₁, -⟩ :=
      balanced_constructive.residual compaction s n _ keeps _ tidy _ _ ends
    exact ⟨Parse.residualFrom_trail tidy rest ends, tidy₁, step.resting rest tidy₁⟩
  cases aim with
  | residual =>
    obtain ⟨r, g₁, leaves, ends⟩ := RunOf.bind_ok ends
    cases ends
    exact ⟨r.node, (left leaves).1, rfl⟩
  | recognize =>
    obtain ⟨_, _, recognizes, ends⟩ := RunOf.bind_ok ends
    cases ends
    obtain ⟨r, g₁, leaves, ends⟩ := RunOf.bind_ok recognizes
    obtain ⟨accepted, g₂, asks, ends⟩ := RunOf.bind_ok ends
    rw [RunOf.update_bind] at ends
    cases ends
    obtain ⟨trail, tidy₁, rest₁⟩ := left leaves
    obtain ⟨_, later, tidy₂, -⟩ := keeps (.nullable r.node) _ tidy₁ _ _ asks
    have recorded : Recorded g₂ r.node .recognize accepted :=
      Engine.ask_stored (i := .nullable) rest₁ asks
    exact ⟨r.node, (trail.mono later).mono (tidy₂.journal _).1, recorded.mono (tidy₂.journal _).1⟩
  | parse =>
    obtain ⟨_, _, parses, ends⟩ := RunOf.bind_ok ends
    cases ends
    obtain ⟨r, g₁, leaves, ends⟩ := RunOf.bind_ok parses
    obtain ⟨ws, g₂, asks, ends⟩ := RunOf.bind_ok ends
    obtain ⟨witnesses, g₃, gives, ends⟩ := RunOf.bind_ok ends
    rw [RunOf.update_bind] at ends
    cases ends
    obtain ⟨same, rfl⟩ := Prod.mk.inj (Option.some.inj gives)
    obtain ⟨trail, tidy₁, rest₁⟩ := left leaves
    obtain ⟨_, later, tidy₂, -⟩ := keeps (.forest r.node) _ tidy₁ _ _ asks
    have recorded : Recorded g₂ r.node .parse witnesses :=
      ⟨ws, Engine.ask_stored (i := .forest) rest₁ asks, same⟩
    exact ⟨r.node, (trail.mono later).mono (tidy₂.journal _).1, recorded.mono (tidy₂.journal _).1⟩

end Aim

namespace Session

/-- The session gives the answer about the sentence at `n`, with a journal or without, and goes on
as `σ'`. -/
def Answers (compaction : Bool) (s : List Value) (n : NodeId) (aim : Aim) (σ : Session)
    (v : aim.Answer) (σ' : Session) : Prop :=
  ∃ bound log journal, journaled log (aim.run (Engine.run bound) compaction s n) σ =
    some (.ok (v, journal), σ')

variable {σ σ₁ σ₂ σ₃ σ' : Session} {compaction : Bool} {s s' t : List Value} {n mid : NodeId}
  {aim : Aim} {v v' : aim.Answer}

theorem Answers.trail (answers : σ.Answers compaction s n aim v σ') (rest : σ.Resting) :
    σ'.Resting ∧ σ.graph.Balanced σ'.graph ∧
      ∃ m, σ'.graph.Trail compaction s n m ∧ Aim.Recorded σ'.graph m aim v := by
  obtain ⟨bound, log, journal, ends⟩ := answers
  have keeps := aim.assembled compaction s n _ balanced_constructive (Engine.run bound)
    (Engine.run_balances bound).keeps
  have rest' := Rests.journaled log keeps _ _ _ rest ends
  rw [journaled_eq] at ends
  obtain ⟨⟨ended, g⟩, ran, same⟩ := Option.map_eq_some_iff.mp ends
  cases ended with
  | error fault => cases same
  | ok v' =>
    cases same
    obtain ⟨opened, tidy⟩ := rest.tidy.journal (log.map fun level => { level })
    obtain ⟨_, step, tidy', -⟩ := keeps _ tidy _ _ ran
    obtain ⟨m, trail, recorded⟩ := Aim.run_trail tidy (opened.resting rest.graph tidy) ran
    have closed := (tidy'.journal none).1
    exact ⟨rest', (opened.trans step).trans closed, m, trail.mono closed, recorded.mono closed⟩

end Session

end GrammarGraph
