import GrammarGraph.Proofs.Regime.Demand
import GrammarGraph.Proofs.Regime.Ending

/-! The five evaluators of the engine, as one family: each has its own evaluation in the
graph, a default, and a rule for one node. -/
namespace GrammarGraph

inductive Evaluator where
  | forest
  | nullable
  | emptyLike
  | epsLike
  | compact
deriving DecidableEq

namespace Evaluator

@[reducible]
def Result : Evaluator → Type
  | .forest => Forest
  | .nullable | .emptyLike | .epsLike => Bool
  | .compact => NodeId

def held : (i : Evaluator) → Held Graph (Evaluation i.Result)
  | .forest => .forests
  | .nullable => .nullable
  | .emptyLike => .emptyLike
  | .epsLike => .epsLike
  | .compact => .compacted

def default : (i : Evaluator) → NodeId → Run i.Result
  | .forest, _ => pure []
  | .nullable, _ | .emptyLike, _ => pure false
  | .epsLike, _ => pure true
  | .compact, n => pure n

def body (ask : Ask) : (i : Evaluator) → NodeId → Run i.Result
  | .forest, n => Extraction.forest ask n
  | .nullable, n => Emptiness.nullable ask n
  | .emptyLike, n => Emptiness.emptyLike ask n
  | .epsLike, n => Emptiness.epsLike ask n
  | .compact, n => Compaction.compact ask n

def ask (ask : Ask) : (i : Evaluator) → NodeId → Run i.Result
  | .forest, n => ask.forest n
  | .nullable, n => ask.nullable n
  | .emptyLike, n => ask.emptyLike n
  | .epsLike, n => ask.epsLike n
  | .compact, n => ask.compact n

/-- What the graph holds for the evaluator. -/
def of (i : Evaluator) (g : Graph) : Evaluation i.Result :=
  i.held.get g

variable {i j : Evaluator} {g : Graph}

@[simp] theorem of_modify (f : Evaluation i.Result → Evaluation i.Result) :
    i.of (i.held.modify f g) = f (i.of g) := by
  cases i <;> rfl

theorem of_modify_of_ne (f : Evaluation i.Result → Evaluation i.Result) (other : j ≠ i) :
    j.of (i.held.modify f g) = j.of g := by
  cases i <;> cases j <;> first | rfl | exact absurd rfl other

@[simp] theorem nodes_modify (f : Evaluation i.Result → Evaluation i.Result) :
    (i.held.modify f g).nodes = g.nodes := by
  cases i <;> rfl

@[simp] theorem cells_modify (f : Evaluation i.Result → Evaluation i.Result) :
    (i.held.modify f g).cells = g.cells := by
  cases i <;> rfl

@[simp] theorem derivatives_modify (f : Evaluation i.Result → Evaluation i.Result) :
    (i.held.modify f g).derivatives = g.derivatives := by
  cases i <;> rfl

theorem evolves_modify (f : Evaluation i.Result → Evaluation i.Result) :
    g.Evolves (i.held.modify f g) :=
  g.evolves_of_eq (by simp) (by simp)

theorem isForcing_modify (f : Evaluation i.Result → Evaluation i.Result) (cell : CellId) :
    (i.held.modify f g).isForcing cell = g.isForcing cell := by
  simp [Graph.isForcing]

@[simp] theorem of_addNode (node : Node) : i.of (g.addNode node) = i.of g := by
  cases i <;> rfl

@[simp] theorem of_addCell (s : Suspension) : i.of (g.addCell s) = i.of g := by
  cases i <;> rfl

@[simp] theorem of_setForcing (cell : CellId) (mark : Bool) :
    i.of (g.setForcing cell mark) = i.of g := by
  cases i <;> rfl

@[simp] theorem of_setSlot (n : NodeId) (side : Side) (y : Slot) :
    i.of (g.setSlot n side y) = i.of g := by
  cases i <;> rfl

@[simp] theorem of_derivatives (f : Memo NodeId → Memo NodeId) :
    i.of (Held.derivatives.modify f g) = i.of g := by
  cases i <;> rfl

theorem of_bind (x : String) (n : NodeId) : i.of (g.bind x n) = i.of g := by
  cases i <;> rfl

theorem of_journal (journal : Option Journal) : i.of { g with journal } = i.of g := by
  cases i <;> rfl

/-- What was known of a node that becomes another is forgotten. -/
theorem of_become (n other : NodeId) : i.of (g.become n other) = (i.of g).forget n := by
  cases i <;> rfl

end Evaluator

/-- The derivatives that are found once another is recorded. -/
theorem Graph.find?_recorded (g : Graph) (n : NodeId) (c : Value) (d : NodeId) (k : NodeId)
    (c' : Value) :
    (Held.derivatives.modify (Memo.finish n c d)
      (Held.derivatives.modify (Memo.stop n c) g)).derivatives.find? k c' =
        if k = n ∧ c.same c' = true then some d else g.derivatives.find? k c' :=
  Memo.find?_finish

namespace Evaluation

variable {σ α : Type} {held : Held σ (Evaluation α)} {default body : RunOf σ α} {n m : Nat}
  {v : α} {e : Evaluation α} {s s' : σ}

@[simp] theorem frames_enter : (e.enter n).frames = e.frames.push ⟨e.frames.size, []⟩ := rfl

@[simp] theorem frames_leave : (e.leave n).frames = e.frames.pop := rfl

@[simp] theorem frames_store : (e.store n v).frames = e.frames := rfl

theorem active_enter :
    (e.enter n).active.get? m = if m = n then some e.frames.size else e.active.get? m :=
  Table.get?_insert _ _ _ _

theorem active_leave :
    (e.leave n).active.get? m = if m = n then none else e.active.get? m :=
  Table.get?_erase _ _ _

theorem stored_store :
    (e.store n v).stored.get? m = if m = n then some v else e.stored.get? m :=
  Table.get?_insert _ _ _ _

theorem stored_forget :
    (e.forget n).stored.get? m = if m = n then none else e.stored.get? m :=
  Table.get?_erase _ _ _

/-- The innermost frame leaned on nothing. -/
theorem lowlink_of_frames {frames : Array Frame} (h : e.frames = frames.push ⟨frames.size, []⟩) :
    e.lowlink = frames.size := by
  simp [lowlink, h]

/-- With the innermost frame nothing expires. -/
theorem provisional_leave {frames : Array Frame}
    (h : e.frames = frames.push ⟨frames.size, []⟩) : (e.leave n).provisional = e.provisional := by
  simp [leave, pending, h]

theorem demand_stored (stored : (held.get s).stored.get? n = some v) :
    demand held default body n s = some (.ok v, s) := by
  unfold demand
  rw [RunOf.read_bind]
  simp only [standing, stored]
  rfl

/-- A value that leaned on nothing unfinished is stored. -/
theorem demand_fresh (stored : (held.get s).stored.get? n = none)
    (active : (held.get s).active.get? n = none)
    (provisional : (held.get s).provisional.get? n = none)
    (computed : body (held.modify (enter n) s) = some (.ok v, s'))
    (lowlink : (held.get s').lowlink = (held.get s).frames.size) :
    demand held default body n s =
      some (.ok v, held.modify (store n v) (held.modify (leave n) s')) := by
  unfold demand
  rw [RunOf.read_bind]
  simp only [standing, stored, active, provisional]
  rw [RunOf.update_bind, RunOf.bind_run]
  simp only [RunOf.outcome, computed, Option.map_some, Option.bind_some]
  rw [RunOf.read_bind, lowlink, RunOf.update_bind, RunOf.ok_bind]
  simp only [Nat.lt_irrefl, if_false]
  rfl

end Evaluation

namespace Regime.Ends

variable {γ : Type} {R : Regime γ} {x : γ} {g : Graph} {i : Evaluator} {n : NodeId}

/-- An evaluator is asked by way of its rule. -/
theorem evaluator {Q : γ → Graph → i.Result → Prop}
    (h : R.Ends x g (fun ask => Evaluation.demand i.held (i.default n) (i.body ask n) n) Q) :
    R.Ends x g (fun ask => i.ask ask n) Q := by
  cases i <;> exact .answer h

theorem either {a b : Ask → Run Bool} {S : γ → Graph → Bool → Prop}
    (ha : R.Ends x g a fun x' g' answer => (answer = true → S x' g' true) ∧
      (answer = false → R.Ends x' g' b S)) :
    R.Ends x g (fun ask => Run.either (a ask) (b ask)) S := by
  refine bind ha fun x' g' answer later valid h => ?_
  cases answer with
  | true => exact pure valid (h.1 rfl)
  | false => exact h.2 rfl

theorem both {a b : Ask → Run Bool} {S : γ → Graph → Bool → Prop}
    (ha : R.Ends x g a fun x' g' answer => (answer = false → S x' g' false) ∧
      (answer = true → R.Ends x' g' b S)) :
    R.Ends x g (fun ask => Run.both (a ask) (b ask)) S := by
  refine bind ha fun x' g' answer later valid h => ?_
  cases answer with
  | true => exact h.2 rfl
  | false => exact pure valid (h.1 rfl)

section Connectives

variable {a b : Ask → Run Bool}

/-- A disjunction of what two answers decide. -/
theorem either_iff {p q : Prop}
    (ha : R.Ends x g a fun x' g' r => (r = true ↔ p) ∧ R.Ends x' g' b fun _ _ r => r = true ↔ q) :
    R.Ends x g (fun ask => Run.either (a ask) (b ask)) fun _ _ r => r = true ↔ p ∨ q := by
  refine .either (.imp ha fun _ _ r _ _ ⟨first, hb⟩ => ?_)
  refine ⟨fun yes => iff_of_true rfl (.inl (first.mp yes)), fun no => .imp hb ?_⟩
  intro _ _ r' _ _ second
  have no : ¬ p := fun hp => by simp [first.mpr hp] at no
  exact second.trans (or_iff_right no).symm

/-- A conjunction of what two answers decide. -/
theorem both_iff {p q : Prop}
    (ha : R.Ends x g a fun x' g' r => (r = true ↔ p) ∧ R.Ends x' g' b fun _ _ r => r = true ↔ q) :
    R.Ends x g (fun ask => Run.both (a ask) (b ask)) fun _ _ r => r = true ↔ p ∧ q := by
  refine .both (.imp ha fun _ _ r _ _ ⟨first, hb⟩ => ?_)
  refine ⟨fun no => ?_, fun yes => .imp hb fun _ _ r' _ _ second => ?_⟩
  · exact iff_of_false Bool.false_ne_true fun hp => by simp [first.mpr hp.1] at no
  · exact second.trans (and_iff_right (first.mp yes)).symm

theorem either_eq {p q : Bool}
    (ha : R.Ends x g a fun x' g' r => r = p ∧ R.Ends x' g' b fun _ _ r => r = q) :
    R.Ends x g (fun ask => Run.either (a ask) (b ask)) fun _ _ r => r = (p || q) := by
  refine .either (.imp ha ?_)
  rintro _ _ r - - ⟨rfl, hb⟩
  exact ⟨fun yes => by rw [yes, Bool.true_or], fun no => by rw [no, Bool.false_or]; exact hb⟩

theorem both_eq {p q : Bool}
    (ha : R.Ends x g a fun x' g' r => r = p ∧ R.Ends x' g' b fun _ _ r => r = q) :
    R.Ends x g (fun ask => Run.both (a ask) (b ask)) fun _ _ r => r = (p && q) := by
  refine .both (.imp ha ?_)
  rintro _ _ r - - ⟨rfl, hb⟩
  exact ⟨fun no => by rw [no, Bool.false_and], fun yes => by rw [yes, Bool.true_and]; exact hb⟩

end Connectives

end Regime.Ends

end GrammarGraph
