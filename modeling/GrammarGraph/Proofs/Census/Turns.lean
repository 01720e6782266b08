import GrammarGraph.Proofs.Census.Making
import GrammarGraph.Proofs.Exactness.Shapes
import GrammarGraph.Proofs.Gauge.Turns

/-! Turns of a census. A computation has a turn, given by the level of what it is about and by
which computation it is. What it asks for as a whole has an earlier turn, and what is in progress
has its own turn or a later one. -/
namespace GrammarGraph

def Visit.turn (visit : Visit) : Nat :=
  8 * visit.level + visit.evaluator.index

namespace Census

variable {C : Finset Value} {roots : Finset NodeId} {visit : Option Visit} {own : Origin → Prop}
  {x x' x₁ : Census} {g g' g₁ : Graph} {t t' : Nat} {c : Value} {n k : NodeId} {side : Side}

/-- What is in progress has turn `t` or a later one. -/
structure Busy (x : Census) (g : Graph) (t : Nat) : Prop where
  forcing : ∀ {cell s}, g.isForcing cell = true → g.suspension? cell = some s →
    t ≤ 8 * x.level s.source + 7
  started : ∀ {n c}, (n, c) ∈ g.derivatives.inProgress →
    n < g.nodes.size ∧ t ≤ 8 * x.level n + 1
  active : ∀ i {n d}, (Evaluator.of i g).active.get? n = some d →
    n < g.nodes.size ∧ t ≤ 8 * x.level n + i.index
  provisional : ∀ i {n p}, (Evaluator.of i g).provisional.get? n = some p →
    n < g.nodes.size ∧ t ≤ 8 * x.level n + i.index

theorem Busy.mono (h : Busy x g t) (le : t' ≤ t) : Busy x g t' :=
  ⟨fun held suspended => Nat.le_trans le (h.forcing held suspended),
    fun member => (h.started member).imp_right (Nat.le_trans le),
    fun i _ _ known => (h.active i known).imp_right (Nat.le_trans le),
    fun i _ _ known => (h.provisional i known).imp_right (Nat.le_trans le)⟩

theorem Later.busy (later : Later visit own x g x' g') (valid : Valid C roots visit x g)
    (valid' : Valid C roots visit x' g') (turn : ∀ v, visit = some v → t ≤ v.turn)
    (h : Busy x g t) : Busy x' g' t where
  forcing {cell s} held suspended := by
    rw [later.forcing] at held
    obtain ⟨s', suspended'⟩ := Graph.exists_suspension held
    have same := later.evolves.suspension cell (Graph.lt_of_suspension suspended')
    obtain rfl : s' = s := Option.some.inj (suspended'.symm.trans (same.symm.trans suspended))
    rw [later.level _ (valid.counted.source_lt suspended')]
    exact h.forcing held suspended'
  started member := by
    rw [later.started] at member
    obtain ⟨lt, le⟩ := h.started member
    exact ⟨later.lt lt, by rwa [later.level _ lt]⟩
  active i n d known := by
    rw [(later.books i).active] at known
    obtain ⟨lt, le⟩ := h.active i known
    exact ⟨later.lt lt, by rwa [later.level _ lt]⟩
  provisional i n p known := by
    by_cases mine : ∃ v, visit = some v ∧ v.evaluator = i
    · obtain ⟨v, is, rfl⟩ := mine
      obtain ⟨lt, level, -⟩ := (valid'.visit v is).provisional known
      have le : t ≤ 8 * v.level + v.evaluator.index := turn v is
      exact ⟨lt, by omega⟩
    · have base : Visit.base visit i (i.of g) = (i.of g).frames.size := by
        cases visit with
        | none => rfl
        | some v => exact if_neg fun same => mine ⟨v, rfl, same⟩
      have books := later.books i
      rw [base] at books
      rw [books.provisional_eq (valid.counted.orderly i) (valid'.counted.orderly i)] at known
      obtain ⟨lt, le⟩ := h.provisional i known
      exact ⟨later.lt lt, by rwa [later.level _ lt]⟩

/-- What has an earlier turn than `t` can be asked for as a whole and is answered. -/
structure Answers (C : Finset Value) (roots : Finset NodeId) (t : Nat) : Prop where
  child : ∀ {x g n side}, Valid C roots none x g → Busy x g t → n < g.nodes.size →
    side ∈ (g.node n).sides → 8 * x.level n ≤ t →
    (counting C roots none nothing).Ends x g (fun ask => ask.child? n side) fun x' g' child =>
      ∃ k, child = some k ∧ k < g'.nodes.size ∧ x'.level k ≤ x.level n
  derive : ∀ {x g n c}, Valid C roots none x g → Busy x g t → n < g.nodes.size →
    c.hashable = true → c.numeric ∈ C → 8 * x.level n + 1 < t →
    (counting C roots none nothing).Ends x g (fun ask => ask.derive c n) fun x' g' d =>
      d < g'.nodes.size ∧ x'.level d ≤ x.level n + 1
  evaluate : ∀ i {x g n}, Valid C roots none x g → Busy x g t → n < g.nodes.size →
    8 * x.level n + i.index < t →
    (counting C roots none nothing).Ends x g (fun ask => i.ask ask n) fun x' g' r =>
      x'.Fits g' (x.level n) i r ∧ (i.of g').stored.get? n = some r

theorem Valid.whole (h : Valid C roots visit x g) : Valid C roots none x g :=
  ⟨h.counted, h.complete, fun _ is => nomatch is⟩

theorem Valid.ends {α : Type} {r : Ask → Run α} {Q : Census → Graph → α → Prop}
    (h : Valid C roots visit x g) (ends : (counting C roots none nothing).Ends x g r Q) :
    (counting C roots visit own).Ends x g r fun x' g' a => Later none nothing x g x' g' ∧ Q x' g' a :=
  let ⟨a, g', gives, x', later, valid, q⟩ := ends
  ⟨a, g', gives, x', later.loosen, h.later later valid.counted valid.complete, later, q⟩

/-- A computation about `n` with turn `t`, perhaps in a visit. -/
structure Turn (C : Finset Value) (roots : Finset NodeId) (visit : Option Visit) (t : Nat)
    (x : Census) (g : Graph) (n : NodeId) : Prop where
  valid : Valid C roots visit x g
  busy : Busy x g t
  lt : n < g.nodes.size
  above : 8 * x.level n < t
  visit : ∀ v, visit = some v → t ≤ v.turn

namespace Turn

variable (h : Turn C roots visit t x g n) (lower : Answers C roots t)
include h

theorem later (later : Later visit own x g x₁ g₁) (valid : Valid C roots visit x₁ g₁) :
    Turn C roots visit t x₁ g₁ n :=
  ⟨valid, later.busy h.valid valid h.visit h.busy, later.lt h.lt,
    by rw [later.level n h.lt]; exact h.above, h.visit⟩

include lower

theorem child? (member : side ∈ (g.node n).sides) :
    (counting C roots visit own).Ends x g (fun ask => ask.child? n side) fun x' g' child =>
      Later none nothing x g x' g' ∧ ∃ k, child = some k ∧ k < g'.nodes.size ∧
        x'.level k ≤ x.level n ∧ (g'.node n).slot side = .node k := by
  refine .imp (h.valid.ends
    (lower.child h.valid.whole h.busy h.lt member (Nat.le_of_lt h.above)).gives) ?_
  rintro x' g' _ - - ⟨step, gives, k, rfl, lt, low⟩
  exact ⟨step, k, rfl, lt, low, gives.slot (step.lt h.lt)⟩

theorem child (member : side ∈ (g.node n).sides) :
    (counting C roots visit own).Ends x g (fun ask => ask.child n side) fun x' g' k =>
      Later none nothing x g x' g' ∧ k < g'.nodes.size ∧ x'.level k ≤ x.level n ∧
        (g'.node n).slot side = .node k := by
  refine .bind (h.child? lower member) ?_
  rintro x₂ g₂ _ - valid ⟨step, k, rfl, below⟩
  exact .pure valid ⟨step, below⟩

/-- What comes before the evaluator of the turn can be evaluated at a node on the level. -/
theorem evaluate (i : Evaluator) (lt : k < g.nodes.size) (below : 8 * x.level k + i.index < t) :
    (counting C roots visit own).Ends x g (fun ask => i.ask ask k) fun x' g' r =>
      Later none nothing x g x' g' ∧ x'.Fits g' (x.level k) i r ∧
        (i.of g').stored.get? k = some r :=
  h.valid.ends (lower.evaluate i h.valid.whole h.busy lt below)

end Turn

end Census

end GrammarGraph
