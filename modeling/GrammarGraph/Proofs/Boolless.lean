import GrammarGraph.Proofs.Totality

/-! Values without truth values: those that are equal are the same, and a forest of them is a
set of witnesses in order. -/
namespace GrammarGraph

namespace Value

mutual

/-- No truth value occurs. -/
def boolless : Value → Bool
  | .bool _ => false
  | .tuple items | .list items => boollessAll items
  | _ => true

def boollessAll : List Value → Bool
  | [] => true
  | v :: vs => boolless v && boollessAll vs

end

mutual

theorem numeric_of_boolless : ∀ {v : Value}, v.boolless = true → v.numeric = v := by
  intro v h
  cases v with
  | bool => cases h
  | tuple items | list items =>
    simp only [boolless] at h
    simp [numeric, numericAll_of_boolless h]
  | _ => rfl

theorem numericAll_of_boolless : ∀ {vs : List Value}, boollessAll vs = true →
    numericAll vs = vs := by
  intro vs h
  cases vs with
  | nil => rfl
  | cons v vs =>
    simp only [boollessAll, Bool.and_eq_true] at h
    simp [numericAll, numeric_of_boolless h.1, numericAll_of_boolless h.2]

end

theorem eq_of_same {v w : Value} (hv : v.boolless = true) (hw : w.boolless = true)
    (same : v.same w = true) : v = w := by
  rw [← numeric_of_boolless hv, ← numeric_of_boolless hw]
  exact (same_iff v w).mp same

theorem boollessAll_iff {vs : List Value} :
    boollessAll vs = true ↔ ∀ v ∈ vs, v.boolless = true := by
  induction vs with
  | nil => simp [boollessAll]
  | cons v vs ih => simp [boollessAll, ih]

/-- A value that can be a witness and holds no truth value. -/
def Plain (v : Value) : Prop :=
  v.hashable = true ∧ v.boolless = true

theorem boolless_closed : Forest.Closed fun v => v.boolless = true :=
  .of_tuple boollessAll_iff

theorem plain_closed : Forest.Closed Plain :=
  ⟨⟨rfl, rfl⟩, fun hu hv =>
    ⟨Forest.hashable_closed.cons hu.1 hv.1, boolless_closed.cons hu.2 hv.2⟩⟩

end Value

/-- Of equal values without truth values none is left out. -/
theorem Forest.mem_distinct {ws : List Value} {w : Value}
    (boolless : ∀ v ∈ ws, v.boolless = true) : w ∈ distinct ws ↔ w ∈ ws := by
  refine ⟨mem_of_mem_distinct, fun member => ?_⟩
  obtain ⟨v, kept, same⟩ := exists_same_distinct member
  rwa [← Value.eq_of_same (boolless v (mem_of_mem_distinct kept)) (boolless w member) same]

end GrammarGraph
