import GrammarGraph.Value

/-! Equality of values is an equivalence: `same` compares the representatives that
`numeric` gives. Equal values are both hashable or both not. -/
namespace GrammarGraph.Value

mutual

theorem same_iff : ∀ a b : Value, same a b = true ↔ numeric a = numeric b := by
  intro a b
  cases a <;> cases b <;>
    simp [same, numeric, number?, sameAll_iff]

theorem sameAll_iff : ∀ as bs : List Value,
    sameAll as bs = true ↔ numericAll as = numericAll bs := by
  intro as bs
  cases as <;> cases bs <;> simp [sameAll, numericAll, same_iff, sameAll_iff]

end

@[simp] theorem same_refl (a : Value) : same a a = true := (same_iff a a).mpr rfl

theorem same_symm {a b : Value} (h : same a b = true) : same b a = true :=
  (same_iff b a).mpr ((same_iff a b).mp h).symm

theorem same_trans {a b c : Value} (h : same a b = true) (k : same b c = true) :
    same a c = true :=
  (same_iff a c).mpr (((same_iff a b).mp h).trans ((same_iff b c).mp k))

mutual

theorem numeric_numeric : ∀ a : Value, a.numeric.numeric = a.numeric := by
  intro a
  cases a <;> simp [numeric, numericAll_numericAll]

theorem numericAll_numericAll : ∀ as : List Value,
    numericAll (numericAll as) = numericAll as := by
  intro as
  cases as <;> simp [numericAll, numeric_numeric, numericAll_numericAll]

end

/-- A value is equal to its representative. -/
theorem same_numeric (a : Value) : same a a.numeric = true :=
  (same_iff a a.numeric).mpr a.numeric_numeric.symm

mutual

theorem hashable_numeric : ∀ a : Value, hashable (numeric a) = hashable a := by
  intro a
  cases a <;> simp [numeric, hashable, hashableAll_numericAll]

theorem hashableAll_numericAll : ∀ as : List Value,
    hashableAll (numericAll as) = hashableAll as := by
  intro as
  cases as <;> simp [numericAll, hashableAll, hashable_numeric, hashableAll_numericAll]

end

theorem hashable_eq_of_same {a b : Value} (h : same a b = true) : hashable a = hashable b := by
  rw [← hashable_numeric a, (same_iff a b).mp h, hashable_numeric]

theorem isNothing_iff (a : Value) : a.isNothing = true ↔ a = nothing := by
  unfold isNothing
  split <;> simp_all

end GrammarGraph.Value
