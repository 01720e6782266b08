/-! Tables over small numbers, such as the numbers of nodes. -/
namespace GrammarGraph

structure Table (α : Type) where
  entries : Array (Option α) := #[]
deriving Inhabited

namespace Table

def get? (t : Table α) (n : Nat) : Option α :=
  t.entries[n]?.join

def has (t : Table α) (n : Nat) : Bool :=
  (t.get? n).isSome

def insert (t : Table α) (n : Nat) (a : α) : Table α :=
  let room := n + 1 - t.entries.size
  ⟨(t.entries ++ Array.replicate room none).setIfInBounds n (some a)⟩

def erase (t : Table α) (n : Nat) : Table α :=
  ⟨t.entries.setIfInBounds n none⟩

@[simp] theorem get?_empty (n : Nat) : ({} : Table α).get? n = none := by simp [get?]

theorem get?_insert (t : Table α) (n m : Nat) (a : α) :
    (t.insert n a).get? m = if m = n then some a else t.get? m := by
  simp only [get?, insert, Array.getElem?_setIfInBounds, Array.size_append, Array.size_replicate]
  by_cases same : n = m
  · subst same
    have : n < t.entries.size + (n + 1 - t.entries.size) := by omega
    simp [this]
  · have other : m ≠ n := fun h => same h.symm
    simp only [same, if_false, other, Array.getElem?_append, Array.getElem?_replicate]
    split
    · rfl
    · split <;> simp_all

theorem get?_erase (t : Table α) (n m : Nat) :
    (t.erase n).get? m = if m = n then none else t.get? m := by
  simp only [get?, erase, Array.getElem?_setIfInBounds]
  by_cases same : n = m
  · subst same
    by_cases h : n < t.entries.size <;> simp [h]
  · have other : m ≠ n := fun h => same h.symm
    simp [same, other]

end Table

end GrammarGraph
