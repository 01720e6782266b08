import GrammarGraph.Forest
import GrammarGraph.Value.Equality

/-! What `distinct` keeps: members of the list only, no two of them equal, and one for
each member of the list. -/
namespace GrammarGraph.Forest

/-- No two witnesses are equal. -/
def Distinct (forest : Forest) : Prop :=
  forest.Pairwise fun a b => a.same b = false

/-- A list of witnesses that is a forest: each can be a member, and no two are equal. -/
structure Reduced (forest : Forest) : Prop where
  distinct : Distinct forest
  hashable : ∀ w ∈ forest, w.hashable = true

theorem mem_insert {forest : Forest} {v w : Value} (h : v ∈ insert forest w) :
    v ∈ forest ∨ v = w := by
  unfold insert at h
  split at h
  · exact .inl h
  · simpa using h

theorem subset_insert (forest : Forest) (w : Value) : forest ⊆ insert forest w := by
  unfold insert
  split
  · exact fun _ h => h
  · exact List.subset_append_left _ _

theorem exists_same_insert (forest : Forest) (w : Value) :
    ∃ v ∈ insert forest w, v.same w = true := by
  unfold insert
  split
  · next h => simpa using h
  · exact ⟨w, by simp, w.same_refl⟩

theorem insert_distinct {forest : Forest} (w : Value) (h : Distinct forest) :
    Distinct (insert forest w) := by
  unfold insert
  split
  · exact h
  · next fresh =>
    refine List.pairwise_append.mpr ⟨h, by simp, fun a member b last => ?_⟩
    cases List.mem_singleton.mp last
    simp only [List.any_eq_true, not_exists, not_and, Bool.not_eq_true] at fresh
    exact fresh a member

theorem foldl_insert_distinct (ws : List Value) :
    ∀ {forest : Forest}, Distinct forest → Distinct (ws.foldl insert forest) := by
  induction ws with
  | nil => exact fun h => h
  | cons w ws ih => exact fun h => ih (insert_distinct w h)

theorem mem_foldl_insert {v : Value} (ws : List Value) :
    ∀ {forest : Forest}, v ∈ ws.foldl insert forest → v ∈ forest ∨ v ∈ ws := by
  induction ws with
  | nil => exact fun h => .inl h
  | cons w ws ih =>
    intro forest h
    rcases ih h with known | later
    · rcases mem_insert known with old | rfl
      · exact .inl old
      · exact .inr (by simp)
    · exact .inr (by simp [later])

theorem subset_foldl_insert (ws : List Value) :
    ∀ forest : Forest, forest ⊆ ws.foldl insert forest := by
  induction ws with
  | nil => exact fun _ _ h => h
  | cons w ws ih => exact fun forest _ h => ih (insert forest w) (subset_insert forest w h)

theorem exists_same_foldl_insert {w : Value} (ws : List Value) (member : w ∈ ws) :
    ∀ forest : Forest, ∃ v ∈ ws.foldl insert forest, v.same w = true := by
  induction ws with
  | nil => cases member
  | cons u ws ih =>
    intro forest
    rcases List.mem_cons.mp member with rfl | later
    · obtain ⟨v, inserted, equal⟩ := exists_same_insert forest w
      exact ⟨v, subset_foldl_insert ws _ inserted, equal⟩
    · exact ih later (insert forest u)

theorem distinct_distinct (ws : List Value) : Distinct (distinct ws) :=
  foldl_insert_distinct ws List.Pairwise.nil

theorem mem_of_mem_distinct {w : Value} {ws : List Value} (h : w ∈ distinct ws) : w ∈ ws := by
  rcases mem_foldl_insert ws h with none | member
  · cases none
  · exact member

theorem reduced_distinct {ws : List Value} (hashable : ∀ w ∈ ws, w.hashable = true) :
    Reduced (distinct ws) :=
  ⟨distinct_distinct ws, fun w member => hashable w (mem_of_mem_distinct member)⟩

theorem exists_same_distinct {w : Value} {ws : List Value} (h : w ∈ ws) :
    ∃ v ∈ distinct ws, v.same w = true :=
  exists_same_foldl_insert ws h []

end GrammarGraph.Forest
