import Mathlib.Computability.Language
import Mathlib.Order.CompletePartialOrder
import Mathlib.Order.ConditionallyCompleteLattice.Basic
import GrammarGraph.Proofs.Derivation

/-! Languages of values: what follows a symbol, when the empty sentence belongs to a
language, when none does and when at most the empty one. -/
namespace GrammarGraph

open Computability

/-- A symbol matches what equals it. -/
def matching (a : Value) : Language Value :=
  {s | ∃ c, s = [c] ∧ a.same c = true}

/-- The sentences that may follow `c`. -/
def following (c : Value) (L : Language Value) : Language Value :=
  {s | c :: s ∈ L}

/-- Which of several equal symbols a sentence holds makes no difference. -/
def Fair (L : Language Value) : Prop :=
  ∀ {s t}, Alike s t → s ∈ L → t ∈ L

variable {L M : Language Value} {a c d : Value} {s : List Value}

theorem mem_matching : s ∈ matching a ↔ ∃ c, s = [c] ∧ a.same c = true := .rfl

theorem mem_following : s ∈ following c L ↔ c :: s ∈ L := .rfl

theorem mem_meet_one : s ∈ L ⊓ 1 ↔ s ∈ L ∧ s = [] := .rfl

theorem le_one_iff : L ≤ 1 ↔ ∀ s ∈ L, s = [] := .rfl

theorem eq_zero_iff : L = 0 ↔ ∀ s, s ∉ L := by
  constructor
  · rintro rfl s
    exact Language.notMem_zero s
  · intro none
    ext s
    simp [none s, Language.notMem_zero]

theorem ne_zero_iff : L ≠ 0 ↔ ∃ s, s ∈ L := by
  rw [ne_eq, eq_zero_iff, not_forall_not]

theorem nil_mem_mul : [] ∈ L * M ↔ [] ∈ L ∧ [] ∈ M := by
  rw [Language.mem_mul]
  constructor
  · rintro ⟨s, hs, t, ht, none⟩
    obtain ⟨rfl, rfl⟩ := List.append_eq_nil_iff.mp none
    exact ⟨hs, ht⟩
  · intro ⟨hs, ht⟩
    exact ⟨[], hs, [], ht, rfl⟩

theorem nil_mem_meet_one : [] ∈ L ⊓ 1 ↔ [] ∈ L :=
  mem_meet_one.trans (and_iff_left rfl)

theorem nil_not_mem_matching : [] ∉ matching a := by
  simp [mem_matching]

theorem mul_eq_zero_iff : L * M = 0 ↔ L = 0 ∨ M = 0 := by
  constructor
  · intro none
    by_contra both
    obtain ⟨hL, hM⟩ := not_or.mp both
    obtain ⟨s, hs⟩ := ne_zero_iff.mp hL
    obtain ⟨t, ht⟩ := ne_zero_iff.mp hM
    exact eq_zero_iff.mp none _ (Language.append_mem_mul hs ht)
  · rintro (rfl | rfl)
    · exact zero_mul M
    · exact mul_zero L

theorem add_eq_zero_iff : L + M = 0 ↔ L = 0 ∧ M = 0 := by
  simp only [eq_zero_iff, Language.mem_add, not_or, forall_and]

theorem meet_one_eq_zero_iff : L ⊓ 1 = 0 ↔ [] ∉ L := by
  rw [eq_zero_iff]
  constructor
  · exact fun none nil => none [] ⟨nil, rfl⟩
  · rintro none s ⟨hs, nil⟩
    obtain rfl : s = [] := nil
    exact none hs

theorem kstar_ne_zero : L∗ ≠ 0 :=
  ne_zero_iff.mpr ⟨[], Language.nil_mem_kstar L⟩

theorem one_ne_zero_language : (1 : Language Value) ≠ 0 :=
  ne_zero_iff.mpr ⟨[], Language.nil_mem_one⟩

theorem matching_ne_zero : matching a ≠ 0 :=
  ne_zero_iff.mpr ⟨[a], a, rfl, a.same_refl⟩

theorem mul_le_one (hL : L ≤ 1) (hM : M ≤ 1) : L * M ≤ 1 := by
  rintro _ ⟨s, hs, t, ht, rfl⟩
  rw [le_one_iff.mp hL s hs, le_one_iff.mp hM t ht]
  rfl

theorem le_one_of_mul (h : L * M ≤ 1) (some_ : L * M ≠ 0) : L ≤ 1 ∧ M ≤ 1 := by
  obtain ⟨hL, hM⟩ := not_or.mp (mt mul_eq_zero_iff.mpr some_)
  obtain ⟨u, hu⟩ := ne_zero_iff.mp hL
  obtain ⟨v, hv⟩ := ne_zero_iff.mp hM
  constructor
  · intro s hs
    exact (List.append_eq_nil_iff.mp (le_one_iff.mp h _ (Language.append_mem_mul hs hv))).1
  · intro t ht
    exact (List.append_eq_nil_iff.mp (le_one_iff.mp h _ (Language.append_mem_mul hu ht))).2

theorem add_le_one_iff : L + M ≤ 1 ↔ L ≤ 1 ∧ M ≤ 1 := by
  simp only [le_one_iff, Language.mem_add, or_imp, forall_and]

theorem kstar_le_one_iff : L∗ ≤ 1 ↔ L ≤ 1 := by
  constructor
  · intro h s hs
    exact le_one_iff.mp h s ⟨[s], (List.append_nil s).symm, fun t ht => List.mem_singleton.mp ht ▸ hs⟩
  · intro h s hs
    obtain ⟨ss, rfl, parts⟩ := Language.mem_kstar.mp hs
    exact List.flatten_eq_nil_iff.mpr fun t ht => le_one_iff.mp h t (parts t ht)

theorem meet_one_le_one : L ⊓ 1 ≤ 1 :=
  inf_le_right

theorem not_matching_le_one : ¬ matching a ≤ 1 := by
  intro h
  cases le_one_iff.mp h [a] ⟨a, rfl, a.same_refl⟩

theorem eq_one_of_le_one (h : L ≤ 1) (nil : [] ∈ L) : L = 1 := by
  ext s
  rw [Language.mem_one]
  constructor
  · exact le_one_iff.mp h s
  · rintro rfl
    exact nil

theorem eq_zero_of_le_one (h : L ≤ 1) (nil : [] ∉ L) : L = 0 :=
  eq_zero_iff.mpr fun s hs => nil (le_one_iff.mp h s hs ▸ hs)

theorem following_zero : following c 0 = 0 := by
  ext s
  simp [mem_following, Language.notMem_zero]

theorem following_one : following c 1 = 0 := by
  ext s
  simp [mem_following, Language.mem_one, Language.notMem_zero]

theorem following_meet_one : following c (L ⊓ 1) = 0 := by
  refine eq_zero_iff.mpr fun s hs => ?_
  cases (mem_meet_one.mp hs).2

theorem following_matching (same : a.same c = true) : following c (matching a) = 1 := by
  ext s
  simp only [mem_following, mem_matching, Language.mem_one, List.cons.injEq]
  constructor
  · rintro ⟨_, ⟨_, none⟩, _⟩
    exact none
  · rintro rfl
    exact ⟨c, ⟨rfl, rfl⟩, same⟩

theorem following_matching_ne (other : a.same c = false) : following c (matching a) = 0 := by
  ext s
  simp only [mem_following, mem_matching, Language.notMem_zero, List.cons.injEq, iff_false]
  rintro ⟨_, ⟨rfl, _⟩, same⟩
  rw [other] at same
  cases same

theorem following_add : following c (L + M) = following c L + following c M := by
  ext s
  simp only [mem_following, Language.mem_add]

/-- Either the first part takes the symbol, or it vanishes and the second takes it. -/
theorem following_mul :
    following c (L * M) = (L ⊓ 1) * following c M + following c L * M := by
  ext s
  simp only [mem_following, Language.mem_add, Language.mem_mul]
  constructor
  · rintro ⟨u, hu, v, hv, split⟩
    cases u with
    | nil => exact .inl ⟨[], ⟨hu, rfl⟩, s, split ▸ hv, rfl⟩
    | cons c' u =>
      obtain ⟨rfl, rfl⟩ := List.cons.inj split
      exact .inr ⟨u, hu, v, hv, rfl⟩
  · rintro (⟨u, ⟨hu, none⟩, v, hv, rfl⟩ | ⟨u, hu, v, hv, rfl⟩)
    · obtain rfl : u = [] := none
      exact ⟨[], hu, c :: v, hv, rfl⟩
    · exact ⟨c :: u, hu, v, hv, rfl⟩

/-- The first round of a repetition that takes a symbol takes it at its start. -/
theorem following_kstar : following c L∗ = following c L * L∗ := by
  ext s
  rw [mem_following, Language.mem_mul]
  constructor
  · intro h
    rw [Language.kstar_def_nonempty] at h
    obtain ⟨ss, split, parts⟩ := h
    cases ss with
    | nil => cases split
    | cons u ss =>
      obtain ⟨hu, some_⟩ := parts u List.mem_cons_self
      cases u with
      | nil => exact absurd rfl some_
      | cons c' u =>
        obtain ⟨rfl, rfl⟩ := List.cons.inj split
        exact ⟨u, hu, ss.flatten, Language.join_mem_kstar fun t ht =>
          (parts t (List.mem_cons_of_mem _ ht)).1, rfl⟩
  · rintro ⟨u, hu, v, hv, rfl⟩
    obtain ⟨ss, rfl, parts⟩ := Language.mem_kstar.mp hv
    refine Language.mem_kstar.mpr ⟨(c :: u) :: ss, rfl, fun t ht => ?_⟩
    rcases List.mem_cons.mp ht with rfl | ht
    · exact hu
    · exact parts t ht

theorem fair_zero : Fair 0 :=
  fun _ hs => hs.elim

theorem fair_one : Fair 1 := by
  intro s t alike hs
  obtain rfl : s = [] := hs
  exact List.map_eq_nil_iff.mp alike.symm

theorem fair_matching : Fair (matching a) := by
  rintro s t alike ⟨c, rfl, same⟩
  obtain ⟨d, rfl, equal⟩ := List.map_eq_singleton_iff.mp alike.symm
  exact ⟨d, rfl, Value.same_trans same ((Value.same_iff c d).mpr equal.symm)⟩

theorem Fair.mul (hL : Fair L) (hM : Fair M) : Fair (L * M) := by
  rintro s t alike ⟨u, hu, v, hv, rfl⟩
  obtain ⟨u', v', rfl, first, second⟩ := List.map_eq_append_iff.mp (alike.symm.trans List.map_append)
  exact Language.append_mem_mul (hL first.symm hu) (hM second.symm hv)

theorem Fair.add (hL : Fair L) (hM : Fair M) : Fair (L + M) :=
  fun alike hs => hs.imp (hL alike) (hM alike)

theorem Fair.meet_one (hL : Fair L) : Fair (L ⊓ 1) :=
  fun alike hs => ⟨hL alike hs.1, fair_one alike hs.2⟩

theorem Fair.kstar (hL : Fair L) : Fair L∗ := by
  intro s t alike hs
  obtain ⟨ss, rfl, parts⟩ := Language.mem_kstar.mp hs
  clear hs
  induction ss generalizing t with
  | nil =>
    rw [List.map_eq_nil_iff.mp alike.symm]
    exact Language.nil_mem_kstar L
  | cons u ss ih =>
    obtain ⟨u', v', rfl, first, second⟩ :=
      List.map_eq_append_iff.mp (alike.symm.trans List.map_append)
    rw [← Language.one_add_self_mul_kstar_eq_kstar]
    exact .inr (Language.append_mem_mul (hL first.symm (parts u List.mem_cons_self))
      (ih (fun t ht => parts t (List.mem_cons_of_mem _ ht)) second.symm))

theorem Alike.cons {s t : List Value} (same : c.same d = true) (alike : Alike s t) :
    Alike (c :: s) (d :: t) := by
  rw [Alike, List.map_cons, List.map_cons, (Value.same_iff c d).mp same, alike]

theorem Fair.following (hL : Fair L) : Fair (following c L) :=
  fun alike hs => hL (alike.cons c.same_refl) hs

/-- Equal symbols are followed by the same sentences. -/
theorem Fair.following_congr (hL : Fair L) (same : c.same d = true) :
    GrammarGraph.following c L = GrammarGraph.following d L := by
  ext s
  exact ⟨hL (Alike.cons same rfl), hL (Alike.cons (Value.same_symm same) rfl)⟩

end GrammarGraph
