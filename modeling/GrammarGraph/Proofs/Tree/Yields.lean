import GrammarGraph.Proofs.Meaning
import GrammarGraph.Proofs.Tree

/-! Derivations from trees. A derivative yields what follows its symbol. Compaction never makes
a witness, but it can lose some: where forests are paired position by position, not every pair
of witnesses is kept. -/
namespace GrammarGraph

namespace Rounds

variable {ω : Type} {A : Worth ω} {P : List Value → ω → Prop} {c : Value} {s : List Value} {w : ω}

theorem nil_iff : Rounds A P [] w ↔ w = A.nothing := by
  constructor
  · intro h
    generalize none : ([] : List Value) = s at h
    cases h with
    | none => rfl
    | more => cases none
  · rintro rfl
    exact .none

theorem cons_iff : Rounds A P (c :: s) w ↔
    ∃ p q u v, s = p ++ q ∧ w = A.pair u v ∧ P (c :: p) u ∧ Rounds A P q v := by
  constructor
  · intro h
    generalize some_ : c :: s = t at h
    cases h with
    | none => cases some_
    | more first rest =>
      cases some_
      exact ⟨_, _, _, _, rfl, rfl, first, rest⟩
  · rintro ⟨p, q, u, v, rfl, rfl, first, rest⟩
    exact .more first rest

end Rounds

namespace Tree

/-- The sentence has a derivation with the witness. -/
def Yields : Tree → List Value → Value → Prop
  | .empty, _, _ => False
  | .eps ws, s, w => s = [] ∧ w ∈ ws
  | .char a, s, w => s = [w] ∧ a.same w = true
  | .alt a b, s, w => a.Yields s w ∨ b.Yields s w
  | .cat a b, s, w => ∃ p q u v, s = p ++ q ∧ w = Forest.cons u v ∧ a.Yields p u ∧ b.Yields q v
  | .rep e, s, w => Rounds .literal e.Yields s w
  | .delta e, s, w => s = [] ∧ e.Yields [] w
  | .red e t, s, w => ∃ v, e.Yields s v ∧ t.apply v = .ok w

variable {a b e a' b' : Tree} {c : Value} {s : List Value} {w : Value} {ws : Forest}

theorem yields_skipping : (skipping a b).Yields s w ↔ (cat a b).Yields s w := by
  unfold skipping
  split
  · next none => rw [eq_empty_of_isEmpty none]; simp [Yields]
  · rfl

theorem yields_taking : (taking a b).Yields s w ↔ (cat a b).Yields s w := by
  unfold taking
  split
  · next none => rw [eq_empty_of_isEmpty none]; simp [Yields]
  · rfl

theorem yields_either : (either a b).Yields s w ↔ a.Yields s w ∨ b.Yields s w := by
  unfold either
  split
  · next none => rw [eq_empty_of_isEmpty none]; simp [Yields]
  · split
    · next none => rw [eq_empty_of_isEmpty none]; simp [Yields]
    · rfl

theorem yields_vanished : e.vanished.Yields s w ↔ s = [] ∧ e.Yields [] w := by
  cases e with
  | empty | char | eps => simp [vanished, Yields]
  | _ => rfl

theorem yields_derive : (e.derive c).Yields s w ↔ e.Yields (c :: s) w := by
  induction e generalizing s w with
  | empty | eps | delta => simp [Tree.derive, Yields]
  | char a =>
    rw [Tree.derive]
    split
    · next same =>
      simp only [Yields, List.mem_singleton, List.cons.injEq]
      constructor
      · rintro ⟨rfl, rfl⟩
        exact ⟨⟨rfl, rfl⟩, same⟩
      · rintro ⟨⟨rfl, rfl⟩, -⟩
        exact ⟨rfl, rfl⟩
    · next other =>
      simp only [Yields, List.cons.injEq, false_iff]
      rintro ⟨⟨rfl, rfl⟩, same⟩
      exact other same
  | alt a b iha ihb => exact or_congr iha ihb
  | red e t ih => exact exists_congr fun v => and_congr_left fun _ => ih
  | rep e ih =>
    rw [Yields, Rounds.cons_iff]
    simp only [Tree.derive, Yields, ih]
    rfl
  | cat a b iha ihb =>
    rw [Tree.derive, yields_either, yields_skipping, yields_taking]
    simp only [Yields, yields_vanished, iha, ihb, List.cons_eq_append_iff]
    constructor
    · rintro (⟨p, q, u, v, rfl, rfl, ⟨rfl, first⟩, second⟩ | ⟨p, q, u, v, rfl, rfl, first, second⟩)
      · exact ⟨[], c :: q, u, v, .inl ⟨rfl, rfl⟩, rfl, first, second⟩
      · exact ⟨c :: p, q, u, v, .inr ⟨p, rfl, rfl⟩, rfl, first, second⟩
    · rintro ⟨p, q, u, v, ⟨rfl, rfl⟩ | ⟨p, rfl, rfl⟩, rfl, first, second⟩
      · exact .inl ⟨[], s, u, v, rfl, rfl, ⟨rfl, first⟩, second⟩
      · exact .inr ⟨p, q, u, v, rfl, rfl, first, second⟩

theorem Yields.nullable (h : e.Yields [] w) : e.nullable = true := by
  induction e generalizing w with
  | empty => exact h.elim
  | char => cases h.1
  | eps | rep => rfl
  | alt a b iha ihb =>
    rw [Tree.nullable, Bool.or_eq_true]
    exact h.imp iha ihb
  | cat a b iha ihb =>
    obtain ⟨p, q, u, v, parts, -, first, second⟩ := h
    obtain ⟨rfl, rfl⟩ := List.append_eq_nil_iff.mp parts.symm
    rw [Tree.nullable, iha first, ihb second]
    rfl
  | delta e ih => exact ih h.2
  | red e t ih => exact ih h.choose_spec.1

theorem Yields.not_emptyLike (h : e.Yields s w) : e.emptyLike = false := by
  induction e generalizing s w with
  | empty => exact h.elim
  | char | eps | rep => rfl
  | alt a b iha ihb =>
    rw [Tree.emptyLike, Bool.and_eq_false_iff]
    exact h.imp iha ihb
  | cat a b iha ihb =>
    obtain ⟨p, q, u, v, -, -, first, second⟩ := h
    rw [Tree.emptyLike, iha first, ihb second]
    rfl
  | delta e ih => rw [Tree.emptyLike, h.2.nullable]; rfl
  | red e t ih => exact ih h.choose_spec.1

theorem Yields.eq_nil (h : e.Yields s w) (settled : e.epsLike = true) : s = [] := by
  induction e generalizing s w with
  | empty => exact h.elim
  | char => cases settled
  | eps => exact h.1
  | alt a b iha ihb =>
    simp only [Tree.epsLike, Bool.and_eq_true, Bool.or_eq_true] at settled
    rcases h with first | second
    · exact iha first (settled.1.resolve_right (by simp [first.not_emptyLike]))
    · exact ihb second (settled.2.resolve_right (by simp [second.not_emptyLike]))
  | cat a b iha ihb =>
    obtain ⟨p, q, u, v, rfl, -, first, second⟩ := h
    rw [Tree.epsLike, Bool.and_eq_true] at settled
    rw [iha first settled.1, ihb second settled.2, List.append_nil]
  | rep e ih =>
    cases s with
    | nil => rfl
    | cons c s =>
      obtain ⟨p, q, u, v, -, -, first, -⟩ := Rounds.cons_iff.mp h
      rw [Tree.epsLike, Bool.or_eq_true] at settled
      cases ih first (settled.resolve_left (by simp [first.not_emptyLike]))
  | delta => exact h.1
  | red e t ih => exact ih h.choose_spec.1 settled

theorem yields_of_mem_forest (member : w ∈ e.forest) : e.Yields [] w := by
  induction e generalizing w with
  | empty | char => cases member
  | eps => exact ⟨rfl, member⟩
  | alt a b iha ihb => exact (List.mem_append.mp (Forest.mem_of_mem_distinct member)).imp iha ihb
  | cat a b iha ihb =>
    have member := Forest.mem_of_mem_distinct member
    rw [← List.map_uncurry_zip_eq_zipWith, List.mem_map] at member
    obtain ⟨⟨u, v⟩, zipped, rfl⟩ := member
    exact ⟨[], [], u, v, rfl, rfl, iha (List.of_mem_zip zipped).1, ihb (List.of_mem_zip zipped).2⟩
  | rep => exact Rounds.nil_iff.mpr (List.mem_singleton.mp member)
  | delta e ih => exact ⟨rfl, ih member⟩
  | red e t ih =>
    obtain ⟨v, among, applied⟩ := Transform.mem_results.mp (Forest.mem_of_mem_distinct member)
    exact ⟨v, ih among, applied⟩

theorem mem_forest_of_settled (settled : e.settled? = some ws) :
    e.epsLike = true ∧ e.forest = ws := by
  unfold settled? at settled
  split at settled
  · next likely => exact ⟨likely, Option.some.inj settled⟩
  · cases settled

theorem Yields.of_settled (h : (Tree.settled ws).Yields s w) : s = [] ∧ w ∈ ws := by
  unfold Tree.settled at h
  split at h
  · exact h.elim
  · exact ⟨h.1, Forest.mem_of_mem_distinct h.2⟩

theorem Yields.of_folded {rest : Tree} (h : (e.folded rest).Yields s w)
    (other : rest.Yields s w → e.Yields s w) : e.Yields s w := by
  unfold Tree.folded at h
  split at h
  · exact h.elim
  · split at h
    · obtain ⟨rfl, member⟩ := h.of_settled
      exact yields_of_mem_forest member
    · exact other h

theorem Yields.of_chosen (h : (chosen a b a' b').Yields s w) (first : a'.Yields s w → a.Yields s w)
    (second : b'.Yields s w → b.Yields s w) : (alt a b).Yields s w := by
  unfold chosen at h
  split at h
  · exact .inr (second h)
  · split at h
    · exact .inl (first h)
    · exact h.imp first second

theorem Yields.of_prepend {head : Value} (one : a.settled? = some [head])
    (h : (red b (.prepend head)).Yields s w) : (cat a b).Yields s w := by
  obtain ⟨v, second, applied⟩ := h
  have first : a.Yields [] head :=
    yields_of_mem_forest ((mem_forest_of_settled one).2 ▸ List.mem_singleton_self head)
  exact ⟨[], s, head, v, rfl, (Except.ok.inj applied).symm, first, second⟩

theorem Yields.of_joined (h : (joined a b a' b').Yields s w)
    (first : ∀ {s w}, a'.Yields s w → a.Yields s w)
    (second : ∀ {s w}, b'.Yields s w → b.Yields s w) : (cat a b).Yields s w := by
  unfold joined at h
  split at h
  · exact h.elim
  · next head one =>
    obtain ⟨v, yields, applied⟩ := h
    exact .of_prepend one ⟨v, second yields, applied⟩
  · unfold joinedLast at h
    split at h
    · exact h.elim
    · next tail one =>
      obtain ⟨v, yields, applied⟩ := h
      have last : b.Yields [] tail :=
        yields_of_mem_forest ((mem_forest_of_settled one).2 ▸ List.mem_singleton_self tail)
      exact ⟨s, [], v, tail, (List.append_nil s).symm, (Except.ok.inj applied).symm,
        first yields, last⟩
    · obtain ⟨p, q, u, v, parts, rfl, ha, hb⟩ := h
      exact ⟨p, q, u, v, parts, rfl, first ha, second hb⟩

/-- What a composition gives in two steps. -/
theorem yields_compose {t t' : Transform} :
    (red e (.compose t t')).Yields s w ↔ (red (red e t') t).Yields s w := by
  simp only [Yields, Transform.apply_compose]
  constructor
  · rintro ⟨v, yields, applied⟩
    cases inner : t'.apply v with
    | error fault => rw [inner] at applied; cases applied
    | ok u => exact ⟨u, ⟨v, yields, inner⟩, by rwa [inner] at applied⟩
  · rintro ⟨u, ⟨v, yields, inner⟩, applied⟩
    exact ⟨v, yields, by rw [inner]; exact applied⟩

theorem Yields.of_compact (h : e.compact.Yields s w) : e.Yields s w := by
  induction e using Tree.compact.induct generalizing s w with
  | case1 | case2 | case3 => exact h
  | case4 e => exact .of_folded (e := .delta e) h False.elim
  | case5 e ih => exact .of_folded (e := .rep e) h (Rounds.mono fun _ _ => ih)
  | case6 a b iha ihb =>
    rw [Tree.compact] at h
    exact h.of_folded fun h => h.of_chosen iha ihb
  | case7 a b iha ihb =>
    rw [Tree.compact] at h
    exact h.of_folded fun h => h.of_joined iha ihb
  | case8 e t' t ih =>
    refine .of_folded (e := .red (.red e t') t) h fun h => ?_
    obtain ⟨v, yields, applied⟩ := h
    exact yields_compose.mp ⟨v, ih yields, applied⟩
  | case9 a b t ihb ih =>
    rw [Tree.compact] at h
    refine h.of_folded fun h => ?_
    split at h
    · next head one =>
      obtain ⟨v, ⟨u, yields, applied⟩, applied'⟩ := yields_compose.mp h
      exact ⟨v, .of_prepend one ⟨u, ihb yields, applied⟩, applied'⟩
    · obtain ⟨v, yields, applied⟩ := h
      exact ⟨v, ih yields, applied⟩
  | case10 e t no_red no_cat ih =>
    rw [Tree.compact] at h
    · refine h.of_folded fun h => ?_
      obtain ⟨v, yields, applied⟩ := h
      exact ⟨v, ih yields, applied⟩
    · exact no_red
    · exact no_cat

end Tree

end GrammarGraph
