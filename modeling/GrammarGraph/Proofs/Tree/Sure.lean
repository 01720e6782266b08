import GrammarGraph.Proofs.Boolless
import GrammarGraph.Proofs.Tree.Yields

/-! Witnesses that a parse with compaction cannot lose. Forests are paired position by position
and up to the end of the shorter one, so a concatenation is sure to keep the pair of two witnesses
only if neither part has another one. What is repeated is never folded into an atom, so the rounds
that follow the first may have any number of witnesses. -/
namespace GrammarGraph

namespace Tree

/-- The sentence has no other witness. -/
def Only (e : Tree) (s : List Value) (w : Value) : Prop :=
  ∀ v, e.Yields s v → v = w

def isRep : Tree → Bool
  | .rep _ => true
  | _ => false

/-- The sentence has a derivation with the witness in which both parts of every concatenation
have no other witness, unless the second part is a repetition, and no round of a repetition has
another witness. -/
def Sure : Tree → List Value → Value → Prop
  | .empty, _, _ => False
  | .eps ws, s, w => s = [] ∧ w ∈ ws
  | .char a, s, w => s = [w] ∧ a.same w = true
  | .alt a b, s, w => a.Sure s w ∨ b.Sure s w
  | .cat a b, s, w => ∃ p q u v, s = p ++ q ∧ w = Forest.cons u v ∧
      (a.Sure p u ∧ a.Only p u) ∧ b.Sure q v ∧ (b.Only q v ∨ b.isRep = true)
  | .rep e, s, w => Rounds .literal (fun p u => e.Sure p u ∧ e.Only p u) s w
  | .delta e, s, w => s = [] ∧ e.Sure [] w
  | .red e t, s, w => ∃ v, e.Sure s v ∧ t.apply v = .ok w

/-- The same of a derivative before it is compacted: the first part of a concatenation may have
vanished, and it is folded into a reduction before the second part can be folded. -/
def Loose : Tree → List Value → Value → Prop
  | .alt a b, s, w => a.Loose s w ∨ b.Loose s w
  | .cat a b, s, w => ∃ p q u v, s = p ++ q ∧ w = Forest.cons u v ∧
      (a.Loose p u ∧ a.Only p u) ∧ b.Loose q v ∧
      (b.Only q v ∨ b.isRep = true ∨ p = [] ∧ a.epsLike = true ∧ b.epsLike = false)
  | .red e t, s, w => ∃ v, e.Loose s v ∧ t.apply v = .ok w
  | e, s, w => e.Sure s w

variable {a b e a' b' : Tree} {c : Value} {s : List Value} {w u v : Value} {ws : Forest}

theorem Sure.loose (h : e.Sure s w) : e.Loose s w := by
  induction e generalizing s w with
  | empty | eps | char | rep | delta => exact h
  | alt a b iha ihb => exact h.imp iha ihb
  | red e t ih =>
    obtain ⟨v, inner, applied⟩ := h
    exact ⟨v, ih inner, applied⟩
  | cat a b iha ihb =>
    obtain ⟨p, q, u, v, parts, joined, ⟨first, only⟩, second, other⟩ := h
    exact ⟨p, q, u, v, parts, joined, ⟨iha first, only⟩, ihb second, other.imp_right .inl⟩

theorem Sure.yields (h : e.Sure s w) : e.Yields s w := by
  induction e generalizing s w with
  | empty | eps | char => exact h
  | alt a b iha ihb => exact h.imp iha ihb
  | rep e ih => exact Rounds.mono (fun _ _ round => ih round.1) h
  | delta e ih => exact ⟨h.1, ih h.2⟩
  | red e t ih =>
    obtain ⟨v, inner, applied⟩ := h
    exact ⟨v, ih inner, applied⟩
  | cat a b iha ihb =>
    obtain ⟨p, q, u, v, parts, joined, ⟨first, -⟩, second, -⟩ := h
    exact ⟨p, q, u, v, parts, joined, iha first, ihb second⟩

theorem Loose.yields (h : e.Loose s w) : e.Yields s w := by
  induction e generalizing s w with
  | empty | eps | char | rep | delta => exact Sure.yields h
  | alt a b iha ihb => exact h.imp iha ihb
  | red e t ih =>
    obtain ⟨v, inner, applied⟩ := h
    exact ⟨v, ih inner, applied⟩
  | cat a b iha ihb =>
    obtain ⟨p, q, u, v, parts, joined, ⟨first, -⟩, second, -⟩ := h
    exact ⟨p, q, u, v, parts, joined, iha first, ihb second⟩

theorem Only.derive (h : e.Only (c :: s) w) : (e.derive c).Only s w :=
  fun v yields => h v (yields_derive.mp yields)

theorem Loose.skipping (h : (cat a b).Loose s w) : (skipping a b).Loose s w := by
  unfold Tree.skipping
  split
  · next none =>
    obtain ⟨p, q, u, v, -, -, ⟨first, -⟩, -, -⟩ := h
    rw [eq_empty_of_isEmpty none] at first
    exact first.elim
  · exact h

theorem Loose.taking (h : (cat a b).Loose s w) : (taking a b).Loose s w := by
  unfold Tree.taking
  split
  · next none =>
    obtain ⟨p, q, u, v, -, -, -, second, -⟩ := h
    rw [eq_empty_of_isEmpty none] at second
    exact second.elim
  · exact h

theorem Loose.either (h : (alt a b).Loose s w) : (either a b).Loose s w := by
  unfold Tree.either
  split
  · next none =>
    rw [eq_empty_of_isEmpty none] at h
    exact h.resolve_left id
  · split
    · next none =>
      rw [eq_empty_of_isEmpty none] at h
      exact h.resolve_right id
    · exact h

/-- What has vanished is an atom or the part that takes no symbol. -/
theorem Sure.vanished (h : e.Sure [] w) : e.vanished.Loose [] w ∧ e.vanished.epsLike = true := by
  cases e with
  | empty => exact h.elim
  | char => cases h.1
  | eps => exact ⟨h, rfl⟩
  | _ => exact ⟨⟨rfl, h⟩, rfl⟩

theorem Sure.derive (h : e.Sure (c :: s) w) : (e.derive c).Loose s w := by
  induction e generalizing s w with
  | empty => exact h.elim
  | eps | delta => cases h.1
  | char a =>
    obtain ⟨one, same⟩ := h
    cases one
    rw [Tree.derive, if_pos same]
    exact ⟨rfl, List.mem_singleton_self c⟩
  | alt a b iha ihb => exact h.imp iha ihb
  | red e t ih =>
    obtain ⟨v, inner, applied⟩ := h
    exact ⟨v, ih inner, applied⟩
  | rep e ih =>
    obtain ⟨p, q, u, v, parts, joined, ⟨first, only⟩, rest⟩ := Rounds.cons_iff.mp h
    exact ⟨p, q, u, v, parts, joined, ⟨ih first, only.derive⟩, rest, .inr (.inl rfl)⟩
  | cat a b iha ihb =>
    obtain ⟨p, q, u, v, parts, rfl, ⟨first, only⟩, second, other⟩ := h
    rw [Tree.derive]
    refine Loose.either ?_
    rcases List.cons_eq_append_iff.mp parts with ⟨rfl, rfl⟩ | ⟨p, rfl, rfl⟩
    · -- The second part takes the symbol. If it is a repetition, its derivative goes on taking
      -- symbols, so the first part can still be folded.
      have vanished := first.vanished
      refine .inl (Loose.skipping ⟨[], s, u, v, rfl, rfl, ⟨vanished.1, fun w yields => ?_⟩,
        ihb second, ?_⟩)
      · exact only w (yields_vanished.mp yields).2
      · rcases other with other | repeats
        · exact .inl other.derive
        · refine .inr (.inr ⟨rfl, vanished.2, ?_⟩)
          cases b with
          | rep e =>
            rw [Tree.derive, Tree.epsLike, Bool.and_eq_false_iff]
            exact .inr (eq_false_of_ne_true fun settled =>
              List.cons_ne_nil c _ (second.yields.eq_nil settled))
          | _ => cases repeats
    · exact .inr (Loose.taking ⟨p, q, u, v, rfl, rfl, ⟨iha first, only.derive⟩, second.loose,
        other.imp_right .inl⟩)

theorem Only.forest_eq (only : e.Only [] w) (distinct : Forest.Distinct e.forest)
    (member : w ∈ e.forest) : e.forest = [w] :=
  Forest.eq_singleton distinct member fun v among => only v (yields_of_mem_forest among)

/-- Repetitions and trees without another witness leave no choice at the end. -/
theorem Only.of_isRep (h : b.Only [] v ∨ b.isRep = true) (yields : b.Yields [] v) :
    b.Only [] v := by
  refine h.elim id fun repeats => ?_
  cases b with
  | rep e =>
    intro w other
    rw [Rounds.nil_iff.mp other, Rounds.nil_iff.mp yields]
  | _ => cases repeats

section Forests

variable (plain : e.Proper Value.Plain)
include plain

theorem Proper.mem_distinct_forest : w ∈ Forest.distinct e.forest ↔ w ∈ e.forest :=
  Forest.mem_distinct fun v member => (plain.forest Value.plain_closed v member).2

omit plain in
theorem mem_forest_alt (plain : (alt a b).Proper Value.Plain)
    (h : w ∈ a.forest ∨ w ∈ b.forest) : w ∈ (alt a b).forest := by
  refine (Forest.mem_distinct fun v member => ?_).mpr (List.mem_append.mpr h)
  rcases List.mem_append.mp member with member | member
  · exact (plain.1.forest Value.plain_closed v member).2
  · exact (plain.2.forest Value.plain_closed v member).2

omit plain in
theorem mem_forest_red {t : Transform} (plain : (red e t).Proper Value.Plain)
    (member : v ∈ e.forest) (applied : t.apply v = .ok w) : w ∈ (red e t).forest := by
  refine (Forest.mem_distinct fun u among => ?_).mpr
    (Transform.mem_results.mpr ⟨v, member, applied⟩)
  exact (plain.2.results (plain.1.forest Value.plain_closed) u among).2

omit plain in
/-- Parts without another witness are paired. -/
theorem mem_forest_cat (plain : (cat a b).Proper Value.Plain) (first : u ∈ a.forest)
    (only : a.Only [] u) (second : v ∈ b.forest) (only' : b.Only [] v) :
    Forest.cons u v ∈ (cat a b).forest := by
  rw [forest, only.forest_eq plain.1.forest_distinct first,
    only'.forest_eq plain.2.forest_distinct second]
  exact List.mem_singleton_self _

theorem Sure.mem_forest (h : e.Sure [] w) : w ∈ e.forest := by
  induction e generalizing w with
  | empty => exact h.elim
  | char => cases h.1
  | eps => exact h.2
  | rep => exact List.mem_singleton.mpr (Rounds.nil_iff.mp h)
  | delta e ih => exact ih plain h.2
  | alt a b iha ihb => exact mem_forest_alt plain (h.imp (iha plain.1) (ihb plain.2))
  | red e t ih =>
    obtain ⟨v, inner, applied⟩ := h
    exact mem_forest_red plain (ih plain.1 inner) applied
  | cat a b iha ihb =>
    obtain ⟨p, q, u, v, parts, rfl, ⟨first, only⟩, second, other⟩ := h
    obtain ⟨rfl, rfl⟩ := List.append_eq_nil_iff.mp parts.symm
    exact mem_forest_cat plain (iha plain.1 first) only (ihb plain.2 second)
      (.of_isRep other second.yields)

/-- A derivative that takes no more symbols. -/
theorem Loose.mem_forest (h : e.Loose [] w) (settled : e.epsLike = true) : w ∈ e.forest := by
  induction e generalizing w with
  | empty | char | eps | rep | delta => exact Sure.mem_forest plain h
  | alt a b iha ihb =>
    simp only [Tree.epsLike, Bool.and_eq_true, Bool.or_eq_true] at settled
    refine mem_forest_alt plain (h.imp (fun first => ?_) fun second => ?_)
    · exact iha plain.1 first (settled.1.resolve_right (by simp [first.yields.not_emptyLike]))
    · exact ihb plain.2 second (settled.2.resolve_right (by simp [second.yields.not_emptyLike]))
  | red e t ih =>
    obtain ⟨v, inner, applied⟩ := h
    exact mem_forest_red plain (ih plain.1 inner settled) applied
  | cat a b iha ihb =>
    obtain ⟨p, q, u, v, parts, rfl, ⟨first, only⟩, second, other⟩ := h
    obtain ⟨rfl, rfl⟩ := List.append_eq_nil_iff.mp parts.symm
    rw [Tree.epsLike, Bool.and_eq_true] at settled
    refine mem_forest_cat plain (iha plain.1 first settled.1) only (ihb plain.2 second settled.2)
      (.of_isRep (other.imp_right fun other => other.resolve_right fun vanished => ?_)
        second.yields)
    rw [settled.2] at vanished
    cases vanished.2.2

end Forests

theorem Only.compact (h : e.Only s w) : e.compact.Only s w :=
  fun v yields => h v yields.of_compact

/-- The forest of a part that is settled. -/
theorem Loose.settled (plain : e.Proper Value.Plain) (h : e.Loose s w)
    (settled : e.settled? = some ws) : s = [] ∧ w ∈ ws := by
  obtain ⟨likely, rfl⟩ := mem_forest_of_settled settled
  obtain rfl := h.yields.eq_nil likely
  exact ⟨rfl, h.mem_forest plain likely⟩

/-- A part that takes no symbol and has one witness is settled. -/
theorem Loose.settled_of_only (plain : e.Proper Value.Plain) (h : e.Loose [] w) (only : e.Only [] w)
    (likely : e.epsLike = true) : e.settled? = some [w] := by
  rw [settled?, if_pos likely, only.forest_eq plain.forest_distinct (h.mem_forest plain likely)]

theorem Loose.folded {rest : Tree} (plain : e.Proper Value.Plain) (h : e.Loose s w)
    (other : e.epsLike = false → rest.Sure s w) : (e.folded rest).Sure s w := by
  rw [Tree.folded, if_neg (by simp [h.yields.not_emptyLike])]
  split
  · next likely =>
    obtain rfl := h.yields.eq_nil likely
    have member := h.mem_forest plain likely
    unfold Tree.settled
    split
    · next none => rw [none] at member; cases member
    · exact ⟨rfl, (plain.mem_distinct_forest).mpr member⟩
  · next takes => exact other (eq_false_of_ne_true takes)

theorem Loose.chosen (h : (alt a b).Loose s w) (first : a.Loose s w → a'.Sure s w)
    (second : b.Loose s w → b'.Sure s w) : (chosen a b a' b').Sure s w := by
  unfold Tree.chosen
  split
  · next none =>
    refine second (h.resolve_left fun some_ => ?_)
    rw [some_.yields.not_emptyLike] at none
    cases none
  · split
    · next none =>
      refine first (h.resolve_right fun some_ => ?_)
      rw [some_.yields.not_emptyLike] at none
      cases none
    · exact h.imp first second

theorem isRep_compact (repeats : b.isRep = true) (takes : b.epsLike = false) :
    b.compact.isRep = true := by
  cases b with
  | rep e => rw [Tree.compact, folded_of_active rfl takes]; rfl
  | _ => cases repeats

/-- A concatenation of which the first part is settled. -/
theorem Loose.of_settled {head : Value} (plain : (cat a b).Proper Value.Plain)
    (h : (cat a b).Loose s w) (one : a.settled? = some [head]) :
    ∃ v, w = Forest.cons head v ∧ b.Loose s v := by
  obtain ⟨p, q, u, v, rfl, rfl, ⟨first, -⟩, second, -⟩ := h
  obtain ⟨rfl, member⟩ := first.settled plain.1 one
  rw [List.mem_singleton.mp member]
  exact ⟨v, rfl, second⟩

theorem Loose.joined (plain : (cat a b).Proper Value.Plain) (h : (cat a b).Loose s w)
    (first : ∀ {s w}, a.Loose s w → a.compact.Sure s w)
    (second : ∀ {s w}, b.Loose s w → b.compact.Sure s w) :
    (Tree.joined a b a.compact b.compact).Sure s w := by
  unfold Tree.joined
  split
  · next none =>
    obtain ⟨p, q, u, v, -, -, ⟨first, -⟩, -, -⟩ := h
    cases (first.settled plain.1 none).2
  · next head one =>
    obtain ⟨v, rfl, rest⟩ := h.of_settled plain one
    exact ⟨v, second rest, rfl⟩
  · next not_none not_one =>
    obtain ⟨p, q, u, v, rfl, rfl, ⟨ha, only⟩, hb, other⟩ := h
    -- A first part that has vanished would have been settled.
    have other : b.Only q v ∨ b.isRep = true := other.imp_right fun other =>
      other.resolve_right fun ⟨start, likely, _⟩ => by
        subst start
        exact not_one u (ha.settled_of_only plain.1 only likely)
    unfold joinedLast
    split
    · next none => cases (hb.settled plain.2 none).2
    · next tail one =>
      obtain ⟨rfl, member⟩ := hb.settled plain.2 one
      rw [List.mem_singleton.mp member, List.append_nil]
      exact ⟨u, first ha, rfl⟩
    · refine ⟨p, q, u, v, rfl, rfl, ⟨first ha, only.compact⟩, second hb, ?_⟩
      cases takes : b.epsLike with
      | false => exact other.imp Only.compact fun repeats => isRep_compact repeats takes
      | true =>
        obtain rfl := hb.yields.eq_nil takes
        exact .inl (Only.of_isRep other hb.yields).compact

/-- Compaction keeps what is sure, of derivatives as well. -/
theorem Loose.compact (plain : e.Proper Value.Plain) (h : e.Loose s w) : e.compact.Sure s w := by
  induction e using Tree.compact.induct generalizing s w with
  | case1 | case2 | case3 => exact h
  | case4 e => exact Loose.folded (e := .delta e) plain h fun takes => by cases takes
  | case5 e ih =>
    exact Loose.folded (e := .rep e) plain h fun _ =>
      Rounds.mono (fun _ _ round => ⟨ih plain round.1.loose, round.2.compact⟩) h
  | case6 a b iha ihb =>
    rw [Tree.compact]
    exact h.folded plain fun _ => h.chosen (iha plain.1) (ihb plain.2)
  | case7 a b iha ihb =>
    rw [Tree.compact]
    exact h.folded plain fun _ => h.joined plain (iha plain.1) (ihb plain.2)
  | case8 e t' t ih =>
    refine Loose.folded (e := .red (.red e t') t) plain h fun _ => ?_
    obtain ⟨v, ⟨u, inner, applied⟩, applied'⟩ := h
    exact ⟨u, ih plain.1.1 inner, by rw [Transform.apply_compose, applied]; exact applied'⟩
  | case9 a b t ihb ih =>
    rw [Tree.compact]
    refine h.folded plain fun _ => ?_
    obtain ⟨v, inner, applied⟩ := h
    split
    · next head one =>
      obtain ⟨u, rfl, rest⟩ := inner.of_settled plain.1 one
      exact ⟨u, ihb plain.1.2 rest, by rw [Transform.apply_compose]; exact applied⟩
    · exact ⟨v, ih plain.1 inner, applied⟩
  | case10 e t no_red no_cat ih =>
    rw [Tree.compact]
    · refine h.folded plain fun _ => ?_
      obtain ⟨v, inner, applied⟩ := h
      exact ⟨v, ih plain.1 inner, applied⟩
    · exact no_red
    · exact no_cat

end Tree

end GrammarGraph
