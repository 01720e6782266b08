import GrammarGraph.Proofs.Gauge.Turns
import GrammarGraph.Proofs.Regular.Constructors

/-! The rules of the evaluators, kind by kind, in a turn in which everything below can be
asked for: what they give fits the language of the node exactly. -/
namespace GrammarGraph

open Computability

namespace Gauge.Turn

variable {x : Gauge (Language Value)} {g : Graph} {v : Nat} {c : Value} {n : NodeId}
  (t : Turn languages v x g n) (lower : Answers languages v)
include t lower

theorem nullable : (weighing languages).Ends x g (fun ask => Emptiness.nullable ask n)
    fun x' g' r => x'.Fits languages g' (x (.node n)) .nullable r := by
  refine .read (p := fun g => (g.node n).kind) ?_
  cases kind : (g.node n).kind with
  | placeholder => exact absurd kind t.weighs.complete
  | other name => exact absurd kind (t.weighs.known name)
  | empty | char | eps | rep =>
    refine .pure t.valid ?_
    rw [Fits, t.sense_of_kind kind]
    first
      | exact iff_of_false Bool.false_ne_true (Language.notMem_zero [])
      | exact iff_of_false Bool.false_ne_true nil_not_mem_matching
      | exact iff_of_true rfl Language.nil_mem_one
      | exact iff_of_true rfl (Language.nil_mem_kstar _)
  | delta =>
    refine .imp (t.onChild lower .nullable (.refl x g) t.valid
      (Node.mem_sides_of_single (.inr (.inl kind)))) fun x' g' r _ _ fits => ?_
    rw [Fits, t.sense_of_kind kind]
    exact fits.trans nil_mem_meet_one.symm
  | red =>
    refine .imp (t.onChild lower .nullable (.refl x g) t.valid
      (Node.mem_sides_of_single (.inr (.inr kind)))) fun x' g' r _ _ fits => ?_
    rw [Fits, t.sense_of_kind kind]
    exact fits
  | alt =>
    have member := Node.mem_sides_of_pair (.inr kind)
    have language := t.sense_of_kind kind
    refine .imp (.either_iff (.imp (t.onChild lower .nullable (.refl x g) t.valid (member .first))
      fun x₁ g₁ r later₁ h₁ first =>
        ⟨first, t.onChild lower .nullable later₁ h₁ (member .second)⟩)) fun _ _ r _ _ fits => ?_
    rw [Fits, language]
    exact fits
  | cat =>
    have member := Node.mem_sides_of_pair (.inl kind)
    have language := t.sense_of_kind kind
    refine .imp (.both_iff (.imp (t.onChild lower .nullable (.refl x g) t.valid (member .first))
      fun x₁ g₁ r later₁ h₁ first =>
        ⟨first, t.onChild lower .nullable later₁ h₁ (member .second)⟩)) fun _ _ r _ _ fits => ?_
    rw [Fits, language]
    exact fits.trans nil_mem_mul.symm

theorem forest : (weighing languages).Ends x g (fun ask => Extraction.forest ask n)
    fun x' g' r => x'.Fits languages g' (x (.node n)) .forest r := by
  refine .read (p := fun g => g.node n) ?_
  have language {kind : Kind} (hk : (g.node n).kind = kind) := t.sense_of_kind hk
  cases kind : (g.node n).kind with
  | placeholder => exact absurd kind t.weighs.complete
  | other name => exact absurd kind (t.weighs.known name)
  | empty =>
    refine .pure t.valid ⟨by simp, ?_⟩
    rw [language kind]
    exact iff_of_false (fun some_ => some_ rfl) (Language.notMem_zero [])
  | char =>
    refine .pure t.valid ⟨by simp, ?_⟩
    rw [language kind]
    exact iff_of_false (fun some_ => some_ rfl) nil_not_mem_matching
  | eps =>
    obtain ⟨some_, hashable⟩ := t.weighs.eps kind
    refine .pure t.valid ⟨hashable, ?_⟩
    rw [language kind]
    exact iff_of_true some_ Language.nil_mem_one
  | rep =>
    refine .pure t.valid ⟨by simp [Value.hashable, Value.hashableAll], ?_⟩
    rw [language kind]
    exact iff_of_true (by simp) (Language.nil_mem_kstar _)
  | delta =>
    refine .imp (t.onChild lower .forest (.refl x g) t.valid
      (Node.mem_sides_of_single (.inr (.inl kind)))) fun x' g' r _ _ fits => ⟨fits.1, ?_⟩
    rw [language kind]
    exact fits.2.trans nil_mem_meet_one.symm
  | red =>
    refine .bind (t.onChild lower .forest (.refl x g) t.valid
      (Node.mem_sides_of_single (.inr (.inr kind)))) fun x₁ g₁ ws _ h₁ fits => ?_
    have total := t.weighs.red kind
    rw [total.image_ok fits.1]
    refine .pure h₁ ⟨Forest.hashable_distinct (total.hashable_results fits.1), ?_⟩
    rw [language kind, ne_eq, Forest.distinct_eq_nil, total.results_eq_nil fits.1]
    exact fits.2
  | alt =>
    have member := Node.mem_sides_of_pair (.inr kind)
    refine t.onChildren lower .forest member fun h₂ first second => ?_
    rw [Forest.union_ok first.1 second.1]
    refine .pure h₂ ⟨Forest.hashable_distinct (Forest.hashable_append first.1 second.1), ?_⟩
    rw [language kind, ne_eq, Forest.distinct_eq_nil, List.append_eq_nil_iff, not_and_or]
    exact or_congr first.2 second.2
  | cat =>
    have member := Node.mem_sides_of_pair (.inl kind)
    refine t.onChildren lower .forest member fun h₂ first second => ?_
    rw [Forest.combine_ok first.1 second.1]
    refine .pure h₂ ⟨Forest.hashable_distinct (Forest.hashable_zip first.1 second.1), ?_⟩
    rw [language kind, ne_eq, Forest.distinct_eq_nil, List.zipWith_eq_nil_iff, not_or]
    exact (and_congr first.2 second.2).trans nil_mem_mul.symm

theorem emptyLike : (weighing languages).Ends x g (fun ask => Emptiness.emptyLike ask n)
    fun x' g' r => x'.Fits languages g' (x (.node n)) .emptyLike r := by
  refine .read (p := fun g => (g.node n).kind) ?_
  have language {kind : Kind} (hk : (g.node n).kind = kind) := t.sense_of_kind hk
  cases kind : (g.node n).kind with
  | placeholder => exact absurd kind t.weighs.complete
  | other name => exact absurd kind (t.weighs.known name)
  | empty | char | eps | rep =>
    refine .pure t.valid ?_
    rw [Fits, language kind]
    first
      | exact iff_of_true rfl rfl
      | exact iff_of_false Bool.false_ne_true matching_ne_zero
      | exact iff_of_false Bool.false_ne_true one_ne_zero_language
      | exact iff_of_false Bool.false_ne_true kstar_ne_zero
  | red =>
    refine .imp (t.onChild lower .emptyLike (.refl x g) t.valid
      (Node.mem_sides_of_single (.inr (.inr kind)))) fun x' g' r _ _ fits => ?_
    rw [Fits, language kind]
    exact fits
  | delta =>
    have member := Node.mem_sides_of_single (.inr (.inl kind))
    refine .bind (t.child lower (.refl x g) t.valid member) fun x₁ g₁ k later₁ h₁ stands => ?_
    refine .bind (t.evaluate lower .nullable later₁ h₁ stands (t.slot_below member))
      fun x₂ g₂ r _ h₂ fits => ?_
    refine .pure h₂ ?_
    rw [Fits, language kind]
    change (!r) = true ↔ _
    rw [Bool.not_eq_true', ← Bool.not_eq_true]
    exact (not_congr fits).trans meet_one_eq_zero_iff.symm
  | alt =>
    have member := Node.mem_sides_of_pair (.inr kind)
    refine .imp (.both_iff (.imp (t.onChild lower .emptyLike (.refl x g) t.valid (member .first))
      fun x₁ g₁ r later₁ h₁ first =>
        ⟨first, t.onChild lower .emptyLike later₁ h₁ (member .second)⟩)) fun _ _ r _ _ fits => ?_
    rw [Fits, language kind]
    exact fits.trans add_eq_zero_iff.symm
  | cat =>
    have member := Node.mem_sides_of_pair (.inl kind)
    refine .imp (.either_iff (.imp (t.onChild lower .emptyLike (.refl x g) t.valid (member .first))
      fun x₁ g₁ r later₁ h₁ first =>
        ⟨first, t.onChild lower .emptyLike later₁ h₁ (member .second)⟩)) fun _ _ r _ _ fits => ?_
    rw [Fits, language kind]
    exact fits.trans mul_eq_zero_iff.symm

/-- A node takes no symbol if either predicate says so. -/
theorem epsLike_or_emptyLike {x₁ : Gauge (Language Value)} {g₁ : Graph} {k : NodeId}
    {w : Weight (Language Value)} (later : Later x g x₁ g₁) (h₁ : Exact languages x₁ g₁)
    (stands : x₁.Stands g₁ w k) (below : 8 * w.rank + 7 < v) :
    (weighing languages).Ends x₁ g₁ (fun ask => Run.either (ask.epsLike k) (ask.emptyLike k))
      fun _ _ r => r = true ↔ w.sense ≤ 1 := by
  refine .either (.imp (t.evaluate lower .epsLike later h₁ stands below) ?_)
  intro x₂ g₂ r later₂ h₂ fits
  refine ⟨fun yes => iff_of_true rfl (fits.1 yes), fun no =>
    .imp (t.evaluate lower .emptyLike (later.trans later₂) h₂ (later₂.stands stands) below) ?_⟩
  intro x₃ g₃ r' _ _ fits'
  refine ⟨fun yes => by rw [fits'.mp yes]; exact bot_le, fun le => fits'.mpr ?_⟩
  exact (fits.2 le).resolve_left (by rw [no]; exact Bool.false_ne_true)

theorem emptyLike_or_epsLike {x₁ : Gauge (Language Value)} {g₁ : Graph} {k : NodeId}
    {w : Weight (Language Value)} (later : Later x g x₁ g₁) (h₁ : Exact languages x₁ g₁)
    (stands : x₁.Stands g₁ w k) (below : 8 * w.rank + 7 < v) :
    (weighing languages).Ends x₁ g₁ (fun ask => Run.either (ask.emptyLike k) (ask.epsLike k))
      fun _ _ r => r = true ↔ w.sense ≤ 1 := by
  refine .either (.imp (t.evaluate lower .emptyLike later h₁ stands below) ?_)
  intro x₂ g₂ r later₂ h₂ fits
  refine ⟨fun yes => iff_of_true rfl (by rw [fits.mp yes]; exact bot_le), fun no =>
    .imp (t.evaluate lower .epsLike (later.trans later₂) h₂ (later₂.stands stands) below) ?_⟩
  intro x₃ g₃ r' _ _ fits'
  refine ⟨fits'.1, fun le => (fits'.2 le).resolve_right fun none => ?_⟩
  rw [fits.mpr none] at no
  cases no

theorem epsLike : (weighing languages).Ends x g (fun ask => Emptiness.epsLike ask n)
    fun x' g' r => x'.Fits languages g' (x (.node n)) .epsLike r := by
  refine .read (p := fun g => (g.node n).kind) ?_
  have language {kind : Kind} (hk : (g.node n).kind = kind) := t.sense_of_kind hk
  cases kind : (g.node n).kind with
  | placeholder => exact absurd kind t.weighs.complete
  | other name => exact absurd kind (t.weighs.known name)
  | empty => exact .pure t.valid ⟨fun yes => (nomatch yes), fun _ => .inr (language kind)⟩
  | char =>
    refine .pure t.valid ⟨fun yes => (nomatch yes), fun le => ?_⟩
    rw [language kind] at le
    exact absurd le not_matching_le_one
  | eps =>
    refine .pure t.valid ⟨fun _ => ?_, fun _ => .inl rfl⟩
    rw [language kind]
    exact le_refl 1
  | delta =>
    refine .pure t.valid ⟨fun _ => ?_, fun _ => .inl rfl⟩
    rw [language kind]
    exact meet_one_le_one
  | red =>
    refine .imp (t.onChild lower .epsLike (.refl x g) t.valid
      (Node.mem_sides_of_single (.inr (.inr kind)))) fun x' g' r _ _ fits => ?_
    rw [Fits, language kind]
    exact fits
  | rep =>
    have member := Node.mem_sides_of_single (.inl kind)
    refine .bind (t.child lower (.refl x g) t.valid member) fun x₁ g₁ k later₁ h₁ stands => ?_
    refine .imp (t.emptyLike_or_epsLike lower later₁ h₁ stands (t.slot_below member))
      fun x₂ g₂ r _ _ fits => ?_
    have star : (x (.node n)).sense ≤ 1 ↔ (x ((g.node n).slot .first)).sense ≤ 1 := by
      rw [language kind]
      exact kstar_le_one_iff
    have decides := fits.trans star.symm
    exact ⟨decides.mp, fun le => .inl (decides.mpr le)⟩
  | alt =>
    have member := Node.mem_sides_of_pair (.inr kind)
    refine t.children lower (.refl x g) t.valid member fun later₂ h₂ first second => ?_
    have sum : (x (.node n)).sense ≤ 1 ↔ (x ((g.node n).slot .first)).sense ≤ 1 ∧
        (x ((g.node n).slot .second)).sense ≤ 1 := by
      rw [language kind]
      exact add_le_one_iff
    refine .imp (.both_iff (.imp (t.epsLike_or_emptyLike lower later₂ h₂ first
      (t.slot_below (member .first))) fun x₃ g₃ r later₃ h₃ fits => ⟨fits,
        t.epsLike_or_emptyLike lower (later₂.trans later₃) h₃ (later₃.stands second)
          (t.slot_below (member .second))⟩)) fun _ _ r _ _ fits => ?_
    have decides := fits.trans sum.symm
    exact ⟨decides.mp, fun le => .inl (decides.mpr le)⟩
  | cat =>
    have member := Node.mem_sides_of_pair (.inl kind)
    have parts (le : (x (.node n)).sense ≤ 1) (some_ : (x (.node n)).sense ≠ 0) :
        (x ((g.node n).slot .first)).sense ≤ 1 ∧
          (x ((g.node n).slot .second)).sense ≤ 1 := by
      rw [language kind] at le some_
      exact le_one_of_mul le some_
    have part (side : Side) (none : (x ((g.node n).slot side)).sense = 0) :
        (x (.node n)).sense = 0 := by
      rw [language kind]
      cases side with
      | first => exact mul_eq_zero_iff.mpr (.inl none)
      | second => exact mul_eq_zero_iff.mpr (.inr none)
    refine .both (.imp (t.onChild lower .epsLike (.refl x g) t.valid (member .first)) ?_)
    intro x₁ g₁ r later₁ h₁ fits
    refine ⟨fun no => ⟨fun yes => (nomatch yes), fun le => .inr ?_⟩, fun yes =>
      .imp (t.onChild lower .epsLike later₁ h₁ (member .second)) ?_⟩
    · by_contra some_
      rcases fits.2 (parts le some_).1 with yes | none
      · rw [yes] at no; cases no
      · exact some_ (part .first none)
    · intro x₂ g₂ r' _ _ fits'
      refine ⟨fun yes' => ?_, fun le => ?_⟩
      · rw [language kind]
        exact mul_le_one (fits.1 yes) (fits'.1 yes')
      · by_cases none : (x (.node n)).sense = 0
        · exact .inr none
        · exact (fits'.2 (parts le none).2).imp_right (part .second)

end Gauge.Turn

end GrammarGraph
