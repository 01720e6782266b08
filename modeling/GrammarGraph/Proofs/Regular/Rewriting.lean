import GrammarGraph.Proofs.Regular.Bodies

/-! Derivation and compaction in a turn. A derivative has the language of what follows the
symbol; a compacted node has the language that it had, and no larger rank. -/
namespace GrammarGraph

open Computability

namespace Gauge

/-- The parts of the derivative of a concatenation are products. -/
def languageSplitting : Splitting languages where
  vanished L := L ⊓ 1
  skipping := (· * ·)
  taking := (· * ·)
  either := (· + ·)
  delta h inner lower sense := h.delta (a := .node _) inner sense lower
  skip h first second lower sense :=
    h.cat (a := .node _) (b := .deferred _) first second sense lower
  take h first second lower sense :=
    h.cat (a := .deferred _) (b := .node _) first second sense lower
  join h first second lower sense := h.alt (a := .node _) (b := .node _) first second sense lower

namespace Turn

variable {x x₁ : Gauge (Language Value)} {g g₁ : Graph} {v : Nat} {w u : Weight (Language Value)}
  {c : Value} {n k : NodeId} (t : Turn languages v x g n) (lower : Answers languages v)
include t lower

theorem derive (hashable : c.hashable = true) :
    (weighing languages).Ends x g (fun ask => Derivative.derive ask c n) fun x' g' d =>
      x'.Stands g' ((x (.node n)).after languages c) d := by
  have language {kind : Kind} (hk : (g.node n).kind = kind) :
      ((x (.node n)).after languages c).sense =
        following c (({ g.node n with kind } : Node).sense languages x) :=
    congrArg (following c) (t.sense_of_kind hk)
  by_cases pair : (g.node n).kind = .cat
  · exact t.derive_cat lower languageSplitting hashable pair ((language pair).trans following_mul)
  refine .read (p := fun g => g.node n) ?_
  cases kind : (g.node n).kind with
  | placeholder => exact absurd kind t.weighs.complete
  | other name => exact absurd kind (t.weighs.known name)
  | empty => exact .pure t.valid (t.valid.empty_stands ((language kind).trans following_zero))
  | eps => exact .pure t.valid (t.valid.empty_stands ((language kind).trans following_one))
  | delta =>
    exact .pure t.valid (t.valid.empty_stands ((language kind).trans following_meet_one))
  | char =>
    dsimp only
    cases same : (g.node n).symbol.same c with
    | false =>
      exact .pure t.valid
        (t.valid.empty_stands ((language kind).trans (following_matching_ne same)))
    | true =>
      exact t.valid.eps (List.cons_ne_nil c []) (by simpa using hashable)
        ((language kind).trans (following_matching same))
  | red =>
    have member := Node.mem_sides_of_single (.inr (.inr kind))
    refine t.valid.reduction (t.weighs.red kind) (offers_later (S := languages) hashable member)
      (language kind) ?_
    have below := t.slot_lower member
    simp only [Weight.after]
    omega
  | rep =>
    have member := Node.mem_sides_of_single (.inl kind)
    refine t.valid.cat (v := x (.node n)) (offers_later (S := languages) hashable member)
      ⟨t.lt, .refl _⟩ ?_ ?_
    · rw [language kind, t.sense_of_kind kind]
      exact following_kstar
    · have below := t.slot_lower member
      simp only [Weight.after]
      omega
  | alt =>
    have member := Node.mem_sides_of_pair (.inr kind)
    refine t.valid.alt (offers_later (S := languages) hashable (member .first))
      (offers_later (S := languages) hashable (member .second))
      ((language kind).trans following_add) ?_
    have below := t.slot_lower (member .first)
    have below' := t.slot_lower (member .second)
    simp only [Weight.after]
    omega
  | cat => exact absurd kind pair

/-- The witnesses of a node that takes no symbol decide its language. -/
theorem settled? (later : Later x g x₁ g₁) (h₁ : Exact languages x₁ g₁) (stands : x₁.Stands g₁ w k)
    (below : 8 * w.rank + 7 < v) :
    (weighing languages).Ends x₁ g₁ (fun ask => Compaction.settled? ask k) fun _ _ found =>
      (found = some [] → w.sense = 0) ∧
      ∀ head, found = some [head] → w.sense = 1 ∧ head.hashable = true := by
  refine .bind (t.evaluate lower .epsLike later h₁ stands below) fun x₂ g₂ r later₂ h₂ fits => ?_
  cases r with
  | false => exact .pure h₂ ⟨fun none => (nomatch none), fun _ none => (nomatch none)⟩
  | true =>
    refine .bind (t.evaluate lower .forest (later.trans later₂) h₂ (later₂.stands stands) below)
      fun x₃ g₃ ws later₃ h₃ fits' => ?_
    have le := fits.1 rfl
    refine .pure h₃ ⟨fun none => ?_, fun head one => ?_⟩
    · obtain rfl := Option.some.inj none
      exact eq_zero_of_le_one le fun nil => fits'.2.mpr nil rfl
    · obtain rfl := Option.some.inj one
      exact ⟨eq_one_of_le_one le (fits'.2.mp (List.cons_ne_nil head [])),
        fits'.1 head List.mem_cons_self⟩

/-- The choice between two nodes that lie lower. -/
theorem compactAlt {a b : NodeId} (later : Later x g x₁ g₁) (h₁ : Exact languages x₁ g₁)
    (first : x₁.Stands g₁ u a) (second : x₁.Stands g₁ w b) (below : 8 * u.rank + 7 < v)
    (below' : 8 * w.rank + 7 < v) {r : Weight (Language Value)}
    (sense : r.sense = u.sense + w.sense) (ranks : u.rank < r.rank ∧ w.rank < r.rank) :
    (weighing languages).Ends x₁ g₁ (fun ask => Compaction.alt ask a b) fun x' g' m =>
      x'.Stands g' r m := by
  refine .bind (t.evaluate lower .emptyLike later h₁ first below) fun x₂ g₂ none step₂ h₂ fits => ?_
  have later₂ := later.trans step₂
  have second := step₂.stands second
  cases none with
  | true =>
    refine .imp (t.evaluate lower .compact later₂ h₂ second below') fun _ _ _ _ _ stands => ?_
    refine Stands.mono (w := w) stands ⟨?_, Nat.le_of_lt ranks.2⟩
    rw [sense, fits.mp rfl, zero_add]
  | false =>
    refine .bind (t.evaluate lower .emptyLike later₂ h₂ second below')
      fun x₃ g₃ none step₃ h₃ fits' => ?_
    have first := (step₂.trans step₃).stands first
    cases none with
    | true =>
      refine .imp (t.evaluate lower .compact (later₂.trans step₃) h₃ first below)
        fun _ _ _ _ _ stands => ?_
      refine Stands.mono (w := u) stands ⟨?_, Nat.le_of_lt ranks.1⟩
      rw [sense, fits'.mp rfl, add_zero]
    | false =>
      exact h₃.alt (Exact.offers_compacted first)
        (Exact.offers_compacted (step₃.stands second)) sense ranks

/-- The concatenation of two nodes that lie lower. -/
theorem compactCat {a b : NodeId} (later : Later x g x₁ g₁) (h₁ : Exact languages x₁ g₁)
    (first : x₁.Stands g₁ u a) (second : x₁.Stands g₁ w b) (below : 8 * u.rank + 7 < v)
    (below' : 8 * w.rank + 7 < v) {r : Weight (Language Value)}
    (sense : r.sense = u.sense * w.sense) (ranks : u.rank < r.rank ∧ w.rank < r.rank) :
    (weighing languages).Ends x₁ g₁ (fun ask => Compaction.cat ask a b) fun x' g' m =>
      x'.Stands g' r m := by
  refine .bind (t.settled? lower later h₁ first below) fun x₂ g₂ head step₂ h₂ heads => ?_
  have first := step₂.stands first
  have second := step₂.stands second
  split
  · refine .pure h₂ (h₂.empty_stands (sense.trans (mul_eq_zero_iff.mpr (.inl (heads.1 rfl)))))
  · next head =>
    obtain ⟨one, hashable⟩ := heads.2 head rfl
    refine h₂.reduction (Transform.total_prepend hashable) (Exact.offers_compacted second) ?_
      ranks.2
    rw [sense, one, one_mul]
  · refine .bind (t.settled? lower (later.trans step₂) h₂ second below')
      fun x₃ g₃ tail step₃ h₃ tails => ?_
    split
    · exact .pure h₃ (h₃.empty_stands (sense.trans (mul_eq_zero_iff.mpr (.inr (tails.1 rfl)))))
    · next tail =>
      obtain ⟨one, hashable⟩ := tails.2 tail rfl
      refine h₃.reduction (Transform.total_append hashable)
        (Exact.offers_compacted (step₃.stands first)) ?_ ranks.1
      rw [sense, one, mul_one]
    · exact h₃.cat (Exact.offers_compacted (step₃.stands first))
        (Exact.offers_compacted (step₃.stands second)) sense ranks

theorem compactRed {transform : Transform} (total : transform.Total) (later : Later x g x₁ g₁)
    (h₁ : Exact languages x₁ g₁) (inner : x₁.Stands g₁ u k) (below : 8 * u.rank + 7 < v)
    {r : Weight (Language Value)} (sense : r.sense = u.sense) (rank : u.rank < r.rank) :
    (weighing languages).Ends x₁ g₁ (fun ask => Compaction.red ask k transform) fun x' g' m =>
      x'.Stands g' r m := by
  have turn : Turn languages v x₁ g₁ k := by
    refine ⟨h₁, later.busy t.busy, inner.lt, ?_⟩
    have := inner.within.rank
    omega
  have same := inner.within.sense
  have low := inner.within.rank
  refine .read (p := fun g => g.node k) ?_
  split
  · next kind =>
    have member := Node.mem_sides_of_single (.inr (.inr kind))
    have lies := turn.slot_lower member
    refine .bind (turn.child lower (.refl x₁ g₁) h₁ member) fun x₂ g₂ m step₂ h₂ nested => ?_
    refine h₂.reduction (total.compose (turn.weighs.red kind)) (Exact.offers_compacted nested) ?_
      (by omega)
    rw [sense, ← same, turn.sense_of_kind kind]
    rfl
  · next kind =>
    have member := Node.mem_sides_of_pair (.inl kind)
    have lies := turn.slot_lower (member .second)
    refine .bind (turn.child lower (.refl x₁ g₁) h₁ (member .first))
      fun x₂ g₂ m step₂ h₂ first => ?_
    refine .bind (turn.settled? lower step₂ h₂ first (turn.slot_below (member .first)))
      fun x₃ g₃ found step₃ h₃ heads => ?_
    have later₃ := step₂.trans step₃
    split
    · next head =>
      obtain ⟨one, hashable⟩ := heads.2 head rfl
      refine .bind (turn.child lower later₃ h₃ (member .second))
        fun x₄ g₄ rest step₄ h₄ second => ?_
      refine h₄.reduction (total.compose (Transform.total_prepend hashable))
        (Exact.offers_compacted second) ?_ (by omega)
      rw [sense, ← same, turn.sense_of_kind kind]
      change (x₁ ((g₁.node k).slot .first)).sense * _ = _
      rw [one, one_mul]
      rfl
    · exact h₃.reduction total (Exact.offers_compacted (later₃.stands inner)) sense rank
  · exact h₁.reduction total (Exact.offers_compacted inner) sense rank

theorem compound (later : Later x g x₁ g₁) (h₁ : Exact languages x₁ g₁)
    (takes : ¬ (x (.node n)).sense ≤ 1) (parts : (g.node n).kind ≠ .char) :
    (weighing languages).Ends x₁ g₁ (fun ask => Compaction.compound ask n) fun x' g' m =>
      x'.Stands g' (x (.node n)) m := by
  have kinds := later.kind t.lt
  have transform := Node.transform_of_bare (later.evolves.bare n t.lt)
  refine .read (p := fun g => g.node n) ?_
  rw [kinds, transform]
  have language {kind : Kind} (hk : (g.node n).kind = kind) := t.sense_of_kind hk
  cases kind : (g.node n).kind with
  | placeholder => exact absurd kind t.weighs.complete
  | other name => exact absurd kind (t.weighs.known name)
  | empty => exact absurd ((language kind).le.trans bot_le) takes
  | eps => exact absurd (language kind).le takes
  | delta => exact absurd ((language kind).le.trans meet_one_le_one) takes
  | char => exact absurd kind parts
  | rep =>
    have member := Node.mem_sides_of_single (.inl kind)
    refine .bind (t.child lower later h₁ member) fun x₂ g₂ a step₂ h₂ inner => ?_
    exact h₂.rep (Exact.offers_compacted inner) (language kind) (t.slot_lower member)
  | red =>
    have member := Node.mem_sides_of_single (.inr (.inr kind))
    refine .bind (t.child lower later h₁ member) fun x₂ g₂ a step₂ h₂ inner => ?_
    exact t.compactRed lower (t.weighs.red kind) (later.trans step₂) h₂ inner (t.slot_below member)
      (language kind) (t.slot_lower member)
  | alt =>
    have member := Node.mem_sides_of_pair (.inr kind)
    refine t.children lower later h₁ member fun later₃ h₃ first second => ?_
    exact t.compactAlt lower later₃ h₃ first second
      (t.slot_below (member .first)) (t.slot_below (member .second)) (language kind)
      ⟨t.slot_lower (member .first), t.slot_lower (member .second)⟩
  | cat =>
    have member := Node.mem_sides_of_pair (.inl kind)
    refine t.children lower later h₁ member fun later₃ h₃ first second => ?_
    exact t.compactCat lower later₃ h₃ first second
      (t.slot_below (member .first)) (t.slot_below (member .second)) (language kind)
      ⟨t.slot_lower (member .first), t.slot_lower (member .second)⟩

theorem compact (level : 8 * (x (.node n)).rank + Evaluator.index .compact = v) :
    (weighing languages).Ends x g (fun ask => Compaction.compact ask n) fun x' g' m =>
      x'.Fits languages g' (x (.node n)) .compact m := by
  -- The other evaluators of the node come before compaction.
  have itself (i : Evaluator) (before : i.index < Evaluator.index .compact) {x₁ g₁}
      (later : Later x g x₁ g₁) (h₁ : Exact languages x₁ g₁) :
      (weighing languages).Ends x₁ g₁ (fun ask => i.ask ask n) fun x' g' r =>
        x'.Fits languages g' (x (.node n)) i r := by
    have turn := t.later later h₁
    rw [← later.node t.lt] at level ⊢
    exact lower.evaluate i h₁ turn.busy turn.lt (by omega)
  have same : x.Stands g (x (.node n)) n := ⟨t.lt, .refl _⟩
  refine .read (p := fun g => (g.node n).kind) ?_
  split
  · exact .pure t.valid same
  · exact .pure t.valid same
  · exact .pure t.valid same
  · next parts =>
    refine .bind (itself .emptyLike (by decide) (.refl x g) t.valid)
      fun x₁ g₁ none later₁ h₁ fits => ?_
    cases none with
    | true => exact .pure h₁ (h₁.empty_stands (fits.mp rfl))
    | false =>
      refine .bind (itself .epsLike (by decide) later₁ h₁) fun x₂ g₂ likely step₂ h₂ fits' => ?_
      have later₂ := later₁.trans step₂
      cases likely with
      | false =>
        refine t.compound lower later₂ h₂ (fun le => ?_) parts
        rcases fits'.2 le with yes | none
        · cases yes
        · cases fits.mpr none
      | true =>
        refine .bind (itself .forest (by decide) later₂ h₂) fun x₃ g₃ ws step₃ h₃ fits'' => ?_
        have le := fits'.1 rfl
        split
        · exact .pure h₃ (h₃.empty_stands (eq_zero_of_le_one le fun nil => fits''.2.mpr nil rfl))
        · next some_ =>
          exact h₃.eps some_ fits''.1 (eq_one_of_le_one le (fits''.2.mp some_))

end Turn

end Gauge

end GrammarGraph
