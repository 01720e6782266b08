import GrammarGraph.Proofs.Soundness.Emptiness

/-! Derivatives under the regime of soundness: a derivative gives a sentence only if the
node gives the symbol followed by it. -/
namespace GrammarGraph

variable {ω : Type} {A : Worth ω} {embed : Value → ω} {plan : Blueprint} {M M' : Meaning ω}
  {g g' : Graph} {n : NodeId} {c : Value}

/-- A part of a node as an operand means no more than the part did before. -/
theorem Meaning.Later.offers_part (h : M.Later g M' g') (formed : g'.Formed) {side : Side}
    (lt : n < g.nodes.size) {child : Option NodeId}
    (there : ∀ k, child = some k → (g'.node n).slot side = .node k) :
    M'.Offers g' (M.parts (g.node n) side) (.ofChild child) := by
  cases child with
  | none => trivial
  | some k =>
    have slot := there k rfl
    refine ⟨formed.node_lt slot, fun s w hw => h.narrow n lt side s w ?_⟩
    rwa [slot]

/-- The deferred derivative of a part. -/
theorem Meaning.offers_derivative (M : Meaning ω) (side : Side)
    (known : (g.node n).kind ≠ .placeholder) :
    M.Offers g (fun s w => M.parts (g.node n) side (c.numeric :: s) w)
      (.deferred (.derivative c n side)) :=
  ⟨known, fun _ _ hw => hw⟩

theorem Meaning.Later.follows_of (h : M.Later g M' g') (lt : n < g.nodes.size) {d : NodeId}
    {P : List Value → ω → Prop} (confined : M'.Confines g' (.node d) P)
    (fits : ∀ s w, P s w → M (.node n) (c.numeric :: s) w) : M'.Follows g' c n d :=
  ⟨Nat.lt_of_lt_of_le lt h.evolves.size, confined.1, fun s w hw => by
    rw [h.node lt]
    exact fits s w (confined.2 s w hw)⟩

namespace Ask.Honest

variable {ask : Ask} (honest : ask.Honest A embed plan)
include honest

theorem derive (embeds : A.Embeds embed) (h : Sound A embed plan M g) (lt : n < g.nodes.size) :
    (soundness A embed plan).After M g (Derivative.derive ask c n) fun M' g' d =>
      M'.Follows g' c n d := by
  have finish {r : Run NodeId} {P : List Value → ω → Prop}
      (ends : (soundness A embed plan).After M g r fun M' g' d => M'.Confines g' (.node d) P)
      (fits : ∀ s w, P s w → M (.node n) (c.numeric :: s) w) :
      (soundness A embed plan).After M g r fun M' g' d => M'.Follows g' c n d :=
    ends.imp fun _ _ _ later _ confined => later.follows_of lt confined fits
  have rule {s w} (hw : Clause A (M.parts (g.node n)) (g.node n) s w) : M (.node n) s w :=
    h.supports.node hw
  refine .read (f := fun g => g.node n) ?_
  dsimp only
  cases kind : (g.node n).kind with
  | empty | eps | delta =>
    exact finish (.pure h (h.empty_confines (P := fun _ _ => False))) fun _ _ hw => hw.elim
  | char =>
    dsimp only
    split
    · next same =>
      refine finish (h.eps embeds (List.cons_ne_nil c [])) ?_
      rintro _ _ ⟨rfl, v, member, rfl⟩
      rw [List.mem_singleton.mp member]
      exact rule (.char kind same (embeds.symbol c))
    · exact finish (.pure h (h.empty_confines (P := fun _ _ => False))) fun _ _ hw => hw.elim
  | alt =>
    have part (side : Side) := M.offers_derivative (n := n) (c := c) side (by rw [kind]; decide)
    refine finish (h.alt (part .first) (part .second)) fun s w hw => ?_
    rcases hw with hw | hw
    · exact rule (.alt .first kind hw)
    · exact rule (.alt .second kind hw)
  | rep =>
    have part := M.offers_derivative (n := n) (c := c) .first (by rw [kind]; decide)
    have whole : M.Offers g (M (.node n)) (.node n) := ⟨lt, fun _ _ hw => hw⟩
    refine finish (h.cat part whole (.inl rfl)) ?_
    rintro _ _ ⟨s₁, s₂, u, v, rfl, rfl, first, rest⟩
    exact h.supports.again kind first rest
  | red =>
    have part := M.offers_derivative (n := n) (c := c) .first (by rw [kind]; decide)
    refine finish (h.reduction part _) ?_
    rintro s w ⟨v, hv, image⟩
    exact rule (.red kind hv image)
  | cat =>
    have part (side : Side) := M.offers_derivative (n := n) (c := c) side (by rw [kind]; decide)
    refine .imp (Q := fun M' g' d => M'.Confines g' (.node d) fun s w => M (.node n) (c.numeric :: s) w)
      ?_ fun M' g' d later _ confined => later.follows_of lt confined fun _ _ hw => hw
    refine .bind (honest.child? h .first lt) fun M₁ g₁ first later₁ h₁ there => ?_
    refine .bind (h₁.delta (later₁.offers_part h₁.formed lt there))
      fun M₂ g₂ vanished later₂ h₂ nulls => ?_
    have later₂ := later₁.trans later₂
    have nulls : M₂.Offers g₂ _ (.node vanished) := nulls
    refine .bind (h₂.cat nulls (later₂.offers (part .second)) (.inr rfl))
      fun M₃ g₃ skipping later₃ h₃ skips => ?_
    have later₃ := later₂.trans later₃
    refine .bind (honest.child? h₃ .second (Nat.lt_of_lt_of_le lt later₃.evolves.size))
      fun M₄ g₄ second later₄ h₄ there => ?_
    have skips := later₄.confines skips
    have later₄ := later₃.trans later₄
    refine .bind (h₄.cat (later₄.offers (part .first))
      (later₄.offers_part h₄.formed lt there) (.inl rfl)) fun M₅ g₅ taking later₅ h₅ takes => ?_
    have skips : M₅.Offers g₅ _ (.node skipping) := later₅.confines skips
    have takes : M₅.Offers g₅ _ (.node taking) := takes
    refine .imp (h₅.alt skips takes) fun _ _ _ _ _ confined => confined.imp fun s w hw => ?_
    rcases hw with ⟨s₁, s₂, u, v, rfl, rfl, ⟨rfl, hu⟩, hv⟩ | ⟨s₁, s₂, u, v, rfl, rfl, hu, hv⟩
    · exact rule (.cat kind hu hv)
    · exact rule (.cat kind hu hv)
  | placeholder | other => exact .fault h

end Ask.Honest

end GrammarGraph
