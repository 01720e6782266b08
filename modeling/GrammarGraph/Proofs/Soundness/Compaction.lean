import GrammarGraph.Proofs.Soundness.Emptiness

/-! Compaction under the regime of soundness: a compacted node gives nothing that the node
does not give. The answers about emptiness only decide which of several smaller nodes is
made; what a settled part adds is taken from its forest. -/
namespace GrammarGraph

variable {ω : Type} {A : Worth ω} {embed : Value → ω} {plan : Blueprint} {M M' : Meaning ω}
  {g g' : Graph} {n : NodeId} {P Q : List Value → ω → Prop}

theorem Meaning.Confines.lt (h : M.Confines g (.node n) P) : n < g.nodes.size := h.1

theorem Meaning.Confines.later (h : M.Confines g (.node n) P) :
    M.Offers g P (Compaction.later n) :=
  ⟨h.1, h.2⟩

theorem Sound.confines (h : Sound A embed plan M g) {side : Side} {k : NodeId}
    (slot : (g.node n).slot side = .node k) :
    M.Confines g (.node k) (M.parts (g.node n) side) :=
  ⟨h.formed.node_lt slot, fun s w hw => by rwa [Meaning.parts, slot]⟩

/-- The sentences and worths of a concatenation. -/
def Parts.chained (A : Worth ω) (P Q : List Value → ω → Prop) (s : List Value) (w : ω) : Prop :=
  ∃ s₁ s₂ u v, s = s₁ ++ s₂ ∧ w = A.pair u v ∧ P s₁ u ∧ Q s₂ v

/-- Those of a reduction. -/
def Parts.reduced (A : Worth ω) (transform : Transform) (P : List Value → ω → Prop)
    (s : List Value) (w : ω) : Prop :=
  ∃ v, P s v ∧ A.image transform v w

/-- A run that gives something within what `n` means. -/
theorem Sound.bounds {r : Run NodeId} (lt : n < g.nodes.size)
    (ends : (soundness A embed plan).After M g r fun M' g' m => M'.Confines g' (.node m) P)
    (fits : ∀ s w, P s w → M (.node n) s w) :
    (soundness A embed plan).After M g r fun M' g' m => M'.Bounds g' n m :=
  ends.imp fun _ _ _ later _ confined =>
    ⟨Nat.lt_of_lt_of_le lt later.evolves.size, confined.1, fun s w hw => by
      rw [later.node lt]
      exact fits s w (confined.2 s w hw)⟩

namespace Ask.Honest

variable {ask : Ask} (honest : ask.Honest A embed plan) (embeds : A.Embeds embed)
include honest

theorem settled? (h : Sound A embed plan M g) (confined : M.Confines g (.node n) P) :
    (soundness A embed plan).After M g (Compaction.settled? ask n) fun _ _ found =>
      ∀ ws, found = some ws → ∀ w ∈ ws, P [] (embed w) := by
  refine .bind (honest h (.epsLike n) confined.lt) fun M₁ g₁ likely later h₁ _ => ?_
  have confined := later.confines confined
  cases likely with
  | false => exact .pure h₁ fun _ none => by cases none
  | true =>
    refine .bind (honest h₁ (.forest n) confined.lt) fun M₂ g₂ ws later h₂ witnesses => ?_
    refine .pure h₂ ?_
    rintro _ ⟨⟩ w member
    exact (later.confines confined).2 _ _ (witnesses.2 w member)

theorem compactAlt (h : Sound A embed plan M g) {a b : NodeId}
    (first : M.Confines g (.node a) P) (second : M.Confines g (.node b) Q) :
    (soundness A embed plan).After M g (Compaction.alt ask a b) fun M' g' m =>
      M'.Confines g' (.node m) fun s w => P s w ∨ Q s w := by
  have one {M g} (h : Sound A embed plan M g) {k : NodeId} {P : List Value → ω → Prop}
      (confined : M.Confines g (.node k) P) :
      (soundness A embed plan).After M g (ask.compact k) fun M' g' m =>
        M'.Confines g' (.node m) P :=
    .imp (honest h (.compact k) confined.lt) fun _ _ _ later _ bounds =>
      ⟨bounds.2.1, fun s w hw => (later.confines confined).2 s w (bounds.2.2 s w hw)⟩
  refine .bind (honest h (.emptyLike a) first.lt) fun M₁ g₁ none later₁ h₁ _ => ?_
  cases none with
  | true => exact .imp (one h₁ (later₁.confines second)) fun _ _ _ _ _ confined =>
      confined.imp fun _ _ => .inr
  | false =>
    refine .bind (honest h₁ (.emptyLike b) (later₁.confines second).lt)
      fun M₂ g₂ none later₂ h₂ _ => ?_
    have first := later₂.confines (later₁.confines first)
    have second := later₂.confines (later₁.confines second)
    cases none with
    | true => exact .imp (one h₂ first) fun _ _ _ _ _ confined => confined.imp fun _ _ => .inl
    | false => exact h₂.alt first.later second.later

include embeds

theorem compactCat (h : Sound A embed plan M g) {a b : NodeId}
    (first : M.Confines g (.node a) P) (second : M.Confines g (.node b) Q) :
    (soundness A embed plan).After M g (Compaction.cat ask a b) fun M' g' m =>
      M'.Confines g' (.node m) (Parts.chained A P Q) := by
  have plain {M g} (h : Sound A embed plan M g) (first : M.Confines g (.node a) P)
      (second : M.Confines g (.node b) Q) :
      (soundness A embed plan).After M g
        (Grammar.cat (Compaction.later a) (Compaction.later b)) fun M' g' m =>
        M'.Confines g' (.node m) (Parts.chained A P Q) :=
    h.cat first.later second.later (.inl rfl)
  refine .bind (honest.settled? h first) fun M₁ g₁ found later₁ h₁ head => ?_
  have first := later₁.confines first
  have second := later₁.confines second
  split
  · exact .pure h₁ h₁.empty_confines
  · next u =>
    refine .imp (h₁.reduction second.later _) fun _ _ _ _ _ confined => confined.imp ?_
    rintro s w ⟨v, hv, image⟩
    exact ⟨[], s, embed u, v, rfl, embeds.image_prepend image,
      head _ rfl u (List.mem_singleton_self u), hv⟩
  · refine .bind (honest.settled? h₁ second) fun M₂ g₂ found later₂ h₂ tail => ?_
    have first := later₂.confines first
    have second := later₂.confines second
    split
    · exact .pure h₂ h₂.empty_confines
    · next v =>
      refine .imp (h₂.reduction first.later _) fun _ _ _ _ _ confined => confined.imp ?_
      rintro s w ⟨u, hu, image⟩
      exact ⟨s, [], u, embed v, (List.append_nil s).symm, embeds.image_append image, hu,
        tail _ rfl v (List.mem_singleton_self v)⟩
    · exact plain h₂ first second

theorem compactRed (h : Sound A embed plan M g) {inner : NodeId} (transform : Transform)
    (confined : M.Confines g (.node inner) P) :
    (soundness A embed plan).After M g (Compaction.red ask inner transform) fun M' g' m =>
      M'.Confines g' (.node m) (Parts.reduced A transform P) := by
  have plain {M g} (h : Sound A embed plan M g) (confined : M.Confines g (.node inner) P) :
      (soundness A embed plan).After M g
        (Grammar.reduction (Compaction.later inner) transform) fun M' g' m =>
        M'.Confines g' (.node m) (Parts.reduced A transform P) :=
    h.reduction confined.later transform
  refine .read (f := fun g => g.node inner) ?_
  split
  · next kind =>
    refine .bind (honest.child h .first confined.lt) fun M₁ g₁ nested later₁ h₁ slot => ?_
    have kind := later₁.evolves.kind_eq kind (by decide)
    have same := Node.transform_of_bare (later₁.evolves.bare inner confined.lt)
    have confined := later₁.confines confined
    refine .imp (h₁.reduction (h₁.confines slot).later _) fun _ _ _ _ _ made => made.imp ?_
    rintro s w ⟨v, hv, image⟩
    obtain ⟨m, first, last⟩ := embeds.image_compose image
    rw [← same] at first
    exact ⟨m, confined.2 s m (h₁.supports.node (.red kind hv first)), last⟩
  · next kind =>
    refine .bind (honest.child h .first confined.lt) fun M₁ g₁ a later₁ h₁ slot => ?_
    have confined := later₁.confines confined
    refine .bind (honest.settled? h₁ (h₁.confines slot)) fun M₂ g₂ found later₂ h₂ head => ?_
    have confined := later₂.confines confined
    split
    · next u =>
      refine .bind (honest.child h₂ .second confined.lt) fun M₃ g₃ rest later₃ h₃ slot' => ?_
      have confined := later₃.confines confined
      have evolves := (later₁.trans (later₂.trans later₃)).evolves
      have kind := evolves.kind_eq kind (by decide)
      have first : M₃.parts (g₃.node inner) .first [] (embed u) := by
        have held := (later₂.trans later₃).evolves.filled slot
        have head := head _ rfl u (List.mem_singleton_self u)
        rw [Meaning.parts, slot] at head
        rw [Meaning.parts, held, (later₂.trans later₃).node (h₁.formed.node_lt slot)]
        exact head
      refine .imp (h₃.reduction (h₃.confines slot').later _) fun _ _ _ _ _ made => made.imp ?_
      rintro s w ⟨v, hv, image⟩
      obtain ⟨m, paired, last⟩ := embeds.image_compose image
      obtain rfl := embeds.image_prepend paired
      exact ⟨_, confined.2 s _ (h₃.supports.node (.cat kind first hv)), last⟩
    · exact plain h₂ confined
  · exact plain h confined

theorem compound (h : Sound A embed plan M g) (lt : n < g.nodes.size) :
    (soundness A embed plan).After M g (Compaction.compound ask n) fun M' g' m =>
      M'.Bounds g' n m := by
  refine .read (f := fun g => g.node n) ?_
  cases kind : (g.node n).kind with
  | empty | eps | char | delta | placeholder | other => exact .fault h
  | rep =>
    refine .bind (honest.child h .first lt) fun M₁ g₁ a later h₁ slot => ?_
    have kind := later.evolves.kind_eq kind (by decide)
    refine Sound.bounds (Nat.lt_of_lt_of_le lt later.evolves.size) (h₁.rep (h₁.confines slot).later) ?_
    exact fun s w hw => h₁.supports.node (.rep kind hw)
  | red =>
    refine .bind (honest.child h .first lt) fun M₁ g₁ a later h₁ slot => ?_
    have kind := later.evolves.kind_eq kind (by decide)
    have same := Node.transform_of_bare (later.evolves.bare n lt)
    refine Sound.bounds (Nat.lt_of_lt_of_le lt later.evolves.size)
      (honest.compactRed embeds h₁ _ (h₁.confines slot)) ?_
    rintro s w ⟨v, hv, image⟩
    rw [← same] at image
    exact h₁.supports.node (.red kind hv image)
  | alt =>
    refine honest.onChildren h lt fun later h₂ first second => ?_
    have kind := later.evolves.kind_eq kind (by decide)
    refine Sound.bounds (Nat.lt_of_lt_of_le lt later.evolves.size)
      (honest.compactAlt h₂ (h₂.confines first) (h₂.confines second)) fun s w hw => ?_
    rcases hw with hw | hw
    · exact h₂.supports.node (.alt .first kind hw)
    · exact h₂.supports.node (.alt .second kind hw)
  | cat =>
    refine honest.onChildren h lt fun later h₂ first second => ?_
    have kind := later.evolves.kind_eq kind (by decide)
    refine Sound.bounds (Nat.lt_of_lt_of_le lt later.evolves.size)
      (honest.compactCat embeds h₂ (h₂.confines first) (h₂.confines second)) ?_
    rintro s w ⟨s₁, s₂, u, v, rfl, rfl, hu, hv⟩
    exact h₂.supports.node (.cat kind hu hv)

theorem compact (h : Sound A embed plan M g) (lt : n < g.nodes.size) :
    (soundness A embed plan).After M g (Compaction.compact ask n) fun M' g' m =>
      M'.Bounds g' n m := by
  have same : M.Bounds g n n := ⟨lt, lt, fun _ _ hw => hw⟩
  have nothing {M g} (h : Sound A embed plan M g) (lt : n < g.nodes.size) :
      M.Bounds g n .empty :=
    ⟨lt, (h.empty_confines (P := M (.node n))).1, h.empty_confines.2⟩
  refine .read (f := fun g => (g.node n).kind) ?_
  split
  · exact .pure h same
  · exact .pure h same
  · exact .pure h same
  refine .bind (honest h (.emptyLike n) lt) fun M₁ g₁ none later₁ h₁ _ => ?_
  have lt := Nat.lt_of_lt_of_le lt later₁.evolves.size
  cases none with
  | true => exact .pure h₁ (nothing h₁ lt)
  | false =>
    refine .bind (honest h₁ (.epsLike n) lt) fun M₂ g₂ likely later₂ h₂ _ => ?_
    have lt := Nat.lt_of_lt_of_le lt later₂.evolves.size
    cases likely with
    | false => exact honest.compound embeds h₂ lt
    | true =>
      refine .bind (honest h₂ (.forest n) lt) fun M₃ g₃ ws later₃ h₃ witnesses => ?_
      have lt := Nat.lt_of_lt_of_le lt later₃.evolves.size
      cases ws with
      | nil => exact .pure h₃ (nothing h₃ lt)
      | cons w ws =>
        refine Sound.bounds lt (h₃.eps embeds (List.cons_ne_nil w ws)) ?_
        rintro _ _ ⟨rfl, v, member, rfl⟩
        exact witnesses.2 v member

end Ask.Honest

end GrammarGraph
