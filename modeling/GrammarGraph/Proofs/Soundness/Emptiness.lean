import GrammarGraph.Proofs.History
import GrammarGraph.Proofs.Soundness.Constructors

/-! Children, nullability and forests under the regime of soundness. The predicates that
steer compaction have no bound to meet; their answers are trusted by nothing. -/
namespace GrammarGraph

variable {ω : Type} {A : Worth ω} {embed : Value → ω} {plan : Blueprint} {M M' : Meaning ω}
  {g g' : Graph} {n : NodeId}

/-- The bound that an answer must meet. -/
def Meaning.Answers (A : Worth ω) (embed : Value → ω) (M : Meaning ω) (g : Graph) :
    (q : Query) → q.Answer → Prop
  | .child n side, c => ∀ k, c = some k → (g.node n).slot side = .node k
  | .nullable n, v => v = true → M.Nulls A g n
  | .forest n, ws => M.Witnesses embed g n ws
  | .compact n, m => M.Bounds g n m
  | .derive c n, d => M.Follows g c n d
  | .emptyLike _, _ | .epsLike _, _ | .nodeCount _, _ => True

/-- Whatever is asked in a graph that is in order, the answer meets its bound. -/
def Ask.Honest (ask : Ask) (A : Worth ω) (embed : Value → ω) (plan : Blueprint) : Prop :=
  ∀ {M g}, Sound A embed plan M g → ∀ q : Query, q.node < g.nodes.size →
    (soundness A embed plan).After M g (ask q) fun M' g' a => M'.Answers A embed g' q a

theorem Sound.setForcing (h : Sound A embed plan M g) (cell : CellId) (mark : Bool) :
    Sound A embed plan M (g.setForcing cell mark) :=
  ⟨h.formed.setForcing cell mark,
    ⟨h.supports.node, h.supports.again, h.supports.atom, fun hs hw =>
      h.supports.cell (by rwa [Graph.suspension_setForcing] at hs) hw⟩,
    h.made, h.concrete, h.denotes, h.derivatives, h.nullable, h.forests, h.compacted⟩

/-- A slot is filled with a node that means no more than the slot did. -/
theorem Sound.setSlot (h : Sound A embed plan M g) {k : NodeId} {side : Side}
    (evolves : g.Evolves (g.setSlot n side (.node k)))
    (fits : M.Confines g (.node k) (M ((g.node n).slot side))) :
    M.Later g M (g.setSlot n side (.node k)) ∧
      Sound A embed plan M (g.setSlot n side (.node k)) := by
  have narrow (m : NodeId) (other : Side) (s w)
      (hw : M (((g.setSlot n side (.node k)).node m).slot other) s w) :
      M ((g.node m).slot other) s w := by
    rcases g.slot_setSlot_cases n side (.node k) m other with same | ⟨rfl, rfl, new⟩
    · rwa [same] at hw
    · rw [new] at hw
      exact fits.2 s w hw
  have later : M.Later g M (g.setSlot n side (.node k)) :=
    ⟨evolves, fun _ _ => rfl, fun m _ other => narrow m other⟩
  have bare := g.bare_setSlot n side (.node k)
  refine ⟨later, h.grow later (h.formed.setSlot fits.1) ⟨?_, ?_, ?_, ?_⟩ rfl rfl rfl rfl⟩
  · intro m s w hr
    exact h.supports.node (hr.mono (bare m).symm (narrow m))
  · intro m c s u t v kind first rest
    rw [Node.kind_of_bare (bare m)] at kind
    exact h.supports.again kind (narrow m .first _ _ first) rest
  · intro m s w atomic known hw
    rw [Node.kind_of_bare (bare m)] at atomic known
    exact (h.supports.atom atomic known hw).atomic atomic (bare m)
  · intro cell suspension s w hs hw
    exact h.supports.cell hs (later.ofSuspension (h.formed.allows hs) hw)

namespace Ask.Honest

variable {ask : Ask} (honest : ask.Honest A embed plan)
include honest

theorem child? (h : Sound A embed plan M g) (side : Side) (lt : n < g.nodes.size) :
    (soundness A embed plan).After M g (ask.child? n side) fun _ g' c =>
      ∀ k, c = some k → (g'.node n).slot side = .node k :=
  honest h (.child n side) lt

theorem child (h : Sound A embed plan M g) (side : Side) (lt : n < g.nodes.size) :
    (soundness A embed plan).After M g (ask.child n side) fun _ g' k =>
      (g'.node n).slot side = .node k := by
  refine .bind (honest.child? h side lt) fun M₁ g₁ c _ h₁ hc => ?_
  cases c with
  | none => exact .fault h₁
  | some k => exact .pure h₁ (hc k rfl)

/-- A question about a child. -/
theorem onChild {α : Type} {f : NodeId → Run α} {Q : Meaning ω → Graph → α → Prop}
    (h : Sound A embed plan M g) (side : Side) (lt : n < g.nodes.size)
    (hf : ∀ {M₁ g₁ k}, M.Later g M₁ g₁ → Sound A embed plan M₁ g₁ →
      (g₁.node n).slot side = .node k → k < g₁.nodes.size →
      (soundness A embed plan).After M₁ g₁ (f k) Q) :
    (soundness A embed plan).After M g (do f (← ask.child n side)) Q :=
  .bind (honest.child h side lt) fun _ _ _ later h₁ hk => hf later h₁ hk (h₁.formed.node_lt hk)

/-- Both children are read, one after the other. -/
theorem onChildren {α : Type} {f : NodeId → NodeId → Run α} {Q : Meaning ω → Graph → α → Prop}
    (h : Sound A embed plan M g) (lt : n < g.nodes.size)
    (hf : ∀ {M' g' a b}, M.Later g M' g' → Sound A embed plan M' g' →
      (g'.node n).slot .first = .node a → (g'.node n).slot .second = .node b →
      (soundness A embed plan).After M' g' (f a b) Q) :
    (soundness A embed plan).After M g
      (do f (← ask.child n .first) (← ask.child n .second)) Q := by
  refine .bind (honest.child h .first lt) fun M₁ g₁ a later h₁ first => ?_
  refine .bind (honest.child h₁ .second (Nat.lt_of_lt_of_le lt later.evolves.size))
    fun M₂ g₂ b later' h₂ second => ?_
  exact hf (later.trans later') h₂ (later'.evolves.filled first) second

end Ask.Honest

/-- The part of `n` on a side is a node that is known to be nullable. -/
def Meaning.Vanishes (A : Worth ω) (M : Meaning ω) (g : Graph) (n : NodeId) (side : Side) : Prop :=
  ∃ k, (g.node n).slot side = .node k ∧ M.Nulls A g k

theorem Meaning.Later.vanishes (h : M.Later g M' g') {side : Side} (k : M.Vanishes A g n side) :
    M'.Vanishes A g' n side :=
  let ⟨m, slot, nulls⟩ := k
  ⟨m, h.evolves.filled slot, h.nulls nulls⟩

theorem Meaning.Vanishes.part {side : Side} (h : M.Vanishes A g n side) (plenty : A.Plentiful) :
    ∃ w, M.parts (g.node n) side [] w := by
  obtain ⟨k, slot, _, null⟩ := h
  obtain ⟨w, hw⟩ := null plenty
  exact ⟨w, by rwa [Meaning.parts, slot]⟩

namespace Ask.Honest

variable {ask : Ask} (honest : ask.Honest A embed plan)
include honest

theorem nullableChild (h : Sound A embed plan M g) (side : Side) (lt : n < g.nodes.size) :
    (soundness A embed plan).After M g (do ask.nullable (← ask.child n side)) fun M' g' v =>
      v = true → M'.Vanishes A g' n side := by
  refine honest.onChild h side lt fun _ h₁ slot klt => ?_
  refine .imp (honest h₁ (.nullable _) klt) fun _ _ _ later _ nulls answer => ?_
  exact ⟨_, later.evolves.filled slot, nulls answer⟩

theorem nullable (h : Sound A embed plan M g) (lt : n < g.nodes.size) :
    (soundness A embed plan).After M g (Emptiness.nullable ask n) fun M' g' v =>
      v = true → M'.Nulls A g' n := by
  have nulls {M' g'} (later : M.Later g M' g') (h' : Sound A embed plan M' g')
      (some_ : A.Plentiful → ∃ w, Clause A (M'.parts (g'.node n)) (g'.node n) [] w) :
      M'.Nulls A g' n :=
    ⟨Nat.lt_of_lt_of_le lt later.evolves.size, fun plenty =>
      (some_ plenty).imp fun _ hw => h'.supports.node hw⟩
  have now := Meaning.Later.refl M g
  refine .read (f := fun g => (g.node n).kind) ?_
  cases kind : (g.node n).kind with
  | empty | char => exact .pure h fun answer => by cases answer
  | eps =>
    refine .pure h fun _ => nulls now h fun plenty => ?_
    obtain ⟨w, hw⟩ := plenty.1 (g.node n).witnesses
    exact ⟨w, .eps kind hw⟩
  | rep => exact .pure h fun _ => nulls now h fun _ => ⟨_, .rep kind .none⟩
  | delta =>
    refine .imp (honest.nullableChild h .first lt) fun M' g' v later h' part answer => ?_
    refine nulls later h' fun plenty => ?_
    obtain ⟨w, hw⟩ := (part answer).part plenty
    exact ⟨w, .delta (later.evolves.kind_eq kind (by decide)) hw⟩
  | red =>
    refine .imp (honest.nullableChild h .first lt) fun M' g' v later h' part answer => ?_
    refine nulls later h' fun plenty => ?_
    obtain ⟨v, hv⟩ := (part answer).part plenty
    obtain ⟨w, hw⟩ := plenty.2 (g'.node n).transform v
    exact ⟨w, .red (later.evolves.kind_eq kind (by decide)) hv hw⟩
  | alt =>
    have side {M' g'} (side : Side) (later : M.Later g M' g') (h' : Sound A embed plan M' g')
        (part : M'.Vanishes A g' n side) : M'.Nulls A g' n := by
      refine nulls later h' fun plenty => ?_
      obtain ⟨w, hw⟩ := part.part plenty
      exact ⟨w, .alt side (later.evolves.kind_eq kind (by decide)) hw⟩
    refine .either (.imp (honest.nullableChild h .first lt) fun M₁ g₁ v later h₁ part =>
      ⟨fun answer _ => side .first later h₁ (part answer), fun _ => ?_⟩)
    refine .imp (honest.nullableChild h₁ .second (Nat.lt_of_lt_of_le lt later.evolves.size))
      fun M₂ g₂ v later' h₂ part answer => ?_
    exact side .second (later.trans later') h₂ (part answer)
  | cat =>
    refine .both (.imp (honest.nullableChild h .first lt) fun M₁ g₁ v later h₁ first =>
      ⟨fun _ answer => by (cases answer), fun yes => ?_⟩)
    refine .imp (honest.nullableChild h₁ .second (Nat.lt_of_lt_of_le lt later.evolves.size))
      fun M₂ g₂ v later' h₂ second answer => ?_
    refine nulls (later.trans later') h₂ fun plenty => ?_
    obtain ⟨u, hu⟩ := (later'.vanishes (first yes)).part plenty
    obtain ⟨v, hv⟩ := (second answer).part plenty
    exact ⟨_, .cat ((later.trans later').evolves.kind_eq kind (by decide)) hu hv⟩
  | placeholder | other => exact .fault h

theorem emptyLikeChild (h : Sound A embed plan M g) (side : Side) (lt : n < g.nodes.size) :
    (soundness A embed plan).After M g (do ask.emptyLike (← ask.child n side)) fun _ _ _ => True :=
  honest.onChild h side lt fun _ h₁ _ klt => honest h₁ (.emptyLike _) klt

theorem epsLikeChild (h : Sound A embed plan M g) (side : Side) (lt : n < g.nodes.size) :
    (soundness A embed plan).After M g (do ask.epsLike (← ask.child n side)) fun _ _ _ => True :=
  honest.onChild h side lt fun _ h₁ _ klt => honest h₁ (.epsLike _) klt

theorem emptyLike (h : Sound A embed plan M g) (lt : n < g.nodes.size) :
    (soundness A embed plan).After M g (Emptiness.emptyLike ask n) fun _ _ _ => True := by
  have other {M₁ g₁} (later : M.Later g M₁ g₁) (h₁ : Sound A embed plan M₁ g₁) :=
    honest.emptyLikeChild h₁ .second (Nat.lt_of_lt_of_le lt later.evolves.size)
  refine .read (f := fun g => (g.node n).kind) ?_
  cases (g.node n).kind with
  | empty | eps | char | rep => exact .pure h trivial
  | red => exact honest.emptyLikeChild h .first lt
  | alt => exact .both (.imp (honest.emptyLikeChild h .first lt) fun _ _ _ later h₁ _ =>
      ⟨fun _ => trivial, fun _ => other later h₁⟩)
  | cat => exact .either (.imp (honest.emptyLikeChild h .first lt) fun _ _ _ later h₁ _ =>
      ⟨fun _ => trivial, fun _ => other later h₁⟩)
  | delta =>
    exact honest.onChild h .first lt fun _ h₁ _ klt =>
      .bind (honest h₁ (.nullable _) klt) fun _ _ _ _ h₂ _ => .pure h₂ trivial
  | placeholder | other => exact .fault h

/-- Asking whether a node takes no symbols and whether it is empty, in either order. -/
theorem settled (h : Sound A embed plan M g) {k : NodeId} (lt : k < g.nodes.size) :
    (soundness A embed plan).After M g (Run.either (ask.epsLike k) (ask.emptyLike k))
      (fun _ _ _ => True) ∧
    (soundness A embed plan).After M g (Run.either (ask.emptyLike k) (ask.epsLike k))
      (fun _ _ _ => True) := by
  constructor
  · exact .either (.imp (honest h (.epsLike k) lt) fun _ _ _ later h₁ _ => ⟨fun _ => trivial,
      fun _ => honest h₁ (.emptyLike k) (Nat.lt_of_lt_of_le lt later.evolves.size)⟩)
  · exact .either (.imp (honest h (.emptyLike k) lt) fun _ _ _ later h₁ _ => ⟨fun _ => trivial,
      fun _ => honest h₁ (.epsLike k) (Nat.lt_of_lt_of_le lt later.evolves.size)⟩)

theorem epsLike (h : Sound A embed plan M g) (lt : n < g.nodes.size) :
    (soundness A embed plan).After M g (Emptiness.epsLike ask n) fun _ _ _ => True := by
  refine .read (f := fun g => (g.node n).kind) ?_
  cases (g.node n).kind with
  | empty | eps | char | delta => exact .pure h trivial
  | red => exact honest.epsLikeChild h .first lt
  | cat => exact .both (.imp (honest.epsLikeChild h .first lt) fun _ _ _ later h₁ _ =>
      ⟨fun _ => trivial, fun _ =>
        honest.epsLikeChild h₁ .second (Nat.lt_of_lt_of_le lt later.evolves.size)⟩)
  | rep => exact honest.onChild h .first lt fun _ h₁ _ klt => (honest.settled h₁ klt).2
  | alt =>
    refine honest.onChild h .first lt fun later h₁ _ klt => ?_
    refine honest.onChild h₁ .second (Nat.lt_of_lt_of_le lt later.evolves.size)
      fun later' h₂ _ klt' => ?_
    refine .both (.imp (honest.settled h₂ (Nat.lt_of_lt_of_le klt later'.evolves.size)).1
      fun _ _ _ later'' h₃ _ => ⟨fun _ => trivial, fun _ => ?_⟩)
    exact (honest.settled h₃ (Nat.lt_of_lt_of_le klt' later''.evolves.size)).1
  | placeholder | other => exact .fault h

end Ask.Honest

/-- The part of `n` on a side is a node that is known to have these witnesses. -/
def Meaning.Supplies (embed : Value → ω) (M : Meaning ω) (g : Graph) (n : NodeId) (side : Side)
    (ws : Forest) : Prop :=
  ∃ k, (g.node n).slot side = .node k ∧ M.Witnesses embed g k ws

theorem Meaning.Later.supplies (h : M.Later g M' g') {side : Side} {ws : Forest}
    (k : M.Supplies embed g n side ws) : M'.Supplies embed g' n side ws :=
  let ⟨m, slot, witnesses⟩ := k
  ⟨m, h.evolves.filled slot, h.witnesses witnesses⟩

theorem Meaning.Supplies.part {side : Side} {ws : Forest} (h : M.Supplies embed g n side ws)
    {w : Value} (member : w ∈ ws) : M.parts (g.node n) side [] (embed w) := by
  obtain ⟨k, slot, _, all⟩ := h
  rw [Meaning.parts, slot]
  exact all w member

namespace Ask.Honest

variable {ask : Ask} (honest : ask.Honest A embed plan)
include honest

theorem forestChild (h : Sound A embed plan M g) (side : Side) (lt : n < g.nodes.size) :
    (soundness A embed plan).After M g (do ask.forest (← ask.child n side)) fun M' g' ws =>
      M'.Supplies embed g' n side ws := by
  refine honest.onChild h side lt fun _ h₁ slot klt => ?_
  exact .imp (honest h₁ (.forest _) klt) fun _ _ _ later _ witnesses =>
    ⟨_, later.evolves.filled slot, witnesses⟩

theorem forest (embeds : A.Embeds embed) (h : Sound A embed plan M g) (lt : n < g.nodes.size) :
    (soundness A embed plan).After M g (Extraction.forest ask n) fun M' g' ws =>
      M'.Witnesses embed g' n ws := by
  have given {M' g'} {ws : Forest} (later : M.Later g M' g') (h' : Sound A embed plan M' g')
      (all : ∀ w ∈ ws, Clause A (M'.parts (g'.node n)) (g'.node n) [] (embed w)) :
      M'.Witnesses embed g' n ws :=
    ⟨Nat.lt_of_lt_of_le lt later.evolves.size, fun w hw => h'.supports.node (all w hw)⟩
  have now := Meaning.Later.refl M g
  refine .read (f := fun g => g.node n) ?_
  dsimp only
  cases kind : (g.node n).kind with
  | empty | char => exact .pure h (given now h fun _ none => by cases none)
  | eps => exact .pure h (given now h fun w hw => .eps kind (embeds.eps hw))
  | rep =>
    refine .pure h (given now h fun w hw => ?_)
    rw [List.mem_singleton.mp hw, embeds.nothing]
    exact .rep kind .none
  | delta =>
    refine .imp (honest.forestChild h .first lt) fun M' g' ws later h' part => ?_
    exact given later h' fun w hw =>
      .delta (later.evolves.kind_eq kind (by decide)) (part.part hw)
  | red =>
    refine .bind (honest.forestChild h .first lt) fun M' g' ws later h' part => ?_
    refine .ofExcept h' fun forest image => given later h' fun w hw => ?_
    obtain ⟨v, hv, applied⟩ := Transform.mem_image image hw
    rw [← Node.transform_of_bare (later.evolves.bare n lt)] at applied
    exact .red (later.evolves.kind_eq kind (by decide)) (part.part hv) (embeds.image applied)
  | alt =>
    refine .bind (honest.forestChild h .first lt) fun _ _ _ later h₁ first => ?_
    refine .bind (honest.forestChild h₁ .second (Nat.lt_of_lt_of_le lt later.evolves.size))
      fun _ g₂ _ later' h₂ second => ?_
    have later := later.trans later'
    have kind : (g₂.node n).kind = .alt := later.evolves.kind_eq kind (by decide)
    refine .ofExcept h₂ fun forest union => given later h₂ fun w hw => ?_
    rcases Forest.mem_union union hw with member | member
    · exact .alt .first kind ((later'.supplies first).part member)
    · exact .alt .second kind (second.part member)
  | cat =>
    refine .bind (honest.forestChild h .first lt) fun _ _ _ later h₁ first => ?_
    refine .bind (honest.forestChild h₁ .second (Nat.lt_of_lt_of_le lt later.evolves.size))
      fun _ g₂ _ later' h₂ second => ?_
    have later := later.trans later'
    have kind : (g₂.node n).kind = .cat := later.evolves.kind_eq kind (by decide)
    refine .ofExcept h₂ fun forest combined => given later h₂ fun w hw => ?_
    obtain ⟨u, hu, v, hv, rfl⟩ := Forest.mem_combine combined hw
    rw [embeds.pair]
    exact .cat kind ((later'.supplies first).part hu) (second.part hv)
  | placeholder | other => exact .fault h

end Ask.Honest

end GrammarGraph
