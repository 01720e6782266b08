import GrammarGraph.Proofs.Census.Rules

/-! The rules that make nodes: derivatives and compaction. A derivative has up to four nodes of its
own. What a node is rewritten into has at most one, and where it has one, its value leans on nothing
unfinished further up; so it is stored, and the node is not made twice. -/
namespace GrammarGraph.Census

variable {C : Finset Value} {roots : Finset NodeId} {own : Origin → Prop}
  {x x₁ : Census} {g g₁ : Graph} {t part floor level depth : Nat} {c : Value} {n k d : NodeId}
  {side : Side}

/-- What the derivative of `n` by `c` may make. -/
def ofDerivative (c : Value) (n : NodeId) : Origin → Prop :=
  fun o => ∃ part, o = .derived c.numeric n part

/-- The derivative of `n` by `c` is computed, and its nodes from `part` on are not made yet. -/
structure Deriving (C : Finset Value) (roots : Finset NodeId) (t : Nat) (c : Value) (part : Nat)
    (x : Census) (g : Graph) (n : NodeId) : Prop where
  turn : Turn C roots none t x g n
  lower : Answers C roots t
  hashable : c.hashable = true
  counts : c.numeric ∈ C
  started : g.derivatives.isStarted n c.numeric = true
  spare : ∀ p, part ≤ p → x.Vacant g (.derived c.numeric n p)

namespace Deriving

variable (h : Deriving C roots t c part x g n)
include h

theorem complete : (g.node n).kind ≠ .placeholder :=
  h.turn.valid.complete n h.turn.lt

theorem due (lt : part < 4) :
    Due C (ofDerivative c n) x g (x.level n + 1) (.derived c.numeric n part) :=
  ⟨⟨n, rfl, h.complete, rfl⟩, ⟨h.counts, lt⟩, h.started, h.spare part (Nat.le_refl _), part, rfl⟩

theorem later (later : Later none nothing x g x₁ g₁) (valid : Valid C roots none x₁ g₁) :
    Deriving C roots t c part x₁ g₁ n where
  turn := h.turn.later later valid
  lower := h.lower
  hashable := h.hashable
  counts := h.counts
  started := by
    rw [Memo.isStarted, later.started]
    exact h.started
  spare p le := later.vacant (h.spare p le) h.started id

/-- The next node was made, if it was not there. -/
theorem made (later : Later none (ofDerivative c n) x g x₁ g₁) (valid : Valid C roots none x₁ g₁)
    (made : Made x g (x.level n + 1) (.derived c.numeric n part) x₁ g₁ d) :
    Deriving C roots t c (part + 1) x₁ g₁ n where
  turn := h.turn.later later valid
  lower := h.lower
  hashable := h.hashable
  counts := h.counts
  started := by
    rw [Memo.isStarted, later.started]
    exact h.started
  spare p le := by
    refine made.others _ (fun same => ?_) (h.spare p (Nat.le_of_succ_le le))
    cases same
    exact Nat.not_succ_le_self _ le

theorem offers (member : side ∈ (g.node n).sides) :
    x.Offers C g (x.level n + 1) (.deferred (.derivative c n side)) :=
  ⟨⟨member, h.hashable, h.counts⟩, Nat.lt_succ_self _⟩

theorem derive_cat (kind : (g.node n).kind = .cat) (first : part = 0) :
    (counting C roots none (ofDerivative c n)).Ends x g (fun ask => do
      let vanished ← Grammar.delta (.ofChild (← ask.child? n .first))
      let skipping ← Grammar.cat (.node vanished) (.deferred (.derivative c n .second))
      let taking ← Grammar.cat (.deferred (.derivative c n .first))
        (.ofChild (← ask.child? n .second))
      Grammar.alt (.node skipping) (.node taking)) fun x' g' d =>
        d < g'.nodes.size ∧ x'.level d ≤ x.level n + 1 ∧
          g'.Derivative (fun _ => True) c n d := by
  subst first
  have nlt := h.turn.lt
  have member := Node.mem_sides_of_pair (.inl kind)
  refine .bind (h.turn.child? h.lower (member .first)) ?_
  rintro x₁ g₁ _ later₁ valid₁ ⟨step₁, a, rfl, alt, alevel, first⟩
  have h₁ := h.later step₁ valid₁
  have level₁ := Later.level later₁ n nlt
  refine .bind (.gives (valid₁.delta (h₁.due (by decide))
    ⟨alt, level₁ ▸ Nat.le_succ_of_le alevel⟩)) ?_
  rintro x₂ g₂ v later₂ valid₂ ⟨vanishes, made₂⟩
  have h₂ := h₁.made later₂ valid₂ made₂
  have level₂ := (Later.level later₂ n h₁.turn.lt).trans level₁
  have member₂ (side : Side) : side ∈ (g₂.node n).sides := by
    rw [Later.sides (Later.trans later₁ later₂) nlt]
    exact member side
  refine .bind (.gives (valid₂.cat (h₂.due (by decide))
    ⟨made₂.lt, level₂ ▸ level₁ ▸ made₂.level⟩ (h₂.offers (member₂ .second)))) ?_
  rintro x₃ g₃ skipping later₃ valid₃ ⟨skips, made₃⟩
  have h₃ := h₂.made later₃ valid₃ made₃
  have level₃ := (Later.level later₃ n h₂.turn.lt).trans level₂
  have sides₃ := Later.sides later₃ h₂.turn.lt
  refine .bind (h₃.turn.child? h.lower (sides₃ ▸ member₂ .second)) ?_
  rintro x₄ g₄ _ later₄ valid₄ ⟨step₄, b, rfl, blt, blevel, second⟩
  have h₄ := h₃.later step₄ valid₄
  have level₄ := (Later.level later₄ n h₃.turn.lt).trans level₃
  have sides₄ := Later.sides later₄ h₃.turn.lt
  refine .bind (.gives (valid₄.cat (h₄.due (by decide)) (h₄.offers (sides₄ ▸ sides₃ ▸ member₂ .first))
    ⟨blt, level₄ ▸ level₃ ▸ Nat.le_succ_of_le blevel⟩)) ?_
  rintro x₅ g₅ taking later₅ valid₅ ⟨takes, made₅⟩
  have h₅ := h₄.made later₅ valid₅ made₅
  have level₅ := (Later.level later₅ n h₄.turn.lt).trans level₄
  have low : skipping < g₅.nodes.size ∧ x₅.level skipping ≤ x₅.level n + 1 := by
    have lt := Later.lt later₄ made₃.lt
    rw [Later.level later₅ _ lt, Later.level later₄ _ made₃.lt, level₅, ← level₂]
    exact ⟨Later.lt later₅ lt, made₃.level⟩
  refine .imp (.gives (valid₅.alt (h₅.due (by decide)) low
    ⟨made₅.lt, level₅ ▸ level₄ ▸ made₅.level⟩)) ?_
  rintro x₆ g₆ d later₆ _ ⟨joins, made₆⟩
  refine ⟨made₆.lt, level₅ ▸ made₆.level, ?_⟩
  -- What each run left behind is still there after the runs that follow.
  have since₅ := Later.extends_ later₆
  have since₄ := (Later.extends_ later₅).trans since₅
  have since₃ := (Later.extends_ later₄).trans since₄
  have since₂ := (Later.extends_ later₃).trans since₃
  have since₁ := (Later.extends_ later₂).trans since₂
  exact .cat (((Later.extends_ later₁).trans since₁).kind kind (by decide)) (since₁.filled .first first)
    (since₄.filled .second second) (since₂.vanishes (Grammar.delta_ok vanishes.run))
    (since₃.skips (Grammar.skips_ok trivial skips.run))
    (since₅.takes (Grammar.takes_ok trivial takes.run)) (Grammar.joins_ok joins.run)

end Deriving

/-- The derivative of a node lies at most one level above it. -/
theorem derive (h : Deriving C roots t c 0 x g n) :
    (counting C roots none (ofDerivative c n)).Ends x g (fun ask => Derivative.derive ask c n)
      fun x' g' d => d < g'.nodes.size ∧ x'.level d ≤ x.level n + 1 ∧
        g'.Derivative (fun _ => True) c n d := by
  have counted := h.turn.valid.counted
  have due := h.due (by decide)
  have answer {r : Run NodeId} (ends : (counting C roots none (ofDerivative c n)).Ends x g
      (fun _ => r) (Made x g (x.level n + 1) (.derived c.numeric n 0)))
      (shape : ∀ {g' d}, g.Extends g' → r g = some (.ok d, g') →
        g'.Derivative (fun _ => True) c n d) :
      (counting C roots none (ofDerivative c n)).Ends x g (fun _ => r) fun x' g' d =>
        d < g'.nodes.size ∧ x'.level d ≤ x.level n + 1 ∧ g'.Derivative (fun _ => True) c n d :=
    .imp ends.gives fun _ _ _ later _ ⟨gives, made⟩ =>
      ⟨made.lt, made.level, shape (Later.extends_ later) gives.run⟩
  have nothing {g' : Graph} {d : NodeId}
      (shape : g.Derivative (fun _ => True) c n .empty)
      (ends : (pure .empty : Run NodeId) g = some (.ok d, g')) :
      g'.Derivative (fun _ => True) c n d := by
    cases ends
    exact shape
  refine .read (p := fun g => g.node n) ?_
  cases kind : (g.node n).kind with
  | placeholder => exact absurd kind h.complete
  | other name => exact absurd kind ((counted.describes n).known name)
  | empty | eps | delta =>
    exact answer (.pure h.turn.valid h.turn.valid.empty_made)
      fun _ => nothing (.nothing (by simp [kind]) rfl)
  | char =>
    dsimp only
    cases same : (g.node n).symbol.same c with
    | false =>
      exact answer (.pure h.turn.valid h.turn.valid.empty_made)
        fun _ => nothing (.mismatch kind same rfl)
    | true =>
      refine answer (h.turn.valid.eps due (by simpa using h.hashable)) fun {g' d} grown ends => ?_
      obtain ⟨kind', forest⟩ := Grammar.eps_ok counted.formed ends
      have witnesses := (Forest.ofWitnesses_ok.mp forest).2
      refine .taken (grown.kind kind (by decide)) ?_ kind' witnesses trivial c.same_refl
      rw [Node.symbol_of_bare (grown.bare n h.complete)]
      exact same
  | alt =>
    have member := Node.mem_sides_of_pair (.inr kind)
    refine answer (h.turn.valid.alt due (h.offers (member .first)) (h.offers (member .second)))
      fun {g' d} grown ends => ?_
    obtain ⟨kind', first, second⟩ := Grammar.alt_deferred ends
    refine .alt (grown.kind kind (by decide)) kind' fun side => ?_
    cases side with
    | first => exact first.promises trivial
    | second => exact second.promises trivial
  | cat => exact h.derive_cat kind rfl
  | rep =>
    refine answer (h.turn.valid.cat due (h.offers (Node.mem_sides_of_single (.inl kind)))
      ⟨h.turn.lt, Nat.le_succ _⟩) fun {g' d} grown ends => ?_
    have kind₁ := grown.kind kind (by decide)
    cases Grammar.takes_ok (P := fun _ => True) trivial ends with
    | nothing none => rw [kind₁] at none; cases none
    | cat kind' first second => exact .rep kind₁ kind' first second
  | red =>
    refine answer (h.turn.valid.reduction due ((counted.describes n).red kind)
      (h.offers (Node.mem_sides_of_single (.inr (.inr kind))))) fun {g' d} grown ends => ?_
    obtain ⟨kind', same, first⟩ := Grammar.red_deferred ends
    exact .red (grown.kind kind (by decide)) kind' (same.trans (grown.transform kind rfl).symm)
      (first.promises trivial)

/-- The value `m` of `n`, in a visit on `level` in which `n` was entered at `depth`. -/
structure Rewritten (level depth : Nat) (n : NodeId) (x : Census) (g : Graph) (m : NodeId) :
    Prop where
  lt : m < g.nodes.size
  level : x.level m ≤ level + 1
  refuted : g.Refuted n m
  rewrites : g.Rewrites n m
  once : x.Vacant g (.compacted n) ∨ depth ≤ g.compacted.lowlink

/-- The node is rewritten. No node was made for that, and nothing further up was leaned on. The
visit has come to it through alternatives of which one side is left. -/
structure Compacting (C : Finset Value) (roots : Finset NodeId) (floor level depth : Nat)
    (x : Census) (g : Graph) (n : NodeId) : Prop where
  visiting : Visiting C roots ⟨.compact, floor, level⟩ (· = .compacted n) x g n
  engaged : g.Engaged (.compacted n)
  vacant : x.Vacant g (.compacted n)
  lowlink : depth ≤ g.compacted.lowlink
  path : ∀ {m d}, g.compacted.active.get? m = some d → floor ≤ d →
    m = n ∨ g.Anchored m ∧ Relation.TransGen g.Passes m n

namespace Compacting

variable (h : Compacting C roots floor level depth x g n)
include h

theorem valid : Valid C roots (some ⟨.compact, floor, level⟩) x g :=
  h.visiting.turn.valid

theorem later (later : Later none nothing x g x₁ g₁)
    (valid : Valid C roots (some ⟨.compact, floor, level⟩) x₁ g₁) :
    Compacting C roots floor level depth x₁ g₁ n where
  visiting := h.visiting.later later.loosen valid
  engaged := later.engaged.mpr h.engaged
  vacant := later.vacant h.vacant h.engaged id
  lowlink := by
    have frames : g₁.compacted.frames = g.compacted.frames := (later.books .compact).frames_eq
    rw [Evaluation.lowlink_congr frames]
    exact h.lowlink
  path {m d} active le := by
    have active : g.compacted.active.get? m = some d := (later.books .compact).active m ▸ active
    exact (h.path active le).imp_right (And.imp later.extends_.anchored
      (Relation.TransGen.mono (fun _ _ => later.extends_.passes) _ _))

/-- A node that is there, where that says enough about `n`. -/
theorem old (lt : d < g.nodes.size) (low : x.level d ≤ level + 1) (refuted : g.Refuted n d)
    (rewrites : g.Rewrites n d) : Rewritten level depth n x g d :=
  ⟨lt, low, refuted, rewrites, .inl h.vacant⟩

theorem nothing_left : Rewritten level depth n x g .empty :=
  h.old h.valid.counted.formed.empty_lt (by rw [h.valid.counted.atoms.1]; exact Nat.zero_le _)
    (.inl rfl) .nothing

theorem due : Due C (· = .compacted n) x g (level + 1) (.compacted n) where
  parent := ⟨n, rfl, h.visiting.complete, congrArg (· + 1) h.visiting.level.symm⟩
  counts := True.intro
  engaged := h.engaged
  vacant := h.vacant
  mine := rfl

omit h in
theorem offers (lt : k < g.nodes.size) (low : x.level k ≤ level) :
    x.Offers C g (level + 1) (Compaction.later k) :=
  ⟨lt, Nat.lt_succ_of_le low⟩

/-- An earlier evaluator is asked about a node up to the level. -/
theorem earlier (i : Evaluator) (index : i.index < 6) (lt : k < g.nodes.size)
    (low : x.level k ≤ level) :
    (counting C roots (some ⟨.compact, floor, level⟩) (· = .compacted n)).Ends x g
      (fun ask => i.ask ask k) fun x' g' r =>
        Later none nothing x g x' g' ∧ x'.Fits g' (x.level k) i r ∧
          (i.of g').stored.get? k = some r :=
  h.visiting.earlier i index lt low

theorem child (lt : k < g.nodes.size) (low : x.level k ≤ level)
    (member : side ∈ (g.node k).sides) :
    (counting C roots (some ⟨.compact, floor, level⟩) (· = .compacted n)).Ends x g
      (fun ask => ask.child k side) fun x' g' j =>
        Later none nothing x g x' g' ∧ j < g'.nodes.size ∧ x'.level j ≤ level ∧
          (g'.node k).slot side = .node j := by
  have turn : 8 * x.level k ≤ Visit.turn ⟨.compact, floor, level⟩ := by
    rw [Visit.turn]
    dsimp only
    omega
  refine .bind (.gives (h.valid.ends (h.visiting.lower.child h.valid.whole h.visiting.turn.busy lt
    member turn))) ?_
  rintro x₁ g₁ _ - valid ⟨gives, step, j, rfl, jlt, jlow⟩
  exact .pure valid ⟨step, jlt, Nat.le_trans jlow low, gives.slot (step.lt lt)⟩

/-- Both children of the node itself are read, one after the other. -/
theorem onChildren {f : Ask → NodeId → NodeId → Run NodeId} {Q : Census → Graph → NodeId → Prop}
    (member : ∀ side, side ∈ (g.node n).sides)
    (next : ∀ {x' g' a b}, Later none nothing x g x' g' →
      Compacting C roots floor level depth x' g' n →
      (g'.node n).slot .first = .node a → (g'.node n).slot .second = .node b →
      a < g'.nodes.size → x'.level a ≤ level → b < g'.nodes.size → x'.level b ≤ level →
      (counting C roots (some ⟨.compact, floor, level⟩) (· = .compacted n)).Ends x' g'
        (fun ask => f ask a b) Q) :
    (counting C roots (some ⟨.compact, floor, level⟩) (· = .compacted n)).Ends x g
      (fun ask => do f ask (← ask.child n .first) (← ask.child n .second)) Q := by
  have nlt := h.visiting.turn.lt
  refine .bind (h.child nlt (Nat.le_of_eq h.visiting.level) (member .first)) ?_
  rintro x₁ g₁ a - valid₁ ⟨step, lt, low, first⟩
  have h₁ := h.later step valid₁
  refine .bind (h₁.child (step.lt nlt) (Nat.le_of_eq h₁.visiting.level)
    (step.sides nlt ▸ member .second)) ?_
  rintro x₂ g₂ b - valid₂ ⟨step', lt', low', second⟩
  exact next (step.trans step') (h₁.later step' valid₂) (step'.extends_.filled .first first) second
    (step'.lt lt) (step'.level a lt ▸ low) lt' low'

theorem settled (lt : k < g.nodes.size) (low : x.level k ≤ level) :
    (counting C roots (some ⟨.compact, floor, level⟩) (· = .compacted n)).Ends x g
      (fun ask => Compaction.settled? ask k) fun x' g' settled =>
        Later none nothing x g x' g' ∧
          ∀ ws, settled = some ws → ∀ w ∈ ws, w.hashable = true := by
  refine .bind (h.earlier .epsLike (by decide) lt low) ?_
  rintro x₁ g₁ likely - valid ⟨step, -⟩
  cases likely with
  | false => exact .pure valid ⟨step, fun ws none => nomatch none⟩
  | true =>
    have h₁ := h.later step valid
    refine .bind (h₁.earlier .forest (by decide) (step.lt lt) (step.level k lt ▸ low)) ?_
    rintro x₂ g₂ ws - valid₂ ⟨step', hashable, -⟩
    refine .pure valid₂ ⟨step.trans step', ?_⟩
    rintro _ ⟨⟩
    exact hashable

theorem makes (known : g.emptyLike.stored.get? n = some false) {r : Run NodeId}
    (ends : (counting C roots (some ⟨.compact, floor, level⟩) (· = .compacted n)).Ends x g
      (fun _ => r) (Made x g (level + 1) (.compacted n)))
    (shape : ∀ {g' m}, g.Extends g' → r g = some (.ok m, g') → g'.Rewrites n m) :
    (counting C roots (some ⟨.compact, floor, level⟩) (· = .compacted n)).Ends x g (fun _ => r)
      (Rewritten level depth n) := by
  refine .imp (.gives ends) fun x₁ g₁ d later _ ⟨gives, made⟩ => ⟨made.lt, made.level,
    .inr (.inr (.inr ?_)), shape (Later.extends_ later) gives.run, .inr ?_⟩
  · have same : g₁.emptyLike = g.emptyLike := made.books .emptyLike
    rw [same]
    exact known
  · have same : g₁.compacted = g.compacted := made.books .compact
    rw [same]
    exact h.lowlink

/-- The value of the side that is left of an alternative. -/
theorem tail (known : g.emptyLike.stored.get? n = some false) (anchored : g.Anchored n)
    (passes : g.Passes n k) (lt : k < g.nodes.size) (low : x.level k ≤ level) :
    (counting C roots (some ⟨.compact, floor, level⟩) (· = .compacted n)).Ends x g
      (fun ask => ask.compact k) (Rewritten level depth n) := by
  have arrives : Arrives ⟨.compact, floor, level⟩ g k := by
    intro _ m d active le
    rcases h.path active le with rfl | ⟨anchored', path⟩
    · exact ⟨anchored, .single passes⟩
    · exact ⟨anchored', path.tail passes⟩
  obtain ⟨m, g₁, gives, x₁, later, valid, records⟩ :=
    h.visiting.recurs (.refl _ _ x g) h.valid lt low arrives
  obtain ⟨mlt, mlow, -, rewrites⟩ := records
  rw [later.level k lt] at mlow
  exact ⟨m, g₁, gives, x₁, later.widen, valid, mlt, Nat.le_trans mlow (Nat.succ_le_succ low),
    .inr (.inr (.inr ((later.books .emptyLike).stored n false known))),
    .passes (later.extends_.passes passes) rewrites,
    .inl (later.vacant h.vacant h.engaged id)⟩

variable (known : g.emptyLike.stored.get? n = some false) {a b : NodeId}
include known

omit h in
theorem known_later (step : Later none nothing x g x₁ g₁) :
    g₁.emptyLike.stored.get? n = some false :=
  (step.books .emptyLike).stored n false known

theorem compact_alt (kind : (g.node n).kind = .alt) (first : (g.node n).first = .node a)
    (second : (g.node n).second = .node b) (anchored : g.Anchored n) (alt : a < g.nodes.size)
    (alow : x.level a ≤ level) (blt : b < g.nodes.size) (blow : x.level b ≤ level) :
    (counting C roots (some ⟨.compact, floor, level⟩) (· = .compacted n)).Ends x g
      (fun ask => Compaction.alt ask a b) (Rewritten level depth n) := by
  refine .bind (h.earlier .emptyLike (by decide) alt alow) ?_
  rintro x₁ g₁ none - valid₁ ⟨step, -, stored⟩
  have h₁ := h.later step valid₁
  have grown := step.extends_
  have known₁ := known_later known step
  have blt₁ := step.lt blt
  have blow₁ : x₁.level b ≤ level := step.level b blt ▸ blow
  cases none with
  | true =>
    exact h₁.tail known₁ (grown.anchored anchored) (.second (grown.kind kind (by decide))
      (grown.filled .first first) (grown.filled .second second)
      ⟨h₁.valid.complete a (step.lt alt), stored⟩) blt₁ blow₁
  | false =>
    refine .bind (h₁.earlier .emptyLike (by decide) blt₁ blow₁) ?_
    rintro x₂ g₂ none - valid₂ ⟨step', -, stored'⟩
    have h₂ := h₁.later step' valid₂
    have grown := grown.trans step'.extends_
    have kind₂ := grown.kind kind (by decide)
    have known₂ := known_later known₁ step'
    have alt₂ := (step.trans step').lt alt
    have alow₂ : x₂.level a ≤ level := (step.trans step').level a alt ▸ alow
    cases none with
    | true =>
      exact h₂.tail known₂ (grown.anchored anchored) (.first kind₂ (grown.filled .first first)
        (grown.filled .second second) ⟨h₂.valid.complete b (step'.lt blt₁), stored'⟩) alt₂ alow₂
    | false =>
      refine h₂.makes known₂ (h₂.valid.alt h₂.due (offers alt₂ alow₂)
        (offers (step'.lt blt₁) (step'.level b blt₁ ▸ blow₁))) fun {g' m} grown' ends => ?_
      have grown := grown.trans grown'
      obtain ⟨kind', awaited, awaited'⟩ := Grammar.alt_deferred ends
      exact .alt (grown.kind kind (by decide)) (grown.filled .first first)
        (grown.filled .second second) kind' awaited.awaits awaited'.awaits

theorem compact_cat (kind : (g.node n).kind = .cat) (first : (g.node n).first = .node a)
    (second : (g.node n).second = .node b) (alt : a < g.nodes.size) (alow : x.level a ≤ level)
    (blt : b < g.nodes.size) (blow : x.level b ≤ level) :
    (counting C roots (some ⟨.compact, floor, level⟩) (· = .compacted n)).Ends x g
      (fun ask => Compaction.cat ask a b) (Rewritten level depth n) := by
  refine .bind (h.settled alt alow) ?_
  rintro x₁ g₁ settled - valid₁ ⟨step, hashable⟩
  have h₁ := h.later step valid₁
  have known₁ := known_later known step
  have blt₁ := step.lt blt
  have blow₁ : x₁.level b ≤ level := step.level b blt ▸ blow
  rcases settled with _ | _ | ⟨head, _ | ⟨_, _⟩⟩
  case some.nil => exact .pure valid₁ h₁.nothing_left
  case some.cons.nil =>
    refine h₁.makes known₁ (h₁.valid.reduction h₁.due
      (Transform.total_prepend (hashable _ rfl head List.mem_cons_self)) (offers blt₁ blow₁))
      fun {g' m} grown' ends => ?_
    have grown := step.extends_.trans grown'
    obtain ⟨kind', same, awaited⟩ := Grammar.red_deferred ends
    exact .head (grown.kind kind (by decide)) (grown.filled .first first)
      (grown.filled .second second) kind' same awaited.awaits
  -- The first part is neither empty nor a single witness: it is up to the second.
  all_goals
    refine .bind (h₁.settled blt₁ blow₁) ?_
    rintro x₂ g₂ settled - valid₂ ⟨step', hashable'⟩
    have h₂ := h₁.later step' valid₂
    have known₂ := known_later known₁ step'
    have grown := (step.trans step').extends_
    have offers₂ := offers (C := C) ((step.trans step').lt alt)
      ((step.trans step').level a alt ▸ alow : x₂.level a ≤ level)
    have both := h₂.makes known₂ (h₂.valid.cat h₂.due offers₂
      (offers (step'.lt blt₁) (step'.level b blt₁ ▸ blow₁))) fun {g' m} grown' ends => by
        have grown := grown.trans grown'
        obtain ⟨kind', awaited, awaited'⟩ := Grammar.cat_deferred ends
        exact .cat (grown.kind kind (by decide)) (grown.filled .first first)
          (grown.filled .second second) kind' awaited.awaits awaited'.awaits
    rcases settled with _ | _ | ⟨tail, _ | ⟨_, _⟩⟩
    · exact both
    · exact .pure valid₂ h₂.nothing_left
    · refine h₂.makes known₂ (h₂.valid.reduction h₂.due
        (Transform.total_append (hashable' _ rfl tail List.mem_cons_self)) offers₂)
        fun {g' m} grown' ends => ?_
      have grown := grown.trans grown'
      obtain ⟨kind', same, awaited⟩ := Grammar.red_deferred ends
      exact .tail (grown.kind kind (by decide)) (grown.filled .first first)
        (grown.filled .second second) kind' same awaited.awaits
    · exact both

theorem compact_red (kind : (g.node n).kind = .red) (slot : (g.node n).first = .node a)
    (alt : a < g.nodes.size) (alow : x.level a ≤ level) :
    (counting C roots (some ⟨.compact, floor, level⟩) (· = .compacted n)).Ends x g
      (fun ask => Compaction.red ask a (g.node n).transform) (Rewritten level depth n) := by
  have total := (h.valid.counted.describes n).red kind
  have itself {x₁ : Census} {g₁ : Graph} (step : Later none nothing x g x₁ g₁)
      (h₁ : Compacting C roots floor level depth x₁ g₁ n) :
      (counting C roots (some ⟨.compact, floor, level⟩) (· = .compacted n)).Ends x₁ g₁
        (fun _ => Grammar.reduction (Compaction.later a) (g.node n).transform)
        (Rewritten level depth n) := by
    refine h₁.makes (known_later known step) (h₁.valid.reduction h₁.due total
      (offers (step.lt alt) (step.level a alt ▸ alow))) fun {g' m} grown' ends => ?_
    have grown := step.extends_.trans grown'
    obtain ⟨kind', same, awaited⟩ := Grammar.red_deferred ends
    exact .red (grown.kind kind (by decide)) (grown.filled .first slot) kind'
      (same.trans (grown.transform kind rfl).symm) awaited.awaits
  refine .read (p := fun g => g.node a) ?_
  cases inner : (g.node a).kind with
  | red =>
    refine .bind (h.child alt alow (Node.mem_sides_of_single (.inr (.inr inner)))) ?_
    rintro x₁ g₁ k - valid₁ ⟨step, lt, low, slot'⟩
    have h₁ := h.later step valid₁
    refine h₁.makes (known_later known step) (h₁.valid.reduction h₁.due
      (total.compose ((h.valid.counted.describes a).red inner)) (offers lt low)) fun {g' m} grown' ends => ?_
    have grown := step.extends_.trans grown'
    obtain ⟨kind', same, awaited⟩ := Grammar.red_deferred ends
    refine .nested (grown.kind kind (by decide)) (grown.filled .first slot)
      (grown.kind inner (by decide)) (grown'.filled .first slot') kind' ?_ awaited.awaits
    rw [grown.transform kind rfl, grown.transform inner rfl]
    exact same
  | cat =>
    have member := Node.mem_sides_of_pair (.inl inner)
    refine .bind (h.child alt alow (member .first)) ?_
    rintro x₁ g₁ k - valid₁ ⟨step, lt, low, first⟩
    have h₁ := h.later step valid₁
    refine .bind (h₁.settled lt low) ?_
    rintro x₂ g₂ settled - valid₂ ⟨step', hashable⟩
    have h₂ := h₁.later step' valid₂
    have steps := step.trans step'
    rcases settled with _ | _ | ⟨head, _ | ⟨_, _⟩⟩
    case some.cons.nil =>
      refine .bind (h₂.child (steps.lt alt) (steps.level a alt ▸ alow)
        (steps.sides alt ▸ member .second)) ?_
      rintro x₃ g₃ rest - valid₃ ⟨step'', lt', low', second⟩
      have h₃ := h₂.later step'' valid₃
      refine h₃.makes (known_later known (steps.trans step'')) (h₃.valid.reduction h₃.due
        (total.compose (Transform.total_prepend (hashable _ rfl head List.mem_cons_self)))
        (offers lt' low')) fun {g' m} grown₄ ends => ?_
      have grown₂ := step''.extends_.trans grown₄
      have grown₁ := step'.extends_.trans grown₂
      have grown := step.extends_.trans grown₁
      obtain ⟨kind', same, awaited⟩ := Grammar.red_deferred ends
      rw [← grown.transform kind rfl] at same
      exact .headed (grown.kind kind (by decide)) (grown.filled .first slot)
        (grown.kind inner (by decide)) (grown₁.filled .first first) (grown₄.filled .second second)
        kind' same awaited.awaits
    all_goals exact itself steps h₂
  | empty | eps | char | alt | rep | delta | placeholder | other =>
    exact itself (.refl _ _ x g) h

/-- A node that is neither an atom nor a delta is rewritten by way of its children. -/
theorem compound (atomic : (g.node n).kind.isAtomic = false) (delta : (g.node n).kind ≠ .delta)
    (anchored : g.Anchored n) :
    (counting C roots (some ⟨.compact, floor, level⟩) (· = .compacted n)).Ends x g
      (fun ask => Compaction.compound ask n) (Rewritten level depth n) := by
  have nlt := h.visiting.turn.lt
  have nlow := Nat.le_of_eq h.visiting.level
  refine .read (p := fun g => g.node n) ?_
  cases kind : (g.node n).kind with
  | empty | eps | char | placeholder =>
    rw [kind] at atomic
    cases atomic
  | delta => exact absurd kind delta
  | other name => exact absurd kind ((h.valid.counted.describes n).known name)
  | rep =>
    refine .bind (h.child nlt nlow (Node.mem_sides_of_single (.inl kind))) ?_
    rintro x₁ g₁ k - valid₁ ⟨step, lt, low, slot⟩
    have h₁ := h.later step valid₁
    refine h₁.makes (known_later known step) (h₁.valid.rep h₁.due (offers lt low))
      fun {g' m} grown ends => ?_
    obtain ⟨kind', awaited⟩ := Grammar.rep_deferred ends
    exact .rep ((step.extends_.trans grown).kind kind (by decide)) (grown.filled .first slot) kind'
      awaited.awaits
  | red =>
    refine .bind (h.child nlt nlow (Node.mem_sides_of_single (.inr (.inr kind)))) ?_
    rintro x₁ g₁ k - valid₁ ⟨step, lt, low, slot⟩
    rw [← step.extends_.transform kind rfl]
    exact (h.later step valid₁).compact_red (known_later known step)
      (step.extends_.kind kind (by decide)) slot lt low
  | alt =>
    have member := Node.mem_sides_of_pair (.inr kind)
    exact h.onChildren member fun step h₂ first second alt alow blt blow =>
      h₂.compact_alt (known_later known step) (step.extends_.kind kind (by decide)) first second
        (step.extends_.anchored anchored) alt alow blt blow
  | cat =>
    have member := Node.mem_sides_of_pair (.inl kind)
    exact h.onChildren member fun step h₂ first second alt alow blt blow =>
      h₂.compact_cat (known_later known step) (step.extends_.kind kind (by decide)) first second
        alt alow blt blow

end Compacting

theorem compact (h : Compacting C roots floor level depth x g n) :
    (counting C roots (some ⟨.compact, floor, level⟩) (· = .compacted n)).Ends x g
      (fun ask => Compaction.compact ask n) (Rewritten level depth n) := by
  have nlt := h.visiting.turn.lt
  have low : x.level n ≤ level := Nat.le_of_eq h.visiting.level
  have itself (refuted : g.Refuted n n) (atom : g.Rewrites n n) : Rewritten level depth n x g n :=
    h.old nlt (Nat.le_succ_of_le low) refuted atom
  refine .read (p := fun g => (g.node n).kind) ?_
  cases kind : (g.node n).kind with
  | empty =>
    exact .pure h.valid (itself (.inl (h.valid.counted.sole n kind)) (.itself (.inl kind)))
  | eps => exact .pure h.valid (itself (.inr (.inl kind)) (.itself (.inr (.inl kind))))
  | char => exact .pure h.valid (itself (.inr (.inr (.inl kind))) (.itself (.inr (.inr kind))))
  | placeholder => exact absurd kind h.visiting.complete
  | cat | alt | rep | delta | red | other =>
    have atomic : (g.node n).kind.isAtomic = false := by rw [kind]; rfl
    refine .bind (h.earlier .emptyLike (by decide) nlt low) ?_
    rintro x₁ g₁ none - valid₁ ⟨step, -, known⟩
    have h₁ := h.later step valid₁
    cases none with
    | true => exact .pure valid₁ h₁.nothing_left
    | false =>
      refine .bind (h₁.earlier .epsLike (by decide) (step.lt nlt) (step.level n nlt ▸ low)) ?_
      rintro x₂ g₂ likely - valid₂ ⟨step', -, stored⟩
      have h₂ := h₁.later step' valid₂
      have steps := step.trans step'
      have known := Compacting.known_later known step'
      cases likely with
      | false =>
        obtain ⟨-, delta, anchored⟩ := valid₂.counted.results .epsLike (.inl stored)
        exact h₂.compound known (steps.kind nlt ▸ atomic) (fun kind => nomatch delta kind)
          (anchored rfl)
      | true =>
        refine .bind (h₂.earlier .forest (by decide) (steps.lt nlt) (steps.level n nlt ▸ low)) ?_
        rintro x₃ g₃ ws - valid₃ ⟨step'', hashable, -⟩
        have h₃ := h₂.later step'' valid₃
        cases ws with
        | nil => exact .pure valid₃ h₃.nothing_left
        | cons w ws =>
          exact h₃.makes (Compacting.known_later known step'') (h₃.valid.eps h₃.due hashable)
            fun _ ends => .settled (Grammar.eps_ok h₃.valid.counted.formed ends).1

end GrammarGraph.Census
