import GrammarGraph.Proofs.Gauge.Making

/-! Turns. Every computation has a level, given by the rank of what it is about: the rank of
a node and the evaluator, or the rank of a cell. A computation asks only for what lies on
lower levels, and all that is in progress lies on its own level or above. -/
namespace GrammarGraph

/-- The order in which the evaluators of one node may ask for each other. -/
def Evaluator.index : Evaluator → Nat
  | .forest => 2
  | .nullable => 3
  | .emptyLike => 4
  | .epsLike => 5
  | .compact => 6

theorem Evaluator.index_le (i : Evaluator) : i.index ≤ 6 := by
  cases i <;> decide

namespace Gauge

variable {σ : Type} {S : Sense σ} {x x' x₁ : Gauge σ} {g g' g₁ : Graph} {v v' : Nat} {c : Value}
  {n k : NodeId} {side : Side}

/-- What is in progress lies on level `v` or above. -/
structure Busy (x : Gauge σ) (g : Graph) (v : Nat) : Prop where
  forcing : ∀ {cell}, g.isForcing cell = true → v ≤ 8 * (x (.deferred cell)).rank + 7
  started : ∀ {n c}, (n, c) ∈ g.derivatives.inProgress →
    n < g.nodes.size ∧ v ≤ 8 * (x (.node n)).rank + 1
  active : ∀ i {n d}, (Evaluator.of i g).active.get? n = some d →
    n < g.nodes.size ∧ v ≤ 8 * (x (.node n)).rank + i.index

theorem Busy.mono (h : Busy x g v) (le : v' ≤ v) : Busy x g v' :=
  ⟨fun held => Nat.le_trans le (h.forcing held),
    fun member => (h.started member).imp_right (Nat.le_trans le),
    fun i _ _ found => (h.active i found).imp_right (Nat.le_trans le)⟩

theorem Later.busy (later : Later x g x' g') (h : Busy x g v) : Busy x' g' v where
  forcing {cell} held := by
    rw [later.forcing] at held
    obtain ⟨s, suspended⟩ := Graph.exists_suspension held
    rw [later.cell (Graph.lt_of_suspension suspended)]
    exact h.forcing held
  started member := by
    rw [later.started] at member
    obtain ⟨lt, low⟩ := h.started member
    exact ⟨later.lt lt, by rwa [later.node lt]⟩
  active i n d found := by
    rw [later.active] at found
    obtain ⟨lt, low⟩ := h.active i found
    exact ⟨later.lt lt, by rwa [later.node lt]⟩

/-- Whatever lies below level `v` can be asked for and is answered. -/
structure Answers (S : Sense σ) (v : Nat) : Prop where
  child : ∀ {x g n side}, Exact S x g → Busy x g v → n < g.nodes.size →
    side ∈ (g.node n).sides → 8 * (x ((g.node n).slot side)).rank + 7 < v →
    (weighing S).Ends x g (fun ask => ask.child? n side) fun x' g' child =>
      ∃ k, child = some k ∧ x'.Stands g' (x ((g.node n).slot side)) k
  derive : ∀ {x g n c}, Exact S x g → Busy x g v → n < g.nodes.size → S.takes c →
    8 * (x (.node n)).rank + 1 < v →
    (weighing S).Ends x g (fun ask => ask.derive c n) fun x' g' d =>
      x'.Stands g' ((x (.node n)).after S c) d
  evaluate : ∀ i {x g n}, Exact S x g → Busy x g v → n < g.nodes.size →
    8 * (x (.node n)).rank + i.index < v →
    (weighing S).Ends x g (fun ask => i.ask ask n) fun x' g' r => x'.Fits S g' (x (.node n)) i r

/-- What the parts of the derivative of a concatenation stand for. A deferred operand is not
looked at, so it matters which of the operands is concrete. -/
structure Splitting (S : Sense σ) where
  vanished : σ → σ
  skipping : σ → σ → σ
  taking : σ → σ → σ
  either : σ → σ → σ
  delta : ∀ {x g k} {u w : Weight σ}, Exact S x g → x.Stands g u k → u.rank < w.rank →
    w.sense = vanished u.sense →
    (weighing S).Ends x g (fun _ => Grammar.delta (.node k)) fun x' g' d => x'.Stands g' w d
  skip : ∀ {x g k s} {u u' w : Weight σ}, Exact S x g → x.Stands g u k → x.Bears S g u' s →
    u.rank < w.rank ∧ u'.rank < w.rank → w.sense = skipping u.sense u'.sense →
    (weighing S).Ends x g (fun _ => Grammar.cat (.node k) (.deferred s)) fun x' g' d =>
      x'.Stands g' w d
  take : ∀ {x g k s} {u u' w : Weight σ}, Exact S x g → x.Bears S g u s → x.Stands g u' k →
    u.rank < w.rank ∧ u'.rank < w.rank → w.sense = taking u.sense u'.sense →
    (weighing S).Ends x g (fun _ => Grammar.cat (.deferred s) (.node k)) fun x' g' d =>
      x'.Stands g' w d
  join : ∀ {x g k m} {u u' w : Weight σ}, Exact S x g → x.Stands g u k → x.Stands g u' m →
    u.rank < w.rank ∧ u'.rank < w.rank → w.sense = either u.sense u'.sense →
    (weighing S).Ends x g (fun _ => Grammar.alt (.node k) (.node m)) fun x' g' d =>
      x'.Stands g' w d

/-- The derivative of a concatenation of `a` and `b`. -/
def Splitting.after (split : Splitting S) (c : Value) (a b : σ) : σ :=
  split.either (split.skipping (split.vanished a) (S.after c b)) (split.taking (S.after c a) b)

/-- A computation about `n` on level `v`. -/
structure Turn (S : Sense σ) (v : Nat) (x : Gauge σ) (g : Graph) (n : NodeId) : Prop where
  valid : Exact S x g
  busy : Busy x g v
  lt : n < g.nodes.size
  above : 8 * (x (.node n)).rank < v

theorem Turn.later (t : Turn S v x g n) (later : Later x g x' g') (h : Exact S x' g') :
    Turn S v x' g' n :=
  ⟨h, later.busy t.busy, later.lt t.lt, by rw [later.node t.lt]; exact t.above⟩

namespace Turn

variable (t : Turn S v x g n) (lower : Answers S v)
include t

theorem weighs : (g.node n).Weighs S x (x (.node n)) :=
  t.valid.nodes n t.lt

theorem sense_of_kind {kind : Kind} (hk : (g.node n).kind = kind) :
    (x (.node n)).sense = ({ g.node n with kind } : Node).sense S x :=
  t.valid.sense_of_kind t.lt hk

theorem slot_lower (member : side ∈ (g.node n).sides) :
    (x ((g.node n).slot side)).rank < (x (.node n)).rank :=
  (t.weighs.slots side member).2

omit t in
theorem offers_later (takes : S.takes c) (member : side ∈ (g.node n).sides) :
    x.Offers S g ((x ((g.node n).slot side)).after S c) (.deferred (.derivative c n side)) :=
  ⟨member, takes, .refl _⟩

theorem slot_below (member : side ∈ (g.node n).sides) :
    8 * (x ((g.node n).slot side)).rank + 7 < v := by
  have below := t.slot_lower member
  have above := t.above
  omega

include lower

theorem child? (later : Later x g x₁ g₁) (h₁ : Exact S x₁ g₁) (member : side ∈ (g.node n).sides) :
    (weighing S).Ends x₁ g₁ (fun ask => ask.child? n side) fun x' g' child =>
      ∃ k, child = some k ∧ x'.Stands g' (x ((g.node n).slot side)) k := by
  have turn := t.later later h₁
  have member₁ : side ∈ (g₁.node n).sides := by rwa [later.sides t.lt]
  refine .imp (lower.child h₁ turn.busy turn.lt member₁ (turn.slot_below member₁)) ?_
  rintro x₂ g₂ _ - - ⟨k, rfl, stands⟩
  exact ⟨k, rfl, stands.mono (later.within n t.lt side)⟩

theorem child (later : Later x g x₁ g₁) (h₁ : Exact S x₁ g₁) (member : side ∈ (g.node n).sides) :
    (weighing S).Ends x₁ g₁ (fun ask => ask.child n side) fun x' g' k =>
      x'.Stands g' (x ((g.node n).slot side)) k := by
  refine .bind (t.child? lower later h₁ member) ?_
  rintro x₂ g₂ _ - h₂ ⟨k, rfl, stands⟩
  exact .pure h₂ stands

/-- What lies a rank below the node can be evaluated in its turn. -/
theorem evaluate (i : Evaluator) {w : Weight σ} (later : Later x g x₁ g₁) (h₁ : Exact S x₁ g₁)
    (stands : x₁.Stands g₁ w k) (below : 8 * w.rank + 7 < v) :
    (weighing S).Ends x₁ g₁ (fun ask => i.ask ask k) fun x' g' r => x'.Fits S g' w i r := by
  have turn := t.later later h₁
  have index := i.index_le
  have rank := stands.within.rank
  exact .imp (lower.evaluate i h₁ turn.busy stands.lt (by omega))
    fun _ _ _ _ _ fits => fits.mono stands.within

theorem onChild (i : Evaluator) (later : Later x g x₁ g₁) (h₁ : Exact S x₁ g₁)
    (member : side ∈ (g.node n).sides) :
    (weighing S).Ends x₁ g₁ (fun ask => do i.ask ask (← ask.child n side)) fun x' g' r =>
      x'.Fits S g' (x ((g.node n).slot side)) i r :=
  .bind (t.child lower later h₁ member) fun _ _ _ later₂ h₂ stands =>
    t.evaluate lower i (later.trans later₂) h₂ stands (t.slot_below member)

theorem children {α : Type} {f : Ask → NodeId → NodeId → Run α} {Q : Gauge σ → Graph → α → Prop}
    (later : Later x g x₁ g₁) (h₁ : Exact S x₁ g₁) (member : ∀ side, side ∈ (g.node n).sides)
    (next : ∀ {x' g' a b}, Later x g x' g' → Exact S x' g' →
      x'.Stands g' (x ((g.node n).slot .first)) a → x'.Stands g' (x ((g.node n).slot .second)) b →
      (weighing S).Ends x' g' (fun ask => f ask a b) Q) :
    (weighing S).Ends x₁ g₁
      (fun ask => do f ask (← ask.child n .first) (← ask.child n .second)) Q := by
  refine .bind (t.child lower later h₁ (member .first)) fun x₂ g₂ a step₂ h₂ first => ?_
  have later₂ := later.trans step₂
  refine .bind (t.child lower later₂ h₂ (member .second)) fun x₃ g₃ b step₃ h₃ second => ?_
  exact next (later₂.trans step₃) h₃ (step₃.stands first) second

theorem onChildren {α : Type} (i : Evaluator) {f : Ask → i.Result → i.Result → Run α}
    {Q : Gauge σ → Graph → α → Prop} (member : ∀ side, side ∈ (g.node n).sides)
    (next : ∀ {x' g' u v}, Exact S x' g' → x'.Fits S g' (x ((g.node n).slot .first)) i u →
      x'.Fits S g' (x ((g.node n).slot .second)) i v →
      (weighing S).Ends x' g' (fun ask => f ask u v) Q) :
    (weighing S).Ends x g (fun ask =>
      (ask.child n .first >>= i.ask ask) >>= fun first =>
        (ask.child n .second >>= i.ask ask) >>= fun second => f ask first second) Q := by
  refine .bind (t.onChild lower i (.refl x g) t.valid (member .first))
    fun x₁ g₁ u later₁ h₁ first => ?_
  refine .bind (t.onChild lower i later₁ h₁ (member .second)) fun x₂ g₂ v step₂ h₂ second => ?_
  exact next h₂ (step₂.fits first) second

/-- The derivative of a concatenation needs both parts, in lower ranks, and reads them in turn. -/
theorem derive_cat (split : Splitting S) (takes : S.takes c) (kind : (g.node n).kind = .cat)
    (sense : ((x (.node n)).after S c).sense =
      split.after c (x (g.node n).first).sense (x (g.node n).second).sense) :
    (weighing S).Ends x g (fun ask => Derivative.derive ask c n) fun x' g' d =>
      x'.Stands g' ((x (.node n)).after S c) d := by
  have member := Node.mem_sides_of_pair (.inl kind)
  have below := t.slot_lower (member .first)
  have below' := t.slot_lower (member .second)
  have later₀ (side : Side) :
      x.Bears S g ((x ((g.node n).slot side)).after S c) (.derivative c n side) :=
    offers_later takes (member side)
  have first : x ((g.node n).slot .first) = x (g.node n).first := rfl
  have second : x ((g.node n).slot .second) = x (g.node n).second := rfl
  generalize x (g.node n).first = a at first sense
  generalize x (g.node n).second = b at second sense
  rw [first] at below
  rw [second] at below'
  refine .read (p := fun g => g.node n) ?_
  rw [kind]
  refine .bind (t.child? lower (.refl x g) t.valid (member .first)) ?_
  rintro x₁ g₁ _ later₁ h₁ ⟨k, rfl, stands⟩
  rw [first] at stands
  refine .bind (split.delta (w := ⟨split.vanished a.sense, (x (.node n)).rank⟩) h₁ stands below
    rfl) fun x₂ g₂ vanished step₂ h₂ vanishes => ?_
  have later₂ := later₁.trans step₂
  refine .bind (split.skip (w := ⟨split.skipping (split.vanished a.sense) (S.after c b.sense),
    2 * (x (.node n)).rank + 1⟩) h₂ vanishes (later₂.bears (second ▸ later₀ .second)) ?_ rfl)
    fun x₃ g₃ skip step₃ h₃ skips => ?_
  · simp only [Weight.after]
    omega
  have later₃ := later₂.trans step₃
  refine .bind (t.child? lower later₃ h₃ (member .second)) ?_
  rintro x₄ g₄ _ step₄ h₄ ⟨m, rfl, stands'⟩
  rw [second] at stands'
  have later₄ := later₃.trans step₄
  refine .bind (split.take (w := ⟨split.taking (S.after c a.sense) b.sense,
    2 * (x (.node n)).rank + 1⟩) h₄ (later₄.bears (first ▸ later₀ .first)) stands' ?_ rfl)
    fun x₅ g₅ take step₅ h₅ takes => ?_
  · simp only [Weight.after]
    omega
  refine split.join h₅ ((step₄.trans step₅).stands skips) takes ?_ sense
  simp only [Weight.after]
  omega

end Turn

end Gauge

end GrammarGraph
