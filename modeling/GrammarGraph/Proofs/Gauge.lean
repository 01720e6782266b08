import GrammarGraph.Proofs.Evaluator
import GrammarGraph.Proofs.Formed
import GrammarGraph.Proofs.Totality

/-! Gauges of acyclic graphs. A sense says what nodes stand for, a language for instance, and
what the answers of the evaluators have to do with it. Each slot weighs what it stands for and
a rank; a node weighs what its kind makes of its slots, and more in rank than each of them; a
cell weighs what it will compute. Ranks bound what a computation may ask for, so that nothing
is ever asked for while it is being computed. -/
namespace GrammarGraph

/-- What nodes may stand for, with the rules that hold of it. -/
structure Sense (σ : Type) where
  /-- What the node makes of what its slots stand for. -/
  node : Node → (Side → σ) → σ
  /-- What a derivative stands for. -/
  after : Value → σ → σ
  compacted : σ → σ
  /-- The answer of an evaluator is right. That of compaction is right if it stands for
  what is compacted, so nothing is said of it here. -/
  agrees : (i : Evaluator) → σ → i.Result → Prop
  /-- The sense of nodes in order. -/
  proper : σ → Prop
  /-- What an eps node may hold. -/
  grants : Forest → Prop
  /-- The symbols that derivatives are taken by. -/
  takes : Value → Prop
  /-- The sense of the empty language. -/
  nothing : σ
  node_bare : ∀ {n n' : Node} {part}, n'.bare = n.bare → node n' part = node n part
  node_empty : ∀ {n : Node} {part}, n.kind = .empty → node n part = nothing
  after_nothing : ∀ c, after c nothing = nothing
  compacted_nothing : compacted nothing = nothing
  /-- Symbols that are equal have one derivative. -/
  after_congr : ∀ {c d e}, takes c → takes d → c.same d = true → proper e → after c e = after d e
  proper_nothing : proper nothing
  proper_node : ∀ {n : Node} {part}, (n.kind = .eps → grants n.witnesses) →
    (n.kind = .red → n.transform.Total) → (∀ side, proper (part side)) → proper (node n part)
  proper_after : ∀ {c e}, takes c → proper e → proper (after c e)
  proper_compacted : ∀ {e}, proper e → proper (compacted e)
  grants_trivial : grants Forest.trivial
  hashable_takes : ∀ {c}, takes c → c.hashable = true
  hashable_forest : ∀ {e ws}, proper e → agrees .forest e ws → ∀ w ∈ ws, w.hashable = true

structure Weight (σ : Type) where
  sense : σ
  rank : Nat

/-- The same sense at no larger rank. -/
structure Weight.Within {σ : Type} (w w' : Weight σ) : Prop where
  sense : w.sense = w'.sense
  rank : w.rank ≤ w'.rank

abbrev Gauge (σ : Type) := Slot → Weight σ

variable {σ : Type} {S : Sense σ}

namespace Weight

variable {w w' w'' : Weight σ}

/-- What a derivative may weigh. -/
def after (S : Sense σ) (w : Weight σ) (c : Value) : Weight σ :=
  ⟨S.after c w.sense, 2 * w.rank + 2⟩

def compacted (S : Sense σ) (w : Weight σ) : Weight σ :=
  ⟨S.compacted w.sense, w.rank⟩

theorem Within.refl (w : Weight σ) : w.Within w := ⟨rfl, Nat.le_refl _⟩

theorem Within.trans (h : w.Within w') (k : w'.Within w'') : w.Within w'' :=
  ⟨h.sense.trans k.sense, Nat.le_trans h.rank k.rank⟩

theorem Within.after (h : w.Within w') (c : Value) : (w.after S c).Within (w'.after S c) :=
  ⟨congrArg (S.after c) h.sense, Nat.add_le_add_right (Nat.mul_le_mul_left 2 h.rank) 2⟩

theorem Within.compacted (h : w.Within w') : (w.compacted S).Within (w'.compacted S) :=
  ⟨congrArg S.compacted h.sense, h.rank⟩

end Weight

namespace Node

/-- What the node makes of its slots. -/
def sense (S : Sense σ) (x : Gauge σ) (node : Node) : σ :=
  S.node node fun side => (x (node.slot side)).sense

/-- The node can have the weight `w`. -/
structure Weighs (S : Sense σ) (x : Gauge σ) (node : Node) (w : Weight σ) : Prop where
  known : ∀ name, node.kind ≠ .other name
  complete : node.kind ≠ .placeholder
  slots : ∀ side ∈ node.sides, node.slot side ≠ .vacant ∧ (x (node.slot side)).rank < w.rank
  vacant : ∀ side ∉ node.sides, node.slot side = .vacant
  sense : w.sense = node.sense S x
  eps : node.kind = .eps → S.grants node.witnesses
  red : node.kind = .red → node.transform.Total

end Node

namespace Gauge

/-- The node lies within `w`. -/
structure Stands (x : Gauge σ) (g : Graph) (w : Weight σ) (n : NodeId) : Prop where
  lt : n < g.nodes.size
  within : (x (.node n)).Within w

/-- What the suspension computes lies within `w`. -/
def Bears (S : Sense σ) (x : Gauge σ) (g : Graph) (w : Weight σ) : Suspension → Prop
  | .derivative c m side => side ∈ (g.node m).sides ∧ S.takes c ∧
      ((x ((g.node m).slot side)).after S c).Within w
  | .compacted m => m < g.nodes.size ∧ ((x (.node m)).compacted S).Within w
  | .term _ _ => False

/-- The result of an evaluator fits the weight. -/
def Fits (S : Sense σ) (x : Gauge σ) (g : Graph) (w : Weight σ) :
    (i : Evaluator) → i.Result → Prop
  | .compact, m => x.Stands g (w.compacted S) m
  | .forest, ws => S.agrees .forest w.sense ws
  | .nullable, v => S.agrees .nullable w.sense v
  | .emptyLike, v => S.agrees .emptyLike w.sense v
  | .epsLike, v => S.agrees .epsLike w.sense v

/-- The gauge agrees with all that is there and all that is known. -/
structure Exact (S : Sense σ) (x : Gauge σ) (g : Graph) : Prop where
  formed : g.Formed
  atoms : (x (.node .empty)).rank = 0 ∧ (x (.node .eps)).rank = 0
  nodes : ∀ n < g.nodes.size, (g.node n).Weighs S x (x (.node n))
  cells : ∀ {cell s}, g.suspension? cell = some s → x.Bears S g (x (.deferred cell)) s
  proper : ∀ y, S.proper (x y).sense
  derivatives : ∀ {n c d}, g.derivatives.find? n c = some d → S.takes c →
    n < g.nodes.size ∧ x.Stands g ((x (.node n)).after S c) d
  stored : ∀ i {n v}, (Evaluator.of i g).stored.get? n = some v →
    n < g.nodes.size ∧ x.Fits S g (x (.node n)) i v
  /-- No value leans on anything unfinished. -/
  provisional : ∀ i n, (Evaluator.of i g).provisional.get? n = none

/-- Weights and what is in progress stay as they are. -/
structure Later (x : Gauge σ) (g : Graph) (x' : Gauge σ) (g' : Graph) : Prop where
  evolves : g.Evolves g'
  agree : ∀ y, g.Covers y → x' y = x y
  within : ∀ n < g.nodes.size, ∀ side,
    (x' ((g'.node n).slot side)).Within (x ((g.node n).slot side))
  forcing : ∀ cell, g'.isForcing cell = g.isForcing cell
  started : g'.derivatives.inProgress = g.derivatives.inProgress
  active : ∀ i n, (Evaluator.of i g').active.get? n = (Evaluator.of i g).active.get? n
  frames : ∀ i, (Evaluator.of i g').frames = (Evaluator.of i g).frames

variable {x x' x'' : Gauge σ} {g g' g'' : Graph} {w w' : Weight σ} {c : Value} {n : NodeId}

namespace Later

theorem refl (x : Gauge σ) (g : Graph) : Later x g x g :=
  ⟨.refl g, fun _ _ => rfl, fun _ _ _ => .refl _, fun _ => rfl, rfl, fun _ _ => rfl, fun _ => rfl⟩

theorem trans (h : Later x g x' g') (k : Later x' g' x'' g'') : Later x g x'' g'' where
  evolves := h.evolves.trans k.evolves
  agree y covered := (k.agree y (h.evolves.covers covered)).trans (h.agree y covered)
  within n lt side :=
    (k.within n (Nat.lt_of_lt_of_le lt h.evolves.size) side).trans (h.within n lt side)
  forcing cell := (k.forcing cell).trans (h.forcing cell)
  started := k.started.trans h.started
  active i n := (k.active i n).trans (h.active i n)
  frames i := (k.frames i).trans (h.frames i)

variable (h : Later x g x' g')
include h

theorem lt (lt : n < g.nodes.size) : n < g'.nodes.size :=
  Nat.lt_of_lt_of_le lt h.evolves.size

theorem node (lt : n < g.nodes.size) : x' (.node n) = x (.node n) :=
  h.agree _ lt

theorem cell {cell : CellId} (lt : cell < g.cells.size) :
    x' (.deferred cell) = x (.deferred cell) :=
  h.agree _ lt

theorem kind (lt : n < g.nodes.size) : (g'.node n).kind = (g.node n).kind :=
  Node.kind_of_bare (h.evolves.bare n lt)

theorem sides (lt : n < g.nodes.size) : (g'.node n).sides = (g.node n).sides := by
  simp only [Node.sides, h.kind lt]

/-- What a node makes of its slots stays. -/
theorem sense (lt : n < g.nodes.size) : (g'.node n).sense S x' = (g.node n).sense S x := by
  unfold Node.sense
  rw [S.node_bare (h.evolves.bare n lt)]
  exact congrArg _ (funext fun side => (h.within n lt side).sense)

theorem weighs (lt : n < g.nodes.size) (k : (g.node n).Weighs S x w) :
    (g'.node n).Weighs S x' w where
  known := by rw [h.kind lt]; exact k.known
  complete := by rw [h.kind lt]; exact k.complete
  slots side member := by
    rw [h.sides lt] at member
    obtain ⟨there, lower⟩ := k.slots side member
    refine ⟨fun none => ?_, Nat.lt_of_le_of_lt (h.within n lt side).rank lower⟩
    rcases h.evolves.slot n lt side with same | ⟨_, _, _, _, new⟩
    · exact there (same ▸ none)
    · rw [new] at none; cases none
  vacant side out := by
    rw [h.sides lt] at out
    rcases h.evolves.slot n lt side with same | ⟨_, _, old, _, _⟩
    · rw [same]; exact k.vacant side out
    · rw [k.vacant side out] at old; cases old
  sense := k.sense.trans (h.sense lt).symm
  eps := by
    rw [h.kind lt, Node.witnesses_of_bare (h.evolves.bare n lt)]
    exact k.eps
  red := by
    rw [h.kind lt, Node.transform_of_bare (h.evolves.bare n lt)]
    exact k.red

theorem stands (k : x.Stands g w n) : x'.Stands g' w n :=
  ⟨h.lt k.lt, by rw [h.node k.lt]; exact k.within⟩

theorem bears {s : Suspension} (k : x.Bears S g w s) : x'.Bears S g' w s := by
  cases s with
  | derivative c m side =>
    obtain ⟨member, takes, within⟩ := k
    have lt := Graph.lt_of_mem_sides member
    exact ⟨by rwa [h.sides lt], takes, ((h.within m lt side).after c).trans within⟩
  | compacted m => exact ⟨h.lt k.1, by rw [h.node k.1]; exact k.2⟩
  | term => exact k

theorem fits {i : Evaluator} {v : i.Result} (k : x.Fits S g w i v) : x'.Fits S g' w i v := by
  cases i with
  | compact => exact h.stands k
  | _ => exact k

end Later

theorem Stands.mono (k : x.Stands g w n) (within : w.Within w') : x.Stands g w' n :=
  ⟨k.lt, k.within.trans within⟩

/-- What fits a weight fits every weight around it. -/
theorem Fits.mono {i : Evaluator} {v : i.Result} (k : x.Fits S g w i v) (within : w.Within w') :
    x.Fits S g w' i v := by
  cases i with
  | compact => exact Stands.mono k within.compacted
  | _ =>
    unfold Fits at k ⊢
    exact within.sense ▸ k

theorem Stands.congr (k : x.Stands g w n) (nodes : g'.nodes = g.nodes) : x.Stands g' w n :=
  ⟨by rw [nodes]; exact k.lt, k.within⟩

theorem Fits.congr {i : Evaluator} {v : i.Result} (k : x.Fits S g w i v)
    (nodes : g'.nodes = g.nodes) : x.Fits S g' w i v := by
  cases i with
  | compact => exact Stands.congr k nodes
  | _ => exact k

/-- The gauge that weighs `w` at `y` and otherwise stays. -/
def put (x : Gauge σ) (y : Slot) (w : Weight σ) : Gauge σ :=
  fun z => if z = y then w else x z

@[simp] theorem put_self (x : Gauge σ) (y : Slot) (w : Weight σ) : x.put y w y = w :=
  if_pos rfl

/-- The regime of exact gauges. -/
def weighing (S : Sense σ) : Regime (Gauge σ) where
  Valid := Exact S
  Later := Later
  refl := Later.refl
  trans := Later.trans

namespace Exact

variable (h : Exact S x g)
include h

/-- A change that touches no node and no cell but for marks. -/
theorem books (nodes : g'.nodes = g.nodes)
    (cells : ∀ cell, g'.suspension? cell = g.suspension? cell)
    (covered : g'.cells.size = g.cells.size)
    (derivatives : ∀ {n c d}, g'.derivatives.find? n c = some d → S.takes c →
      n < g.nodes.size ∧ x.Stands g ((x (.node n)).after S c) d)
    (stored : ∀ i {n v}, (Evaluator.of i g').stored.get? n = some v →
      n < g.nodes.size ∧ x.Fits S g (x (.node n)) i v)
    (provisional : ∀ i n, (Evaluator.of i g').provisional.get? n = none) : Exact S x g' := by
  have node := Graph.node_congr nodes
  have size : g'.nodes.size = g.nodes.size := by rw [nodes]
  refine ⟨h.formed.congr nodes cells covered, h.atoms, fun n lt => ?_, fun {cell s} hs => ?_,
    h.proper, fun hd takes => ?_, fun i n v hv => ?_, provisional⟩
  · rw [node]
    exact h.nodes n (size ▸ lt)
  · have bears := h.cells ((cells cell).symm.trans hs)
    cases s with
    | derivative c m side => rw [Bears, node]; exact bears
    | compacted m => exact ⟨size ▸ bears.1, bears.2⟩
    | term => exact bears
  · obtain ⟨lt, stands⟩ := derivatives hd takes
    exact ⟨size ▸ lt, stands.congr nodes⟩
  · obtain ⟨lt, fits⟩ := stored i hv
    exact ⟨size ▸ lt, fits.congr nodes⟩

/-- Growth by nodes and cells, and slots that are filled. -/
theorem grow (later : Later x g x' g') (formed : g'.Formed) (proper : ∀ y, S.proper (x' y).sense)
    (nodes : ∀ n, g.nodes.size ≤ n → n < g'.nodes.size → (g'.node n).Weighs S x' (x' (.node n)))
    (cells : ∀ {cell s}, g.cells.size ≤ cell → g'.suspension? cell = some s →
      x'.Bears S g' (x' (.deferred cell)) s)
    (derivatives : g'.derivatives = g.derivatives)
    (evaluations : ∀ i, Evaluator.of i g' = Evaluator.of i g) : Exact S x' g' := by
  have atoms : (x' (.node .empty)).rank = 0 ∧ (x' (.node .eps)).rank = 0 := by
    rw [later.node h.formed.empty_lt, later.node h.formed.eps_lt]
    exact h.atoms
  refine ⟨formed, atoms, fun n lt => ?_, fun {cell s} hs => ?_, proper, fun hd takes => ?_,
    fun i n v hv => ?_, fun i n => ?_⟩
  · rcases Nat.lt_or_ge n g.nodes.size with old | new
    · rw [later.node old]
      exact later.weighs old (h.nodes n old)
    · exact nodes n new lt
  · rcases Nat.lt_or_ge cell g.cells.size with old | new
    · rw [later.cell old]
      rw [later.evolves.suspension cell old] at hs
      exact later.bears (h.cells hs)
    · exact cells new hs
  · obtain ⟨lt, stands⟩ := h.derivatives (derivatives ▸ hd) takes
    rw [later.node lt]
    exact ⟨later.lt lt, later.stands stands⟩
  · rw [evaluations] at hv
    obtain ⟨lt, fits⟩ := h.stored i hv
    rw [later.node lt]
    exact ⟨later.lt lt, later.fits fits⟩
  · rw [evaluations]; exact h.provisional i n

omit h

theorem later_put (formed : g.Formed) {y : Slot} (fresh : ¬ g.Covers y) (evolves : g.Evolves g')
    (nodes : ∀ n < g.nodes.size, g'.node n = g.node n)
    (forcing : ∀ cell, g'.isForcing cell = g.isForcing cell)
    (derivatives : g'.derivatives = g.derivatives)
    (evaluations : ∀ i, Evaluator.of i g' = Evaluator.of i g) : Later x g (x.put y w) g' := by
  have agree (z : Slot) (covered : g.Covers z) : x.put y w z = x z :=
    if_neg (by rintro rfl; exact fresh covered)
  refine ⟨evolves, agree, fun n lt side => ?_, forcing, by rw [derivatives],
    fun i n => by rw [evaluations], fun i => by rw [evaluations]⟩
  rw [nodes n lt, agree _ (formed.covers n side)]
  exact .refl _

theorem proper_put (proper : ∀ y, S.proper (x y).sense) {y : Slot} (new : S.proper w.sense)
    (z : Slot) : S.proper (x.put y w z).sense := by
  unfold put
  split
  · exact new
  · exact proper z

include h

theorem proper_of_weighs {node : Node} (weighs : node.Weighs S x w) : S.proper w.sense :=
  weighs.sense ▸ S.proper_node weighs.eps weighs.red fun _ => h.proper _

theorem addNode {node : Node} (covers : ∀ side, g.Covers (node.slot side))
    (weighs : node.Weighs S x w) :
    Later x g (x.put (.node g.nodes.size) w) (g.addNode node) ∧
      Exact S (x.put (.node g.nodes.size) w) (g.addNode node) := by
  have later : Later x g (x.put (.node g.nodes.size) w) (g.addNode node) :=
    later_put h.formed (Nat.lt_irrefl _) (g.addNode_evolves node)
      (fun _ lt => Graph.node_addNode_of_lt node lt) (fun _ => rfl) rfl
      (fun _ => Evaluator.of_addNode node)
  have slots (side : Side) := later.agree _ (covers side)
  have sense : node.sense S (x.put (.node g.nodes.size) w) = node.sense S x := by
    simp only [Node.sense, slots]
  refine ⟨later, h.grow later (h.formed.addNode covers)
    (proper_put h.proper (h.proper_of_weighs weighs)) (fun n le lt => ?_)
    (fun le hs => absurd (Graph.lt_of_suspension (g := g) hs) (Nat.not_lt_of_le le)) rfl
    fun _ => Evaluator.of_addNode node⟩
  rw [Graph.nodes_addNode, Array.size_push] at lt
  obtain rfl : n = g.nodes.size := Nat.le_antisymm (Nat.le_of_lt_succ lt) le
  rw [Graph.node_addNode, if_pos rfl, put_self]
  exact ⟨weighs.known, weighs.complete,
    fun side member => by
      obtain ⟨there, lower⟩ := weighs.slots side member
      exact ⟨there, by rw [slots]; exact lower⟩,
    weighs.vacant, weighs.sense.trans sense.symm, weighs.eps, weighs.red⟩

theorem proper_of_bears {s : Suspension} (bears : x.Bears S g w s) : S.proper w.sense := by
  cases s with
  | derivative c m side => exact bears.2.2.sense ▸ S.proper_after bears.2.1 (h.proper _)
  | compacted m => exact bears.2.sense ▸ S.proper_compacted (h.proper _)
  | term => exact bears.elim

theorem addCell {s : Suspension} (bears : x.Bears S g w s) :
    Later x g (x.put (.deferred g.cells.size) w) (g.addCell s) ∧
      Exact S (x.put (.deferred g.cells.size) w) (g.addCell s) := by
  have allowed : Graph.Formed.Allows g s := by
    cases s with
    | derivative c m side => exact Node.complete_of_mem_sides bears.1
    | compacted m => exact bears.1
    | term => exact bears
  have later : Later x g (x.put (.deferred g.cells.size) w) (g.addCell s) :=
    later_put h.formed (Nat.lt_irrefl _) (g.addCell_evolves s) (fun _ _ => rfl)
      (Graph.isForcing_addCell s) rfl (fun _ => Evaluator.of_addCell s)
  refine ⟨later, h.grow later (h.formed.addCell allowed)
    (proper_put h.proper (h.proper_of_bears bears))
    (fun n le lt => absurd lt (Nat.not_lt_of_le le)) (fun {cell s'} le hs => ?_) rfl
    fun _ => Evaluator.of_addCell s⟩
  rw [Graph.suspension_addCell] at hs
  split at hs
  · next last =>
    cases hs
    rw [last, put_self]
    exact later.bears bears
  · exact absurd (Graph.lt_of_suspension hs) (Nat.not_lt_of_le le)

end Exact

end Gauge

end GrammarGraph
