import GrammarGraph.Proofs.Exactness.Promises
import GrammarGraph.Proofs.Regime.Ending

/-! Layers of nodes. What constructors make lies in layer 0, and a derivative lies at most one
layer above its node. A slot leads to no higher layer, and a deferred slot to the derivative
of a child of a node in a lower layer: so the computations for slots never run in circles,
although the nodes do. -/
namespace GrammarGraph

structure Layered (P : Value → Prop) (layer : NodeId → Nat) (g : Graph) : Prop where
  formed : g.Formed
  atoms : layer .empty = 0 ∧ layer .eps = 0
  known : ∀ n name, (g.node n).kind ≠ .other name
  slots : ∀ n, ∀ side ∈ (g.node n).sides, (g.node n).slot side ≠ .vacant
  below : ∀ {n side k}, (g.node n).slot side = .node k → layer k ≤ layer n
  deferred : ∀ {n side cell}, (g.node n).slot side = .deferred cell →
    ∃ c m other, g.suspension? cell = some (.derivative c m other) ∧ layer m < layer n
  asked : ∀ {cell c m side}, g.suspension? cell = some (.derivative c m side) →
    P c ∧ side ∈ (g.node m).sides
  memo : ∀ {n c d}, g.derivatives.find? n c = some d → (g.node n).kind ≠ .placeholder ∧
    d < g.nodes.size ∧ layer d ≤ layer n + 1 ∧ g.Derivative P c n d
  started : ∀ {n c}, (n, c) ∈ g.derivatives.inProgress → n < g.nodes.size

/-- No definition is open. -/
def Graph.Complete (g : Graph) : Prop :=
  ∀ n < g.nodes.size, (g.node n).kind ≠ .placeholder

/-- What is in progress lies high: the computations of cells from layer `cells`, and the
derivatives from layer `results` on. -/
structure Busy (layer : NodeId → Nat) (g : Graph) (cells results : Nat) : Prop where
  forcing : ∀ {cell c m side}, g.suspension? cell = some (.derivative c m side) →
    g.isForcing cell = true → cells ≤ layer m
  started : ∀ {n c}, (n, c) ∈ g.derivatives.inProgress → results ≤ layer n

/-- Layers and what is in progress stay as they are. -/
structure Layered.Later (layer : NodeId → Nat) (g : Graph) (layer' : NodeId → Nat) (g' : Graph) :
    Prop where
  extends_ : g.Extends g'
  layer : ∀ n < g.nodes.size, layer' n = layer n
  forcing : ∀ cell, g'.isForcing cell = g.isForcing cell
  started : g'.derivatives.inProgress = g.derivatives.inProgress
  /-- What is in progress gets no result from elsewhere. -/
  pending : ∀ {n c}, g.derivatives.isStarted n c = true →
    g'.derivatives.find? n c = g.derivatives.find? n c

def layering (P : Value → Prop) : Regime (NodeId → Nat) where
  Valid layer g := Layered P layer g ∧ g.Complete
  Later := Layered.Later
  refl _ g := ⟨.refl g, fun _ _ => rfl, fun _ => rfl, rfl, fun _ => rfl⟩
  trans h k :=
    ⟨h.extends_.trans k.extends_,
      fun n lt => (k.layer n (Nat.lt_of_lt_of_le lt h.extends_.size)).trans (h.layer n lt),
      fun cell => (k.forcing cell).trans (h.forcing cell), k.started.trans h.started,
      fun started => (k.pending (by rwa [Memo.isStarted, h.started])).trans (h.pending started)⟩

variable {P : Value → Prop} {layer layer' : NodeId → Nat} {g g' : Graph}

/-- The slot can be one of a node in layer `v`. -/
def Slot.Fits (layer : NodeId → Nat) (g : Graph) (v : Nat) : Slot → Prop
  | .vacant => True
  | .node k => k < g.nodes.size ∧ layer k ≤ v
  | .deferred cell => ∃ c m other, g.suspension? cell = some (.derivative c m other) ∧ layer m < v

theorem Slot.Fits.covers {v : Nat} {x : Slot} (h : x.Fits layer g v) : g.Covers x := by
  cases x with
  | vacant => trivial
  | node k => exact h.1
  | deferred cell =>
    obtain ⟨_, _, _, suspended, _⟩ := h
    exact Graph.lt_of_suspension suspended

namespace Layered

theorem source_lt (h : Layered P layer g) {cell : CellId} {c : Value} {m : NodeId} {side : Side}
    (hs : g.suspension? cell = some (.derivative c m side)) : m < g.nodes.size :=
  Graph.lt_of_kind (h.formed.derivative hs)

theorem Later.fits (later : Later layer g layer' g') (h : Layered P layer g) {v : Nat} {x : Slot}
    (fits : x.Fits layer g v) : x.Fits layer' g' v := by
  cases x with
  | vacant => trivial
  | node k =>
    exact ⟨Nat.lt_of_lt_of_le fits.1 later.extends_.size, by rw [later.layer k fits.1]; exact fits.2⟩
  | deferred cell =>
    obtain ⟨c, m, side, suspended, lt⟩ := fits
    refine ⟨c, m, side, later.extends_.suspension suspended, ?_⟩
    rwa [later.layer m (h.source_lt suspended)]

theorem Later.busy (later : Later layer g layer' g') (h : Layered P layer g) {low low' : Nat}
    (busy : Busy layer g low low') : Busy layer' g' low low' where
  forcing {cell c m side} suspended held := by
    rw [later.forcing] at held
    obtain ⟨s, hs⟩ := Graph.exists_suspension held
    obtain rfl := Option.some.inj ((later.extends_.suspension hs).symm.trans suspended)
    rw [later.layer m (h.source_lt hs)]
    exact busy.forcing hs held
  started {n c} member := by
    rw [later.started] at member
    rw [later.layer n (h.started member)]
    exact busy.started member

theorem fits (h : Layered P layer g) (n : NodeId) (side : Side) :
    ((g.node n).slot side).Fits layer g (layer n) := by
  cases slot : (g.node n).slot side with
  | vacant => trivial
  | node k => exact ⟨h.formed.node_lt slot, h.below slot⟩
  | deferred cell => exact h.deferred slot

/-- The new node lies in layer `v`. -/
def raised (layer : NodeId → Nat) (g : Graph) (v : Nat) : NodeId → Nat :=
  fun n => if n = g.nodes.size then v else layer n

theorem addNode (h : Layered P layer g) {node : Node} {v : Nat}
    (known : ∀ name, node.kind ≠ .other name) (slots : ∀ side ∈ node.sides, node.slot side ≠ .vacant)
    (fits : ∀ side, (node.slot side).Fits layer g v) :
    Later layer g (raised layer g v) (g.addNode node) ∧
      Layered P (raised layer g v) (g.addNode node) := by
  have old {n : NodeId} (lt : n < g.nodes.size) : raised layer g v n = layer n :=
    if_neg (Nat.ne_of_lt lt)
  have grown := Graph.Extends.addNode g node
  have later : Later layer g (raised layer g v) (g.addNode node) :=
    ⟨grown, fun _ lt => old lt, fun _ => rfl, rfl, fun _ => rfl⟩
  have at_ (n : NodeId) : (n = g.nodes.size ∧ (g.addNode node).node n = node ∧ raised layer g v n = v) ∨
      ((g.addNode node).node n = g.node n ∧ raised layer g v n = layer n) := by
    rw [Graph.node_addNode, raised]
    by_cases new : n = g.nodes.size
    · simp [new]
    · simp [new]
  have here (n : NodeId) (side : Side) :
      (((g.addNode node).node n).slot side).Fits (raised layer g v) (g.addNode node)
        (raised layer g v n) := by
    rcases at_ n with ⟨_, same, lies⟩ | ⟨same, lies⟩
    · rw [same, lies]; exact later.fits h (fits side)
    · rw [same, lies]; exact later.fits h (h.fits n side)
  refine ⟨later,
    { formed := h.formed.addNode fun side => (fits side).covers
      atoms := ⟨(old h.formed.empty_lt).trans h.atoms.1, (old h.formed.eps_lt).trans h.atoms.2⟩
      known := fun n name => by
        rcases at_ n with ⟨_, same, _⟩ | ⟨same, _⟩ <;> rw [same]
        · exact known name
        · exact h.known n name
      slots := fun n side member => by
        rcases at_ n with ⟨_, same, _⟩ | ⟨same, _⟩ <;> rw [same] at member ⊢
        · exact slots side member
        · exact h.slots n side member
      below := fun {n side k} slot => by
        have fits := here n side
        rw [slot] at fits
        exact fits.2
      deferred := fun {n side cell} slot => by
        have fits := here n side
        rwa [slot] at fits
      asked := fun hs => by
        rw [Graph.node_addNode_of_lt node (h.source_lt hs)]
        exact h.asked hs
      memo := fun {n c d} found => by
        obtain ⟨hk, lt, layer_le, derivative⟩ := h.memo found
        have nlt := Graph.lt_of_kind hk
        rw [Graph.node_addNode_of_lt node nlt, old nlt, old lt]
        exact ⟨hk, Nat.lt_of_lt_of_le lt grown.size, layer_le, grown.derivative derivative⟩
      started := fun member => Nat.lt_of_lt_of_le (h.started member) grown.size }⟩

theorem addCell (h : Layered P layer g) {c : Value} {m : NodeId} {side : Side} (hp : P c)
    (known : (g.node m).kind ≠ .placeholder) (member : side ∈ (g.node m).sides) :
    Later layer g layer (g.addCell (.derivative c m side)) ∧
      Layered P layer (g.addCell (.derivative c m side)) := by
  have grown := Graph.Extends.addCell g (.derivative c m side)
  refine ⟨⟨grown, fun _ _ => rfl, Graph.isForcing_addCell _, rfl, fun _ => rfl⟩,
    { formed := h.formed.addCell known
      atoms := h.atoms
      known := h.known
      slots := h.slots
      below := h.below
      deferred := fun slot => by
        obtain ⟨c', m', other, hs, lt⟩ := h.deferred slot
        exact ⟨c', m', other, grown.suspension hs, lt⟩
      asked := fun {cell c' m' side'} hs => by
        rw [Graph.suspension_addCell] at hs
        split at hs
        · cases hs
          exact ⟨hp, member⟩
        · exact h.asked hs
      memo := fun found => by
        obtain ⟨hk, lt, layer_le, derivative⟩ := h.memo found
        exact ⟨hk, lt, layer_le, grown.derivative derivative⟩
      started := h.started }⟩

theorem books (h : Layered P layer g) (nodes : g'.nodes = g.nodes)
    (cells : ∀ cell, g'.suspension? cell = g.suspension? cell) (covered : g'.cells.size = g.cells.size)
    (kept : ∀ {n c d}, g.derivatives.find? n c = some d → g'.derivatives.find? n c = some d)
    (memo : ∀ {n c d}, g'.derivatives.find? n c = some d → (g.node n).kind ≠ .placeholder ∧
      d < g.nodes.size ∧ layer d ≤ layer n + 1 ∧ g.Derivative P c n d)
    (started : ∀ {n c}, (n, c) ∈ g'.derivatives.inProgress → n < g.nodes.size)
    (evaluations : ∀ i : Evaluator, i.of g' = i.of g) :
    g.Extends g' ∧ Layered P layer g' := by
  have node := Graph.node_congr nodes
  have grown : g.Extends g' :=
    .books nodes cells kept fun i _ _ stored => by rwa [evaluations]
  refine ⟨grown,
    { formed := h.formed.congr nodes cells covered
      atoms := h.atoms
      known := fun n => by
        rw [node]
        exact h.known n
      slots := fun n => by
        rw [node]
        exact h.slots n
      below := fun slot => by
        rw [node] at slot
        exact h.below slot
      deferred := fun slot => by
        rw [node] at slot
        obtain ⟨c, m, other, hs, lt⟩ := h.deferred slot
        exact ⟨c, m, other, (cells _).trans hs, lt⟩
      asked := fun {cell c m side} hs => by
        rw [node]
        exact h.asked ((cells cell).symm.trans hs)
      memo := fun {n c d} found => by
        rw [node, nodes]
        obtain ⟨hk, lt, layer_le, derivative⟩ := memo found
        exact ⟨hk, lt, layer_le, grown.derivative derivative⟩
      started := fun member => by
        rw [nodes]
        exact started member }⟩

theorem setForcing (h : Layered P layer g) (cell : CellId) (mark : Bool) :
    g.Extends (g.setForcing cell mark) ∧ Layered P layer (g.setForcing cell mark) :=
  h.books rfl (Graph.suspension_setForcing cell mark) (Graph.cells_size_setForcing cell mark)
    (fun hd => hd) h.memo h.started fun _ => Evaluator.of_setForcing cell mark

/-- A slot is filled with what its cell gave, or with what it holds anyway. -/
theorem setSlot (h : Layered P layer g) {n k : NodeId} {side : Side}
    (slot : (g.node n).slot side = .node k ∨ ∃ cell s, (g.node n).slot side = .deferred cell ∧
      g.suspension? cell = some s ∧ g.Settled s k) (klt : k < g.nodes.size)
    (low : layer k ≤ layer n) :
    Later layer g layer (g.setSlot n side (.node k)) ∧
      Layered P layer (g.setSlot n side (.node k)) := by
  have bare := g.bare_setSlot n side (.node k)
  have at_ := g.slot_setSlot_cases n side (.node k)
  have kind (m : NodeId) := Node.kind_of_bare (bare m)
  have sides := g.sides_setSlot n side (.node k)
  have grown := Graph.Extends.setSlot slot
  refine ⟨⟨grown, fun _ _ => rfl, fun _ => rfl, rfl, fun _ => rfl⟩,
    { formed := h.formed.setSlot klt
      atoms := h.atoms
      known := fun m => by
        rw [kind]
        exact h.known m
      slots := fun m other member => by
        rw [sides] at member
        rcases at_ m other with same | ⟨_, _, new⟩
        · rw [same]
          exact h.slots m other member
        · rw [new]
          exact Slot.noConfusion
      below := fun {m other k'} hs => by
        rcases at_ m other with same | ⟨rfl, _, new⟩
        · exact h.below (same.symm.trans hs)
        · rw [← Slot.node.inj (new.symm.trans hs)]
          exact low
      deferred := fun {m other cell'} hs => by
        rcases at_ m other with same | ⟨_, _, new⟩
        · exact h.deferred (same.symm.trans hs)
        · rw [new] at hs
          cases hs
      asked := fun hs => by
        rw [sides]
        exact h.asked hs
      memo := fun found => by
        obtain ⟨hk, lt, layer_le, derivative⟩ := h.memo found
        rw [kind]
        exact ⟨hk, Nat.lt_of_lt_of_le lt grown.size, layer_le, grown.derivative derivative⟩
      started := fun member => by
        rw [Graph.nodes_size_setSlot]
        exact h.started member }⟩

/-- A placeholder is completed with a body in its own layer. -/
theorem become (h : Layered P layer g) {n body : NodeId}
    (open_ : (g.node n).kind = .placeholder) (vacant : ∀ side, (g.node n).slot side = .vacant)
    (same : layer body = layer n) :
    Later layer g layer (g.become n body) ∧ Layered P layer (g.become n body) := by
  have kept {m : NodeId} (known : (g.node m).kind ≠ .placeholder) :
      (g.become n body).node m = g.node m := Graph.node_become_of_known body open_ known
  have at_ (m : NodeId) := g.node_become_cases n body m
  have memo {m : NodeId} {c d} (found : g.derivatives.find? m c = some d) :
      (g.become n body).derivatives.find? m c = some d := by
    refine Eq.trans ?_ found
    exact Memo.find?_forget_of_ne (Graph.ne_of_open open_ (h.memo found).1)
  have grown : g.Extends (g.become n body) := .become body open_ vacant fun found => (h.memo found).1
  have pending {m : NodeId} {c : Value} :
      (g.become n body).derivatives.find? m c = g.derivatives.find? m c := by
    cases found : g.derivatives.find? m c with
    | some d => exact memo found
    | none =>
      cases found' : (g.become n body).derivatives.find? m c with
      | none => rfl
      | some d => cases found.symm.trans (Memo.find?_forget found')
  refine ⟨⟨grown, fun _ _ => rfl, fun _ => rfl, rfl, fun _ => pending⟩,
    { formed := h.formed.become body open_
      atoms := h.atoms
      known := fun m => by
        rcases at_ m with ⟨_, new⟩ | old
        · rw [new]
          exact h.known body
        · rw [old]
          exact h.known m
      slots := fun m side => by
        rcases at_ m with ⟨_, new⟩ | old
        · rw [new]
          exact h.slots body side
        · rw [old]
          exact h.slots m side
      below := fun {m side k} hs => by
        rcases at_ m with ⟨rfl, new⟩ | old
        · rw [new] at hs
          rw [← same]
          exact h.below hs
        · rw [old] at hs
          exact h.below hs
      deferred := fun {m side cell} hs => by
        rcases at_ m with ⟨rfl, new⟩ | old
        · rw [new] at hs
          rw [← same]
          exact h.deferred hs
        · rw [old] at hs
          exact h.deferred hs
      asked := fun {cell c m side} hs => by
        rw [kept (h.formed.derivative hs)]
        exact h.asked hs
      memo := fun {m c d} found => by
        obtain ⟨hk, dlt, layer_le, derivative⟩ := h.memo (Memo.find?_forget found)
        rw [kept hk, Graph.nodes_size_become]
        exact ⟨hk, dlt, layer_le, grown.derivative derivative⟩
      started := fun member => by
        rw [Graph.nodes_size_become]
        exact h.started member }⟩

end Layered

end GrammarGraph
