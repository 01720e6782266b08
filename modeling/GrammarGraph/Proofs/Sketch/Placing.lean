import GrammarGraph.Proofs.Sketch.Books
import GrammarGraph.Proofs.Sketch.Cast

/-! Where the nodes and the cells of a sketch lie in a larger graph, and what that makes of slots,
of suspensions, of operands and of the answers of the evaluators. -/
namespace GrammarGraph

structure Placing (K : Cast) where
  At : NodeId → NodeId → Prop
  AtCell : CellId → CellId → Prop

namespace Placing

variable {K : Cast}

/-- More is placed, and what was placed stays where it is. -/
structure Le (p q : Placing K) : Prop where
  node : ∀ {n n'}, p.At n n' → q.At n n'
  cell : ∀ {c c'}, p.AtCell c c' → q.AtCell c c'

/-- Some node of the sketch lies at `n'`. -/
def Covers (p : Placing K) (n' : NodeId) : Prop :=
  ∃ n, p.At n n'

/-- Some cell of the sketch lies at `c'`. -/
def CoversCell (p : Placing K) (c' : CellId) : Prop :=
  ∃ c, p.AtCell c c'

def Slots (p : Placing K) : Slot → Slot → Prop
  | .vacant, .vacant => True
  | .node n, .node n' => p.At n n'
  | .deferred c, .deferred c' => p.AtCell c c'
  | _, _ => False

/-- Terms that wait for their evaluation have no place in a sketch. -/
def Suspensions (p : Placing K) : Suspension → Suspension → Prop
  | .derivative c n side, .derivative c' n' side' => K.Symbols c c' ∧ p.At n n' ∧ side' = side
  | .compacted n, .compacted n' => p.At n n'
  | _, _ => False

def Operands (p : Placing K) : Operand → Operand → Prop
  | .node n, .node n' => p.At n n'
  | .deferred s, .deferred s' => p.Suspensions s s'
  | .other name, .other name' => name' = name
  | _, _ => False

structure Nodes (p : Placing K) (node node' : Node) : Prop where
  kind : node'.kind = node.kind
  first : p.Slots node.first node'.first
  second : p.Slots node.second node'.second
  symbol : node.kind = .char → K.Symbols node.symbol node'.symbol
  witnesses : K.Forests node.witnesses node'.witnesses
  transform : K.Transforms node.transform node'.transform

structure Cells (p : Placing K) (cell cell' : Cell) : Prop where
  suspension : p.Suspensions cell.suspension cell'.suspension
  forcing : cell'.forcing = cell.forcing

/-- Answers about a node of the sketch and about the one in its place. -/
def Results (p : Placing K) : (i : Evaluator) → i.Result → i.Result → Prop
  | .forest => K.Forests
  | .compact => p.At
  | .nullable | .emptyLike | .epsLike => Eq

/-- The placing with one more node. -/
def push (p : Placing K) (n n' : NodeId) : Placing K :=
  { p with At := fun m m' => p.At m m' ∨ m = n ∧ m' = n' }

/-- The placing with one more cell. -/
def pushCell (p : Placing K) (c c' : CellId) : Placing K :=
  { p with AtCell := fun d d' => p.AtCell d d' ∨ d = c ∧ d' = c' }

variable {p q r : Placing K} {n n' m m' : NodeId} {c c' : CellId} {x x' : Operand}

namespace Le

theorem refl (p : Placing K) : p.Le p :=
  ⟨id, id⟩

theorem trans (h : p.Le q) (k : q.Le r) : p.Le r :=
  ⟨k.node ∘ h.node, k.cell ∘ h.cell⟩

theorem push (p : Placing K) (n n' : NodeId) : p.Le (p.push n n') :=
  ⟨.inl, id⟩

theorem pushCell (p : Placing K) (c c' : CellId) : p.Le (p.pushCell c c') :=
  ⟨id, .inl⟩

variable (h : p.Le q)
include h

theorem slots {y y' : Slot} (related : p.Slots y y') : q.Slots y y' := by
  cases y <;> cases y' <;> first | exact related | exact h.node related | exact h.cell related

theorem suspensions {s s' : Suspension} (related : p.Suspensions s s') : q.Suspensions s s' := by
  cases s <;> cases s' <;>
    first | exact related | exact h.node related
          | exact ⟨related.1, h.node related.2.1, related.2.2⟩

theorem operands (related : p.Operands x x') : q.Operands x x' := by
  cases x <;> cases x' <;>
    first | exact related | exact h.node related | exact h.suspensions related

theorem nodes {node node' : Node} (related : p.Nodes node node') : q.Nodes node node' :=
  { related with first := h.slots related.first, second := h.slots related.second }

theorem cells {cell cell' : Cell} (related : p.Cells cell cell') : q.Cells cell cell' :=
  ⟨h.suspensions related.suspension, related.forcing⟩

theorem results {i : Evaluator} {v v' : i.Result} (related : p.Results i v v') :
    q.Results i v v' := by
  cases i <;> first | exact related | exact h.node related

end Le

theorem ne_of_not_covers (placed : p.At n n') (free : ¬ p.Covers m) : m ≠ n' :=
  fun same => free ⟨n, same ▸ placed⟩

theorem Nodes.slot {node node' : Node} (h : p.Nodes node node') (side : Side) :
    p.Slots (node.slot side) (node'.slot side) := by
  cases side
  · exact h.first
  · exact h.second

theorem Nodes.setSlot {node node' : Node} (h : p.Nodes node node') (side : Side) {y y' : Slot}
    (slots : p.Slots y y') : p.Nodes (node.setSlot side y) (node'.setSlot side y') := by
  cases side
  · exact { h with first := slots }
  · exact { h with second := slots }

theorem Nodes.sides {node node' : Node} (h : p.Nodes node node') : node'.sides = node.sides := by
  rw [Node.sides, Node.sides, h.kind]

theorem Nodes.isTrivial {node node' : Node} (h : p.Nodes node node') :
    node'.isTrivial = node.isTrivial := by
  rw [Node.isTrivial, Node.isTrivial, h.kind, K.isTrivial h.witnesses]

theorem operand_ofChild {k k' : Option NodeId} (related : Option.Rel p.At k k') :
    p.Operands (.ofChild k) (.ofChild k') := by
  cases related with
  | none => exact rfl
  | some matched => exact matched

theorem operands_cases (related : p.Operands x x') :
    (∃ n n', x = .node n ∧ x' = .node n' ∧ p.At n n') ∨
    (∃ s s', x = .deferred s ∧ x' = .deferred s' ∧ p.Suspensions s s') ∨
    ∃ name, x = .other name ∧ x' = .other name := by
  cases x <;> cases x'
  case node.node n n' => exact .inl ⟨n, n', rfl, rfl, related⟩
  case deferred.deferred s s' => exact .inr (.inl ⟨s, s', rfl, rfl, related⟩)
  case other.other name name' => exact .inr (.inr ⟨name, rfl, by rw [show name' = name from related]⟩)
  all_goals exact related.elim

theorem operands_node? (related : p.Operands x x') : Option.Rel p.At x.node? x'.node? := by
  rcases operands_cases related with
    ⟨n, n', rfl, rfl, matched⟩ | ⟨s, s', rfl, rfl, _⟩ | ⟨name, rfl, rfl⟩
  · exact .some matched
  · exact .none
  · exact .none

end Placing

end GrammarGraph
