import GrammarGraph.Proofs.Evolution

/-! Graphs in which what is there refers to what is there. -/
namespace GrammarGraph

variable {g g' : Graph}

/-- What is there refers to what is there, and no cell holds a term. -/
structure Graph.Formed (g : Graph) : Prop where
  covers : ∀ n side, g.Covers ((g.node n).slot side)
  derivative : ∀ {cell c n side}, g.suspension? cell = some (.derivative c n side) →
    (g.node n).kind ≠ .placeholder
  compacted : ∀ {cell n}, g.suspension? cell = some (.compacted n) → n < g.nodes.size
  term : ∀ {cell body scope}, g.suspension? cell ≠ some (.term body scope)
  empty : (g.node .empty).kind = .empty
  eps : (g.node .eps).kind = .eps
  trivial : (g.node .eps).witnesses = Forest.trivial

theorem Graph.node_congr (nodes : g'.nodes = g.nodes) (n : NodeId) : g'.node n = g.node n := by
  simp [Graph.node, nodes]

theorem Graph.suspension_congr (cells : g'.cells = g.cells) (cell : CellId) :
    g'.suspension? cell = g.suspension? cell := by
  simp [Graph.suspension?, cells]

theorem Graph.Covers.congr (nodes : g'.nodes.size = g.nodes.size)
    (cells : g'.cells.size = g.cells.size) {x : Slot} (h : g.Covers x) : g'.Covers x := by
  cases x with
  | vacant => trivial
  | node k => exact Nat.lt_of_lt_of_eq h nodes.symm
  | deferred cell => exact Nat.lt_of_lt_of_eq h cells.symm

/-- A node whose slots hold, on the sides where it has children, nodes that are built. -/
structure Node.Concrete (built : NodeId → Prop) (node : Node) : Prop where
  kind : ∀ name, node.kind ≠ .other name
  child : ∀ side ∈ node.sides, ∃ k, node.slot side = .node k ∧ built k
  vacant : ∀ side ∉ node.sides, node.slot side = .vacant

theorem Node.Concrete.mono {built built' : NodeId → Prop} {node : Node}
    (h : node.Concrete built) (le : ∀ k, built k → built' k) : node.Concrete built' :=
  ⟨h.kind, fun side member => (h.child side member).imp fun k hk => ⟨hk.1, le k hk.2⟩, h.vacant⟩

theorem Node.Concrete.not_deferred {built : NodeId → Prop} {node : Node}
    (h : node.Concrete built) (side : Side) (cell : CellId) :
    node.slot side ≠ .deferred cell := by
  by_cases member : side ∈ node.sides
  · obtain ⟨k, slot, _⟩ := h.child side member
    rw [slot]; exact Slot.noConfusion
  · rw [h.vacant side member]; exact Slot.noConfusion

theorem Node.sides_of_atomic {node : Node} (atomic : node.kind.isAtomic) : node.sides = [] := by
  unfold Node.sides
  revert atomic
  cases node.kind <;> simp [Kind.isAtomic]

/-- Concatenations and alternatives use both slots. -/
theorem Node.mem_sides_of_pair {node : Node} (kind : node.kind = .cat ∨ node.kind = .alt)
    (side : Side) : side ∈ node.sides := by
  rcases kind with kind | kind <;> cases side <;> simp [Node.sides, kind]

theorem Node.sides_of_single {node : Node}
    (kind : node.kind = .rep ∨ node.kind = .delta ∨ node.kind = .red) : node.sides = [.first] := by
  rcases kind with kind | kind | kind <;> simp [Node.sides, kind]

theorem Node.eq_first_of_single {node : Node}
    (kind : node.kind = .rep ∨ node.kind = .delta ∨ node.kind = .red) {side : Side}
    (member : side ∈ node.sides) : side = .first := by
  rwa [sides_of_single kind, List.mem_singleton] at member

theorem Node.eq_second_of_single {node : Node}
    (kind : node.kind = .rep ∨ node.kind = .delta ∨ node.kind = .red) {side : Side}
    (out : side ∉ node.sides) : side = .second := by
  rw [sides_of_single kind, List.mem_singleton] at out
  cases side with
  | first => exact absurd rfl out
  | second => rfl

theorem Node.mem_sides_of_single {node : Node}
    (kind : node.kind = .rep ∨ node.kind = .delta ∨ node.kind = .red) : .first ∈ node.sides := by
  simp [Node.sides_of_single kind]

namespace Graph

theorem node_initial (n : NodeId) : ({} : Graph).node n = if n = .empty then { kind := .empty }
    else if n = .eps then { kind := .eps, witnesses := Forest.trivial } else default := by
  match n with
  | 0 | 1 => rfl
  | n + 2 => exact node_of_le (Nat.le_add_left 2 n)

theorem slot_initial (n : NodeId) (side : Side) :
    (({} : Graph).node n).slot side = .vacant := by
  rw [node_initial]
  split
  · cases side <;> rfl
  · split <;> cases side <;> rfl

theorem atomic_initial (n : NodeId) : (({} : Graph).node n).kind.isAtomic := by
  rw [node_initial]
  split
  · rfl
  · split <;> rfl

theorem suspension_initial (cell : CellId) : ({} : Graph).suspension? cell = none := by
  simp [suspension?]

theorem initial_formed : ({} : Graph).Formed := by
  refine ⟨fun n side => ?_, fun hs => ?_, fun hs => ?_, fun hs => ?_, rfl, rfl, rfl⟩
  · rw [slot_initial]; exact True.intro
  · rw [suspension_initial] at hs; cases hs
  · rw [suspension_initial] at hs; cases hs
  · rw [suspension_initial] at hs; cases hs

end Graph

namespace Graph.Formed

theorem congr (h : g.Formed) (nodes : g'.nodes = g.nodes)
    (cells : ∀ cell, g'.suspension? cell = g.suspension? cell)
    (covered : g'.cells.size = g.cells.size) : g'.Formed where
  covers n side := by
    rw [Graph.node_congr nodes]
    exact (h.covers n side).congr (by rw [nodes]) covered
  derivative hs := by
    rw [Graph.node_congr nodes]
    exact h.derivative ((cells _).symm.trans hs)
  compacted hs := by
    rw [nodes]
    exact h.compacted ((cells _).symm.trans hs)
  term hs := h.term ((cells _).symm.trans hs)
  empty := by rw [Graph.node_congr nodes]; exact h.empty
  eps := by rw [Graph.node_congr nodes]; exact h.eps
  trivial := by rw [Graph.node_congr nodes]; exact h.trivial

theorem node_lt (h : g.Formed) {n k : NodeId} {side : Side}
    (hs : (g.node n).slot side = .node k) : k < g.nodes.size := by
  have := h.covers n side
  rwa [hs] at this

theorem cell_lt (h : g.Formed) {n : NodeId} {side : Side} {cell : CellId}
    (hs : (g.node n).slot side = .deferred cell) : cell < g.cells.size := by
  have := h.covers n side
  rwa [hs] at this

theorem empty_lt (h : g.Formed) : NodeId.empty < g.nodes.size :=
  lt_of_kind (by rw [h.empty]; decide)

theorem eps_lt (h : g.Formed) : NodeId.eps < g.nodes.size :=
  lt_of_kind (by rw [h.eps]; decide)

/-- A new node whose slots refer to what is there. -/
theorem addNode (h : g.Formed) {node : Node} (covers : ∀ side, g.Covers (node.slot side)) :
    (g.addNode node).Formed where
  covers n side := by
    refine (g.addNode_evolves node).covers (?_ : g.Covers _)
    rw [node_addNode]
    split
    · exact covers side
    · exact h.covers n side
  derivative hs := by
    have known := h.derivative hs
    rw [node_addNode_of_lt node (lt_of_kind known)]
    exact known
  compacted hs := Nat.lt_of_lt_of_le (h.compacted hs) (g.addNode_evolves node).size
  term := h.term
  empty := by rw [node_addNode_of_lt node h.empty_lt]; exact h.empty
  eps := by rw [node_addNode_of_lt node h.eps_lt]; exact h.eps
  trivial := by rw [node_addNode_of_lt node h.eps_lt]; exact h.trivial

/-- A suspension that refers to what is there. -/
def Allows (g : Graph) : Suspension → Prop
  | .derivative _ n _ => (g.node n).kind ≠ .placeholder
  | .compacted n => n < g.nodes.size
  | .term _ _ => False

theorem allows (h : g.Formed) {cell : CellId} {s : Suspension}
    (hs : g.suspension? cell = some s) : Allows g s := by
  cases s with
  | derivative c n side => exact h.derivative hs
  | compacted n => exact h.compacted hs
  | term body scope => exact h.term hs

theorem addCell (h : g.Formed) {s : Suspension} (allowed : Allows g s) : (g.addCell s).Formed := by
  have origin {cell s'} (hs : (g.addCell s).suspension? cell = some s') : Allows g s' := by
    rw [suspension_addCell] at hs
    split at hs
    · cases hs; exact allowed
    · exact h.allows hs
  exact ⟨fun n side => (g.addCell_evolves s).covers (h.covers n side), fun hs => origin hs,
    fun hs => origin hs, fun hs => origin hs, h.empty, h.eps, h.trivial⟩

theorem setForcing (h : g.Formed) (cell : CellId) (mark : Bool) :
    (g.setForcing cell mark).Formed :=
  h.congr rfl (suspension_setForcing cell mark) (cells_size_setForcing cell mark)

theorem setSlot (h : g.Formed) {n k : NodeId} {side : Side} (klt : k < g.nodes.size) :
    (g.setSlot n side (.node k)).Formed := by
  have bare := g.bare_setSlot n side (.node k)
  refine ⟨fun m other => ?_, fun hs => ?_, fun hs => ?_, fun hs => h.term hs, ?_, ?_, ?_⟩
  · refine Graph.Covers.congr (by simp) (by simp) (?_ : g.Covers _)
    rcases g.slot_setSlot_cases n side (.node k) m other with same | ⟨rfl, rfl, new⟩
    · rw [same]
      exact h.covers m other
    · rw [new]
      exact klt
  · rw [Node.kind_of_bare (bare _)]; exact h.derivative hs
  · rw [nodes_size_setSlot]; exact h.compacted hs
  · rw [Node.kind_of_bare (bare _)]; exact h.empty
  · rw [Node.kind_of_bare (bare _)]; exact h.eps
  · rw [Node.witnesses_of_bare (bare _)]; exact h.trivial

/-- A placeholder takes over the contents of another node. -/
theorem become (h : g.Formed) {n : NodeId} (other : NodeId)
    (open_ : (g.node n).kind = .placeholder) : (g.become n other).Formed := by
  have kept {m : NodeId} (known : (g.node m).kind ≠ .placeholder) :
      (g.become n other).node m = g.node m := node_become_of_known other open_ known
  refine ⟨fun m side => ?_, fun hs => ?_, fun hs => ?_, fun hs => h.term hs, ?_, ?_, ?_⟩
  · refine Graph.Covers.congr (by simp) (by simp) (?_ : g.Covers _)
    rcases g.node_become_cases n other m with ⟨-, same⟩ | same
    · exact same ▸ h.covers other side
    · exact same ▸ h.covers m side
  · rw [kept (h.derivative hs)]; exact h.derivative hs
  · rw [nodes_size_become]; exact h.compacted hs
  · rw [kept (by rw [h.empty]; decide)]; exact h.empty
  · rw [kept (by rw [h.eps]; decide)]; exact h.eps
  · rw [kept (by rw [h.eps]; decide)]; exact h.trivial

end Graph.Formed

end GrammarGraph
