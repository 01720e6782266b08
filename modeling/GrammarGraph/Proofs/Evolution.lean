import GrammarGraph.Proofs.Derivation

/-! How a graph may change while queries are answered: nodes and cells are added, deferred
slots are filled, and nothing else happens to what is there. A cell that is being computed
keeps its mark, and the slots that hold it stay as they are. -/
namespace GrammarGraph

@[simp] theorem Node.bare_setSlot (node : Node) (side : Side) (x : Slot) :
    (node.setSlot side x).bare = node.bare := by
  cases side <;> rfl

theorem Node.slot_setSlot (node : Node) (side : Side) (x : Slot) (other : Side) :
    (node.setSlot side x).slot other = if other = side then x else node.slot other := by
  cases side <;> cases other <;> rfl

/-- The definition of a node that has children is complete. -/
theorem Node.complete_of_mem_sides {node : Node} {side : Side} (member : side ∈ node.sides) :
    node.kind ≠ .placeholder :=
  fun open_ => by simp [Node.sides, open_] at member

namespace Graph

def suspension? (g : Graph) (cell : CellId) : Option Suspension :=
  g.cells[cell]?.map Cell.suspension

def isForcing (g : Graph) (cell : CellId) : Bool :=
  g.cells[cell]?.any Cell.forcing

/-- What a slot refers to is in the graph. -/
def Covers (g : Graph) : Slot → Prop
  | .vacant => True
  | .node k => k < g.nodes.size
  | .deferred cell => cell < g.cells.size

structure Evolves (g g' : Graph) : Prop where
  size : g.nodes.size ≤ g'.nodes.size
  bare : ∀ n < g.nodes.size, (g'.node n).bare = (g.node n).bare
  slot : ∀ n < g.nodes.size, ∀ side, (g'.node n).slot side = (g.node n).slot side ∨
    ∃ cell k, (g.node n).slot side = .deferred cell ∧ g.isForcing cell = false ∧
      (g'.node n).slot side = .node k
  cells : g.cells.size ≤ g'.cells.size
  suspension : ∀ cell < g.cells.size, g'.suspension? cell = g.suspension? cell
  forcing : ∀ cell, g.isForcing cell = true → g'.isForcing cell = true

theorem node_of_le {g : Graph} {n : NodeId} (h : g.nodes.size ≤ n) : g.node n = default := by
  simp [node, Array.getElem?_eq_none h]

/-- Only nodes of the graph have a kind that evaluators know. -/
theorem lt_of_kind {g : Graph} {n : NodeId} (h : (g.node n).kind ≠ .placeholder) :
    n < g.nodes.size :=
  Nat.lt_of_not_le fun out => h (by rw [node_of_le out]; rfl)

theorem lt_of_mem_sides {g : Graph} {n : NodeId} {side : Side} (member : side ∈ (g.node n).sides) :
    n < g.nodes.size :=
  lt_of_kind (Node.complete_of_mem_sides member)

theorem lt_of_slot {g : Graph} {n : NodeId} {side : Side}
    (h : (g.node n).slot side ≠ .vacant) : n < g.nodes.size :=
  Nat.lt_of_not_le fun out => h (by rw [node_of_le out]; cases side <;> rfl)

theorem lt_of_suspension {g : Graph} {cell : CellId} {s : Suspension}
    (h : g.suspension? cell = some s) : cell < g.cells.size :=
  Nat.lt_of_not_le fun out => by simp [suspension?, Array.getElem?_eq_none out] at h

theorem exists_suspension {g : Graph} {cell : CellId} (h : g.isForcing cell = true) :
    ∃ s, g.suspension? cell = some s := by
  cases here : g.cells[cell]? with
  | none => simp [isForcing, here] at h
  | some content => exact ⟨content.suspension, by simp [suspension?, here]⟩

namespace Evolves

theorem refl (g : Graph) : g.Evolves g :=
  ⟨Nat.le_refl _, fun _ _ => rfl, fun _ _ _ => .inl rfl, Nat.le_refl _, fun _ _ => rfl,
    fun _ h => h⟩

theorem trans {g₁ g₂ g₃ : Graph} (h : g₁.Evolves g₂) (k : g₂.Evolves g₃) : g₁.Evolves g₃ where
  size := Nat.le_trans h.size k.size
  bare n lt := (k.bare n (Nat.lt_of_lt_of_le lt h.size)).trans (h.bare n lt)
  slot n lt side := by
    rcases k.slot n (Nat.lt_of_lt_of_le lt h.size) side with same | ⟨cell, m, old, free, new⟩
    · rcases h.slot n lt side with same' | ⟨cell, m, old, free, new⟩
      · exact .inl (same.trans same')
      · exact .inr ⟨cell, m, old, free, same.trans new⟩
    · rcases h.slot n lt side with same' | ⟨_, _, _, _, new'⟩
      · refine .inr ⟨cell, m, same' ▸ old, ?_, new⟩
        cases held : g₁.isForcing cell
        · rfl
        · rw [h.forcing cell held] at free; exact free
      · rw [new'] at old; cases old
  cells := Nat.le_trans h.cells k.cells
  suspension cell lt :=
    (k.suspension cell (Nat.lt_of_lt_of_le lt h.cells)).trans (h.suspension cell lt)
  forcing cell held := k.forcing cell (h.forcing cell held)

variable {g g' : Graph} (h : g.Evolves g')
include h

theorem kind {n : NodeId} (lt : n < g.nodes.size) : (g'.node n).kind = (g.node n).kind :=
  Node.kind_of_bare (h.bare n lt)

theorem kind_eq {n : NodeId} {kind : Kind} (hk : (g.node n).kind = kind)
    (known : kind ≠ .placeholder) : (g'.node n).kind = kind :=
  (h.kind (lt_of_kind (hk ▸ known))).trans hk

theorem filled {n k : NodeId} {side : Side} (hs : (g.node n).slot side = .node k) :
    (g'.node n).slot side = .node k := by
  rcases h.slot n (lt_of_slot fun vacant => by rw [hs] at vacant; cases vacant) side with
    same | ⟨_, _, old, _, _⟩
  · exact same.trans hs
  · rw [hs] at old; cases old

theorem covers {x : Slot} (hx : g.Covers x) : g'.Covers x := by
  cases x with
  | vacant => trivial
  | node k => exact Nat.lt_of_lt_of_le hx h.size
  | deferred cell => exact Nat.lt_of_lt_of_le hx h.cells

theorem derives {A : Worth ω} {n : NodeId} {s : List Value} {w : ω}
    (d : Derives A g.node n s w) : Derives A g'.node n s w :=
  d.mono (fun _ known => h.bare _ (lt_of_kind known)) fun _ _ _ hs => h.filled hs

end Evolves

variable {g : Graph}

theorem evolves_of_eq {g' : Graph} (nodes : g'.nodes = g.nodes) (cells : g'.cells = g.cells) :
    g.Evolves g' := by
  have node (n : NodeId) : g'.node n = g.node n := by simp [Graph.node, nodes]
  refine ⟨by simp [nodes], fun n _ => by rw [node], fun n _ side => .inl (by rw [node]),
    by simp [cells], fun cell _ => by simp [suspension?, cells], fun cell held => ?_⟩
  simpa [isForcing, cells] using held

@[simp] theorem nodes_addNode (node : Node) : (g.addNode node).nodes = g.nodes.push node := rfl
@[simp] theorem cells_addNode (node : Node) : (g.addNode node).cells = g.cells := rfl

theorem node_addNode (node : Node) (n : NodeId) :
    (g.addNode node).node n = if n = g.nodes.size then node else g.node n := by
  simp only [Graph.node, nodes_addNode, Array.getElem?_push]
  split <;> rfl

theorem node_addNode_of_lt {n : NodeId} (node : Node) (lt : n < g.nodes.size) :
    (g.addNode node).node n = g.node n := by
  rw [node_addNode, if_neg (Nat.ne_of_lt lt)]

theorem addNode_evolves (node : Node) : g.Evolves (g.addNode node) := by
  have kept (n : NodeId) (lt : n < g.nodes.size) : (g.addNode node).node n = g.node n :=
    node_addNode_of_lt node lt
  exact ⟨by simp, fun n lt => by rw [kept n lt], fun n lt side => .inl (by rw [kept n lt]),
    by simp, fun _ _ => rfl, fun _ held => held⟩

@[simp] theorem nodes_addCell (s : Suspension) : (g.addCell s).nodes = g.nodes := rfl
@[simp] theorem node_addCell (s : Suspension) (n : NodeId) :
    (g.addCell s).node n = g.node n := rfl

@[simp] theorem cells_size_addCell (s : Suspension) :
    (g.addCell s).cells.size = g.cells.size + 1 := by simp [addCell]

theorem suspension_addCell (s : Suspension) (cell : CellId) :
    (g.addCell s).suspension? cell =
      if cell = g.cells.size then some s else g.suspension? cell := by
  simp only [suspension?, addCell, Array.getElem?_push]
  split <;> rfl

theorem suspension_addCell_of_lt {cell : CellId} (s : Suspension) (lt : cell < g.cells.size) :
    (g.addCell s).suspension? cell = g.suspension? cell := by
  rw [suspension_addCell, if_neg (Nat.ne_of_lt lt)]

theorem isForcing_addCell (s : Suspension) (cell : CellId) :
    (g.addCell s).isForcing cell = g.isForcing cell := by
  simp only [isForcing, addCell, Array.getElem?_push]
  split
  · next h => simp [h]
  · rfl

theorem addCell_evolves (s : Suspension) : g.Evolves (g.addCell s) :=
  ⟨by simp, fun _ _ => rfl, fun _ _ _ => .inl rfl, by simp,
    fun _ lt => suspension_addCell_of_lt s lt, fun cell held => by rwa [isForcing_addCell]⟩

@[simp] theorem nodes_setForcing (cell : CellId) (mark : Bool) :
    (g.setForcing cell mark).nodes = g.nodes := rfl
@[simp] theorem node_setForcing (cell : CellId) (mark : Bool) (n : NodeId) :
    (g.setForcing cell mark).node n = g.node n := rfl
@[simp] theorem cells_size_setForcing (cell : CellId) (mark : Bool) :
    (g.setForcing cell mark).cells.size = g.cells.size := by simp [setForcing]

@[simp] theorem suspension_setForcing (cell : CellId) (mark : Bool) (c : CellId) :
    (g.setForcing cell mark).suspension? c = g.suspension? c := by
  simp only [suspension?, setForcing, Array.getElem?_modify]
  split
  · cases g.cells[c]? <;> rfl
  · rfl

theorem isForcing_setForcing {cell : CellId} (mark : Bool) (lt : cell < g.cells.size)
    (c : CellId) :
    (g.setForcing cell mark).isForcing c = if c = cell then mark else g.isForcing c := by
  simp only [isForcing, setForcing, Array.getElem?_modify]
  by_cases same : cell = c
  · subst same; simp [lt]
  · have other : c ≠ cell := fun h => same h.symm
    simp [same, other]

@[simp] theorem nodes_size_setSlot (n : NodeId) (side : Side) (x : Slot) :
    (g.setSlot n side x).nodes.size = g.nodes.size := by simp [setSlot]
@[simp] theorem cells_setSlot (n : NodeId) (side : Side) (x : Slot) :
    (g.setSlot n side x).cells = g.cells := rfl
@[simp] theorem suspension_setSlot (n : NodeId) (side : Side) (x : Slot) (c : CellId) :
    (g.setSlot n side x).suspension? c = g.suspension? c := rfl
@[simp] theorem isForcing_setSlot (n : NodeId) (side : Side) (x : Slot) (c : CellId) :
    (g.setSlot n side x).isForcing c = g.isForcing c := rfl

theorem node_setSlot {n : NodeId} (side : Side) (x : Slot) (lt : n < g.nodes.size) (m : NodeId) :
    (g.setSlot n side x).node m =
      if m = n then (g.node n).setSlot side x else g.node m := by
  simp only [Graph.node, setSlot, Array.getElem?_modify]
  by_cases same : n = m
  · subst same; simp [lt]
  · have other : m ≠ n := fun h => same h.symm
    simp [same, other]

theorem setSlot_of_le {n : NodeId} (side : Side) (x : Slot) (out : g.nodes.size ≤ n) :
    g.setSlot n side x = g := by
  have same : g.nodes.modify n (fun node => node.setSlot side x) = g.nodes := by
    refine Array.ext_getElem? fun m => ?_
    rw [Array.getElem?_modify]
    split
    · next here => rw [← here, Array.getElem?_eq_none out, Option.map_none]
    · rfl
  rw [setSlot, same]

/-- Nodes are the same but for what their slots hold. -/
theorem bare_setSlot (g : Graph) (n : NodeId) (side : Side) (x : Slot) (m : NodeId) :
    ((g.setSlot n side x).node m).bare = (g.node m).bare := by
  rcases Nat.lt_or_ge n g.nodes.size with lt | out
  · rw [node_setSlot side x lt]
    split
    · next same => subst same; exact Node.bare_setSlot ..
    · rfl
  · rw [setSlot_of_le side x out]

theorem sides_setSlot (g : Graph) (n : NodeId) (side : Side) (x : Slot) (m : NodeId) :
    ((g.setSlot n side x).node m).sides = (g.node m).sides := by
  simp only [Node.sides, Node.kind_of_bare (g.bare_setSlot n side x m)]

/-- One slot at most is filled. -/
theorem slot_setSlot_cases (g : Graph) (n : NodeId) (side : Side) (x : Slot) (m : NodeId)
    (other : Side) :
    ((g.setSlot n side x).node m).slot other = (g.node m).slot other ∨
      m = n ∧ other = side ∧ ((g.setSlot n side x).node m).slot other = x := by
  rcases Nat.lt_or_ge n g.nodes.size with lt | out
  · rw [node_setSlot side x lt]
    split
    · next same =>
      subst same
      rw [Node.slot_setSlot]
      split
      · next same => exact .inr ⟨rfl, same, rfl⟩
      · exact .inl rfl
    · exact .inl rfl
  · rw [setSlot_of_le side x out]
    exact .inl rfl

theorem slot_setSlot_self {n : NodeId} (side : Side) (x : Slot) (lt : n < g.nodes.size) :
    ((g.setSlot n side x).node n).slot side = x := by
  rw [node_setSlot side x lt, if_pos rfl, Node.slot_setSlot, if_pos rfl]

theorem setSlot_evolves {n k : NodeId} {side : Side} {cell : CellId}
    (held : (g.node n).slot side = .deferred cell) (free : g.isForcing cell = false) :
    g.Evolves (g.setSlot n side (.node k)) := by
  refine ⟨by simp, fun m _ => g.bare_setSlot n side _ m, fun m _ other => ?_, by simp,
    fun _ _ => rfl, fun _ h => h⟩
  rcases g.slot_setSlot_cases n side (.node k) m other with same | ⟨rfl, rfl, new⟩
  · exact .inl same
  · exact .inr ⟨cell, k, held, free, new⟩

@[simp] theorem nodes_size_become (n other : NodeId) :
    (g.become n other).nodes.size = g.nodes.size := by
  simp [become, forget, setNode]
@[simp] theorem cells_become (n other : NodeId) : (g.become n other).cells = g.cells := rfl
@[simp] theorem suspension_become (n other : NodeId) (c : CellId) :
    (g.become n other).suspension? c = g.suspension? c := rfl

theorem node_become {n : NodeId} (other : NodeId) (lt : n < g.nodes.size) (m : NodeId) :
    (g.become n other).node m = if m = n then g.node other else g.node m := by
  simp only [Graph.node, become, forget, setNode, Array.getElem?_setIfInBounds]
  by_cases same : n = m
  · subst same; simp [lt]
  · have different : m ≠ n := fun h => same h.symm
    simp [same, different]

theorem node_become_of_ne {n m : NodeId} (other : NodeId) (ne : m ≠ n) :
    (g.become n other).node m = g.node m := by
  have different : n ≠ m := fun same => ne same.symm
  simp [Graph.node, become, forget, setNode, different]

/-- Once `n` is completed, it has the contents of the other node, and the rest is as before. -/
theorem node_become_cases (n other m : NodeId) :
    (m = n ∧ (g.become n other).node m = g.node other) ∨
      (g.become n other).node m = g.node m := by
  by_cases same : m = n
  · by_cases lt : n < g.nodes.size
    · exact .inl ⟨same, by rw [node_become other lt, if_pos same]⟩
    · have out : g.nodes.size ≤ m := same ▸ Nat.le_of_not_lt lt
      exact .inr (by rw [node_of_le (by simpa using out), node_of_le out])
  · exact .inr (node_become_of_ne other same)

theorem ne_of_open {n m : NodeId} (open_ : (g.node n).kind = .placeholder)
    (known : (g.node m).kind ≠ .placeholder) : m ≠ n := by
  rintro rfl
  exact known open_

/-- What is known is not what a definition was left open for. -/
theorem node_become_of_known {n m : NodeId} (other : NodeId) (open_ : (g.node n).kind = .placeholder)
    (known : (g.node m).kind ≠ .placeholder) : (g.become n other).node m = g.node m :=
  node_become_of_ne other (ne_of_open open_ known)

/-- A definition is completed that is newer than the nodes in question. -/
theorem Evolves.become {g₁ : Graph} (h : g.Evolves g₁) {n : NodeId} (le : g.nodes.size ≤ n)
    (other : NodeId) : g.Evolves (g₁.become n other) := by
  have old {m : NodeId} (there : m < g.nodes.size) : (g₁.become n other).node m = g₁.node m := by
    rw [node_become_of_ne other (Nat.ne_of_lt (Nat.lt_of_lt_of_le there le))]
  refine ⟨?_, fun m there => ?_, fun m there side => ?_, h.cells, h.suspension, h.forcing⟩
  · rw [nodes_size_become]
    exact h.size
  · rw [old there]
    exact h.bare m there
  · rw [old there]
    exact h.slot m there side

namespace Evolves

variable {g₁ : Graph} {n : NodeId} {side : Side} {cell : CellId}

theorem held (h : (g.setForcing cell true).Evolves g₁) (lt : cell < g.cells.size)
    (hs : (g.node n).slot side = .deferred cell) : (g₁.node n).slot side = .deferred cell := by
  have nlt : n < g.nodes.size := lt_of_slot fun vacant => by rw [hs] at vacant; cases vacant
  rcases h.slot n nlt side with same | ⟨cell', _, old, free, _⟩
  · exact same.trans hs
  · obtain rfl : cell' = cell := Slot.deferred.inj (old.symm.trans hs)
    rw [isForcing_setForcing _ lt, if_pos rfl] at free
    cases free

theorem unmarked (h : (g.setForcing cell true).Evolves g₁) (lt : cell < g.cells.size)
    (free : g.isForcing cell = false) : g.Evolves (g₁.setForcing cell false) where
  size := h.size
  bare := h.bare
  slot m mlt other := by
    rcases h.slot m mlt other with same | ⟨cell', k, old, free', new⟩
    · exact .inl same
    · refine .inr ⟨cell', k, old, ?_, new⟩
      rw [isForcing_setForcing _ lt] at free'
      split at free'
      · cases free'
      · exact free'
  cells := by simpa using h.cells
  suspension c clt := by
    rw [suspension_setForcing, h.suspension c (by simpa using clt), suspension_setForcing]
  forcing c marked := by
    have other : c ≠ cell := fun same => by rw [same, free] at marked; cases marked
    have lt₁ : cell < g₁.cells.size := Nat.lt_of_lt_of_le (by simpa using lt) h.cells
    rw [isForcing_setForcing _ lt₁, if_neg other]
    exact h.forcing c (by rwa [isForcing_setForcing _ lt, if_neg other])

/-- The node that was computed takes the place of its cell. -/
theorem placed (h : (g.setForcing cell true).Evolves g₁) (lt : cell < g.cells.size)
    (hs : (g.node n).slot side = .deferred cell) (k : NodeId) :
    (g₁.setForcing cell false).Evolves
      ((g₁.setForcing cell false).setSlot n side (.node k)) := by
  have lt₁ : cell < g₁.cells.size := Nat.lt_of_lt_of_le (by simpa using lt) h.cells
  exact setSlot_evolves (h.held lt hs) (by rw [isForcing_setForcing _ lt₁, if_pos rfl])

end Evolves

end Graph

end GrammarGraph
