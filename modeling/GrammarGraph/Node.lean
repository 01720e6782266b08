import GrammarGraph.Kind
import GrammarGraph.Transform
import GrammarGraph.Value.Written

/-! Nodes of a grammar graph. A node is known by its number; two nodes with the same
contents are different nodes. -/
namespace GrammarGraph

abbrev NodeId := Nat
abbrev CellId := Nat

/-- The one node for the language without sentences. -/
abbrev NodeId.empty : NodeId := 0

/-- The one node for the language of the empty sentence with the trivial forest. -/
abbrev NodeId.eps : NodeId := 1

inductive Side where
  | first
  | second
deriving DecidableEq

/-- A place for a child: nothing, a node, or a cell that computes the node when it is
first read. Two nodes may share a cell; each keeps the computed node for itself. -/
inductive Slot where
  | vacant
  | node (n : NodeId)
  | deferred (cell : CellId)
deriving DecidableEq

def Slot.isDeferred : Slot → Bool
  | .deferred _ => true
  | _ => false

def Slot.node? : Slot → Option NodeId
  | .node n => some n
  | _ => none

/-- Which of the fields mean something depends on the kind. -/
structure Node where
  kind : Kind
  first : Slot := .vacant
  second : Slot := .vacant
  symbol : Value := .none
  witnesses : Forest := []
  transform : Transform := .identity

namespace Node

instance : Inhabited Node := ⟨{ kind := .placeholder }⟩

def slot (node : Node) : Side → Slot
  | .first => node.first
  | .second => node.second

def setSlot (node : Node) (side : Side) (slot : Slot) : Node :=
  match side with
  | .first => { node with first := slot }
  | .second => { node with second := slot }

/-- The sides on which nodes of this kind have children. -/
def sides (node : Node) : List Side :=
  match node.kind with
  | .cat | .alt => [.first, .second]
  | .rep | .delta | .red => [.first]
  | _ => []

def isTrivial (node : Node) : Bool :=
  node.kind == .eps && Forest.isTrivial node.witnesses

def isForced (node : Node) : Bool :=
  !node.first.isDeferred && !node.second.isDeferred

/-- The nodes in the slots, whatever the kind; deferred slots are passed over. -/
def forcedChildren (node : Node) : List NodeId :=
  [node.first, node.second].filterMap Slot.node?

/-- One line of text about the node. The address stands for the node's identity, which has no text
of its own. -/
def describe (node : Node) : String :=
  if node.kind == .char then s!"<Language char {node.symbol.written}>"
  else if node.kind == .eps && !node.isTrivial then
    s!"<Language eps {node.witnesses.length} witnesses>"
  else s!"<Language {node.kind.name} at ADDRESS>"

end Node

end GrammarGraph
