import GrammarGraph.Evaluation
import GrammarGraph.Memo
import GrammarGraph.Term

/-! A store of nodes with everything that is known about them. Nodes are never removed;
they change when a deferred slot is filled and when a definition is completed. -/
namespace GrammarGraph

inductive Level where
  | debug
  | info
deriving DecidableEq

def Level.name : Level → String
  | .debug => "DEBUG"
  | .info => "INFO"

/-- A journal at this level takes messages of level `other`. -/
def Level.admits : Level → Level → Bool
  | .debug, _ => true
  | .info, other => other == .info

/-- Messages about the progress of a parse. -/
structure Journal where
  level : Level
  entries : Array (Level × String) := #[]

/-- A computation of a child, marked while it runs. -/
structure Cell where
  suspension : Suspension
  forcing : Bool := false

structure Graph where
  nodes : Array Node := #[{ kind := .empty }, { kind := .eps, witnesses := Forest.trivial }]
  cells : Array Cell := #[]
  names : List (String × NodeId) := []
  nullable : Evaluation Bool := {}
  forests : Evaluation Forest := {}
  emptyLike : Evaluation Bool := {}
  epsLike : Evaluation Bool := {}
  compacted : Evaluation NodeId := {}
  derivatives : Memo NodeId := {}
  journal : Option Journal := none
deriving Inhabited

abbrev Run := RunOf Graph

namespace Held

def nullable : Held Graph (Evaluation Bool) :=
  ⟨Graph.nullable, fun f g => { g with nullable := f g.nullable }⟩

def forests : Held Graph (Evaluation Forest) :=
  ⟨Graph.forests, fun f g => { g with forests := f g.forests }⟩

def emptyLike : Held Graph (Evaluation Bool) :=
  ⟨Graph.emptyLike, fun f g => { g with emptyLike := f g.emptyLike }⟩

def epsLike : Held Graph (Evaluation Bool) :=
  ⟨Graph.epsLike, fun f g => { g with epsLike := f g.epsLike }⟩

def compacted : Held Graph (Evaluation NodeId) :=
  ⟨Graph.compacted, fun f g => { g with compacted := f g.compacted }⟩

def derivatives : Held Graph (Memo NodeId) :=
  ⟨Graph.derivatives, fun f g => { g with derivatives := f g.derivatives }⟩

end Held

namespace Graph

def node (g : Graph) (n : NodeId) : Node :=
  g.nodes[n]?.getD default

def setNode (n : NodeId) (node : Node) (g : Graph) : Graph :=
  { g with nodes := g.nodes.setIfInBounds n node }

def setSlot (n : NodeId) (side : Side) (slot : Slot) (g : Graph) : Graph :=
  { g with nodes := g.nodes.modify n fun node => node.setSlot side slot }

def addNode (node : Node) (g : Graph) : Graph :=
  { g with nodes := g.nodes.push node }

def addCell (suspension : Suspension) (g : Graph) : Graph :=
  { g with cells := g.cells.push { suspension } }

def setForcing (cell : CellId) (forcing : Bool) (g : Graph) : Graph :=
  { g with cells := g.cells.modify cell fun c => { c with forcing } }

/-- Drops every result about `n`. -/
def forget (n : NodeId) (g : Graph) : Graph :=
  { g with
    nullable := g.nullable.forget n
    forests := g.forests.forget n
    emptyLike := g.emptyLike.forget n
    epsLike := g.epsLike.forget n
    compacted := g.compacted.forget n
    derivatives := g.derivatives.forget n }

/-- Gives `n` the contents of `other`. Deferred slots are then shared between the two,
and what was known about `n` is no longer. -/
def become (n other : NodeId) (g : Graph) : Graph :=
  forget n (setNode n (g.node other) g)

def bind (name : String) (n : NodeId) (g : Graph) : Graph :=
  { g with names := (name, n) :: g.names }

/-- Adds a message to the journal, if there is one that takes it. -/
def note (level : Level) (message : String) (g : Graph) : Graph :=
  { g with journal := g.journal.map fun journal =>
      if journal.level.admits level then
        { journal with entries := journal.entries.push (level, message) }
      else journal }

def admits (g : Graph) (level : Level) : Bool :=
  g.journal.any (·.level.admits level)

end Graph

namespace Run

def node (n : NodeId) : Run Node :=
  .read (·.node n)

def kind (n : NodeId) : Run Kind :=
  .read fun g => (g.node n).kind

/-- Makes a new node. -/
def make (node : Node) : Run NodeId := do
  let n ← .read (·.nodes.size)
  .update (Graph.addNode node)
  pure n

/-- Makes a new cell. -/
def defer (suspension : Suspension) : Run CellId := do
  let cell ← .read (·.cells.size)
  .update (Graph.addCell suspension)
  pure cell

end Run

end GrammarGraph
