import GrammarGraph.Query

/-! Breadth-first surveys. A node gets its number when it is first met; it is looked at,
and its children are met, when its turn comes. -/
namespace GrammarGraph

structure Survey where
  /-- The nodes met, by number. -/
  order : Array NodeId := #[]
  number : Table Nat := {}
  /-- The contents of the nodes looked at, by number. -/
  contents : Array Node := #[]

namespace Survey

def meet (s : Survey) (n : NodeId) : Survey :=
  if s.number.has n then s
  else
    let number := s.order.size
    { s with order := s.order.push n, number := s.number.insert n number }

def start (root : NodeId) : Survey :=
  meet {} root

def current? (s : Survey) : Option NodeId :=
  s.order[s.contents.size]?

def advance (s : Survey) (node : Node) (children : List NodeId) : Survey :=
  children.foldl meet { s with contents := s.contents.push node }

/-- Looks at up to `bound` nodes. `visit` gives the contents and the children of a node. -/
def explore [Monad m] (visit : NodeId → m (Node × List NodeId)) : Nat → Survey → m Survey
  | 0, s => pure s
  | bound + 1, s => match s.current? with
    | none => pure s
    | some n => do
      let (node, children) ← visit n
      explore visit bound (s.advance node children)

/-- The survey of all that can be reached from `root`. -/
def run (visit : NodeId → Run (Node × List NodeId)) (bound : Nat) (root : NodeId) :
    Run Survey := do
  let s ← explore visit bound (start root)
  if s.current?.isSome then RunOf.spent else pure s

/-- Follows the children that a node has by its kind and computes the deferred ones. -/
def forcing (ask : Ask) (n : NodeId) : Run (Node × List NodeId) := do
  let children ← ask.children n
  return (← Run.node n, children)

/-- The slots that hold nodes, after the children were computed. -/
def forcingSlots (ask : Ask) (n : NodeId) : Run (Node × List NodeId) := do
  ask.forceChildren n
  let node ← Run.node n
  return (node, node.forcedChildren)

def ofGraph (g : Graph) (root : NodeId) : Survey :=
  (explore (m := Id) (fun n => (g.node n, (g.node n).forcedChildren)) (g.nodes.size + 1)
    (start root))

def nodeCount (ask : Ask) (bound : Nat) (root : NodeId) : Run Nat := do
  return (← run (forcing ask) bound root).order.size

end Survey

end GrammarGraph
