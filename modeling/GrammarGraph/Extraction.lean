import GrammarGraph.Query

/-! The forest of the witnesses that a node gives to the empty sentence. -/
namespace GrammarGraph

def Extraction.forest (ask : Ask) (n : NodeId) : Run Forest := do
  let ofChild (side : Side) : Run Forest := do ask.forest (← ask.child n side)
  let node ← Run.node n
  match node.kind with
  | .empty | .char => pure []
  | .eps => pure node.witnesses
  | .delta => ofChild .first
  | .rep => pure Forest.trivial
  | .alt =>
    let first ← ofChild .first
    let second ← ofChild .second
    RunOf.ofExcept (Forest.union [first, second])
  | .cat =>
    let first ← ofChild .first
    let second ← ofChild .second
    RunOf.ofExcept (Forest.combine first second)
  | .red =>
    let inner ← ofChild .first
    RunOf.ofExcept (node.transform.image inner)
  | kind => throw (.unexpectedKind kind)

end GrammarGraph
