import GrammarGraph.Query

/-! Three predicates on the language of a node: it contains the empty sentence, it is
provably empty, it contains at most the empty sentence. Each is given by the rule for one
node; what holds where a cycle closes is for the engine to say. -/
namespace GrammarGraph.Emptiness

def nullable (ask : Ask) (n : NodeId) : Run Bool := do
  let ofChild (side : Side) : Run Bool := do ask.nullable (← ask.child n side)
  match ← Run.kind n with
  | .empty | .char => pure false
  | .eps | .rep => pure true
  | .delta | .red => ofChild .first
  | .alt => Run.either (ofChild .first) (ofChild .second)
  | .cat => Run.both (ofChild .first) (ofChild .second)
  | kind => throw (.unexpectedKind kind)

def emptyLike (ask : Ask) (n : NodeId) : Run Bool := do
  let ofChild (side : Side) : Run Bool := do ask.emptyLike (← ask.child n side)
  match ← Run.kind n with
  | .empty => pure true
  | .eps | .char | .rep => pure false
  | .alt => Run.both (ofChild .first) (ofChild .second)
  | .cat => Run.either (ofChild .first) (ofChild .second)
  | .red => ofChild .first
  | .delta => return !(← ask.nullable (← ask.child n .first))
  | kind => throw (.unexpectedKind kind)

def epsLike (ask : Ask) (n : NodeId) : Run Bool := do
  let ofChild (side : Side) : Run Bool := do ask.epsLike (← ask.child n side)
  match ← Run.kind n with
  | .empty | .char => pure false
  | .eps | .delta => pure true
  | .rep =>
    let inner ← ask.child n .first
    Run.either (ask.emptyLike inner) (ask.epsLike inner)
  | .alt =>
    let first ← ask.child n .first
    let second ← ask.child n .second
    let settled (side : NodeId) : Run Bool :=
      Run.either (ask.epsLike side) (ask.emptyLike side)
    Run.both (settled first) (settled second)
  | .cat => Run.both (ofChild .first) (ofChild .second)
  | .red => ofChild .first
  | kind => throw (.unexpectedKind kind)

end GrammarGraph.Emptiness
