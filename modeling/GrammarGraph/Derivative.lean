import GrammarGraph.Grammar
import GrammarGraph.Query

/-! The derivative of a node: what may follow a symbol. Derivatives of children are only
named, as deferred slots, so a cyclic grammar has a finite derivative. -/
namespace GrammarGraph

def Derivative.derive (ask : Ask) (symbol : Value) (n : NodeId) : Run NodeId := do
  let node ← Run.node n
  let later side := Operand.deferred (.derivative symbol n side)
  match node.kind with
  | .empty | .eps | .delta => pure .empty
  | .char => if node.symbol.same symbol then Grammar.eps [symbol] else pure .empty
  | .alt => Grammar.alt (later .first) (later .second)
  | .cat => do
    -- Either the first part vanishes and the second takes the symbol, or the first takes it.
    let vanished ← Grammar.delta (.ofChild (← ask.child? n .first))
    let skipping ← Grammar.cat (.node vanished) (later .second)
    let taking ← Grammar.cat (later .first) (.ofChild (← ask.child? n .second))
    Grammar.alt (.node skipping) (.node taking)
  | .rep => Grammar.cat (later .first) (.node n)
  | .red => Grammar.reduction (later .first) node.transform
  | kind => throw (.unexpectedKind kind)

end GrammarGraph
