import GrammarGraph.Query
import GrammarGraph.Value.Written

/-! Recognition and parsing by repeated differentiation. -/
namespace GrammarGraph

/-- The grammar that is left, and how many symbols were taken. -/
structure Residual where
  node : NodeId
  consumed : Nat

namespace Parse

def advance (ask : Ask) (compaction : Bool) (symbol : Value) (n : NodeId) : Run NodeId := do
  let derived ← ask.derive symbol n
  if compaction then ask.compact derived else pure derived

/-- Counting the nodes computes every deferred child, so it is done on demand only. -/
def report (ask : Ask) (position : Nat) (symbol : Value) (n : NodeId) : Run Unit := do
  if ← .read (·.admits .debug) then
    let count ← ask.nodeCount n
    .update (Graph.note .debug
      s!"Consumed {symbol.written} at position {position}, residual has {count} nodes")

/-- Takes symbols, the first of them at `position`, until they end or nothing can follow. -/
def residualFrom (ask : Ask) (compaction : Bool) :
    Nat → List Value → NodeId → Run Residual
  | position, [], n => pure ⟨n, position⟩
  | position, symbol :: rest, n => do
    let next ← advance ask compaction symbol n
    if next == .empty then
      .update (Graph.note .debug s!"Rejected at position {position} on {symbol.written}")
      pure ⟨next, position + 1⟩
    else
      report ask position symbol next
      residualFrom ask compaction (position + 1) rest next

def residual (ask : Ask) (compaction : Bool) (symbols : List Value) (n : NodeId) :
    Run Residual :=
  residualFrom ask compaction 0 symbols n

/-- Whether the sentence belongs to the language, and how many symbols were taken. -/
def recognize (ask : Ask) (compaction : Bool) (symbols : List Value) (n : NodeId) :
    Run (Bool × Nat) := do
  let r ← residual ask compaction symbols n
  let accepted ← ask.nullable r.node
  let verdict := if accepted then "accepted" else "rejected"
  .update (Graph.note .info s!"Recognition {verdict}")
  pure (accepted, r.consumed)

def parse (ask : Ask) (compaction : Bool) (symbols : List Value) (n : NodeId) :
    Run (Forest × Nat) := do
  let r ← residual ask compaction symbols n
  let witnesses ← RunOf.ofExcept (Forest.ofWitnesses (← ask.forest r.node))
  .update (Graph.note .info s!"Parse produced {witnesses.length} witnesses")
  pure (witnesses, r.consumed)

end Parse

end GrammarGraph
