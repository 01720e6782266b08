import GrammarGraph.Compaction
import GrammarGraph.Derivative
import GrammarGraph.Emptiness
import GrammarGraph.Extraction
import GrammarGraph.Survey
import GrammarGraph.Term.Build

/-! The engine answers queries. A query may go as deep into further queries as its bound
says; a larger bound never changes an answer that a smaller one gave. -/
namespace GrammarGraph

namespace Child

def compute (ask : Ask) : Suspension → Run Operand
  | .derivative symbol n side => return .node (← ask.derive symbol (← ask.child n side))
  | .compacted n => return .node (← ask.compact n)
  | .term body scope => body.build ask scope

def force (ask : Ask) (cell : CellId) (suspension : Suspension) : Run NodeId := do
  .update (Graph.setForcing cell true)
  let result ← (compute ask suspension).outcome
  .update (Graph.setForcing cell false)
  match ← RunOf.ofExcept result with
  | .node n => pure n
  | operand => throw (.productType operand.typeName)

/-- The child in a slot. A deferred child is computed and takes the place of its cell. -/
def read (ask : Ask) (n : NodeId) (side : Side) : Run (Option NodeId) := do
  match ← .read fun g => (g.node n).slot side with
  | .vacant => pure none
  | .node child => pure (some child)
  | .deferred cell => match ← .read fun g => g.cells[cell]? with
    | none => pure none
    | some { forcing := true, .. } => throw .childInProgress
    | some { suspension, .. } =>
      let child ← force ask cell suspension
      .update (Graph.setSlot n side (.node child))
      pure (some child)

end Child

namespace Engine

/-- The answer to a query by way of `ask`. Of the evaluators, `nullable` and `emptyLike`
take a node that is asked for again for a no, `epsLike` for a yes, `forest` for the empty
forest, and `compact` leaves it as it is. -/
def answer (bound : Nat) (ask : Ask) : (q : Query) → Run q.Answer
  | .child n side => Child.read ask n side
  | .nullable n => Evaluation.demand .nullable (pure false) (Emptiness.nullable ask n) n
  | .forest n => Evaluation.demand .forests (pure []) (Extraction.forest ask n) n
  | .emptyLike n => Evaluation.demand .emptyLike (pure false) (Emptiness.emptyLike ask n) n
  | .epsLike n => Evaluation.demand .epsLike (pure true) (Emptiness.epsLike ask n) n
  | .compact n => Evaluation.demand .compacted (pure n) (Compaction.compact ask n) n
  | .derive symbol n =>
    Memo.demand .derivatives "derive" (Derivative.derive ask symbol n) n symbol
  | .nodeCount n => Survey.nodeCount ask bound n

/-- Answers queries that go no deeper than `bound`. -/
def run : Nat → Ask
  | 0, _ => RunOf.spent
  | bound + 1, q => answer bound (run bound) q

end Engine

end GrammarGraph
