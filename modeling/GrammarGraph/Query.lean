import GrammarGraph.Graph

/-! The questions that the evaluation of one node asks about others. Each evaluator is
written against an `Ask` that answers them; the engine ties the knot. -/
namespace GrammarGraph

inductive Query where
  /-- The child on a side, computed if it is deferred. -/
  | child (n : NodeId) (side : Side)
  | nullable (n : NodeId)
  | forest (n : NodeId)
  | emptyLike (n : NodeId)
  | epsLike (n : NodeId)
  | compact (n : NodeId)
  | derive (symbol : Value) (n : NodeId)
  /-- The number of nodes that can be reached. -/
  | nodeCount (n : NodeId)

@[reducible]
def Query.Answer : Query → Type
  | .child _ _ => Option NodeId
  | .nullable _ | .emptyLike _ | .epsLike _ => Bool
  | .forest _ => Forest
  | .compact _ | .derive _ _ => NodeId
  | .nodeCount _ => Nat

abbrev Ask := (q : Query) → Run q.Answer

namespace Ask

def child? (ask : Ask) (n : NodeId) (side : Side) : Run (Option NodeId) :=
  ask (.child n side)

def child (ask : Ask) (n : NodeId) (side : Side) : Run NodeId := do
  match ← ask.child? n side with
  | some child => pure child
  | none => throw .noSuchChild

/-- The children of a node, from the left. -/
def children (ask : Ask) (n : NodeId) : Run (List NodeId) := do
  let node ← Run.node n
  node.sides.mapM (ask.child n)

/-- Computes the children of a node that are deferred. -/
def forceChildren (ask : Ask) (n : NodeId) : Run Unit := do
  let node ← Run.node n
  node.sides.forM fun side => do
    let _ ← ask.child? n side

def nullable (ask : Ask) (n : NodeId) : Run Bool := ask (.nullable n)
def forest (ask : Ask) (n : NodeId) : Run Forest := ask (.forest n)
def emptyLike (ask : Ask) (n : NodeId) : Run Bool := ask (.emptyLike n)
def epsLike (ask : Ask) (n : NodeId) : Run Bool := ask (.epsLike n)
def compact (ask : Ask) (n : NodeId) : Run NodeId := ask (.compact n)
def derive (ask : Ask) (symbol : Value) (n : NodeId) : Run NodeId := ask (.derive symbol n)
def nodeCount (ask : Ask) (n : NodeId) : Run Nat := ask (.nodeCount n)

end Ask

namespace Run

/-- Asks `second` only if the answer of `first` is no. -/
def either (first second : Run Bool) : Run Bool := do
  if ← first then pure true else second

/-- Asks `second` only if the answer of `first` is yes. -/
def both (first second : Run Bool) : Run Bool := do
  if ← first then second else pure false

end Run

end GrammarGraph
