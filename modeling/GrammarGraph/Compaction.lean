import GrammarGraph.Grammar
import GrammarGraph.Query

/-! Rewriting a node into an equivalent and usually smaller one. What can take no more
symbols becomes one eps node with its witnesses, or a reduction that attaches its only
witness to what the rest of the grammar gives. Children are compacted when they are
read. -/
namespace GrammarGraph.Compaction

/-- The witnesses of a node that takes no more symbols. -/
def settled? (ask : Ask) (n : NodeId) : Run (Option Forest) := do
  if ← ask.epsLike n then return some (← ask.forest n) else return none

def later (n : NodeId) : Operand :=
  .deferred (.compacted n)

def alt (ask : Ask) (first second : NodeId) : Run NodeId := do
  if ← ask.emptyLike first then ask.compact second
  else if ← ask.emptyLike second then ask.compact first
  else Grammar.alt (later first) (later second)

def cat (ask : Ask) (first second : NodeId) : Run NodeId := do
  match ← settled? ask first with
  | some [] => pure .empty
  | some [head] => Grammar.reduction (later second) (.prepend head)
  | _ => match ← settled? ask second with
    | some [] => pure .empty
    | some [tail] => Grammar.reduction (later first) (.append tail)
    | _ => Grammar.cat (later first) (later second)

def red (ask : Ask) (inner : NodeId) (transform : Transform) : Run NodeId := do
  let node ← Run.node inner
  match node.kind with
  | .red =>
    let nested ← ask.child inner .first
    Grammar.reduction (later nested) (.compose transform node.transform)
  | .cat => match ← settled? ask (← ask.child inner .first) with
    | some [head] =>
      let rest ← ask.child inner .second
      Grammar.reduction (later rest) (.compose transform (.prepend head))
    | _ => Grammar.reduction (later inner) transform
  | _ => Grammar.reduction (later inner) transform

/-- A node that is neither an atom nor settled. -/
def compound (ask : Ask) (n : NodeId) : Run NodeId := do
  let node ← Run.node n
  match node.kind with
  | .rep => do Grammar.rep (later (← ask.child n .first))
  | .alt => do alt ask (← ask.child n .first) (← ask.child n .second)
  | .cat => do cat ask (← ask.child n .first) (← ask.child n .second)
  | .red => do red ask (← ask.child n .first) node.transform
  | kind => throw (.unexpectedKind kind)

def compact (ask : Ask) (n : NodeId) : Run NodeId := do
  match ← Run.kind n with
  | .empty | .eps | .char => pure n
  | _ =>
    if ← ask.emptyLike n then pure .empty
    else if ← ask.epsLike n then
      match ← ask.forest n with
      | [] => pure .empty
      | witnesses => Grammar.eps witnesses
    else compound ask n

end GrammarGraph.Compaction
