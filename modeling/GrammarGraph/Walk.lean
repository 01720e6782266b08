import GrammarGraph.Query
import GrammarGraph.Value.Written

/-! Recursive functions over the children of nodes, evaluated with the same two disciplines
as the evaluators: with a default where a cycle closes, or memoized without one. A walk
remembers its results from call to call and numbers the nodes in the order of their first
visit. -/
namespace GrammarGraph

inductive Rule where
  /-- Some child passes; an eps node does. -/
  | anyOf
  /-- All children pass, and there are some; an eps node passes. -/
  | allOf
  | size
  | term
  /-- As `term`, but each child is asked for twice in a row. -/
  | twice
deriving DecidableEq

/-- The answer where a cycle closes. -/
inductive Default where
  | value (v : Value)
  /-- The kind of the node, behind a mark. -/
  | kind

inductive Plan where
  | fixpoint (rule : Rule) (default : Default)
  | memo

structure Walk where
  plan : Plan
  results : Evaluation Value := {}
  remembered : Memo Value := {}
  numbers : Table Nat := {}
  count : Nat := 0

/-- A walk under way. -/
structure Tour where
  graph : Graph
  walk : Walk
  visits : Array Nat := #[]

namespace Held

def tourGraph : Held Tour Graph :=
  ⟨Tour.graph, fun f t => { t with graph := f t.graph }⟩

def results : Held Tour (Evaluation Value) :=
  ⟨fun t => t.walk.results,
    fun f t => { t with walk := { t.walk with results := f t.walk.results } }⟩

def remembered : Held Tour (Memo Value) :=
  ⟨fun t => t.walk.remembered,
    fun f t => { t with walk := { t.walk with remembered := f t.walk.remembered } }⟩

end Held

namespace Walk

/-- Drops every result about `n`. -/
def forget (n : NodeId) (w : Walk) : Walk :=
  { w with results := w.results.forget n, remembered := w.remembered.forget n }

/-- Gives `n` a number unless it has one. -/
def meet (n : NodeId) (w : Walk) : Walk :=
  if w.numbers.has n then w
  else { w with numbers := w.numbers.insert n w.count, count := w.count + 1 }

end Walk

namespace Tour

def visit (n : NodeId) (t : Tour) : Tour :=
  let walk := t.walk.meet n
  { t with walk, visits := t.visits.push ((walk.numbers.get? n).getD 0) }

abbrev Again := NodeId → RunOf Tour Value

/-- Records the visit of `n` and gives its kind and its children. A char node whose symbol
is an exclamation mark cannot be visited. -/
def arrive (ask : Ask) (n : NodeId) : RunOf Tour (Kind × List NodeId) := do
  .update (visit n)
  let node ← .read (·.graph.node n)
  if node.kind == .char && node.symbol.same (.str "!") then throw .step
  let children ← .inside .tourGraph (ask.children n)
  pure (node.kind, children)

def anyOf (again : Again) : List NodeId → RunOf Tour Bool
  | [] => pure false
  | n :: rest => do
    if (← again n).truthy then pure true else anyOf again rest

def allOf (again : Again) : List NodeId → RunOf Tour Bool
  | [] => pure true
  | n :: rest => do
    if (← again n).truthy then allOf again rest else pure false

/-- The kind of a node over the texts of its children. -/
def termText (kind : Kind) (children : List String) : Value :=
  if children.isEmpty then .str kind.name
  else .str (kind.name ++ "(" ++ ",".intercalate children ++ ")")

/-- The rule at one node, where `again` gives the walk at the others. -/
def step (ask : Ask) (rule : Rule) (again : Again) (n : NodeId) : RunOf Tour Value := do
  let (kind, children) ← arrive ask n
  match rule with
  | .anyOf =>
    if kind == .eps then pure (.bool true) else return .bool (← anyOf again children)
  | .allOf =>
    if kind == .eps then pure (.bool true)
    else if children.isEmpty then pure (.bool false)
    else return .bool (← allOf again children)
  | .size =>
    let sizes ← children.mapM fun child => do return ((← again child).number?).getD 0
    return .int (sizes.foldl (· + ·) 1)
  | .term =>
    return termText kind (← children.mapM fun child => do return (← again child).shown)
  | .twice =>
    let texts ← children.mapM fun child => do
      let once ← again child
      return once.shown ++ (← again child).shown
    return termText kind texts

def atCycle (d : Default) (n : NodeId) : RunOf Tour Value :=
  match d with
  | .value v => pure v
  | .kind => .read fun t => .str ("@" ++ (t.graph.node n).kind.name)

/-- The value of the walk at a node. The extra arguments matter to memoized walks only. -/
def follow (ask : Ask) (extra : List Value) (bound : Nat) (n : NodeId) :
    RunOf Tour Value := do
  match ← .read (·.walk.plan) with
  | .fixpoint rule d => Evaluation.solve .results (atCycle d) (step ask rule) bound n
  | .memo => Memo.solve .remembered "walk" (step ask .term) (.tuple extra) bound n

end Tour

end GrammarGraph
