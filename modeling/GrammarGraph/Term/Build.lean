import GrammarGraph.Grammar
import GrammarGraph.Parse

/-! Evaluation of terms: operands first, from the left, then the constructor. -/
namespace GrammarGraph

namespace Operand

/-- The node that an operand is; a term in the place of a language must give one. -/
def language : Operand → Run NodeId
  | .node n => pure n
  | _ => throw .notALanguage

end Operand

namespace Term

/-- Inner definitions shadow outer ones, and those shadow the names of the graph. -/
def resolve (scope : Scope) (x : String) : Run NodeId := do
  match scope.lookup x with
  | some n => pure n
  | none => match ← .read (·.names.lookup x) with
    | some n => pure n
    | none => throw (.unboundName x)

mutual

def build (ask : Ask) (scope : Scope) : Term → Run Operand
  | .name x => return .node (← resolve scope x)
  | .empty => pure (.node .empty)
  | .trivial => pure (.node .eps)
  | .eps witnesses => return .node (← Grammar.eps witnesses)
  | .char symbol => return .node (← Grammar.char symbol)
  | .cat operands => return .node (← Grammar.catAll (← buildAll ask scope operands))
  | .alt operands => return .node (← Grammar.altAll (← buildAll ask scope operands))
  | .rep operand => return .node (← Grammar.rep (← build ask scope operand))
  | .delta operand => return .node (← Grammar.delta (← build ask scope operand))
  | .red operand transform =>
    return .node (← Grammar.reduction (← build ask scope operand) transform)
  | .letrec x body => do
    let placeholder ← Run.make { kind := .placeholder }
    let body ← build ask ((x, placeholder) :: scope) body
    return .node (← Grammar.define placeholder body)
  | .lazy body => pure (.deferred (.term body scope))
  | .value v => pure (.other v.typeName)
  | .raw kind first second symbol witnesses transform => do
    let first ← buildOption ask scope first
    let second ← buildOption ask scope second
    return .node (← Grammar.raw { kind, symbol, witnesses, transform } first second)
  | .derive symbol operand => do
    let n ← (← build ask scope operand).language
    return .node (← ask.derive symbol n)
  | .compact operand => do
    let n ← (← build ask scope operand).language
    return .node (← ask.compact n)
  | .residual symbols operand compaction => do
    let n ← (← build ask scope operand).language
    return .node (← Parse.residual ask compaction symbols n).node
  | .child side operand => do
    let n ← (← build ask scope operand).language
    match ← ask.child? n side with
    | some c => pure (.node c)
    | none => throw .notALanguage
  | .ifNullable condition yes no => do
    let n ← (← build ask scope condition).language
    if ← ask.nullable n then build ask scope yes else build ask scope no

def buildAll (ask : Ask) (scope : Scope) : List Term → Run (List Operand)
  | [] => pure []
  | t :: ts => do
    let operand ← build ask scope t
    return operand :: (← buildAll ask scope ts)

def buildOption (ask : Ask) (scope : Scope) : Option Term → Run (Option Operand)
  | none => pure none
  | some t => return some (← build ask scope t)

end

end Term

end GrammarGraph
