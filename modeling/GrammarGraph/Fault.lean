import GrammarGraph.Kind
import GrammarGraph.Text.Quoted

/-! What can go wrong, by cause, and how each cause is told. -/
namespace GrammarGraph

inductive Fault where
  /-- A recursive definition whose body is no node. -/
  | bodyType (typeName : String)
  /-- A recursive definition whose body is an atom. -/
  | bodyKind (kind : Kind)
  /-- A read of a deferred child while that child is being computed. -/
  | childInProgress
  | unexpectedKind (kind : Kind)
  /-- A memoized function called again from its own body for the same arguments. -/
  | reentered (name : String)
  | operandType (typeName : String)
  /-- A deferred operand that computes something else than a node. -/
  | productType (typeName : String)
  | loneOperand
  | unhashable
  | unknownStyle (style : String)
  | rendererMissing
  | unboundName (name : String)
  | unboundWalk (name : String)
  | unboundParser (name : String)
  | notALanguage
  | transform (name : String)
  | step
  | noSuchChild
deriving DecidableEq

def Fault.message : Fault → String
  | .bodyType typeName => "letrec builder must return a Language, got " ++ typeName
  | .bodyKind kind => "letrec builder must return a compound language, got " ++ kind.name ++
      "; a self-reference must pass through cat, alt, rep, delta or reduction"
  | .childInProgress => "Deferred child forced while it was being computed"
  | .unexpectedKind kind => "Unexpected language node kind " ++ Text.quoted kind.name
  | .reentered name => name ++ " re-entered for the same arguments"
  | .operandType typeName =>
      "Expected a Language or a zero-argument callable, got " ++ typeName
  | .productType typeName => "Deferred child must produce a Language, got " ++ typeName
  | .loneOperand => "A lone operand must be a Language; deferred operands need a sibling"
  | .unhashable => "unhashable type: 'list'"
  | .unknownStyle style =>
      "Unknown style " ++ Text.quoted style ++ ", choose from 'tree', 'boxes'"
  | .rendererMissing => "Graphviz executable not found. Please install " ++
      "[Graphviz](https://www.graphviz.org/download/). On macOS, use `brew install graphviz`."
  | .unboundName name => name
  | .unboundWalk name => "fn " ++ name
  | .unboundParser name => "parser " ++ name
  | .notALanguage => "not a language"
  | .transform name => name
  | .step => "!"
  | .noSuchChild => "the node has no such child"

end GrammarGraph
