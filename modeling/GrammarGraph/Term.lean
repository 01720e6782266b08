import GrammarGraph.Node

/-! Descriptions of grammars. A term is evaluated to an operand of a constructor: a node,
a computation for later, or a value that is no language at all. -/
namespace GrammarGraph

inductive Term where
  | name (name : String)
  | empty
  | trivial
  | eps (witnesses : List Value)
  | char (symbol : Value)
  | cat (operands : List Term)
  | alt (operands : List Term)
  | rep (operand : Term)
  | delta (operand : Term)
  | red (operand : Term) (transform : Transform)
  /-- The body may use the name for the node that it defines. -/
  | letrec (name : String) (body : Term)
  /-- Evaluated each time it is asked for, with the names that are bound then. -/
  | lazy (body : Term)
  | value (v : Value)
  /-- A node of any kind, as it is. -/
  | raw (kind : Kind) (first second : Option Term) (symbol : Value) (witnesses : List Value)
      (transform : Transform)
  | derive (symbol : Value) (operand : Term)
  | compact (operand : Term)
  | residual (symbols : List Value) (operand : Term) (compaction : Bool)
  | child (side : Side) (operand : Term)
  | ifNullable (condition yes no : Term)

namespace Term

/-- The concatenation of the characters of a text. -/
def word (s : String) : Term :=
  .cat ((Value.characters s).map .char)

/-- The choice between the characters of a text. -/
def oneOf (s : String) : Term :=
  .alt ((Value.characters s).map .char)

end Term

/-- Names bound by the definitions around a term, innermost first. -/
abbrev Scope := List (String × NodeId)

/-- What a deferred slot will compute. -/
inductive Suspension where
  /-- The derivative of the child that `node` has by then on `side`. -/
  | derivative (symbol : Value) (node : NodeId) (side : Side)
  | compacted (node : NodeId)
  | term (body : Term) (scope : Scope)

inductive Operand where
  | node (n : NodeId)
  | deferred (suspension : Suspension)
  | other (typeName : String)

namespace Operand

def typeName : Operand → String
  | .node _ => "Language"
  | .deferred _ => "function"
  | .other typeName => typeName

def ofChild : Option NodeId → Operand
  | some n => .node n
  | none => .other Value.none.typeName

end Operand

end GrammarGraph
