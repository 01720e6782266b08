/-! The kinds of nodes. Nodes can also be made with a kind that no evaluator knows. -/
namespace GrammarGraph

inductive Kind where
  | empty
  | eps
  | char
  | cat
  | alt
  | rep
  | delta
  | red
  | placeholder
  | other (name : String)
deriving DecidableEq, Inhabited

namespace Kind

def name : Kind → String
  | .empty => "empty"
  | .eps => "eps"
  | .char => "char"
  | .cat => "cat"
  | .alt => "alt"
  | .rep => "rep"
  | .delta => "delta"
  | .red => "red"
  | .placeholder => "placeholder"
  | .other name => name

def known : List Kind :=
  [.empty, .eps, .char, .cat, .alt, .rep, .delta, .red, .placeholder]

def ofName (name : String) : Kind :=
  (known.find? fun kind => kind.name == name).getD (.other name)

/-- A definition cannot consist of an atom alone. -/
def isAtomic : Kind → Bool
  | .empty | .eps | .char | .placeholder => true
  | _ => false

end Kind

end GrammarGraph
