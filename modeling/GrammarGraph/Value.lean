/-! Symbols, witnesses and the values of walks share one type. Equality of values is
`same`: a truth value equals the number it stands for, at any depth, and a list never
equals a tuple. `numeric` gives the representative that `same` compares. -/
namespace GrammarGraph

inductive Value where
  | none
  | bool (b : Bool)
  | int (n : Int)
  | str (s : String)
  | tuple (items : List Value)
  | list (items : List Value)
deriving Inhabited

namespace Value

/-- The witness of a match that consumed nothing. -/
abbrev nothing : Value := .tuple []

def isNothing : Value → Bool
  | .tuple [] => true
  | _ => false

def number? : Value → Option Int
  | .bool b => some (if b then 1 else 0)
  | .int n => some n
  | _ => .none

mutual

def same : Value → Value → Bool
  | .none, .none => true
  | .str a, .str b => a == b
  | .tuple a, .tuple b => sameAll a b
  | .list a, .list b => sameAll a b
  | a, b => match a.number?, b.number? with
    | some m, some n => m == n
    | _, _ => false

def sameAll : List Value → List Value → Bool
  | [], [] => true
  | a :: as, b :: bs => same a b && sameAll as bs
  | _, _ => false

end

mutual

def numeric : Value → Value
  | .bool b => .int (if b then 1 else 0)
  | .tuple items => .tuple (numericAll items)
  | .list items => .list (numericAll items)
  | v => v

def numericAll : List Value → List Value
  | [] => []
  | v :: vs => numeric v :: numericAll vs

end

mutual

/-- Only values without a list inside can be keys, symbols or members of a forest. -/
def hashable : Value → Bool
  | .list _ => false
  | .tuple items => hashableAll items
  | _ => true

def hashableAll : List Value → Bool
  | [] => true
  | v :: vs => hashable v && hashableAll vs

end

mutual

/-- The values in a nest of tuples that are no tuples themselves, left to right. -/
def leaves : Value → List Value
  | .tuple items => leavesAll items
  | v => [v]

def leavesAll : List Value → List Value
  | [] => []
  | v :: vs => leaves v ++ leavesAll vs

end

/-- Nothing, zero and what has no elements count as a no. -/
def truthy : Value → Bool
  | .none | .str "" | .tuple [] | .list [] => false
  | v => v.number? != some 0

/-- How messages name the type of a value. -/
def typeName : Value → String
  | .none => "NoneType"
  | .bool _ => "bool"
  | .int _ => "int"
  | .str _ => "str"
  | .tuple _ => "tuple"
  | .list _ => "list"

/-- Each character of a text as a text of its own. -/
def characters (s : String) : List Value :=
  s.toList.map fun c => .str (String.singleton c)

end Value

end GrammarGraph
