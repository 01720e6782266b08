import GrammarGraph.Transform
import GrammarGraph.Value.Written

/-! Named transforms. One that does not apply to a witness faults with its name. -/
namespace GrammarGraph.Transform.Catalogue

def text? : Value → Option String
  | .str s => some s
  | _ => none

/-- Whole numbers; truth values do not count as numbers here. -/
def whole? : Value → Option Int
  | .int n => some n
  | _ => none

/-- The elements of a text, a tuple or a list. -/
def elements? : Value → Option (List Value)
  | .str s => some (Value.characters s)
  | .tuple items => some items
  | .list items => some items
  | _ => none

/-- The elements of what has them in a fixed order that cannot change. -/
def frozenElements? : Value → Option (List Value)
  | .list _ => none
  | v => elements? v

def concatenate (texts : List String) : Value :=
  .str ("".intercalate texts)

def upper (c : Char) : Char :=
  if 'a' ≤ c && c ≤ 'z' then Char.ofNat (c.toNat - 32) else c

def digits? (cs : List Char) : Option Nat :=
  if cs.isEmpty || !cs.all Char.isDigit then none
  else some (cs.foldl (fun n c => 10 * n + (c.toNat - '0'.toNat)) 0)

/-- Decimal digits after an optional minus sign, and nothing else. -/
def integer? (s : String) : Option Int :=
  match s.toList with
  | '-' :: cs => (digits? cs).map fun n => -(n : Int)
  | cs => (digits? cs).map fun n => (n : Int)

def joined? : Value → Option Value
  | .str s => some (.str s)
  | .tuple items => (items.mapM text?).map concatenate
  | _ => none

def reversed? : Value → Option Value
  | .str s => some (.str (String.ofList s.toList.reverse))
  | .tuple items => some (.tuple items.reverse)
  | _ => none

def isText : Value → Bool
  | .str _ => true
  | _ => false

def functions : List (String × (Value → Option Value)) := [
  ("id", some),
  ("wrap", fun w => some (.tuple [w])),
  ("dup", fun w => some (.tuple [w, w])),
  ("drop", fun _ => some .nothing),
  ("repr", fun w => some (.str w.written)),
  ("notstr", fun w => some (.bool !isText w)),
  ("fail", fun _ => none),
  ("upper", fun w => (text? w).map fun s => .str (s.map upper)),
  ("join", joined?),
  ("flat", fun w => some (.tuple w.leaves)),
  ("text", fun w => (w.leaves.mapM text?).map concatenate),
  ("int", fun w => (text? w).bind fun s => (integer? s).map .int),
  ("sum", fun w => (w.leaves.mapM whole?).map fun ns => .int (ns.foldl (· + ·) 0)),
  ("product", fun w => (w.leaves.mapM whole?).map fun ns => .int (ns.foldl (· * ·) 1)),
  ("list", fun w => match w with
    | .list _ => none
    | w => (elements? w).map .list),
  ("tuple", fun w => (elements? w).map .tuple),
  ("len", fun w => (elements? w).map fun items => .int items.length),
  ("first", fun w => (frozenElements? w).bind List.head?),
  ("last", fun w => (frozenElements? w).bind List.getLast?),
  ("reverse", reversed?)]

def named? (name : String) : Option Transform :=
  (functions.lookup name).map fun function =>
    .plain name none fun w => (function w).elim (.error (.transform name)) .ok

/-- Every witness becomes `v`. -/
def const (v : Value) : Transform :=
  .plain "const" (some v) fun _ => .ok v

/-- Every witness is paired with `v` in front. -/
def tag (v : Value) : Transform :=
  .plain "tag" (some v) fun w => .ok (.tuple [v, w])

end GrammarGraph.Transform.Catalogue
