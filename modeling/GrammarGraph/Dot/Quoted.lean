/-! Names, labels and attribute values as the DOT language wants them. A text stays bare
if it is markup, a name that is no keyword, or a number; any other text is quoted. -/
namespace GrammarGraph.Dot

/-- A bare text may end with one line break. -/
def stripBreak (cs : List Char) : List Char :=
  if cs.getLast? == some '\n' then cs.dropLast else cs

/-- Anything between angle brackets. -/
def isMarkup (cs : List Char) : Bool :=
  match cs with
  | '<' :: rest => rest.getLast? == some '>'
  | _ => false

def isNameStart (c : Char) : Bool :=
  c.isAlpha || c == '_'

def isName (cs : List Char) : Bool :=
  match cs with
  | c :: rest => isNameStart c && rest.all fun c => isNameStart c || c.isDigit
  | [] => false

def areDigits (cs : List Char) : Bool :=
  cs.all Char.isDigit

/-- Digits with at most one point, which needs a digit on one of its sides. -/
def isUnsigned (cs : List Char) : Bool :=
  let whole := cs.takeWhile Char.isDigit
  match cs.dropWhile Char.isDigit with
  | [] => !whole.isEmpty
  | '.' :: fraction => areDigits fraction && !(whole.isEmpty && fraction.isEmpty)
  | _ => false

def isNumber (cs : List Char) : Bool :=
  match cs with
  | '-' :: rest => isUnsigned rest
  | cs => isUnsigned cs

def keywords : List String :=
  ["node", "edge", "graph", "digraph", "subgraph", "strict"]

def isBare (s : String) : Bool :=
  let cs := s.toList
  let body := stripBreak cs
  isMarkup cs || isMarkup body ||
    ((isName body || isNumber body) && !keywords.contains s.toLower)

/-- Puts a backslash before each double quote that has none of its own. `escaped` tells
whether the characters before end in an odd number of backslashes. -/
def escapeQuotes (escaped : Bool) : List Char → List Char
  | [] => []
  | '"' :: rest => if escaped then '"' :: escapeQuotes false rest
      else '\\' :: '"' :: escapeQuotes false rest
  | '\\' :: rest => '\\' :: escapeQuotes (!escaped) rest
  | c :: rest => c :: escapeQuotes false rest

def quoted (s : String) : String :=
  if isBare s then s else String.ofList ('"' :: escapeQuotes false s.toList ++ ['"'])

/-- Doubles every backslash, so that none is taken for an escape. -/
def literal (s : String) : String :=
  String.ofList (s.toList.flatMap fun c => if c == '\\' then ['\\', '\\'] else [c])

end GrammarGraph.Dot
