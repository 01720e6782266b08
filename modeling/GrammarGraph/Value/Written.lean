import GrammarGraph.Text.Quoted
import GrammarGraph.Value

/-! The text of a value as messages, labels and comments show it. -/
namespace GrammarGraph.Value

mutual

def written : Value → String
  | .none => "None"
  | .bool true => "True"
  | .bool false => "False"
  | .int n => toString n
  | .str s => Text.quoted s
  | .tuple items => match writtenAll items with
    | [item] => "(" ++ item ++ ",)"
    | texts => "(" ++ ", ".intercalate texts ++ ")"
  | .list items => "[" ++ ", ".intercalate (writtenAll items) ++ "]"

def writtenAll : List Value → List String
  | [] => []
  | v :: vs => written v :: writtenAll vs

end

/-- A text shows as itself, any other value as it is written. -/
def shown : Value → String
  | .str s => s
  | v => v.written

/-- The label of a symbol or leaf in a drawing; what is empty shows as an epsilon. -/
def label : Value → String
  | .str "" => "&#x03f5;"
  | .tuple [] => "&#x03f5;"
  | v => v.shown

end GrammarGraph.Value
