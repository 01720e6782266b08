import GrammarGraph.Dot.Document
import GrammarGraph.Survey
import GrammarGraph.Value.Written

/-! The drawing of a grammar graph as it is: a circle or box per node that can be reached
without computing anything, an edge per child, and a dashed box per deferred child. -/
namespace GrammarGraph.Drawing

open Dot

def kindLabel : Kind → String
  | .empty => "&empty;"
  | .cat => "&#x2218;"
  | .alt => "&cup;"
  | .rep => "&lowast;"
  | .delta => "&delta;"
  | .red => "&rarr;"
  | .placeholder => "?"
  | kind => kind.name

def epsLabel (showWitnesses : Bool) (node : Node) : String :=
  if showWitnesses && !node.isTrivial then
    "&#x03f5; " ++ literal (", ".intercalate (node.witnesses.map Value.written))
  else "&#x03f5;"

/-- The root of the drawing, which has number 0, is bold. -/
def nodeStatement (showWitnesses : Bool) (number : Nat) (node : Node) : Statement :=
  match node.kind with
  | .char => .node (toString number) node.symbol.label [("shape", "box")]
  | .eps => .node (toString number) (epsLabel showWitnesses node) [("shape", "box")]
  | kind => .node (toString number) (kindLabel kind)
      [("style", if number == 0 then "bold" else "")]

def slotStatements (s : Survey) (number : Nat) (mark : String) : Slot → List Statement
  | .vacant => []
  | .node child => [.edge (toString number) (toString ((s.number.get? child).getD 0)) []]
  | .deferred _ =>
    let box := toString number ++ "_" ++ mark
    [.node box "deferred" [("shape", "box"), ("style", "dashed")],
      .edge (toString number) box [("style", "dashed")]]

def statements (showWitnesses : Bool) (s : Survey) (number : Nat) (node : Node) :
    List Statement :=
  nodeStatement showWitnesses number node ::
    (slotStatements s number "1" node.first ++ slotStatements s number "2" node.second)

def view (g : Graph) (showWitnesses : Bool) (root : NodeId) : Document :=
  let s := Survey.ofGraph g root
  { directed := true
    name := some "Language"
    graphAttributes := [("rankdir", "TB"), ("ordering", "out")]
    body := .defaults "node" [("shape", "circle")] ::
      (s.contents.toList.mapIdx (statements showWitnesses s)).flatten }

/-- The drawing without a margin around it. -/
def tighten (d : Document) : Document :=
  { d with graphAttributes := d.graphAttributes ++ [("margin", "0")] }

end GrammarGraph.Drawing
