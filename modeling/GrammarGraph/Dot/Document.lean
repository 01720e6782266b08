import GrammarGraph.Dot.Quoted

/-! Documents in the DOT language: statements in order, and their text. -/
namespace GrammarGraph.Dot

abbrev Attributes := List (String × String)

inductive Statement where
  | node (name label : String) (attributes : Attributes)
  | edge (tail head : String) (attributes : Attributes)
  /-- Attributes of all later elements of a sort. -/
  | defaults (sort : String) (attributes : Attributes)
  | settings (attributes : Attributes)
  | subgraph (name : String) (attributes : Attributes) (body : List Statement)

structure Document where
  comment : Option String := none
  directed : Bool
  name : Option String := none
  graphAttributes : Attributes := []
  nodeAttributes : Attributes := []
  edgeAttributes : Attributes := []
  body : List Statement

/-- Attributes are written in the order of their names. -/
def Attributes.items (attributes : Attributes) : List String :=
  let sorted := attributes.mergeSort fun a b => decide (a.1 ≤ b.1)
  sorted.map fun (name, value) => quoted name ++ "=" ++ quoted value

def bracketed (items : List String) : String :=
  if items.isEmpty then "" else " [" ++ " ".intercalate items ++ "]"

/-- The line for the attributes of a sort of elements, if there are any. -/
def sortLines (sort : String) (attributes : Attributes) : List String :=
  if attributes.isEmpty then [] else [sort ++ bracketed attributes.items]

def indented (lines : List String) : List String :=
  lines.map ("\t" ++ ·)

mutual

def Statement.lines (arrow : String) : Statement → List String
  | .node name label attributes =>
    [quoted name ++ bracketed (("label=" ++ quoted label) :: attributes.items)]
  | .edge tail head attributes =>
    [quoted tail ++ arrow ++ quoted head ++ bracketed attributes.items]
  | .defaults sort attributes => [sort ++ bracketed attributes.items]
  | .settings attributes => [" ".intercalate attributes.items]
  | .subgraph name attributes body =>
    ["subgraph " ++ quoted name ++ " \x7b"] ++
      indented (sortLines "graph" attributes ++ Statement.allLines arrow body) ++ ["\x7d"]

def Statement.allLines (arrow : String) : List Statement → List String
  | [] => []
  | s :: rest => s.lines arrow ++ Statement.allLines arrow rest

end

namespace Document

def arrow (d : Document) : String :=
  if d.directed then " -> " else " -- "

def head (d : Document) : String :=
  (if d.directed then "digraph " else "graph ") ++
    d.name.elim "" (fun name => quoted name ++ " ") ++ "\x7b"

def lines (d : Document) : List String :=
  d.comment.elim [] (fun comment => ["// " ++ comment]) ++ [d.head] ++
    indented (sortLines "graph" d.graphAttributes ++ sortLines "node" d.nodeAttributes ++
      sortLines "edge" d.edgeAttributes ++ Statement.allLines d.arrow d.body) ++ ["\x7d"]

/-- A line break after each line. -/
def text (d : Document) : String :=
  String.join (d.lines.map (· ++ "\n"))

end Document

end GrammarGraph.Dot
