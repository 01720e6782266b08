import GrammarGraph.Dot.Document
import GrammarGraph.Fault
import GrammarGraph.Value.Written

/-! The drawing of a witness as a tree. Tuples are inner nodes, drawn as points, and all
else is a leaf; each subtree is drawn once per occurrence. Ids are given in preorder. -/
namespace GrammarGraph.Drawing

open Dot

inductive TreeStyle where
  | tree
  | boxes
deriving DecidableEq

namespace TreeStyle

def named : String → Except Fault TreeStyle
  | "tree" => .ok .tree
  | "boxes" => .ok .boxes
  | name => .error (.unknownStyle name)

/-- A name that starts with this mark makes the subgraph a box of its own. -/
def groupName (style : TreeStyle) (id : Nat) : String :=
  match style with
  | .tree => toString id
  | .boxes => "cluster_" ++ toString id

def groupAttributes : TreeStyle → Attributes
  | .tree => [("peripheries", "0"), ("margin", "2")]
  | .boxes => []

def edgeAttributes : TreeStyle → Attributes
  | .tree => []
  | .boxes => [("style", "invis")]

end TreeStyle

/-- What a subtree, or a row of subtrees, adds to a drawing. -/
structure Grove where
  statements : List Statement
  roots : List Nat
  /-- The first id that is still free. -/
  next : Nat

def leaf (id : Nat) (w : Value) : Grove :=
  ⟨[.node (toString id) w.label [("shape", "plain")]], [id], id + 1⟩

/-- An inner node over what its children add. -/
def inner (style : TreeStyle) (id : Nat) (children : Grove) : Grove :=
  let point := Statement.node (toString id) "" [("shape", "point"), ("group", toString id)]
  let edges := children.roots.map fun child => Statement.edge (toString id) (toString child) []
  ⟨[.subgraph (style.groupName id) style.groupAttributes
      (point :: children.statements ++ edges)], [id], children.next⟩

mutual

def subtree (style : TreeStyle) (id : Nat) : Value → Grove
  | .tuple (w :: ws) => inner style id (subtrees style (id + 1) (w :: ws))
  | w => leaf id w

def subtrees (style : TreeStyle) (id : Nat) : List Value → Grove
  | [] => ⟨[], [], id⟩
  | w :: ws =>
    let left := subtree style id w
    let right := subtrees style left.next ws
    ⟨left.statements ++ right.statements, left.roots ++ right.roots, right.next⟩

end

def witness (style : TreeStyle) (w : Value) : Document where
  comment := some w.written
  directed := false
  edgeAttributes := style.edgeAttributes
  body := (subtree style 0 w).statements ++
    [.settings [("ranksep", "0.3"), ("splines", "false")]]

end GrammarGraph.Drawing
