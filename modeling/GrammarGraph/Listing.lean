import GrammarGraph.Survey

/-! Listings of graphs: the nodes that can be reached, by number, with numbers in place of
the children. -/
namespace GrammarGraph

inductive Payload where
  | none
  | symbol (v : Value)
  | witnesses (ws : Forest)
  | transform (t : Transform)

structure Entry where
  kind : Kind
  /-- The numbers of the children; a deferred child has none. Vacant slots are left out. -/
  slots : List (Option Nat)
  payload : Payload

abbrev Listing := List Entry

namespace Listing

def payload (node : Node) : Payload :=
  match node.kind with
  | .char => .symbol node.symbol
  | .eps => .witnesses node.witnesses
  | .red => .transform node.transform
  | _ => .none

def reference? (s : Survey) : Slot → Option (Option Nat)
  | .vacant => none
  | .deferred _ => some none
  | .node n => some (s.number.get? n)

def entry (s : Survey) (node : Node) : Entry where
  kind := node.kind
  slots := [node.first, node.second].filterMap (reference? s)
  payload := payload node

def ofSurvey (s : Survey) : Listing :=
  s.contents.toList.map (entry s)

/-- Lists the graph as it is. -/
def ofGraph (g : Graph) (root : NodeId) : Listing :=
  ofSurvey (Survey.ofGraph g root)

/-- Lists the graph and computes the children of each node as it comes. -/
def forced (ask : Ask) (bound : Nat) (root : NodeId) : Run Listing := do
  return ofSurvey (← Survey.run (Survey.forcingSlots ask) bound root)

end Listing

end GrammarGraph
