import GrammarGraph.Proofs.Drawing.Breadth
import GrammarGraph.Session

/-! Drawings of a graph as it is. The nodes that can be reached through slots are drawn once each,
breadth first, and each slot that is not vacant is an edge, to the child or to a box of its own. No
two of them have one name, and nothing is changed. -/
namespace GrammarGraph

namespace Dot.Statement

/-- The name of the node or box that is drawn. -/
def name? : Statement → Option String
  | .node name _ _ => some name
  | _ => none

/-- Where the edge that is drawn starts, and where it leads. -/
def ends? : Statement → Option (String × String)
  | .edge tail head _ => some (tail, head)
  | _ => none

def isDashed : Statement → Bool
  | .node _ _ attributes => attributes.contains ("style", "dashed")
  | _ => false

def isSolid : Statement → Bool
  | .node _ _ attributes => !attributes.contains ("style", "dashed")
  | _ => false

end Dot.Statement

namespace Drawing

open Dot

variable {g : Graph} {s : Survey} {root n : NodeId} {showWitnesses : Bool} {order : List NodeId}
  {number : Nat} {mark : String}

/-- The box for a deferred slot is named for the node and the side. -/
def box (number : Nat) (mark : String) : String :=
  toString number ++ "_" ++ mark

/-- Where the edge for a slot leads, when the nodes are numbered in this order. -/
def head? (order : List NodeId) (number : Nat) (mark : String) : Slot → Option String
  | .vacant => none
  | .node child => some (toString (order.idxOf child))
  | .deferred _ => some (box number mark)

def edges (order : List NodeId) (number : Nat) (node : Node) : List (String × String) :=
  [head? order number "1" node.first, head? order number "2" node.second].filterMap
    (·.map (toString number, ·))

def box? (number : Nat) (mark : String) : Slot → Option String
  | .deferred _ => some (box number mark)
  | _ => none

def boxes (number : Nat) (node : Node) : List String :=
  [box? number "1" node.first, box? number "2" node.second].filterMap id

/-- The statements draw the nodes in this order, with their slots. -/
structure Draws (g : Graph) (showWitnesses : Bool) (order : List NodeId) (body : List Statement) :
    Prop where
  solid : body.filter Statement.isSolid =
    order.mapIdx fun number n => nodeStatement showWitnesses number (g.node n)
  numbers : (body.filter Statement.isSolid).map Statement.name? =
    (List.range order.length).map fun number => some (toString number)
  dashed : (body.filter Statement.isDashed).filterMap Statement.name? =
    (order.mapIdx fun number n => boxes number (g.node n)).flatten
  edges : body.filterMap Statement.ends? =
    (order.mapIdx fun number n => edges order number (g.node n)).flatten
  ends : ∀ tail head, (tail, head) ∈ body.filterMap Statement.ends? →
    (body.filterMap Statement.name?).count tail = 1 ∧
    (body.filterMap Statement.name?).count head = 1

theorem nodeStatement_name (number : Nat) (node : Node) :
    (nodeStatement showWitnesses number node).name? = some (toString number) := by
  unfold nodeStatement
  split <;> rfl

theorem nodeStatement_ends (number : Nat) (node : Node) :
    (nodeStatement showWitnesses number node).ends? = none := by
  unfold nodeStatement
  split <;> rfl

theorem nodeStatement_solid (number : Nat) (node : Node) :
    (nodeStatement showWitnesses number node).isSolid = true := by
  unfold nodeStatement
  split
  · rfl
  · rfl
  · simp only [Statement.isSolid]
    split <;> decide

theorem nodeStatement_dashed (number : Nat) (node : Node) :
    (nodeStatement showWitnesses number node).isDashed = false := by
  have solid : (nodeStatement showWitnesses number node).isSolid = true := nodeStatement_solid ..
  revert solid
  cases nodeStatement showWitnesses number node <;> simp [Statement.isSolid, Statement.isDashed]

theorem slotStatements_solid (slot : Slot) :
    (slotStatements s number mark slot).filter Statement.isSolid = [] := by
  cases slot <;> rfl

theorem slotStatements_name (slot : Slot) :
    (slotStatements s number mark slot).filterMap Statement.name? =
      (box? number mark slot).toList := by
  cases slot <;> rfl

theorem slotStatements_dashed (slot : Slot) :
    ((slotStatements s number mark slot).filter Statement.isDashed).filterMap Statement.name? =
      (box? number mark slot).toList := by
  cases slot <;> rfl

/-- Edges lead to the numbers of children, if these are their places in the order. -/
theorem slotStatements_ends {slot : Slot}
    (numbers : ∀ child, slot = .node child → s.number.get? child = some (order.idxOf child)) :
    (slotStatements s number mark slot).filterMap Statement.ends? =
      ((head? order number mark slot).map (toString number, ·)).toList := by
  cases slot with
  | node child =>
    simp only [slotStatements, numbers child rfl]
    rfl
  | _ => rfl

theorem statements_solid (node : Node) :
    (statements showWitnesses s number node).filter Statement.isSolid =
      [nodeStatement showWitnesses number node] := by
  rw [statements, List.filter_cons_of_pos (nodeStatement_solid ..), List.filter_append,
    slotStatements_solid, slotStatements_solid]
  rfl

theorem toList_append_toList {α : Type} (a b : Option α) :
    a.toList ++ b.toList = [a, b].filterMap id := by
  cases a <;> cases b <;> rfl

theorem statements_dashed (node : Node) :
    ((statements showWitnesses s number node).filter Statement.isDashed).filterMap
      Statement.name? = boxes number node := by
  rw [statements, List.filter_cons_of_neg (by simp [nodeStatement_dashed]), List.filter_append,
    List.filterMap_append, slotStatements_dashed, slotStatements_dashed, toList_append_toList]
  rfl

theorem statements_name (node : Node) :
    (statements showWitnesses s number node).filterMap Statement.name? =
      toString number :: boxes number node := by
  rw [statements, List.filterMap_cons_some (nodeStatement_name ..), List.filterMap_append,
    slotStatements_name, slotStatements_name, toList_append_toList]
  rfl

theorem mem_forcedChildren {node : Node} {slot : Slot} (listed : slot ∈ [node.first, node.second])
    {child : NodeId} (same : slot = .node child) : child ∈ node.forcedChildren :=
  List.mem_filterMap.mpr ⟨slot, listed, by rw [same]; rfl⟩

theorem statements_ends {node : Node} (numbers : ∀ child ∈ node.forcedChildren,
    s.number.get? child = some (order.idxOf child)) :
    (statements showWitnesses s number node).filterMap Statement.ends? =
      edges order number node := by
  have held {slot : Slot} (listed : slot ∈ [node.first, node.second]) (child : NodeId)
      (same : slot = .node child) : s.number.get? child = some (order.idxOf child) :=
    numbers child (mem_forcedChildren listed same)
  rw [statements, List.filterMap_cons_none (nodeStatement_ends ..), List.filterMap_append,
    slotStatements_ends (held (by simp)), slotStatements_ends (held (by simp)),
    toList_append_toList]
  rfl

/-- What stands before the first underscore of a name. -/
def owner (name : String) : List Char :=
  name.toList.takeWhile (· ≠ '_')

theorem takeWhile_toDigits (number : Nat) (rest : List Char) :
    (Nat.toDigits 10 number ++ rest).takeWhile (· ≠ '_') =
      Nat.toDigits 10 number ++ rest.takeWhile (· ≠ '_') :=
  List.takeWhile_append_of_pos fun _ digit =>
    decide_eq_true fun same => Nat.underscore_not_in_toDigits (same ▸ digit)

theorem owner_toString (number : Nat) : owner (toString number) = Nat.toDigits 10 number := by
  simpa [owner] using takeWhile_toDigits number []

theorem owner_box (number : Nat) (mark : String) :
    owner (box number mark) = Nat.toDigits 10 number := by
  simpa [owner, box] using takeWhile_toDigits number ('_' :: mark.toList)

/-- The names of a node and its boxes. -/
def names (number : Nat) (node : Node) : List String :=
  toString number :: boxes number node

theorem boxes_sublist (number : Nat) (node : Node) :
    (boxes number node).Sublist [box number "1", box number "2"] := by
  unfold boxes
  cases node.first <;> cases node.second <;> simp [box?]

theorem owner_names {name : String} {node : Node} (member : name ∈ names number node) :
    owner name = Nat.toDigits 10 number := by
  rcases List.mem_cons.mp member with rfl | boxed
  · exact owner_toString number
  · have boxed := (boxes_sublist number node).subset boxed
    simp only [List.mem_cons, List.not_mem_nil, or_false] at boxed
    rcases boxed with rfl | rfl <;> exact owner_box number _

theorem names_nodup (number : Nat) (node : Node) : (names number node).Nodup := by
  have differ : [toString number, box number "1", box number "2"].Nodup := by
    have plain (mark : String) : toString number ≠ box number mark := fun same => by
      have member : '_' ∈ (box number mark).toList := by simp [box]
      rw [← same, Nat.toString_eq_repr, Nat.toList_repr] at member
      exact Nat.underscore_not_in_toDigits member
    have sides : box number "1" ≠ box number "2" := by simp [box, ← String.toList_inj]
    simpa [sides] using And.intro (plain "1") (plain "2")
  exact differ.sublist ((boxes_sublist number node).cons_cons _)

/-- No two nodes or boxes have one name. -/
theorem names_flatten_nodup (order : List NodeId) (node : NodeId → Node) :
    (order.mapIdx fun number n => names number (node n)).flatten.Nodup := by
  rw [List.nodup_flatten]
  refine ⟨fun _ member => ?_, ?_⟩
  · obtain ⟨number, _, rfl⟩ := List.mem_mapIdx.mp member
    exact names_nodup ..
  · rw [List.pairwise_iff_getElem]
    intro i j _ _ before name mine other
    rw [List.getElem_mapIdx] at mine other
    have digits := (owner_names mine).symm.trans (owner_names other)
    have same := congrArg (Nat.ofDigitChars 10 · 0) digits
    simp only [Nat.ofDigitChars_ten_toDigits] at same
    exact absurd same (Nat.ne_of_lt before)

theorem map_mapIdx {α β γ : Type} (f : Nat → α → β) (p : β → γ) (as : List α) :
    (as.mapIdx f).map p = as.mapIdx fun i a => p (f i a) :=
  List.ext_getElem? fun i => by simp [Option.map_map, Function.comp_def]

theorem flatten_mapIdx_singleton {α β : Type} (f : Nat → α → β) (as : List α) :
    (as.mapIdx fun i a => [f i a]).flatten = as.mapIdx f := by
  rw [← map_mapIdx f fun b => [b], ← List.flatMap_def, List.flatMap_singleton']

/-- Nodes have the numbers that are their places. -/
theorem number_idxOf (looks : s.Looks g root) {k : NodeId} (member : k ∈ s.order.toList) :
    s.number.get? k = some (s.order.toList.idxOf k) := by
  rw [looks.indexed, ← Array.getElem?_toList]
  exact List.getElem?_idxOf member

/-- A survey that is over is drawn node by node. -/
theorem statements_body (looks : s.Looks g root) (ended : s.current? = none) :
    s.contents.toList.mapIdx (statements showWitnesses s) =
      s.order.toList.mapIdx fun number n => statements showWitnesses s number (g.node n) := by
  have all : s.order.toList.take s.contents.size = s.order.toList :=
    List.take_of_length_le (Array.getElem?_eq_none_iff.mp ended)
  rw [looks.contents, all]
  exact List.ext_getElem? fun i => by simp [Option.map_map, Function.comp_def]

/-- An edge starts at its node, and leads to a node or a box that is drawn. -/
theorem mem_names_of_mem_edges {node : NodeId → Node} {tail head : String}
    (lt : number < order.length)
    (shown : ∀ child ∈ (node order[number]).forcedChildren, child ∈ order)
    (member : (tail, head) ∈ edges order number (node order[number])) :
    tail ∈ (order.mapIdx fun number n => names number (node n)).flatten ∧
    head ∈ (order.mapIdx fun number n => names number (node n)).flatten := by
  have drawn {number : Nat} (lt : number < order.length) {name : String}
      (named : name ∈ names number (node order[number])) :
      name ∈ (order.mapIdx fun number n => names number (node n)).flatten :=
    List.mem_flatten.mpr ⟨_, List.mem_mapIdx.mpr ⟨number, lt, rfl⟩, named⟩
  have leads {mark : String} {slot : Slot}
      (listed : slot ∈ [(node order[number]).first, (node order[number]).second])
      (boxed : ∀ name ∈ box? number mark slot, name ∈ boxes number (node order[number]))
      (leads : head? order number mark slot = some head) :
      head ∈ (order.mapIdx fun number n => names number (node n)).flatten := by
    cases slot with
    | vacant => cases leads
    | node k =>
      cases leads
      have child := shown k (mem_forcedChildren listed rfl)
      exact drawn (List.idxOf_lt_length_of_mem child) List.mem_cons_self
    | deferred cell =>
      cases leads
      exact drawn lt (List.mem_cons_of_mem _ (boxed _ rfl))
  obtain ⟨side, sides, led⟩ := List.mem_filterMap.mp member
  obtain ⟨_, led, same⟩ := Option.map_eq_some_iff.mp led
  cases same
  refine ⟨drawn lt List.mem_cons_self, ?_⟩
  simp only [List.mem_cons, List.not_mem_nil, or_false] at sides
  rcases sides with rfl | rfl
  · exact leads (by simp) (fun name (boxed : _ = some name) => by simp [boxes, boxed]) led
  · exact leads (by simp) (fun name (boxed : _ = some name) => by simp [boxes, boxed]) led

/-- The drawing of a graph shows the nodes in the order in which they are met. -/
theorem draws_view (inside : root < g.nodes.size) (enclosed : g.Enclosed)
    (showWitnesses : Bool) :
    ∃ order, g.BreadthFirst root order ∧
      Draws g showWitnesses order (view g showWitnesses root).body := by
  obtain ⟨looks, ended⟩ := Survey.ofGraph_looks inside enclosed
  have breadth := looks.breadthFirst ended
  refine ⟨_, breadth, ?_⟩
  generalize drawn : (view g showWitnesses root).body = body
  rw [view, statements_body looks ended] at drawn
  generalize Survey.ofGraph g root = s at *
  have solid : body.filter Statement.isSolid = s.order.toList.mapIdx fun number n =>
      nodeStatement showWitnesses number (g.node n) := by
    rw [← drawn, List.filter_cons_of_neg Bool.false_ne_true, List.filter_flatten, map_mapIdx]
    simp only [statements_solid]
    exact flatten_mapIdx_singleton ..
  have named : body.filterMap Statement.name? =
      (s.order.toList.mapIdx fun number n => names number (g.node n)).flatten := by
    rw [← drawn, List.filterMap_cons_none rfl, List.filterMap_flatten, map_mapIdx]
    simp only [statements_name]
    rfl
  have ended : body.filterMap Statement.ends? =
      (s.order.toList.mapIdx fun number n => edges s.order.toList number (g.node n)).flatten := by
    rw [← drawn, List.filterMap_cons_none rfl, List.filterMap_flatten, map_mapIdx]
    refine congrArg List.flatten (List.mapIdx_eq_mapIdx_iff.mpr fun i lt => ?_)
    exact statements_ends fun child member =>
      number_idxOf looks (breadth.shown (List.getElem_mem lt) member)
  refine ⟨solid, ?_, ?_, ended, fun tail head edge => ?_⟩
  · rw [solid, map_mapIdx]
    exact List.ext_getElem (by simp) fun i _ _ => by simp [nodeStatement_name]
  · rw [← drawn, List.filter_cons_of_neg Bool.false_ne_true, List.filter_flatten,
      List.filterMap_flatten, map_mapIdx, map_mapIdx]
    simp only [statements_dashed]
  · rw [ended, List.mem_flatten] at edge
    obtain ⟨_, drawn, edge⟩ := edge
    obtain ⟨number, lt, rfl⟩ := List.mem_mapIdx.mp drawn
    have there := mem_names_of_mem_edges lt (fun child => breadth.shown (List.getElem_mem lt)) edge
    rw [named]
    exact ⟨List.count_eq_one_of_mem (names_flatten_nodup _ _) there.1,
      List.count_eq_one_of_mem (names_flatten_nodup _ _) there.2⟩

end Drawing

namespace Session

/-- A node is drawn with all that can be reached through slots: one solid statement for each node,
with the numbers in the order in which the nodes are met, an edge for each slot that is not vacant,
and a dashed box for each that is deferred. All the ends of edges are drawn, each once, and the
session stays as it is. -/
theorem view_draws {s : Session} {root : NodeId} (inside : root < s.graph.nodes.size)
    (enclosed : s.graph.Enclosed) (showWitnesses : Bool) :
    ∃ document order, view showWitnesses true root s = some (.ok document, s) ∧
      s.graph.BreadthFirst root order ∧
      (∀ order', s.graph.BreadthFirst root order' → order' = order) ∧
      Drawing.Draws s.graph showWitnesses order document.body := by
  obtain ⟨order, breadth, drawn⟩ := Drawing.draws_view inside enclosed showWitnesses
  exact ⟨_, order, rfl, breadth, fun _ other => other.unique breadth, drawn⟩

/-- A definition that is its own first child, and the first child of its second one. What comes
last is deferred. -/
def looped : Session :=
  ((perform 4 (.bind "x" (.letrec "n" (.alt [.name "n",
    .cat [.name "n", .lazy (.char (.int 1))]]))) {}).map Prod.snd).getD {}

theorem view_draws_looped : 2 < looped.graph.nodes.size ∧ looped.graph.Enclosed ∧
    ∃ document, view true true 2 looped = some (.ok document, looped) ∧
      looped.graph.BreadthFirst 2 [2, 3] ∧ Drawing.Draws looped.graph true [2, 3] document.body := by
  have inside : 2 < looped.graph.nodes.size := by decide
  have enclosed : looped.graph.Enclosed := Graph.Enclosed.of_all (by decide)
  have breadth : looped.graph.BreadthFirst 2 [2, 3] := by
    have second : looped.graph.Shows 2 3 := by unfold Graph.Shows; decide
    refine ⟨fun k => ⟨fun member => ?_, fun reached => ?_⟩, by decide, by decide⟩
    · simp only [List.mem_cons, List.not_mem_nil, or_false] at member
      rcases member with rfl | rfl
      · exact .refl
      · exact .single second
    · induction reached with
      | refl => decide
      | tail _ shown ih =>
        simp only [List.mem_cons, List.not_mem_nil, or_false] at ih
        rcases ih with rfl | rfl
        · exact shown
        · exact List.mem_cons.mpr (.inl (List.mem_singleton.mp shown))
  obtain ⟨document, order, drawn, -, only, shown⟩ := view_draws inside enclosed true
  exact ⟨inside, enclosed, document, drawn, breadth, (only [2, 3] breadth).symm ▸ shown⟩

end Session

end GrammarGraph
