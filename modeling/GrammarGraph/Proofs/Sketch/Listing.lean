import GrammarGraph.Listing
import GrammarGraph.Proofs.Sketch.Engine

/-! Listings in a sketch that differs from the larger graph in its nodes only. They say nothing of
the nodes but how they are reached from the root, so they are the same. -/
namespace GrammarGraph

namespace Survey

/-- What a node holds, and the nodes in its slots. -/
def look (g : Graph) (n : NodeId) : Id (Node × List NodeId) :=
  (g.node n, (g.node n).forcedChildren)

variable {visit : NodeId → Id (Node × List NodeId)} {b : Nat} {s s' : Survey}

theorem explore_over (none : s.current? = none) (b : Nat) : explore visit b s = s := by
  cases b with
  | zero => rfl
  | succ b => rw [explore, none]; rfl

theorem explore_add (ended : Survey.current? (explore visit b s) = none) (k : Nat) :
    explore visit (b + k) s = explore visit b s := by
  induction b generalizing s with
  | zero =>
    rw [Nat.zero_add]
    exact explore_over ended k
  | succ b ih =>
    rw [Nat.succ_add]
    unfold explore at ended ⊢
    cases current : s.current? with
    | none => rfl
    | some n =>
      rw [current] at ended
      exact ih ended

/-- One node is looked at after the other until the survey is over. -/
theorem explore_looked (b : Nat) (s : Survey) :
    Survey.current? (explore visit b s) = none ∨
      (Survey.contents (explore visit b s)).size = s.contents.size + b := by
  induction b generalizing s with
  | zero => exact .inr rfl
  | succ b ih =>
    unfold explore
    cases current : s.current? with
    | none => exact .inl current
    | some n =>
      refine (ih (s.advance (visit n).1 (visit n).2)).imp_right fun size => ?_
      rw [advance, contents_foldl_meet, Array.size_push] at size
      exact size.trans (by omega)

/-- A survey is over when more nodes could have been looked at than were met. -/
theorem explore_ends {root : NodeId}
    (few : (Survey.order (explore visit b (start root))).size < b) :
    Survey.current? (explore visit b (start root)) = none := by
  rcases explore_looked b (start root) with ended | size
  · exact ended
  · have none : (start root).contents.size = 0 := by
      unfold start meet
      split <;> rfl
    rw [current?, size, none, Nat.zero_add]
    exact Array.getElem?_eq_none (Nat.le_of_lt few)

end Survey

variable {K : Cast} {p : Placing K} {h g : Graph} {n n' : NodeId}

theorem Placing.Nodes.forcedChildren {node node' : Node} (nodes : p.Nodes node node') :
    List.Forall₂ p.At node.forcedChildren node'.forcedChildren := by
  refine List.rel_filterMap (R := p.Slots) (fun y y' slots => ?_)
    (.cons nodes.first (.cons nodes.second .nil))
  cases y <;> cases y' <;> first | exact .none | exact .some slots | exact slots.elim

namespace Sketches

variable (sketches : Sketches p h g)
include sketches

theorem explore (b : Nat) {s s' : Survey} (placed : s.Placed p s') :
    Survey.Placed p (Survey.explore (Survey.look h) b s) (Survey.explore (Survey.look g) b s') := by
  induction b generalizing s s' with
  | zero => exact placed
  | succ b ih =>
    unfold Survey.explore
    have current := placed.current?
    generalize s.current? = here at current ⊢
    generalize s'.current? = here' at current ⊢
    cases current with
    | none => exact placed
    | some there =>
      have nodes := sketches.nodes there
      exact ih (placed.advance sketches.matching nodes nodes.forcedChildren)

theorem met_le {s s' : Survey} (placed : s.Placed p s') :
    s.order.size ≤ h.nodes.size ∧ s'.order.size ≤ g.nodes.size := by
  have bounded {order : Array NodeId} {size : Nat} (nodup : order.toList.Nodup)
      (low : ∀ k ∈ order.toList, k < size) : order.size ≤ size := by
    rw [← Array.length_toList, ← List.length_range (n := size)]
    exact (nodup.subperm fun k member => List.mem_range.mpr (low k member)).length_le
  refine ⟨bounded placed.numbered.nodup fun k member => ?_,
    bounded placed.numbered'.nodup fun k member => ?_⟩
  · obtain ⟨_, -, there⟩ := exists_related placed.order member
    exact (sketches.inside there).1
  · obtain ⟨_, -, there⟩ := exists_related placed.order.flip member
    exact (sketches.inside there).2

/-- Surveys of all that can be reached; the bounds are those of the two graphs. -/
theorem ofGraph (placed : p.At n n') :
    Survey.Placed p (Survey.ofGraph h n) (Survey.ofGraph g n') := by
  have started : Survey.Placed p (.start n) (.start n') := .start sketches.matching placed
  have long := sketches.explore (h.nodes.size + 1 + (g.nodes.size + 1)) started
  have ends := Survey.explore_ends (Nat.lt_succ_of_le
    (sketches.met_le (sketches.explore (h.nodes.size + 1) started)).1)
  have ends' := Survey.explore_ends (Nat.lt_succ_of_le
    (sketches.met_le (sketches.explore (g.nodes.size + 1) started)).2)
  rw [Survey.explore_add ends, Nat.add_comm, Survey.explore_add ends'] at long
  exact long

end Sketches

variable {owns : String → Prop} {p : Placing (.same owns)}

theorem Survey.Placed.entry {s s' : Survey} (h : s.Placed p s') {node node' : Node}
    (nodes : p.Nodes node node') : Listing.entry s' node' = Listing.entry s node := by
  have slots : List.Forall₂ Eq ([node.first, node.second].filterMap (Listing.reference? s))
      ([node'.first, node'.second].filterMap (Listing.reference? s')) := by
    refine List.rel_filterMap (R := p.Slots) (fun y y' slots => ?_)
      (.cons nodes.first (.cons nodes.second .nil))
    cases y <;> cases y' <;> first
      | exact .none | exact .some rfl | exact .some (h.number slots).symm | exact slots.elim
  have payload : Listing.payload node' = Listing.payload node := by
    have witnesses : node.witnesses = node'.witnesses := nodes.witnesses
    have transform : node.transform = node'.transform := nodes.transform
    unfold Listing.payload
    rw [nodes.kind, ← witnesses, ← transform]
    split
    · next kind => rw [show node.symbol = node'.symbol from nodes.symbol kind]
    all_goals rfl
  rw [List.forall₂_eq_eq_eq] at slots
  unfold Listing.entry
  rw [nodes.kind, slots, payload]

theorem Sketches.listing (sketches : Sketches p h g) (placed : p.At n n') :
    Listing.ofGraph g n' = Listing.ofGraph h n := by
  have surveyed := sketches.ofGraph placed
  have contents := surveyed.contents
  unfold Listing.ofGraph Listing.ofSurvey
  generalize (Survey.ofGraph h n).contents.toList = nodes at contents ⊢
  generalize (Survey.ofGraph g n').contents.toList = nodes' at contents ⊢
  induction contents with
  | nil => rfl
  | cons first _ ih => rw [List.map_cons, List.map_cons, surveyed.entry first, ih]

end GrammarGraph
