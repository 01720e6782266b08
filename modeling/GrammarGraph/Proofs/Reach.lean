import Mathlib.Data.Finset.Card
import Mathlib.Logic.Relation
import GrammarGraph.Proofs.Formed
import GrammarGraph.Proofs.Forests
import GrammarGraph.Survey

/-! What can be reached from a node. Once all of it has been read, it stays what it is. A survey
that is over has met exactly that, and each node of it once. -/
namespace GrammarGraph

namespace Graph

/-- The node `k` is a child of `n` that has been read. -/
def Child (g : Graph) (n k : NodeId) : Prop :=
  ∃ side ∈ (g.node n).sides, (g.node n).slot side = .node k

/-- The nodes that can be reached from `n` are those in `S`, and all their children have been
read. -/
structure Spans (g : Graph) (n : NodeId) (S : Finset NodeId) : Prop where
  root : n ∈ S
  inside : ∀ k ∈ S, k < g.nodes.size
  closed : ∀ k ∈ S, ∀ side ∈ (g.node k).sides, ∃ j ∈ S, (g.node k).slot side = .node j
  reached : ∀ k ∈ S, Relation.ReflTransGen g.Child n k

variable {g g' : Graph} {n k j : NodeId} {S T : Finset NodeId}

theorem Evolves.child (h : g.Evolves g') (child : g.Child n k) : g'.Child n k := by
  obtain ⟨side, member, slot⟩ := child
  have lt : n < g.nodes.size := lt_of_slot fun vacant => by rw [slot] at vacant; cases vacant
  refine ⟨side, ?_, h.filled slot⟩
  rw [Node.sides, h.kind lt]
  exact member

theorem Evolves.reached (h : g.Evolves g') (reached : Relation.ReflTransGen g.Child n k) :
    Relation.ReflTransGen g'.Child n k :=
  Relation.ReflTransGen.mono (fun _ _ => h.child) _ _ reached

theorem Child.not_atomic (atomic : (g.node n).kind.isAtomic = true) : ¬ g.Child n k := by
  rintro ⟨side, member, _⟩
  rw [Node.sides_of_atomic atomic] at member
  cases member

theorem Child.single (child : g.Child n k) (kind : (g.node n).kind = .rep ∨
    (g.node n).kind = .delta ∨ (g.node n).kind = .red) : (g.node n).first = .node k := by
  obtain ⟨side, member, slot⟩ := child
  rw [Node.sides_of_single kind, List.mem_singleton] at member
  rwa [member] at slot

theorem Child.either (child : g.Child n k) :
    (g.node n).first = .node k ∨ (g.node n).second = .node k := by
  obtain ⟨side, _, slot⟩ := child
  cases side with
  | first => exact .inl slot
  | second => exact .inr slot

theorem Child.of_pair (kind : (g.node n).kind = .cat ∨ (g.node n).kind = .alt) (side : Side)
    (slot : (g.node n).slot side = .node k) : g.Child n k :=
  ⟨side, Node.mem_sides_of_pair kind side, slot⟩

theorem Child.of_single (kind : (g.node n).kind = .rep ∨ (g.node n).kind = .delta ∨
    (g.node n).kind = .red) (slot : (g.node n).first = .node k) : g.Child n k :=
  ⟨.first, Node.mem_sides_of_single kind, slot⟩

namespace Spans

theorem mem_of_child (h : g.Spans n S) (member : k ∈ S) (child : g.Child k j) : j ∈ S := by
  obtain ⟨side, there, slot⟩ := child
  obtain ⟨i, inS, slot'⟩ := h.closed k member side there
  exact Slot.node.inj (slot'.symm.trans slot) ▸ inS

theorem mem_of_reached (h : g.Spans n S) (member : k ∈ S)
    (reached : Relation.ReflTransGen g.Child k j) : j ∈ S := by
  induction reached with
  | refl => exact member
  | tail _ child ih => exact h.mem_of_child ih child

theorem unique (h : g.Spans n S) (h' : g.Spans n T) : S = T := by
  ext k
  exact ⟨fun member => h'.mem_of_reached h'.root (h.reached k member),
    fun member => h.mem_of_reached h.root (h'.reached k member)⟩

theorem evolves (h : g.Spans n S) (evolves : g.Evolves g') : g'.Spans n S where
  root := h.root
  inside k member := Nat.lt_of_lt_of_le (h.inside k member) evolves.size
  closed k member side there := by
    rw [Node.sides, evolves.kind (h.inside k member)] at there
    obtain ⟨j, inS, slot⟩ := h.closed k member side there
    exact ⟨j, inS, evolves.filled slot⟩
  reached k member := evolves.reached (h.reached k member)

/-- What holds of the root and is passed on to children holds of all. -/
theorem forall_of_step (h : g.Spans n S) {P : NodeId → Prop} (root : P n)
    (step : ∀ {k j}, P k → g.Child k j → P j) : ∀ k ∈ S, P k := by
  intro k member
  induction h.reached k member with
  | refl => exact root
  | @tail j k before child ih => exact step (ih (h.mem_of_reached h.root before)) child

/-- Below a node with one child is that child, and what is below it. -/
theorem of_single (h : g.Spans k S) (kind : (g.node n).kind = .rep ∨ (g.node n).kind = .delta ∨
    (g.node n).kind = .red) (slot : (g.node n).first = .node k) : g.Spans n (insert n S) := by
  have child : g.Child n k := .of_single kind slot
  refine ⟨Finset.mem_insert_self n S, fun j member => ?_, fun j member side there => ?_,
    fun j member => ?_⟩
  · rcases Finset.mem_insert.mp member with rfl | member
    · exact lt_of_slot (show (g.node _).slot .first ≠ .vacant from fun vacant => by
        cases slot.symm.trans vacant)
    · exact h.inside j member
  · rcases Finset.mem_insert.mp member with rfl | member
    · rw [Node.sides_of_single kind, List.mem_singleton] at there
      exact ⟨k, Finset.mem_insert_of_mem h.root, there ▸ slot⟩
    · obtain ⟨i, inS, slot⟩ := h.closed j member side there
      exact ⟨i, Finset.mem_insert_of_mem inS, slot⟩
  · rcases Finset.mem_insert.mp member with rfl | member
    · exact .refl
    · exact .head child (h.reached j member)

/-- Below a node with two children are those children, and what is below them. -/
theorem of_pair (h : g.Spans k S) (h' : g.Spans j T)
    (kind : (g.node n).kind = .cat ∨ (g.node n).kind = .alt) (first : (g.node n).first = .node k)
    (second : (g.node n).second = .node j) : g.Spans n (insert n (S ∪ T)) := by
  have left {i : NodeId} (member : i ∈ S) : i ∈ insert n (S ∪ T) :=
    Finset.mem_insert_of_mem (Finset.mem_union_left T member)
  have right {i : NodeId} (member : i ∈ T) : i ∈ insert n (S ∪ T) :=
    Finset.mem_insert_of_mem (Finset.mem_union_right S member)
  have each {P : NodeId → Prop} (here : P n) (first : ∀ i ∈ S, P i) (second : ∀ i ∈ T, P i) :
      ∀ i ∈ insert n (S ∪ T), P i := by
    intro i member
    rcases Finset.mem_insert.mp member with rfl | member
    · exact here
    · exact (Finset.mem_union.mp member).elim (first i) (second i)
  refine ⟨Finset.mem_insert_self n _, each ?_ h.inside h'.inside, each ?_ ?_ ?_,
    each .refl (fun i member => ?_) fun i member => ?_⟩
  · exact lt_of_slot (show (g.node n).slot .first ≠ .vacant from fun vacant => by
      cases first.symm.trans vacant)
  · intro side _
    cases side with
    | first => exact ⟨k, left h.root, first⟩
    | second => exact ⟨j, right h'.root, second⟩
  · intro i member side there
    obtain ⟨o, inS, slot⟩ := h.closed i member side there
    exact ⟨o, left inS, slot⟩
  · intro i member side there
    obtain ⟨o, inT, slot⟩ := h'.closed i member side there
    exact ⟨o, right inT, slot⟩
  · exact .head (.of_pair kind .first first) (h.reached i member)
  · exact .head (.of_pair kind .second second) (h'.reached i member)

end Spans

end Graph

namespace Survey

variable {s : Survey} {g g' : Graph} {root n k j : NodeId} {i : Nat}

theorem mem_meet (h : k ∈ (s.meet n).order) : k ∈ s.order ∨ k = n := by
  unfold meet at h
  split at h
  · exact .inl h
  · simpa using h

theorem mem_advance {node : Node} {ns : List NodeId} (h : k ∈ (s.advance node ns).order) :
    k ∈ s.order ∨ k ∈ ns := by
  unfold advance at h
  generalize contents : { s with contents := s.contents.push node } = start at h
  have same : s.order = start.order := by rw [← contents]
  rw [same]
  clear contents same
  induction ns generalizing start with
  | nil => exact .inl h
  | cons m ns ih =>
    rcases ih _ h with old | later
    · exact (mem_meet old).imp_right fun same => by simp [same]
    · exact .inr (by simp [later])

/-- No node has two numbers. -/
structure Numbered (s : Survey) : Prop where
  nodup : s.order.toList.Nodup
  number : ∀ k, s.number.has k = true ↔ k ∈ s.order

namespace Numbered

theorem initial : Survey.Numbered {} :=
  ⟨List.nodup_nil, fun k => by simp [Table.has]⟩

theorem meet (h : s.Numbered) (k : NodeId) : (s.meet k).Numbered := by
  unfold Survey.meet
  split
  · exact h
  · next new =>
    have fresh : k ∉ s.order.toList := fun member =>
      new ((h.number k).mpr (Array.mem_toList_iff.mp member))
    refine ⟨?_, fun j => ?_⟩
    · rw [Array.toList_push]
      exact List.nodup_append.mpr ⟨h.nodup, List.nodup_singleton k,
        fun a ha b hb same => fresh (List.mem_singleton.mp hb ▸ same ▸ ha)⟩
    · have number : (s.number.insert k s.order.size).has j = true ↔ j = k ∨ s.number.has j = true := by
        rw [Table.has, Table.get?_insert]
        split <;> simp_all [Table.has]
      rw [Array.mem_push, ← h.number, number, or_comm]

theorem foldl_meet (h : s.Numbered) (ks : List NodeId) : (ks.foldl Survey.meet s).Numbered := by
  induction ks generalizing s with
  | nil => exact h
  | cons k ks ih => exact ih (h.meet k)

theorem advance (h : s.Numbered) (node : Node) (ks : List NodeId) : (s.advance node ks).Numbered :=
  foldl_meet (s := { s with contents := s.contents.push node }) ⟨h.nodup, h.number⟩ ks

/-- What is met has a number from then on. -/
theorem mem_meet_self (h : s.Numbered) : k ∈ (s.meet k).order := by
  unfold Survey.meet
  split
  · next known => exact (h.number k).mp known
  · exact Array.mem_push_self

end Numbered

theorem contents_foldl_meet (ks : List NodeId) :
    (ks.foldl Survey.meet s).contents = s.contents := by
  induction ks generalizing s with
  | nil => rfl
  | cons k ks ih =>
    rw [List.foldl_cons, ih, meet]
    split <;> rfl

theorem contents_advance (node : Node) (ks : List NodeId) :
    (s.advance node ks).contents = s.contents.push node :=
  contents_foldl_meet ks

/-- Numbers stay what they are. -/
theorem order_meet (h : s.order[i]? = some n) : (s.meet k).order[i]? = some n := by
  unfold meet
  split
  · exact h
  · obtain ⟨lt, here⟩ := Array.getElem?_eq_some_iff.mp h
    rw [Array.getElem?_push_lt lt, here]

theorem order_foldl_meet {ks : List NodeId} (h : s.order[i]? = some n) :
    (ks.foldl meet s).order[i]? = some n := by
  induction ks generalizing s with
  | nil => exact h
  | cons k ks ih => exact ih (order_meet h)

theorem mem_foldl_meet {ks : List NodeId} (h : s.Numbered) (member : k ∈ ks) :
    k ∈ (ks.foldl meet s).order := by
  induction ks generalizing s with
  | nil => cases member
  | cons j ks ih =>
    rcases List.mem_cons.mp member with rfl | later
    · obtain ⟨i, here⟩ := Array.getElem?_of_mem (h.mem_meet_self (k := k))
      exact Array.mem_of_getElem? (order_foldl_meet (s := s.meet k) here)
    · exact ih (h.meet j) later

/-- All that a survey from `root` has met can be reached, and the children of what it has looked at
have been met. -/
structure Explores (s : Survey) (g : Graph) (root : NodeId) : Prop where
  numbered : s.Numbered
  met : root ∈ s.order
  inside : ∀ k ∈ s.order, k < g.nodes.size
  reached : ∀ k ∈ s.order, Relation.ReflTransGen g.Child root k
  looked : ∀ {i k}, i < s.contents.size → s.order[i]? = some k →
    ∀ side ∈ (g.node k).sides, ∃ j ∈ s.order, (g.node k).slot side = .node j

namespace Explores

theorem start (lt : root < g.nodes.size) : (Survey.start root).Explores g root := by
  have only {k : NodeId} (member : k ∈ (Survey.start root).order) : k = root :=
    (mem_meet member).resolve_left (Array.not_mem_empty k)
  have contents : (Survey.start root).contents = #[] := contents_foldl_meet [root]
  refine ⟨Numbered.initial.meet root, Numbered.initial.mem_meet_self,
    fun k member => only member ▸ lt, fun k member => only member ▸ .refl, fun looked => ?_⟩
  rw [contents] at looked
  cases looked

theorem evolves (h : s.Explores g root) (evolves : g.Evolves g') : s.Explores g' root where
  numbered := h.numbered
  met := h.met
  inside k member := Nat.lt_of_lt_of_le (h.inside k member) evolves.size
  reached k member := evolves.reached (h.reached k member)
  looked {i k} looked number side member := by
    rw [Node.sides, evolves.kind (h.inside k (Array.mem_of_getElem? number))] at member
    obtain ⟨j, met, slot⟩ := h.looked looked number side member
    exact ⟨j, met, evolves.filled slot⟩

/-- The children of the node whose turn it is are met. -/
theorem advance (h : s.Explores g root) (current : s.current? = some n) (node : Node)
    {ks : List NodeId} (children : List.Forall₂
      (fun side k => k < g.nodes.size ∧ (g.node n).slot side = .node k) (g.node n).sides ks) :
    (s.advance node ks).Explores g root := by
  have numbered : Numbered { s with contents := s.contents.push node } :=
    ⟨h.numbered.nodup, h.numbered.number⟩
  have kept {i : Nat} {k : NodeId} (number : s.order[i]? = some k) :
      (s.advance node ks).order[i]? = some k := order_foldl_meet number
  have still {k : NodeId} (member : k ∈ s.order) : k ∈ (s.advance node ks).order :=
    let ⟨_, number⟩ := Array.getElem?_of_mem member
    Array.mem_of_getElem? (kept number)
  have child {k : NodeId} (member : k ∈ ks) : k < g.nodes.size ∧ g.Child n k := by
    obtain ⟨side, there, lt, slot⟩ := exists_related children.flip member
    exact ⟨lt, side, there, slot⟩
  obtain ⟨before, -⟩ := Array.getElem?_eq_some_iff.mp current
  refine ⟨h.numbered.advance node ks, still h.met, fun k member => ?_, fun k member => ?_,
    fun {i k} looked number => ?_⟩
  · exact (mem_advance member).elim (h.inside k) fun member => (child member).1
  · exact (mem_advance member).elim (h.reached k) fun member =>
      .tail (h.reached n (Array.mem_of_getElem? current)) (child member).2
  · rw [contents_advance, Array.size_push] at looked
    rcases Nat.lt_succ_iff_lt_or_eq.mp looked with earlier | rfl
    · have old : s.order[i]? = some s.order[i] :=
        Array.getElem?_eq_getElem (Nat.lt_trans earlier before)
      obtain rfl := Option.some.inj ((kept old).symm.trans number)
      intro side member
      obtain ⟨j, met, slot⟩ := h.looked earlier old side member
      exact ⟨j, still met, slot⟩
    · obtain rfl := Option.some.inj ((kept current).symm.trans number)
      intro side member
      obtain ⟨j, met, -, slot⟩ := exists_related children member
      exact ⟨j, mem_foldl_meet numbered met, slot⟩

/-- A survey that is over has met all that can be reached. -/
theorem spans (h : s.Explores g root) (ended : s.current? = none) :
    g.Spans root s.order.toList.toFinset := by
  have met {k : NodeId} : k ∈ s.order.toList.toFinset ↔ k ∈ s.order :=
    List.mem_toFinset.trans Array.mem_toList_iff
  refine ⟨met.mpr h.met, fun k member => h.inside k (met.mp member), fun k member side there => ?_,
    fun k member => h.reached k (met.mp member)⟩
  obtain ⟨i, number⟩ := Array.getElem?_of_mem (met.mp member)
  obtain ⟨lt, -⟩ := Array.getElem?_eq_some_iff.mp number
  have looked := Nat.lt_of_lt_of_le lt (Array.getElem?_eq_none_iff.mp ended)
  obtain ⟨j, there, slot⟩ := h.looked looked number side there
  exact ⟨j, met.mpr there, slot⟩

end Explores

theorem Numbered.card (h : s.Numbered) : s.order.toList.toFinset.card = s.order.size := by
  rw [List.toFinset_card_of_nodup h.nodup, Array.length_toList]

end Survey

end GrammarGraph
