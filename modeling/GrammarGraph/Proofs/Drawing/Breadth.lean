import GrammarGraph.Proofs.Reach

/-! Surveys of a graph as it is. They go breadth first: after the root come the children of the first
node met, then those of the second, and so on, each where it is met for the first time. -/
namespace GrammarGraph

theorem eraseDups_concat {α : Type} [DecidableEq α] (l : List α) (a : α) :
    (l ++ [a]).eraseDups = if a ∈ l then l.eraseDups else l.eraseDups ++ [a] := by
  rw [List.eraseDups_append]
  split
  · next old => simp [List.removeAll, old]
  · next new => simp [List.removeAll, new, List.eraseDups_cons]

namespace Graph

variable {g : Graph} {root n k : NodeId} {order order' : List NodeId}

/-- The node `k` is in a slot of `n`, whatever the kind of `n`. -/
def Shows (g : Graph) (n k : NodeId) : Prop :=
  k ∈ (g.node n).forcedChildren

/-- All that slots hold is in the graph. -/
def Enclosed (g : Graph) : Prop :=
  ∀ n k, g.Shows n k → k < g.nodes.size

theorem Enclosed.of_all (all : ∀ node ∈ g.nodes.toList, ∀ k ∈ node.forcedChildren,
    k < g.nodes.size) : g.Enclosed := by
  intro n k shown
  have lt : n < g.nodes.size := by
    by_contra out
    rw [Shows, node_of_le (Nat.le_of_not_lt out)] at shown
    cases shown
  have here : g.node n = g.nodes[n] := by simp [Graph.node, lt]
  exact all _ (Array.getElem_mem_toList lt) k (here ▸ shown)

/-- What a survey meets that looks at the nodes of a list, one after the other. -/
def meetings (g : Graph) (root : NodeId) (looked : List NodeId) : List NodeId :=
  root :: looked.flatMap fun n => (g.node n).forcedChildren

/-- The nodes that can be reached through slots, each at the place at which it is met first when
they are looked at in this order, the first slot before the second. -/
structure BreadthFirst (g : Graph) (root : NodeId) (order : List NodeId) : Prop where
  all : ∀ k, k ∈ order ↔ Relation.ReflTransGen g.Shows root k
  met : order = (g.meetings root order).eraseDups
  nodup : order.Nodup

theorem meetings_append (g : Graph) (root : NodeId) (ns ms : List NodeId) :
    g.meetings root (ns ++ ms) =
      g.meetings root ns ++ ms.flatMap fun n => (g.node n).forcedChildren := by
  rw [meetings, List.flatMap_append]
  rfl

theorem mem_meetings {ns : List NodeId} :
    k ∈ g.meetings root ns ↔ k = root ∨ ∃ n ∈ ns, g.Shows n k := by
  rw [meetings, List.mem_cons, List.mem_flatMap]
  rfl

namespace BreadthFirst

theorem head (h : g.BreadthFirst root order) : order[0]? = some root := by
  rw [h.met, meetings, List.eraseDups_cons]
  rfl

theorem shown (h : g.BreadthFirst root order) (member : n ∈ order) (shows_ : g.Shows n k) :
    k ∈ order :=
  (h.all k).mpr (.tail ((h.all n).mp member) shows_)

/-- Looking at the nodes before the `i`th is enough to meet that one. -/
theorem meets (h : g.BreadthFirst root order) {i : Nat} (lt : i < order.length) :
    (g.meetings root (order.take i)).eraseDups[i]? = some order[i] := by
  obtain ⟨later, split⟩ :
      ∃ later, order = (g.meetings root (order.take i)).eraseDups ++ later := by
    have met := h.met
    rw [← List.take_append_drop i order, meetings_append, List.eraseDups_append,
      List.take_append_drop] at met
    exact ⟨_, met⟩
  have enough : i < (g.meetings root (order.take i)).eraseDups.length := by
    by_contra few
    -- What has been met is then among the first `i`, and so is all that can be reached.
    have inside {k : NodeId} (met : k ∈ g.meetings root (order.take i)) : k ∈ order.take i := by
      have before : (g.meetings root (order.take i)).eraseDups <+: order.take i :=
        List.prefix_take_iff.mpr ⟨⟨later, split.symm⟩, Nat.le_of_not_lt few⟩
      exact before.subset (List.mem_eraseDups.mpr met)
    have closed {k : NodeId} (reached : Relation.ReflTransGen g.Shows root k) :
        k ∈ order.take i := by
      induction reached with
      | refl => exact inside (mem_meetings.mpr (.inl rfl))
      | tail _ shown ih => exact inside (mem_meetings.mpr (.inr ⟨_, ih, shown⟩))
    obtain ⟨j, here, same⟩ := List.mem_take_iff_getElem.mp
      (closed ((h.all _).mp (List.getElem_mem lt)))
    rw [h.nodup.getElem_inj_iff] at same
    omega
  calc (g.meetings root (order.take i)).eraseDups[i]?
      = ((g.meetings root (order.take i)).eraseDups ++ later)[i]? :=
        (List.getElem?_append_left enough).symm
    _ = order[i]? := congrArg (·[i]?) split.symm
    _ = some order[i] := List.getElem?_eq_getElem lt

theorem unique (h : g.BreadthFirst root order) (h' : g.BreadthFirst root order') :
    order = order' := by
  have long : order.length = order'.length :=
    ((List.perm_ext_iff_of_nodup h.nodup h'.nodup).mpr fun k =>
      (h.all k).trans (h'.all k).symm).length_eq
  suffices same : ∀ i ≤ order.length, order.take i = order'.take i by
    have whole := same order.length (Nat.le_refl _)
    rwa [List.take_length, long, List.take_length] at whole
  intro i le
  induction i with
  | zero => rfl
  | succ i ih =>
    have before := ih (Nat.le_of_succ_le le)
    have next := h.meets le
    rw [before, h'.meets (long ▸ le)] at next
    rw [List.take_succ_eq_append_getElem le, List.take_succ_eq_append_getElem (long ▸ le), before,
      Option.some.inj next]

end BreadthFirst

end Graph

namespace Survey

variable {s : Survey} {g : Graph} {root n k : NodeId} {ks l : List NodeId}

/-- The number of a node is its place among the nodes met. -/
def Indexed (s : Survey) : Prop :=
  ∀ k i, s.number.get? k = some i ↔ s.order[i]? = some k

namespace Indexed

theorem has (h : s.Indexed) : s.number.has k = true ↔ k ∈ s.order := by
  rw [Table.has, Option.isSome_iff_exists, Array.mem_iff_getElem?]
  exact exists_congr fun i => h k i

theorem meet (h : s.Indexed) (n : NodeId) : (s.meet n).Indexed := by
  unfold Survey.meet
  split
  · exact h
  · next new =>
    have fresh : n ∉ s.order := fun member => new (h.has.mpr member)
    intro k i
    rw [Table.get?_insert, Array.getElem?_push]
    split
    · next same =>
      subst same
      split
      · next last => exact iff_of_true (congrArg some last.symm) rfl
      · next other =>
        exact iff_of_false (fun last => other (Option.some.inj last).symm)
          fun there => fresh (Array.mem_of_getElem? there)
    · next differs =>
      rw [h k i]
      split
      · next last =>
        rw [last, Array.getElem?_eq_none (Nat.le_refl _)]
        exact iff_of_false nofun fun same => differs (Option.some.inj same).symm
      · exact Iff.rfl

theorem foldl_meet (h : s.Indexed) (ks : List NodeId) : (ks.foldl Survey.meet s).Indexed := by
  induction ks generalizing s with
  | nil => exact h
  | cons k ks ih => exact ih (h.meet k)

/-- What is met is put behind what has been met before, unless it is there. -/
theorem toList_foldl_meet (h : s.Indexed) (order : s.order.toList = l.eraseDups)
    (ks : List NodeId) : (ks.foldl Survey.meet s).order.toList = (l ++ ks).eraseDups := by
  induction ks generalizing s l with
  | nil => rw [List.append_nil]; exact order
  | cons k ks ih =>
    have met : (s.meet k).order.toList = (l ++ [k]).eraseDups := by
      have known : s.number.has k = true ↔ k ∈ l := by
        rw [h.has, ← Array.mem_toList_iff, order, List.mem_eraseDups]
      rw [eraseDups_concat, Survey.meet]
      simp only [known]
      split
      · exact order
      · rw [Array.toList_push, order]
    rw [List.foldl_cons, ih (h.meet k) met, List.append_assoc]
    rfl

end Indexed

/-- A survey of a graph as it is, on its way. -/
structure Looks (s : Survey) (g : Graph) (root : NodeId) : Prop where
  indexed : s.Indexed
  numbered : s.Numbered
  ahead : s.contents.size ≤ s.order.size
  order : s.order.toList = (g.meetings root (s.order.toList.take s.contents.size)).eraseDups
  contents : s.contents.toList = (s.order.toList.take s.contents.size).map g.node
  reached : ∀ k ∈ s.order, Relation.ReflTransGen g.Shows root k

namespace Looks

theorem start : (Survey.start root).Looks g root where
  indexed := Indexed.meet (fun k i => by simp) root
  numbered := Numbered.initial.meet root
  ahead := Nat.zero_le _
  order := rfl
  contents := rfl
  reached k member :=
    (mem_meet member).resolve_left (Array.not_mem_empty k) ▸ .refl

theorem advance (h : s.Looks g root) (current : s.current? = some n) :
    (s.advance (g.node n) (g.node n).forcedChildren).Looks g root := by
  obtain ⟨lt, here⟩ := Array.getElem?_eq_some_iff.mp current
  have indexed : Indexed { s with contents := s.contents.push (g.node n) } := h.indexed
  have order : (s.advance (g.node n) (g.node n).forcedChildren).order.toList =
      (g.meetings root (s.order.toList.take s.contents.size) ++
        (g.node n).forcedChildren).eraseDups :=
    indexed.toList_foldl_meet h.order _
  obtain ⟨later, split⟩ : ∃ later, s.order.toList ++ later =
      (s.advance (g.node n) (g.node n).forcedChildren).order.toList := by
    rw [order, List.eraseDups_append, ← h.order]
    exact ⟨_, rfl⟩
  have long : s.contents.size < s.order.toList.length := by rwa [Array.length_toList]
  have looked : (s.advance (g.node n) (g.node n).forcedChildren).order.toList.take
      (s.contents.size + 1) = s.order.toList.take s.contents.size ++ [n] := by
    rw [← split, List.take_append_of_le_length long, List.take_succ_eq_append_getElem long,
      Array.getElem_toList, here]
  refine ⟨indexed.foldl_meet _, h.numbered.advance _ _, ?_, ?_, ?_, fun k member => ?_⟩
  · have size := congrArg List.length split
    simp only [List.length_append, Array.length_toList] at size
    rw [contents_advance, Array.size_push]
    omega
  · rw [contents_advance, Array.size_push, looked, Graph.meetings_append, List.flatMap_singleton]
    exact order
  · rw [contents_advance, Array.size_push, looked, Array.toList_push, h.contents, List.map_append]
    rfl
  · exact (mem_advance member).elim (h.reached k) fun shown =>
      .tail (h.reached n (Array.mem_of_getElem? current)) shown

theorem size (h : s.Looks g root) (inside : root < g.nodes.size) (enclosed : g.Enclosed) :
    s.order.size ≤ g.nodes.size := by
  have within : s.order.toList ⊆ List.range g.nodes.size := fun k member => by
    rw [List.mem_range]
    rw [h.order, List.mem_eraseDups, Graph.mem_meetings] at member
    rcases member with rfl | ⟨n, -, shown⟩
    · exact inside
    · exact enclosed n k shown
  simpa using (List.subperm_of_subset h.numbered.nodup within).length_le

theorem explore (h : s.Looks g root) (inside : root < g.nodes.size) (enclosed : g.Enclosed)
    (bound : Nat) (room : g.nodes.size < s.contents.size + bound) :
    ∃ s', Survey.explore (m := Id) (fun n => (g.node n, (g.node n).forcedChildren)) bound s = s' ∧
      s'.Looks g root ∧ s'.current? = none := by
  induction bound generalizing s with
  | zero => exact absurd (Nat.le_trans h.ahead (h.size inside enclosed)) (Nat.not_le_of_lt room)
  | succ bound ih =>
    unfold Survey.explore
    split
    · next none => exact ⟨s, rfl, h, none⟩
    · next n some =>
      refine ih (h.advance some) ?_
      rw [contents_advance, Array.size_push]
      omega

/-- A survey that is over has met all that can be reached, in the order in which it is met. -/
theorem breadthFirst (h : s.Looks g root) (ended : s.current? = none) :
    g.BreadthFirst root s.order.toList := by
  have all : s.order.toList.take s.contents.size = s.order.toList :=
    List.take_of_length_le (Array.getElem?_eq_none_iff.mp ended)
  have order := h.order
  rw [all] at order
  refine ⟨fun k => ⟨fun member => h.reached k (Array.mem_toList_iff.mp member), fun reached => ?_⟩,
    order, h.numbered.nodup⟩
  induction reached with
  | refl => rw [order, List.mem_eraseDups]; exact Graph.mem_meetings.mpr (.inl rfl)
  | tail _ shown ih =>
    rw [order, List.mem_eraseDups]; exact Graph.mem_meetings.mpr (.inr ⟨_, ih, shown⟩)

end Looks

theorem ofGraph_looks (inside : root < g.nodes.size) (enclosed : g.Enclosed) :
    (ofGraph g root).Looks g root ∧ (ofGraph g root).current? = none := by
  obtain ⟨s', run, looks, ended⟩ := Looks.start.explore inside enclosed (g.nodes.size + 1)
    (Nat.lt_of_lt_of_le (Nat.lt_succ_self _) (Nat.le_add_left ..))
  rw [ofGraph, run]
  exact ⟨looks, ended⟩

end Survey

end GrammarGraph
