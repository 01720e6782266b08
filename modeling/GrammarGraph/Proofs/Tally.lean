import GrammarGraph.Proofs.Drawing
import GrammarGraph.Proofs.Gauge.Survey
import GrammarGraph.Proofs.Reach
import GrammarGraph.Proofs.Shaped

/-! What is counted. To count the nodes that can be reached their children are read, and what is
deferred is computed; this makes new nodes while the survey goes on. If all of it can be read and
there is an end to it, the survey comes to an end as well, has met each node once, and leaves nothing
to be read. -/
namespace GrammarGraph

open RunOf (Gives)

namespace Graph

variable {g g' g₁ g₂ : Graph} {n k j : NodeId} {side : Side}

/-- A child is read of a node that can be reached from `n`. -/
def Discloses (n : NodeId) (g g' : Graph) : Prop :=
  ∃ k side j, Relation.ReflTransGen g.Child n k ∧ side ∈ (g.node k).sides ∧
    Gives (fun ask => ask.child? k side) g (some j) g'

/-- From `n`, all children can be read, in whatever order, and there is an end to it. -/
structure Forceable (g : Graph) (n : NodeId) : Prop where
  /-- A read that is next ends without a fault and gives a node of the graph. -/
  reads : ∀ {g'}, Relation.ReflTransGen (Discloses n) g g' →
    ∀ {k}, Relation.ReflTransGen g'.Child n k → ∀ side ∈ (g'.node k).sides,
      ∃ j g'', Gives (fun ask => ask.child? k side) g' (some j) g'' ∧ j < g''.nodes.size
  /-- There are never more nodes within reach than that. -/
  finite : ∃ most, ∀ {g'}, Relation.ReflTransGen (Discloses n) g g' → ∀ S : Finset NodeId,
    (∀ k ∈ S, Relation.ReflTransGen g'.Child n k) → S.card ≤ most

theorem Forceable.after (h : g.Forceable n) (forces : Relation.ReflTransGen (Discloses n) g g') :
    g'.Forceable n where
  reads later := h.reads (forces.trans later)
  finite := let ⟨most, bound⟩ := h.finite; ⟨most, fun later => bound (forces.trans later)⟩

theorem Shaped.read (h : g.Shaped) (gives : Gives (fun ask => ask.child? k side) g (some j) g') :
    g.Evolves g' ∧ g'.Shaped ∧ (g'.node k).slot side = .node j := by
  obtain ⟨least, gives⟩ := gives
  have ends : Child.read (Engine.run least) k side g = some (.ok (some j), g') :=
    gives (least + 1) (Nat.le_succ _)
  obtain ⟨_, later, valid, -⟩ := (Engine.run_shaped least).read_shaped k side g h _ _ ends
  refine ⟨later, valid, ?_⟩
  cases Child.read_outcome ends with
  | node slot => exact slot
  | computed slot =>
    have lt : k < g.nodes.size := lt_of_slot fun vacant => by cases slot.symm.trans vacant
    have lt₁ := Nat.lt_of_lt_of_le lt later.size
    rw [nodes_size_setSlot] at lt₁
    exact slot_setSlot_self side _ lt₁

theorem Discloses.later (h : g.Shaped) (forces : g.Discloses n g') : g.Evolves g' ∧ g'.Shaped := by
  obtain ⟨k, side, j, -, -, gives⟩ := forces
  exact ⟨(h.read gives).1, (h.read gives).2.1⟩

/-- However much is read, nodes keep their kinds and payloads, and what is within reach stays so. -/
theorem Shaped.forced (h : g.Shaped) (forces : Relation.ReflTransGen (Discloses n) g g') :
    g.Evolves g' ∧ g'.Shaped := by
  induction forces with
  | refl => exact ⟨.refl g, h⟩
  | tail _ step ih =>
    obtain ⟨evolves, valid⟩ := step.later ih.2
    exact ⟨ih.1.trans evolves, valid⟩

theorem gives_child (slot : (g.node k).slot side = .node j) :
    Gives (fun ask => ask.child? k side) g (some j) g :=
  .ask 1 (show Child.read (Engine.run 0) k side g = _ from Child.read_node slot)

theorem Forceable.inside (h : g.Forceable n) (lt : n < g.nodes.size)
    (reached : Relation.ReflTransGen g.Child n k) : k < g.nodes.size := by
  cases reached with
  | refl => exact lt
  | tail before child =>
    obtain ⟨side, member, slot⟩ := child
    obtain ⟨j, g', gives, inside⟩ := h.reads .refl before side member
    obtain ⟨same, rfl⟩ := (gives_child slot).agree gives
    exact Option.some.inj same ▸ inside

theorem Spans.still {S : Finset NodeId} (spans : g.Spans n S)
    (forces : Relation.ReflTransGen (Discloses n) g g') : g' = g := by
  induction forces with
  | refl => rfl
  | tail _ step ih =>
    subst ih
    obtain ⟨k, side, j, reached, member, gives⟩ := step
    obtain ⟨i, -, slot⟩ := spans.closed k (spans.mem_of_reached spans.root reached) side member
    exact ((gives_child slot).agree gives).2

end Graph

/-- The children of what can be reached from `n` are read, from `g₀` on. -/
def forcing (g₀ : Graph) (n : NodeId) : Regime Unit where
  Valid _ g := Relation.ReflTransGen (Graph.Discloses n) g₀ g ∧ g.Shaped
  Later _ g _ g' := g.Evolves g'
  refl _ := .refl
  trans := .trans

namespace Graph.Forceable

variable {g₀ g : Graph} {n k : NodeId} {s : Survey} (h : g₀.Forceable n)
include h

theorem children (valid : (forcing g₀ n).Valid () g) (lt : k < g.nodes.size)
    (reached : Relation.ReflTransGen g.Child n k) :
    (forcing g₀ n).Ends () g (fun ask => ask.children k) fun _ g' ks =>
      List.Forall₂ (fun side j => j < g'.nodes.size ∧ (g'.node k).slot side = .node j)
        (g'.node k).sides ks := by
  refine .read (p := fun g => g.node k) ?_
  refine .imp (.mapM (S := fun _ g' side j => j < g'.nodes.size ∧ (g'.node k).slot side = .node j)
    (fun later filled => ?_) valid fun side member _ g₁ later₁ valid₁ => ?_)
      fun _ g' _ later _ all => ?_
  · exact ⟨Nat.lt_of_lt_of_le filled.1 (Graph.Evolves.size later), Graph.Evolves.filled later filled.2⟩
  · have member₁ : side ∈ (g₁.node k).sides := by
      rwa [Node.sides, Graph.Evolves.kind later₁ lt]
    have reached₁ := Graph.Evolves.reached later₁ reached
    obtain ⟨j, g₂, gives, inside⟩ := h.reads valid₁.1 reached₁ side member₁
    obtain ⟨evolves, shaped, slot⟩ := valid₁.2.read gives
    have valid₂ : (forcing g₀ n).Valid () g₂ :=
      ⟨valid₁.1.tail ⟨k, side, j, reached₁, member₁, gives⟩, shaped⟩
    refine .bind (Q := fun _ g' c => ∃ j, c = some j ∧ j < g'.nodes.size ∧
      (g'.node k).slot side = .node j) ⟨_, _, gives, (), evolves, valid₂, j, rfl, inside, slot⟩ ?_
    rintro _ g₃ _ - valid₃ ⟨i, rfl, filled⟩
    exact .pure valid₃ filled
  · rwa [Node.sides, Graph.Evolves.kind later lt]

theorem explore {most : Nat} (bound : ∀ {g'}, Relation.ReflTransGen (Graph.Discloses n) g₀ g' →
      ∀ S : Finset NodeId, (∀ k ∈ S, Relation.ReflTransGen g'.Child n k) → S.card ≤ most)
    (b : Nat) {g : Graph} {s : Survey} (valid : (forcing g₀ n).Valid () g) (explores : s.Explores g n)
    (enough : most ≤ s.contents.size + b) :
    (forcing g₀ n).Ends () g (fun ask => Survey.explore (Survey.forcing ask) b s) fun _ g' s' =>
      s'.Explores g' n ∧ s'.current? = none := by
  have size : s.order.size ≤ most := by
    rw [← explores.numbered.card]
    refine bound valid.1 _ fun k member => explores.reached k ?_
    exact Array.mem_toList_iff.mp (List.mem_toFinset.mp member)
  induction b generalizing g s with
  | zero =>
    refine .pure valid ⟨explores, ?_⟩
    rw [Survey.current?, Array.getElem?_eq_none (by omega)]
  | succ b ih =>
    unfold Survey.explore
    cases current : s.current? with
    | none => exact .pure valid ⟨explores, current⟩
    | some m =>
      have member : m ∈ s.order := Array.mem_of_getElem? current
      refine .bind (Q := fun _ g' seen => List.Forall₂ (fun side j => j < g'.nodes.size ∧
        (g'.node m).slot side = .node j) (g'.node m).sides seen.2) ?_ ?_
      · refine .bind (h.children valid (explores.inside m member) (explores.reached m member))
          fun _ g₁ ks _ valid₁ children => ?_
        exact .read (p := fun g => g.node m) (.pure valid₁ children)
      · rintro _ g₁ ⟨node, ks⟩ later valid₁ children
        have explores₁ := (explores.evolves later).advance current node children
        refine ih valid₁ explores₁ ?_ ?_
        · rw [Survey.contents_advance, Array.size_push]
          omega
        · rw [← explores₁.numbered.card]
          refine bound valid₁.1 _ fun k member => explores₁.reached k ?_
          exact Array.mem_toList_iff.mp (List.mem_toFinset.mp member)

end Graph.Forceable

theorem Graph.Forceable.nodeCount {g : Graph} {n : NodeId} (h : g.Forceable n) (shaped : g.Shaped)
    (lt : n < g.nodes.size) :
    ∃ g' S, Gives (fun ask => ask.nodeCount n) g S.card g' ∧
      Relation.ReflTransGen (Graph.Discloses n) g g' ∧ g'.Spans n S := by
  obtain ⟨most, bound⟩ := h.finite
  obtain ⟨s, g', gives, _, -, valid, explores, ended⟩ :=
    h.explore bound most ⟨.refl, shaped⟩ (.start lt) (Nat.le_add_left _ _)
  refine ⟨g', s.order.toList.toFinset, ?_, valid.1, explores.spans ended⟩
  rw [explores.numbered.card]
  exact Survey.nodeCount_gives gives ended

namespace Session

/-- If all that can be reached from a node can be read, in whatever order, and there is an end to it,
then the count of the nodes ends and gives their number. It does nothing but read children: at any
time on the way and later, the nodes that are within reach stay within reach with their kinds and
payloads. After the count all of them are forced; nothing is left to be read, and the count gives
the same again and changes nothing. -/
theorem nodeCount_exact {s : Session} {n : NodeId} (crafted : s.Crafted)
    (lt : n < s.graph.nodes.size) (forceable : s.graph.Forceable n) :
    ∃ g' S, Gives (fun ask => ask.nodeCount n) s.graph S.card g' ∧
      Relation.ReflTransGen (Graph.Discloses n) s.graph g' ∧
      g'.Spans n S ∧ (∀ k ∈ S, (g'.node k).isForced = true) ∧
      (∀ g₁ g₂, Relation.ReflTransGen (Graph.Discloses n) s.graph g₁ →
        Relation.ReflTransGen (Graph.Discloses n) g₁ g₂ →
          ∀ k, Relation.ReflTransGen g₁.Child n k →
            Relation.ReflTransGen g₂.Child n k ∧ (g₂.node k).bare = (g₁.node k).bare) ∧
      (∀ g'', Relation.ReflTransGen (Graph.Discloses n) g' g'' → g'' = g') ∧
      Gives (fun ask => ask.nodeCount n) g' S.card g' := by
  have shaped := crafted.shaped
  obtain ⟨g', S, gives, forces, spans⟩ := forceable.nodeCount shaped lt
  obtain ⟨later, shaped'⟩ := shaped.forced forces
  refine ⟨g', S, gives, forces, spans, fun k member => ?_, fun g₁ g₂ first next k reached => ?_,
    fun _ => spans.still, ?_⟩
  · exact shaped'.isForced fun side there => (spans.closed k member side there).imp fun _ => And.right
  · obtain ⟨later₁, shaped₁⟩ := shaped.forced first
    have later₂ := (shaped₁.forced next).1
    have inside := (forceable.after first).inside (Nat.lt_of_lt_of_le lt later₁.size) reached
    exact ⟨later₂.reached reached, later₂.bare k inside⟩
  · obtain ⟨g'', T, again, forces', spans'⟩ :=
      (forceable.after forces).nodeCount shaped' (spans.inside n spans.root)
    obtain rfl := spans.still forces'
    rw [spans.unique spans']
    exact again

/-- After the last operand of `looped` was read. -/
def loopedRead : Graph :=
  ((Engine.run 4 (.child 3 .second) looped.graph).map Prod.snd).getD {}

/-- Before and after, what can be reached from node 2 are no other nodes than these. -/
theorem looped_reached {g : Graph} (either : g = looped.graph ∨ g = loopedRead) {k : NodeId}
    (reached : Relation.ReflTransGen g.Child 2 k) : k ∈ [2, 3, 5] := by
  induction reached with
  | refl => decide
  | @tail j k _ child ih =>
    obtain ⟨side, member, slot⟩ := child
    have inside : ∀ j ∈ [2, 3, 5], ∀ side ∈ (g.node j).sides,
        ((g.node j).slot side).node?.all (· ∈ [2, 3, 5]) = true := by
      rcases either with rfl | rfl <;> decide +kernel
    have all := inside j ih side member
    rw [slot] at all
    exact of_decide_eq_true all

theorem looped_read {g : Graph} (either : g = looped.graph ∨ g = loopedRead) {k : NodeId}
    (reached : Relation.ReflTransGen g.Child 2 k) {side : Side} (member : side ∈ (g.node k).sides) :
    ∃ j g', Gives (fun ask => ask.child? k side) g (some j) g' ∧ j < g'.nodes.size ∧
      (g' = looped.graph ∨ g' = loopedRead) := by
  have filled (j : NodeId) (slot : (g.node k).slot side = .node j) (lt : j < g.nodes.size) :
      ∃ j g', Gives (fun ask => ask.child? k side) g (some j) g' ∧ j < g'.nodes.size ∧
        (g' = looped.graph ∨ g' = loopedRead) :=
    ⟨j, g, Graph.gives_child slot, lt, either⟩
  have inside := looped_reached either reached
  simp only [List.mem_cons, List.not_mem_nil, or_false] at inside
  rcases inside with rfl | rfl | rfl
  · cases side with
    | first => rcases either with rfl | rfl <;> exact filled 2 (by decide +kernel) (by decide +kernel)
    | second => rcases either with rfl | rfl <;> exact filled 3 (by decide +kernel) (by decide +kernel)
  · cases side with
    | first => rcases either with rfl | rfl <;> exact filled 2 (by decide +kernel) (by decide +kernel)
    | second =>
      rcases either with rfl | rfl
      · have gives : Engine.run 4 (.child 3 .second) looped.graph = some (.ok (some 5), loopedRead) :=
          rfl
        exact ⟨5, loopedRead, .ask 4 gives, by decide +kernel, .inr rfl⟩
      · exact filled 5 (by decide +kernel) (by decide +kernel)
  · have atomic : (g.node 5).sides = [] := by rcases either with rfl | rfl <;> decide +kernel
    rw [atomic] at member
    cases member

theorem looped_forceable : looped.graph.Forceable 2 := by
  have either {g : Graph} (forces : Relation.ReflTransGen (Graph.Discloses 2) looped.graph g) :
      g = looped.graph ∨ g = loopedRead := by
    induction forces with
    | refl => exact .inl rfl
    | tail _ step ih =>
      obtain ⟨k, side, j, reached, member, gives⟩ := step
      obtain ⟨_, _, gives', -, next⟩ := looped_read ih reached member
      exact (gives'.agree gives).2 ▸ next
  refine ⟨fun forces k reached side member => ?_, 3, fun forces S all => ?_⟩
  · obtain ⟨j, g', gives, inside, -⟩ := looped_read (either forces) reached member
    exact ⟨j, g', gives, inside⟩
  · have within : S ⊆ [2, 3, 5].toFinset := fun k member =>
      List.mem_toFinset.mpr (looped_reached (either forces) (all k member))
    exact Finset.card_le_card within

theorem nodeCount_exact_looped : looped.Crafted ∧ 2 < looped.graph.nodes.size ∧
    looped.graph.Forceable 2 ∧
    ∃ g' S, Gives (fun ask => ask.nodeCount 2) looped.graph S.card g' ∧ S.card = 3 ∧
      g'.Spans 2 S ∧ ∀ k ∈ S, (g'.node k).isForced = true := by
  have crafts : Operation.Crafts (.bind "x" (.letrec "n" (.alt [.name "n",
      .cat [.name "n", .lazy (.char (.int 1))]]))) :=
    ⟨by simp [Operation.Uses, Term.Uses, Term.UsesAll], fun _ _ => nofun⟩
  have named : ∃ reply, perform 4 (.bind "x" (.letrec "n" (.alt [.name "n",
      .cat [.name "n", .lazy (.char (.int 1))]]))) {} = some (.ok reply, looped) := ⟨_, rfl⟩
  have crafted : looped.Crafted := .perform .start crafts named.choose_spec
  have lt : 2 < looped.graph.nodes.size := by decide
  obtain ⟨g', S, gives, -, spans, forced, -⟩ := nodeCount_exact crafted lt looped_forceable
  refine ⟨crafted, lt, looped_forceable, g', S, gives, ?_, spans, forced⟩
  have counted : (Engine.run 5 (.nodeCount 2) looped.graph).map
      (fun r => r.1.toOption) = some (some 3) := by decide +kernel
  obtain ⟨⟨result, _⟩, ran, three⟩ := Option.map_eq_some_iff.mp counted
  cases gives.unique (fun below => below (.nodeCount 2)) ran
  exact Option.some.inj three

end Session

end GrammarGraph
