import GrammarGraph.Proofs.Sketch.Whole
import GrammarGraph.Proofs.Soundness
import GrammarGraph.Proofs.Unfilled.Answers

/-! Answers that are given while definitions are not complete stay right when they are. -/
namespace GrammarGraph

/-- Nothing goes on in the graph, and what is known is in order. -/
structure Graph.Poised (g : Graph) : Prop where
  tidy : g.Tidy
  resting : g.Resting
  familiar : g.Familiar
  sighted : g.Sighted

namespace Graph

variable {g g' f : Graph} {n p body : NodeId}

/-- Only nodes were made, and the journal may have changed. -/
theorem Resting.congr (h : g.Resting) (books : ∀ i, Evaluator.of i g' = Evaluator.of i g)
    (derivatives : g'.derivatives = g.derivatives) (cells : g'.cells = g.cells) : g'.Resting where
  books i := books i ▸ h.books i
  started := by rw [derivatives]; exact h.started
  forcing cell := by rw [isForcing, cells]; exact h.forcing cell

theorem Familiar.congr (h : g.Familiar) (books : ∀ i, Evaluator.of i g' = Evaluator.of i g)
    (derivatives : g'.derivatives = g.derivatives)
    (kept : ∀ n, n = NodeId.empty ∨ n = NodeId.eps → g'.node n = g.node n) : g'.Familiar where
  atoms := h.atoms.of_node kept
  known i n v atom := by rw [books]; exact h.known i atom
  derived atom := by rw [derivatives]; exact h.derived atom

theorem initial_poised : ({} : Graph).Poised where
  tidy := initial_tidy
  resting := initial_resting
  familiar := (Sketches.initial .plain).familiar
  sighted n known := by
    rcases known with stored | ⟨_, provisional, _⟩
    · cases (Table.get?_empty n).symm.trans stored
    · cases (Table.get?_empty n).symm.trans provisional

namespace Poised

variable (h : g.Poised)
include h

theorem addNode (node : Node) : (g.addNode node).Poised where
  tidy := (h.tidy.addNode node).2
  resting := h.resting.congr (fun _ => Evaluator.of_addNode _) rfl rfl
  familiar := h.familiar.congr (fun _ => Evaluator.of_addNode _) rfl fun _ atom =>
    node_addNode_of_lt node (h.familiar.atoms.lt atom)
  sighted := h.sighted.congr (g.addNode_evolves node) rfl

theorem laid {fits : Node → Prop} {base : NodeId → Prop} {start : Nat}
    (laid : Laid fits base start g g') : g'.Poised := by
  induction laid with
  | refl => exact h
  | add _ _ _ ih => exact ih.addNode _

/-- A placeholder is no atom. -/
theorem ne_atom (unfilled : (g.node p).kind = .placeholder) (n : NodeId)
    (atom : n = .empty ∨ n = .eps) : n ≠ p := by
  rintro rfl
  rcases atom with rfl | rfl
  · rw [h.familiar.atoms.empty] at unfilled; cases unfilled
  · rw [h.familiar.atoms.eps] at unfilled; cases unfilled

theorem become (unfilled : (g.node p).kind = .placeholder) : (g.become p body).Poised where
  tidy := h.tidy.become body fun _ => (h.resting.books .compact).provisional p
  resting := h.resting.become p body
  familiar := {
    atoms := h.familiar.atoms.of_node fun n atom =>
      node_become_of_ne body (h.ne_atom unfilled n atom)
    known := fun i n v atom => by
      rw [Evaluator.of_become]
      exact (h.familiar.known i atom).forget (h.ne_atom unfilled n (Evaluator.eq_of_atom atom))
    derived := fun {n c d} atom =>
      (h.familiar.derived atom).forget (h.ne_atom unfilled n (Derivative.eq_of_atom atom).1) }
  sighted := h.sighted.become unfilled

theorem journal (journal : Option Journal) : Poised { g with journal } where
  tidy := (h.tidy.journal journal).2
  resting := h.resting.congr (fun _ => Evaluator.of_journal _) rfl rfl
  familiar := h.familiar.congr (fun _ => Evaluator.of_journal _) rfl fun _ _ => rfl
  sighted := h.sighted.congr (g.evolves_of_eq rfl rfl) rfl

theorem landed {A : Worth ω} {embed : Value → ω} {plan : Blueprint} {M : Meaning ω}
    (sound : Sound A embed plan M g) : g.Landed where
  formed := sound.formed
  tidy := h.tidy
  resting := h.resting
  compacted known := (sound.compacted (.inl known)).2.1
  derivatives known := (sound.derivatives known).2.1

/-- A call, however it ends. -/
theorem call {c : Call} {bound : Nat} {result : Except Fault Unit} (landed : g.Landed)
    (lt : c.node < g.nodes.size) (ends : c.run (Engine.run bound) g = some (result, g')) :
    g'.Poised ∧ g.Evolves g' := by
  have keeps {Q : (α : Type) → (Ask → Run α) → Prop} (made : Constructive Q) :
      Q Unit fun ask => c.run ask := by
    cases c with
    | query q => exact made.bind (made.ask q) fun _ => made.pure ()
    | residual compaction symbols n =>
      exact made.bind (made.residual compaction symbols n) fun _ => made.pure ()
    | recognize compaction symbols n =>
      exact made.bind (made.recognize compaction symbols n) fun _ => made.pure ()
    | parse compaction symbols n =>
      exact made.bind (made.parse compaction symbols n) fun _ => made.pure ()
  obtain ⟨_, balanced, tidy, -⟩ :=
    keeps balanced_constructive _ (Engine.run_balances bound).keeps g h.tidy _ _ ends
  obtain ⟨_, evolves, sighted, -⟩ :=
    keeps sighted_constructive _ (Engine.run_sighted bound).answers g h.sighted _ _ ends
  refine ⟨⟨tidy, balanced.resting h.resting tidy, ?_, sighted⟩, evolves⟩
  have mirrored := Cast.run_mirrored .plain bound
  rw [Cast.run_of_strict True.intro] at mirrored
  have faithful := Cast.same_faithful fun _ => False
  have keys : c.By fun k => (Cast.same fun _ => False).Symbols k k := c.by_of_all fun _ => rfl
  have met := mirrored.call faithful (p := .whole g) keys ⟨rfl, lt⟩
    g g (landed.sketches h.familiar faithful (g.suits_same _) (fun _ => id) (.refl g))
  rw [ends] at met
  cases met with
  | ended _ sketches _ => exact sketches.familiar

end Poised

/-- A placeholder that is not filled. -/
structure Unfilled (g : Graph) (n : NodeId) : Prop where
  lt : n < g.nodes.size
  kind : (g.node n).kind = .placeholder
  vacant : ∀ side, (g.node n).slot side = .vacant

namespace Unfilled

theorem new (g : Graph) : (g.addNode { kind := .placeholder }).Unfilled g.nodes.size := by
  have last : (g.addNode { kind := .placeholder }).node g.nodes.size =
      { kind := .placeholder } := by
    rw [node_addNode, if_pos rfl]
  refine ⟨?_, congrArg Node.kind last, fun side => ?_⟩
  · rw [nodes_addNode, Array.size_push]
    exact Nat.lt_succ_self _
  · rw [last]
    cases side <;> rfl

variable (h : g.Unfilled n)
include h

theorem of_node (le : g.nodes.size ≤ g'.nodes.size) (same : g'.node n = g.node n) :
    g'.Unfilled n :=
  ⟨Nat.lt_of_lt_of_le h.lt le, same ▸ h.kind, same ▸ h.vacant⟩

theorem evolves (evolves : g.Evolves g') : g'.Unfilled n where
  lt := Nat.lt_of_lt_of_le h.lt evolves.size
  kind := (evolves.kind h.lt).trans h.kind
  vacant side := by
    rcases evolves.slot n h.lt side with same | ⟨_, _, deferred, _⟩
    · exact same.trans (h.vacant side)
    · rw [h.vacant side] at deferred
      cases deferred

end Unfilled

end Graph

namespace Sound

variable {ω : Type} {A : Worth ω} {embed : Value → ω} {M : Meaning ω} {g : Graph} {p body : NodeId}

/-- Nothing is said about what nodes are made of. -/
abbrev unplanned : Blueprint := ⟨fun _ => False, fun _ => default⟩

theorem laid {g' : Graph} {fits : Node → Prop} {base : NodeId → Prop} {start : Nat}
    (h : Sound A embed unplanned M g) (below : ∀ n, base n → n < g.nodes.size)
    (laid : Laid fits base start g g') :
    ∃ M', M.Later g M' g' ∧ Sound A embed unplanned M' g' := by
  induction laid with
  | refl => exact ⟨M, .refl M g, h⟩
  | @add g₁ node laid _ concrete ih =>
    obtain ⟨M₁, later, sound⟩ := ih
    have covers (side : Side) : g₁.Covers (node.slot side) := by
      by_cases member : side ∈ node.sides
      · obtain ⟨k, slot, old | new⟩ := concrete.child side member
        · rw [slot]; exact Nat.lt_of_lt_of_le (below k old) laid.evolves.size
        · rw [slot]; exact new.2
      · rw [concrete.vacant side member]; exact True.intro
    obtain ⟨later', sound'⟩ := sound.addNode covers
    exact ⟨_, later.trans later', sound'⟩

/-- A new placeholder means everything. -/
theorem opened (h : Sound A embed unplanned M g) :
    ∃ M', M.Later g M' (g.addNode { kind := .placeholder }) ∧
      Sound A embed unplanned M' (g.addNode { kind := .placeholder }) ∧
      ∀ s w, M' (.node g.nodes.size) s w := by
  have covers (side : Side) : g.Covers (Node.slot { kind := .placeholder } side) := by
    cases side <;> exact True.intro
  obtain ⟨later, supports⟩ := h.supports.addNode (m := fun _ _ => True) h.formed covers
    (fun _ => trivial) (fun _ _ _ => trivial) fun _ complete _ => absurd rfl complete
  refine ⟨_, later, h.grow later (h.formed.addNode covers) supports rfl rfl rfl rfl, fun s w => ?_⟩
  rw [Meaning.put_self]
  trivial

end Sound

namespace Bench

/-- A step, a node of any origin that is taken as an operand from now on, or a definition that is
given up because its builder failed. -/
inductive Move (b : Bench) : Bench → Prop where
  | step {b' : Bench} : Step (fun _ _ => True) b b' → Move b b'
  | adopt (n : NodeId) : n < b.graph.nodes.size →
      Move b { b with built := fun k => b.built k ∨ k = n }
  | abandon {n : NodeId} {rest : List NodeId} : b.opened = n :: rest →
      Move b { b with opened := rest }

/-- The benches that such moves can lead to. -/
def Attained (b : Bench) : Prop :=
  Relation.ReflTransGen Move {} b

/-- What holds of a bench whatever it is built with. -/
structure Attended (b : Bench) : Prop where
  poised : b.graph.Poised
  atoms : b.built .empty ∧ b.built .eps
  inside : ∀ n, b.built n → n < b.graph.nodes.size
  nodup : b.opened.Nodup
  opened : ∀ n ∈ b.opened, b.graph.Unfilled n
  sound : ∃ M, Sound Worth.membership (fun _ => ()) Sound.unplanned M b.graph ∧
    ∀ n ∈ b.opened, ∀ s w, M (.node n) s w

namespace Attended

variable {b b' : Bench} {n : NodeId} {g : Graph}

theorem initial : Attended {} := by
  have tended : Tended .membership (fun _ => ()) {} := initial_tended
  obtain ⟨M, sound⟩ := tended.now
  exact {
    poised := Graph.initial_poised
    atoms := tended.atoms
    inside := fun n => tended.lt
    nodup := .nil
    opened := fun n member => (by cases member)
    sound := ⟨M, { sound with made := False.elim, concrete := False.elim, denotes := False.elim },
      fun n member => (by cases member)⟩ }

variable (h : b.Attended)
include h

theorem landed : b.graph.Landed :=
  let ⟨_, sound, _⟩ := h.sound
  h.poised.landed sound

/-- Nothing changes that was there, but that deferred slots are filled. -/
theorem keep {M M' : Meaning Unit} (full : ∀ n ∈ b.opened, ∀ s w, M (.node n) s w)
    (later : M.Later b.graph M' g)
    (sound : Sound Worth.membership (fun _ => ()) Sound.unplanned M' g)
    (poised : g.Poised) {built : NodeId → Prop} (kept : ∀ k, b.built k → built k)
    (inside : ∀ k, built k → k < g.nodes.size) : Attended { b with graph := g, built } where
  poised := poised
  atoms := ⟨kept _ h.atoms.1, kept _ h.atoms.2⟩
  inside := inside
  nodup := h.nodup
  opened n member := (h.opened n member).evolves later.evolves
  sound := ⟨M', sound, fun n member => by
    rw [later.node (h.opened n member).lt]
    exact full n member⟩

theorem inside_grown (evolves : b.graph.Evolves g) (k : NodeId) (built : (b.grown g).built k) :
    k < g.nodes.size :=
  built.elim (fun old => Nat.lt_of_lt_of_le (h.inside k old) evolves.size) And.right

theorem construct {c : Construction} (built : ∀ k ∈ c.operands, b.built k)
    (ends : c.run b.graph = some (.ok n, g)) : (b.grown g).Attended ∧ b.graph.Evolves g := by
  have laid := (c.laid h.atoms.1 h.atoms.2 built ends).1
  obtain ⟨M, sound, full⟩ := h.sound
  obtain ⟨M', later, sound'⟩ := sound.laid h.inside laid
  exact ⟨h.keep full later sound' (h.poised.laid laid) (fun _ => .inl)
    (h.inside_grown later.evolves), later.evolves⟩

theorem begin (ends : Run.make { kind := .placeholder } b.graph = some (.ok n, g)) :
    Attended { b.grown g with opened := n :: b.opened } ∧ b.graph.Evolves g := by
  obtain ⟨rfl, rfl⟩ := Run.make_ok ends
  obtain ⟨M, sound, full⟩ := h.sound
  obtain ⟨M', later, sound', last⟩ := sound.opened
  have kept : (b.grown (b.graph.addNode { kind := .placeholder })).Attended :=
    h.keep full later sound' (h.poised.addNode _) (fun _ => .inl) (h.inside_grown later.evolves)
  refine ⟨{ kept with nodup := ?_, opened := ?_, sound := ?_ }, later.evolves⟩
  · exact List.nodup_cons.mpr
      ⟨fun member => Nat.lt_irrefl _ (h.opened _ member).lt, h.nodup⟩
  · rintro k (_ | ⟨_, member⟩)
    · exact .new b.graph
    · exact kept.opened k member
  · refine ⟨M', sound', ?_⟩
    rintro k (_ | ⟨_, member⟩)
    · exact last
    · rw [later.node (h.opened k member).lt]
      exact full k member

theorem complete {body m : NodeId} {rest : List NodeId} (opened : b.opened = n :: rest)
    (ends : Grammar.define n (.node body) b.graph = some (.ok m, g)) :
    Attended { b with graph := g, opened := rest } := by
  obtain ⟨compound, rfl⟩ := Grammar.define_ok ends
  have here : n ∈ b.opened := by rw [opened]; exact List.mem_cons_self
  have later {k : NodeId} (member : k ∈ rest) : k ∈ b.opened := by
    rw [opened]; exact List.mem_cons_of_mem _ member
  have nodup := h.nodup
  rw [opened, List.nodup_cons] at nodup
  have unfilled := h.opened n here
  obtain ⟨M, sound, full⟩ := h.sound
  have same := Graph.nodes_size_become (g := b.graph) n body
  exact {
    poised := h.poised.become unfilled.kind
    atoms := h.atoms
    inside := fun k built => by rw [same]; exact h.inside k built
    nodup := nodup.2
    opened := fun k member => (h.opened k (later member)).of_node (Nat.le_of_eq same.symm)
      (Graph.node_become_of_ne body fun last => nodup.1 (last ▸ member))
    sound := ⟨M, sound.become unfilled.kind compound False.elim (fun _ => full n here _ _)
      (fun _ _ _ => full n here _ _), fun k member => full k (later member)⟩ }

theorem call {c : Call} {bound : Nat} {result : Except Fault Unit}
    (lt : c.node < b.graph.nodes.size)
    (ends : c.run (Engine.run bound) b.graph = some (result, g)) :
    Attended { b with graph := g } ∧ b.graph.Evolves g := by
  obtain ⟨M, sound, full⟩ := h.sound
  obtain ⟨poised, evolves⟩ := h.poised.call h.landed lt ends
  obtain ⟨M', later, sound', -⟩ := Ask.Honest.call
    (Engine.run_honest Worth.membership_embeds bound) sound c lt result g ends
  exact ⟨h.keep full later sound' poised (fun _ => id)
    fun k built => Nat.lt_of_lt_of_le (h.inside k built) evolves.size, evolves⟩

theorem journal (journal : Option Journal) :
    Attended { b with graph := { b.graph with journal } } := by
  obtain ⟨M, sound, full⟩ := h.sound
  obtain ⟨later, sound'⟩ : M.Later b.graph M { b.graph with journal } ∧ Sound _ _ _ M _ :=
    sound.books rfl rfl sound.derivatives sound.nullable sound.forests sound.compacted
  exact h.keep full later sound' (h.poised.journal journal) (fun _ => id) h.inside

/-- Nodes and cells are never removed. -/
theorem move (move : b.Move b') : b'.Attended ∧ b.graph.nodes.size ≤ b'.graph.nodes.size ∧
    b.graph.cells.size ≤ b'.graph.cells.size := by
  cases move with
  | step step =>
    cases step with
    | construct c built ends =>
      obtain ⟨attended, evolves⟩ := h.construct built ends
      exact ⟨attended, evolves.size, evolves.cells⟩
    | begin ends =>
      obtain ⟨attended, evolves⟩ := h.begin ends
      exact ⟨attended, evolves.size, evolves.cells⟩
    | complete opened _ ends =>
      refine ⟨h.complete opened ends, ?_⟩
      obtain ⟨-, rfl⟩ := Grammar.define_ok ends
      exact ⟨Nat.le_of_eq (Graph.nodes_size_become _ _).symm, Nat.le_refl _⟩
    | call bound c _ lt ends =>
      obtain ⟨attended, evolves⟩ := h.call lt ends
      exact ⟨attended, evolves.size, evolves.cells⟩
    | journal journal => exact ⟨h.journal journal, Nat.le_refl _, Nat.le_refl _⟩
  | adopt n lt =>
    refine ⟨{ h with atoms := ?_, inside := ?_ }, Nat.le_refl _, Nat.le_refl _⟩
    · exact ⟨.inl h.atoms.1, .inl h.atoms.2⟩
    · rintro k (built | rfl)
      · exact h.inside k built
      · exact lt
  | @abandon n rest opened =>
    have later {k : NodeId} (member : k ∈ rest) : k ∈ b.opened := by
      rw [opened]; exact List.mem_cons_of_mem _ member
    have nodup := h.nodup
    rw [opened, List.nodup_cons] at nodup
    obtain ⟨M, sound, full⟩ := h.sound
    exact ⟨{ h with
      nodup := nodup.2
      opened := fun k member => h.opened k (later member)
      sound := ⟨M, sound, fun k member => full k (later member)⟩ }, Nat.le_refl _, Nat.le_refl _⟩

/-- Nodes and cells are never removed. -/
theorem moves (moves : Relation.ReflTransGen Move b b') :
    b'.Attended ∧ b.graph.nodes.size ≤ b'.graph.nodes.size ∧
      b.graph.cells.size ≤ b'.graph.cells.size := by
  induction moves with
  | refl => exact ⟨h, Nat.le_refl _, Nat.le_refl _⟩
  | tail _ move ih =>
    obtain ⟨attended, nodes, cells⟩ := ih
    obtain ⟨attended', nodes', cells'⟩ := attended.move move
    exact ⟨attended', Nat.le_trans nodes nodes', Nat.le_trans cells cells'⟩

end Attended

theorem Attained.attended {b : Bench} (h : b.Attained) : b.Attended :=
  (Attended.initial.moves h).1

end Bench

end GrammarGraph
