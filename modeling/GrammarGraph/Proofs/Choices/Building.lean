import GrammarGraph.Proofs.Choices
import GrammarGraph.Term.Build

/-! Any number of symbols, as the description of it is built. Each symbol gets a node of its own,
however often it is written, and the choice is joined from the left. -/
namespace GrammarGraph

namespace Bench

/-- The bench `b` went on to `b'` by more constructors. -/
structure Onward (apt : Construction → Prop) (P : Value → Prop) (b b' : Bench) : Prop where
  straight : b'.Straight apt P
  evolves : b.graph.Evolves b'.graph
  built : ∀ k, b.built k → b'.built k

variable {apt : Construction → Prop} {P : Value → Prop} {b b' b'' : Bench} {n : NodeId}
  {ns ls : List NodeId} {cs : List Value}

theorem Onward.refl (straight : b.Straight apt P) : Onward apt P b b :=
  ⟨straight, .refl _, fun _ made => made⟩

theorem Onward.trans (h : Onward apt P b b') (k : Onward apt P b' b'') : Onward apt P b b'' :=
  ⟨k.straight, h.evolves.trans k.evolves, fun n made => k.built n (h.built n made)⟩

namespace Straight

variable (h : b.Straight apt P)
include h

theorem add (c : Construction) (hc : apt c) (operands : ∀ k ∈ c.operands, b.built k) {node : Node}
    (run : c.run b.graph = some (.ok b.graph.nodes.size, b.graph.addNode node)) :
    ∃ b', Onward apt P b b' ∧ b'.graph = b.graph.addNode node ∧ b'.built b.graph.nodes.size ∧
      b'.graph.node b.graph.nodes.size = node := by
  refine ⟨b.grown (b.graph.addNode node), ⟨.construct c h hc operands run,
    Graph.addNode_evolves node, fun _ => .inl⟩, rfl, .inr ⟨Nat.le_refl _, ?_⟩, ?_⟩
  · rw [Graph.nodes_addNode, Array.size_push]
    exact Nat.lt_succ_self _
  · exact (Graph.node_addNode node _).trans (if_pos rfl)

/-- The operands of a choice between symbols are new nodes, one for each. -/
theorem build_chars (chars : ∀ c, apt (.char c)) (cs : List Value) : ∃ ns b', Onward apt P b b' ∧
    (∀ ask scope, Term.buildAll ask scope (cs.map .char) b.graph =
      some (.ok (ns.map .node), b'.graph)) ∧ ns.Nodup ∧ b'.graph.symbols ns = cs ∧
    ∀ n ∈ ns, b.graph.nodes.size ≤ n ∧ b'.built n ∧ (b'.graph.node n).kind = .char := by
  induction cs generalizing b with
  | nil => exact ⟨[], b, .refl h, fun _ _ => rfl, .nil, rfl, fun _ none => (nomatch none)⟩
  | cons c cs ih =>
    obtain ⟨b₁, first, graph, made, node⟩ :=
      h.add (.char c) (chars c) (fun _ none => nomatch none) rfl
    obtain ⟨ns, b', onward, builds, distinct, symbols, rest⟩ := ih first.straight
    have size : b₁.graph.nodes.size = b.graph.nodes.size + 1 := by
      rw [graph, Graph.nodes_addNode, Array.size_push]
    have lt : b.graph.nodes.size < b₁.graph.nodes.size := by rw [size]; exact Nat.lt_succ_self _
    have bare := onward.evolves.bare _ lt
    rw [node] at bare
    refine ⟨b.graph.nodes.size :: ns, b', first.trans onward, fun ask scope => ?_, ?_, ?_, ?_⟩
    · have one : Term.build ask scope (.char c) b.graph =
          some (.ok (.node b.graph.nodes.size), b₁.graph) := by rw [graph]; rfl
      rw [List.map_cons, Term.buildAll, RunOf.bind_of_ok one, RunOf.bind_of_ok (builds ask scope)]
      rfl
    · refine List.nodup_cons.mpr ⟨fun member => ?_, distinct⟩
      exact absurd (rest _ member).1 (Nat.not_le_of_lt lt)
    · rw [Graph.symbols, List.map_cons, Node.symbol_of_bare bare]
      exact congrArg (c :: ·) symbols
    · refine List.forall_mem_cons.mpr ⟨⟨Nat.le_refl _, onward.built _ made, ?_⟩, fun n member => ?_⟩
      · rw [Node.kind_of_bare bare]
      · obtain ⟨le, rest⟩ := rest n member
        exact ⟨Nat.le_trans (Nat.le_of_lt lt) le, rest⟩

/-- A node and more symbols are joined from the left. -/
theorem build_alts (alts : ∀ ns, apt (.alt ns)) (made : b.built n) (choice : b.graph.Choice n ls)
    (ns : List NodeId) (chars : ∀ k ∈ ns, b.built k ∧ (b.graph.node k).kind = .char) :
    ∃ m b', Onward apt P b b' ∧ Grammar.altAll (.node n :: ns.map .node) b.graph =
      some (.ok m, b'.graph) ∧ b'.built m ∧ b'.graph.Choice m (ls ++ ns) := by
  suffices folded : ∃ m b', Onward apt P b b' ∧ (ns.map Operand.node).foldlM
      (fun n operand => Grammar.alt (.node n) operand) n b.graph = some (.ok m, b'.graph) ∧
      b'.built m ∧ b'.graph.Choice m (ls ++ ns) by
    cases ns <;> exact folded
  induction ns generalizing b n ls with
  | nil =>
    rw [List.append_nil]
    exact ⟨n, b, .refl h, rfl, made, choice⟩
  | cons k ns ih =>
    obtain ⟨⟨here, kind⟩, rest⟩ := List.forall_mem_cons.mp chars
    have other : ((b.graph.node n).kind == .empty) = false := by
      rcases choice.kind with kind | kind <;> rw [kind] <;> rfl
    have alt : Grammar.alt (.node n) (.node k) b.graph = some (.ok b.graph.nodes.size,
        b.graph.addNode { kind := .alt, first := .node n, second := .node k }) := by
      have new : Grammar.altShortcut b.graph (.node n) (.node k) = none := by
        rw [Grammar.altShortcut, other, kind]
        rfl
      rw [Grammar.alt, Grammar.reuse, RunOf.read_bind, new]
      rfl
    obtain ⟨b₁, first, graph, made₁, node⟩ := h.add (.alt [n, k]) (alts [n, k])
      (by simp [Construction.operands, made, here]) (RunOf.bind_of_ok alt)
    have choice₁ : b₁.graph.Choice b.graph.nodes.size (ls ++ [k]) := by
      refine .alt (a := n) (b := k) ?_ ?_ ?_ (choice.evolves first.evolves)
        (Graph.Choice.evolves (.char kind) first.evolves)
      all_goals rw [node]
    obtain ⟨m, b', onward, folds, made', choice'⟩ := ih first.straight made₁ choice₁
      fun j member => ⟨first.built j (rest j member).1,
        first.evolves.kind_eq (rest j member).2 (by decide)⟩
    refine ⟨m, b', first.trans onward, ?_, made', ?_⟩
    · rw [List.map_cons, List.foldlM_cons, RunOf.bind_of_ok alt, ← graph]
      exact folds
    · rwa [List.append_assoc] at choice'

theorem build_anyOf (chars : ∀ c, apt (.char c)) (alts : ∀ ns, apt (.alt ns))
    (reps : ∀ n, apt (.rep n)) (some_ : cs ≠ []) : ∃ r a ls b', Onward apt P b b' ∧
      (∀ ask scope, (Term.anyOf cs).build ask scope b.graph = some (.ok (.node r), b'.graph)) ∧
      b'.built r ∧ b'.graph.AnyOf ls r a ∧ ls.Nodup ∧ b'.graph.symbols ls = cs := by
  obtain ⟨ns, b₁, onward₁, operands, distinct, symbols, made⟩ := h.build_chars chars cs
  obtain ⟨n, ns, rfl⟩ : ∃ n ns', ns = n :: ns' := by
    cases ns with
    | nil => exact absurd symbols.symm some_
    | cons n ns => exact ⟨n, ns, rfl⟩
  obtain ⟨⟨-, built, kind⟩, others⟩ := List.forall_mem_cons.mp made
  obtain ⟨a, b₂, onward₂, alts_, built', choice⟩ := onward₁.straight.build_alts alts built
    (.char kind) ns fun k member => (others k member).2
  have rep : Grammar.rep (.node a) b₂.graph = some (.ok b₂.graph.nodes.size,
      b₂.graph.addNode { kind := .rep, first := .node a }) := by
    have new : Grammar.repShortcut b₂.graph (.node a) = none := by
      rw [Grammar.repShortcut]
      rcases choice.kind with kind | kind <;> simp [Operand.kind?, Operand.node?, kind]
    rw [Grammar.rep, Grammar.reuse, RunOf.read_bind, new]
    rfl
  obtain ⟨b', onward₃, graph, built'', node⟩ := onward₂.straight.add (.rep a) (reps a)
    (by simp [Construction.operands, built']) rep
  have any : b'.graph.AnyOf (n :: ns) b₂.graph.nodes.size a := by
    refine ⟨?_, ?_, choice.evolves onward₃.evolves⟩ <;> rw [node]
  refine ⟨_, a, n :: ns, b', onward₁.trans (onward₂.trans onward₃), fun ask scope => ?_, built'',
    any, distinct, ?_⟩
  · have alt : Term.build ask scope (.alt (cs.map .char)) b.graph =
        some (.ok (.node a), b₂.graph) := by
      rw [Term.build, RunOf.bind_of_ok (operands ask scope)]
      exact RunOf.bind_of_ok alts_
    rw [Term.anyOf, Term.build, RunOf.bind_of_ok alt, RunOf.bind_of_ok rep, graph]
    rfl
  · have evolves := onward₂.evolves.trans onward₃.evolves
    rw [evolves.symbols fun k member => (made k member).2.2, symbols]

end Straight

end Bench

end GrammarGraph
