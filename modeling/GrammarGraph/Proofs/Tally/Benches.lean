import GrammarGraph.Proofs.Census.Building
import GrammarGraph.Proofs.Tally

/-! Where everything can be counted. In a graph of concrete operands and total transforms, with what
derivatives and compaction make of it, all that can be reached can be read, and there is an end to
it: a child lies on the level of its parent or below, and there are so many nodes below a level. -/
namespace GrammarGraph

open RunOf (Gives)

namespace Census

variable {C : Finset Value} {roots : Finset NodeId} {x : Census} {g g' : Graph} {n k j : NodeId}
  {side : Side}

namespace Rested

variable (h : Rested C roots x g)
include h

theorem gives (lt : k < g.nodes.size) (member : side ∈ (g.node k).sides)
    (gives : Gives (fun ask => ask.child? k side) g (some j) g') :
    ∃ x', Later none nothing x g x' g' ∧ Rested C roots x' g' ∧ j < g'.nodes.size ∧
      x'.level j ≤ x.level k := by
  obtain ⟨_, _, given, x', later, rested, _, rfl, inside, level, -⟩ := h.child? lt member
  obtain ⟨same, rfl⟩ := given.agree gives
  cases same
  exact ⟨x', later, rested, inside, level⟩

theorem low (lt : n < g.nodes.size) (reached : Relation.ReflTransGen g.Child n k) :
    k < g.nodes.size ∧ x.level k ≤ x.level n := by
  induction reached with
  | refl => exact ⟨lt, Nat.le_refl _⟩
  | tail _ child ih =>
    obtain ⟨side, member, slot⟩ := child
    obtain ⟨x', later, -, inside, level⟩ := h.gives ih.1 member (Graph.gives_child slot)
    rw [later.level _ inside] at level
    exact ⟨inside, Nat.le_trans level ih.2⟩

/-- However much was read, the census is right and the root is on its level. -/
theorem forced (lt : n < g.nodes.size) (forces : Relation.ReflTransGen (Graph.Discloses n) g g') :
    ∃ x', Rested C roots x' g' ∧ n < g'.nodes.size ∧ x'.level n = x.level n := by
  induction forces with
  | refl => exact ⟨x, h, lt, rfl⟩
  | tail _ step ih =>
    obtain ⟨k, side, j, reached, member, gives⟩ := step
    obtain ⟨x₁, rested, lt₁, same⟩ := ih
    obtain ⟨x₂, later, rested₂, -⟩ := rested.gives (rested.low lt₁ reached).1 member gives
    exact ⟨x₂, rested₂, later.lt lt₁, (later.level n lt₁).trans same⟩

theorem forceable (lt : n < g.nodes.size) : g.Forceable n where
  reads forces k reached side member := by
    obtain ⟨x₁, rested, lt₁, -⟩ := h.forced lt forces
    obtain ⟨_, g'', given, _, -, -, j, rfl, inside, -⟩ :=
      rested.child? (rested.low lt₁ reached).1 member
    exact ⟨j, g'', given, inside⟩
  finite := by
    refine ⟨population roots.card C.card (x.level n), fun forces S all => ?_⟩
    obtain ⟨x₁, rested, lt₁, same⟩ := h.forced lt forces
    refine (Finset.card_le_card fun k member => ?_).trans (card_upTo_le rested.valid.counted _)
    obtain ⟨inside, level⟩ := rested.low lt₁ (all k member)
    exact mem_upTo.mpr ⟨inside, same ▸ level⟩

end Rested

end Census

/-- What was made from concrete operands and total transforms, by constructors, definitions,
derivatives and compaction, can be read from every node to an end. -/
theorem Bench.Composed.forceable {b : Bench} {permitted : Bench → Call → Prop} {n : NodeId}
    (h : b.Composed Construction.Total permitted) (closed : ∀ b c, permitted b c → b.opened = [])
    (complete : b.opened = []) (lt : n < b.graph.nodes.size) : b.graph.Forceable n := by
  obtain ⟨C, roots, x, grounded⟩ := h.grounded closed
  exact (grounded.rested complete).forceable lt

end GrammarGraph
