import GrammarGraph.Proofs.Tree.Reference
import GrammarGraph.Proofs.Tree.Unfolding

/-! Parsing without compaction, on benches without definitions. Differentiation by one symbol
after the other, with all that is deferred and kept on the way, comes to the same witnesses in
the same order as trying every split of the sentence on the tree below the node. -/
namespace GrammarGraph

/-- What is left of the sentence holds the witnesses of the reference, in its order. -/
theorem Tree.forest_left (e : Tree) (s : List Value) :
    (trees.left false s e).forest = e.reference s := by
  induction s generalizing e with
  | nil => exact (reference_nil e).symm
  | cons c s ih => exact (ih (e.derive c)).trans (reference_derive e c s)

namespace Bench

open GrammarGraph.RunOf (Gives)

variable {b : Bench} {n : NodeId} {s : List Value}

/-- The forest of the residual without compaction is the reference of the tree below the node:
the same witnesses in the same order. -/
theorem forest_residual_reference
    (straight : b.Straight Construction.Total fun c => c.boolless = true) (built : b.built n)
    (symbols : ∀ c ∈ s, c.Plain) :
    ∃ e, b.graph.Unfolds n e ∧ ∃ g,
      Gives (fun ask => do ask.forest (← Parse.residual ask false s n).node) b.graph
        (e.reference s) g := by
  obtain ⟨e, unfolds, -, ⟨g, gives⟩, -⟩ := straight.parse built false symbols
  exact ⟨e, unfolds, g, Tree.forest_left e s ▸ gives⟩

/-- One or a pair of ones, as node 4, and twice that, as node 5. -/
def paired : Bench :=
  let one := grown {} (Graph.addNode { kind := .char, symbol := .int 1 } {})
  let two := one.grown (one.graph.addNode
    { kind := .red, first := .node 2, transform := .append (.int 1) })
  let either := two.grown (two.graph.addNode { kind := .alt, first := .node 2, second := .node 3 })
  either.grown (either.graph.addNode { kind := .cat, first := .node 4, second := .node 4 })

theorem paired_straight (P : Value → Prop) : paired.Straight Construction.Total P :=
  .construct (.cat [4, 4]) (.construct (.alt [2, 3]) (.construct (.red 2 (.append (.int 1)))
    (.construct (.char (.int 1)) .start trivial (fun _ none => nomatch none) rfl)
    (Transform.total_append rfl) (by simp [grown, Construction.operands]) rfl)
    trivial (by simp [grown, Construction.operands]) rfl)
    trivial (by simp [grown, Construction.operands]) rfl

theorem paired_unfolds :
    let part := Tree.alt (.char (.int 1)) (.red (.char (.int 1)) (.append (.int 1)))
    paired.graph.Unfolds 5 (.cat part part) :=
  have part := .alt (k := 2) (m := 3) rfl rfl rfl (.char rfl) (.red (k := 2) rfl rfl (.char rfl))
  .cat (k := 4) (m := 4) rfl rfl rfl part part

theorem paired_built : paired.built 5 := by
  simp [paired, grown]

theorem forest_residual_reference_paired :
    paired.Straight Construction.Total (fun c => c.boolless = true) ∧ paired.built 5 ∧
    (∀ c ∈ [Value.int 1, .int 1], c.Plain) ∧ ∃ g,
      Gives (fun ask => do ask.forest (← Parse.residual ask false [.int 1, .int 1] 5).node)
        paired.graph [.tuple [.int 1, .int 1],
          .tuple [.tuple [.int 1, .int 1], .tuple [.int 1, .int 1]]] g := by
  have straight := paired_straight fun c => c.boolless = true
  have symbols : ∀ c ∈ [Value.int 1, .int 1], c.Plain := by
    simp [Value.Plain, Value.hashable, Value.boolless]
  obtain ⟨e, unfolds, g, gives⟩ := forest_residual_reference straight paired_built symbols
  obtain rfl := unfolds.unique paired_unfolds
  exact ⟨straight, paired_built, symbols, g, gives⟩

end Bench

end GrammarGraph
