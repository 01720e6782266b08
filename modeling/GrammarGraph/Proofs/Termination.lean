import GrammarGraph.Proofs.Census.Building

/-! Every call ends, and none with a fault, also on grammars that refer to themselves. -/
namespace GrammarGraph

theorem Ask.Below.call {ask ask' : Ask} (h : ask.Below ask') (c : Call) :
    RunOf.Within (c.run ask) (c.run ask') := by
  cases c with
  | query q => exact .before (h q) _
  | residual compaction symbols n => exact .before (h.residual compaction symbols n) _
  | recognize compaction symbols n => exact .before (h.recognize compaction symbols n) _
  | parse compaction symbols n => exact .before (h.parse compaction symbols n) _

open RunOf (Gives)

namespace Bench

variable {b : Bench}

/-- Whatever was built by constructors with total transforms and by definitions, and whatever was
asked before: a call by hashable symbols ends, and it cannot end with a fault. So no placeholder
and no unknown kind is evaluated, no derivative waits for itself, and no child is read while it is
computed. -/
theorem call_ends (composed : b.Composed Construction.Total fun b c =>
      b.opened = [] ∧ c.By fun s => s.hashable = true)
    (complete : b.opened = []) {c : Call} (hashable : c.By fun s => s.hashable = true)
    (lt : c.node < b.graph.nodes.size) :
    ∃ g, Gives (fun ask => c.run ask) b.graph () g ∧
      (∀ bound result g', c.run (Engine.run bound) b.graph = some (result, g') →
        result = .ok () ∧ g' = g) ∧
      Composed Construction.Total (fun b c => b.opened = [] ∧ c.By fun s => s.hashable = true)
        { b with graph := g } := by
  obtain ⟨C, roots, x, rested, takes⟩ :=
    composed.rested (fun _ _ allowed => allowed.1) complete hashable
  obtain ⟨⟨⟩, g, gives, -⟩ := rested.call takes lt
  obtain ⟨least, ends⟩ := id gives
  refine ⟨g, gives, fun bound result g' run => ?_,
    .call least c composed ⟨complete, hashable⟩ lt (ends least (Nat.le_refl _))⟩
  cases gives.unique (fun below => below.call c) run
  exact ⟨rfl, rfl⟩

/-- A definition within a definition, both of which refer to themselves, as nodes 2 and 4. -/
def nested : Bench :=
  let outer : Bench := { grown {} (Graph.addNode { kind := .placeholder } {}) with opened := [2] }
  let one := outer.grown (outer.graph.addNode { kind := .char, symbol := .int 1 })
  let inner : Bench :=
    { one.grown (one.graph.addNode { kind := .placeholder }) with opened := [4, 2] }
  let two := inner.grown (inner.graph.addNode
    { kind := .red, first := .node 3, transform := .append (.int 2) })
  let both := two.grown (two.graph.addNode { kind := .cat, first := .node 4, second := .node 2 })
  let either := both.grown (both.graph.addNode
    { kind := .alt, first := .node 5, second := .node 6 })
  let closed : Bench := { either with graph := either.graph.become 4 7, opened := [2] }
  let pair := closed.grown (closed.graph.addNode
    { kind := .cat, first := .node 4, second := .node 2 })
  let body := pair.grown (pair.graph.addNode { kind := .alt, first := .node 1, second := .node 8 })
  { body with graph := body.graph.become 2 9, opened := [] }

theorem nested_composed (permitted : Bench → Call → Prop) :
    nested.Composed Construction.Total permitted := by
  refine .complete (.construct (.alt [1, 8]) (.construct (.cat [4, 2]) (.complete
    (.construct (.alt [5, 6]) (.construct (.cat [4, 2])
    (.construct (.red 3 (.append (.int 2))) (.begin (.construct (.char (.int 1))
    (.begin .start rfl) trivial (fun _ none => nomatch none) rfl) rfl)
    (Transform.total_append rfl) (by simp [grown, Construction.operands]) rfl)
    trivial (by simp [grown, Construction.operands]) rfl)
    trivial (by simp [grown, Construction.operands]) rfl)
    rfl (show Bench.built _ 7 by simp [grown]) rfl)
    trivial (by simp [grown, Construction.operands]) rfl)
    trivial (by simp [grown, Construction.operands]) rfl)
    rfl (show Bench.built _ 9 by simp [grown]) rfl

theorem call_ends_nested : nested.Composed Construction.Total (fun b c =>
      b.opened = [] ∧ c.By fun s => s.hashable = true) ∧ nested.opened = [] ∧
    (Call.parse true [.int 1, .int 1] 2).By (fun s => s.hashable = true) ∧
    2 < nested.graph.nodes.size ∧
    ∃ g, Gives (fun ask => (Call.parse true [.int 1, .int 1] 2).run ask) nested.graph () g := by
  have composed := nested_composed fun b c => b.opened = [] ∧ c.By fun s => s.hashable = true
  have hashable : (Call.parse true [.int 1, .int 1] 2).By fun s => s.hashable = true := by
    simp [Call.By, Value.hashable]
  have lt : 2 < nested.graph.nodes.size := by decide
  obtain ⟨g, gives, -⟩ := call_ends composed rfl hashable lt
  exact ⟨composed, rfl, hashable, lt, g, gives⟩

end Bench

end GrammarGraph
