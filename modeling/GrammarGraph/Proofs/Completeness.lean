import GrammarGraph.Proofs.Reference
import GrammarGraph.Proofs.Tree.Clear

/-! Which witnesses a parse is sure to return, on benches without definitions. Not every
derivation counts: forests are paired position by position, so a pair of witnesses is lost where
a part of a concatenation has more of them. Compaction folds some parts before they are paired,
so it can keep what is lost without it; where nothing that is paired is ambiguous, both return
the witnesses of all derivations. -/
namespace GrammarGraph

namespace Tree

def Boolless : Tree → Prop
  | .empty | .char _ => True
  | .eps ws => ∀ w ∈ ws, w.boolless = true
  | .cat a b | .alt a b => a.Boolless ∧ b.Boolless
  | .rep e | .delta e => e.Boolless
  | .red e t => e.Boolless ∧ ∀ v w, v.boolless = true → t.apply v = .ok w → w.boolless = true

variable {e : Tree} {s : List Value} {w : Value}

theorem Boolless.plain (boolless : e.Boolless) (proper : e.Proper fun v => v.hashable = true) :
    e.Proper Value.Plain := by
  induction e with
  | empty | char => trivial
  | eps ws => exact ⟨fun w member => ⟨proper.1 w member, boolless w member⟩, proper.2⟩
  | cat a b iha ihb | alt a b iha ihb =>
    exact ⟨iha boolless.1 proper.1, ihb boolless.2 proper.2⟩
  | rep e ih | delta e ih => exact ih boolless proper
  | red e t ih =>
    refine ⟨ih boolless.1 proper.1, fun v hv => ?_⟩
    obtain ⟨w, applied, hashable⟩ := proper.2 v hv.1
    exact ⟨w, applied, hashable, boolless.2 v w hv.2 applied⟩

/-- What is left of the sentence after every derivative was compacted holds the witness. -/
theorem Sure.mem_left (plain : e.Proper Value.Plain) (symbols : ∀ c ∈ s, c.Plain)
    (h : e.Sure s w) : w ∈ Forest.distinct (trees.left true s e).forest := by
  induction s generalizing e with
  | nil => exact plain.mem_distinct_forest.mpr (h.mem_forest plain)
  | cons c s ih =>
    have derived := plain.derive (symbols c List.mem_cons_self)
    exact ih (derived.compact Value.plain_closed)
      (fun d member => symbols d (List.mem_cons_of_mem c member)) (h.derive.compact derived)

theorem yields_of_left {compaction : Bool} {t : List Value}
    (h : (trees.left compaction s e).Yields t w) : e.Yields (s ++ t) w := by
  induction s generalizing e with
  | nil => exact h
  | cons c s ih =>
    refine yields_derive.mp ?_
    cases compaction with
    | false => exact ih h
    | true => exact (ih h).of_compact

theorem Clear.mem_left (clear : e.Clear) (plain : e.Proper Value.Plain)
    (symbols : ∀ c ∈ s, c.Plain) (compaction : Bool) :
    w ∈ Forest.distinct (trees.left compaction s e).forest ↔ e.Yields s w := by
  constructor
  · intro member
    have left := yields_of_left (yields_of_mem_forest (Forest.mem_of_mem_distinct member))
    rwa [List.append_nil] at left
  · intro yields
    cases compaction with
    | true => exact (clear.sure yields).mem_left plain symbols
    | false =>
      rw [forest_left, Forest.distinct_of_distinct (plain.reference symbols).1]
      exact clear.mem_reference plain symbols yields

end Tree

namespace Bench

open GrammarGraph.RunOf (Gives)

variable {b : Bench} {n : NodeId} {s : List Value}

/-- A parse with compaction returns every witness with a sure derivation. -/
theorem parse_complete (straight : b.Straight Construction.Total fun c => c.boolless = true)
    (built : b.built n) (symbols : ∀ c ∈ s, c.Plain) :
    ∃ e, b.graph.Unfolds n e ∧ (e.Boolless → ∃ answer g,
      Gives (fun ask => Parse.parse ask true s n) b.graph answer g ∧
      ∀ w, e.Sure s w → w ∈ answer.1) := by
  obtain ⟨e, unfolds, proper, -, answer, g, gives, same⟩ := straight.parse built true symbols
  refine ⟨e, unfolds, fun boolless => ⟨answer, g, gives, fun w sure => ?_⟩⟩
  rw [same]
  exact sure.mem_left (boolless.plain proper) symbols

/-- A one and any number of ones after it, as node 4. -/
def repeating : Bench :=
  let one := grown {} (Graph.addNode { kind := .char, symbol := .int 1 } {})
  let more := one.grown (one.graph.addNode { kind := .rep, first := .node 2 })
  more.grown (more.graph.addNode { kind := .cat, first := .node 2, second := .node 3 })

theorem repeating_straight (P : Value → Prop) : repeating.Straight Construction.Total P :=
  .construct (.cat [2, 3]) (.construct (.rep 2)
    (.construct (.char (.int 1)) .start trivial (fun _ none => nomatch none) rfl)
    trivial (by simp [grown, Construction.operands]) rfl)
    trivial (by simp [grown, Construction.operands]) rfl

theorem parse_complete_repeating :
    repeating.Straight Construction.Total (fun c => c.boolless = true) ∧ repeating.built 4 ∧
    (∀ c ∈ [Value.int 1, .int 1], c.Plain) ∧ ∃ answer g,
      Gives (fun ask => Parse.parse ask true [.int 1, .int 1] 4) repeating.graph answer g ∧
      .tuple [.int 1, .int 1] ∈ answer.1 := by
  have straight := repeating_straight fun c => c.boolless = true
  have built : repeating.built 4 := by simp [repeating, grown]
  have symbols : ∀ c ∈ [Value.int 1, .int 1], c.Plain := by
    simp [Value.Plain, Value.hashable, Value.boolless]
  obtain ⟨e, unfolds, complete⟩ := parse_complete straight built symbols
  have one : repeating.graph.Unfolds 2 (.char (.int 1)) := .char rfl
  obtain rfl := unfolds.unique (.cat (k := 2) (m := 3) rfl rfl rfl one (.rep (k := 2) rfl rfl one))
  obtain ⟨answer, g, gives, returned⟩ := complete ⟨trivial, trivial⟩
  refine ⟨straight, built, symbols, answer, g, gives, returned _ ?_⟩
  have sure : (Tree.char (.int 1)).Sure [.int 1] (.int 1) ∧
      (Tree.char (.int 1)).Only [.int 1] (.int 1) :=
    ⟨⟨rfl, rfl⟩, fun v yields => (List.cons.inj yields.1).1.symm⟩
  have round : (Tree.rep (.char (.int 1))).Sure [.int 1] (.tuple [.int 1]) :=
    Rounds.cons_iff.mpr ⟨[], [], .int 1, .nothing, rfl, rfl, sure, .none⟩
  exact ⟨[.int 1], [.int 1], .int 1, .tuple [.int 1], rfl, rfl, sure, round, .inr rfl⟩

/-- Twice one or a pair of ones: a pair of different witnesses is derived and not returned. -/
theorem parse_incomplete_paired :
    paired.Straight Construction.Total (fun c => c.boolless = true) ∧ paired.built 5 ∧
    (∃ e, paired.graph.Unfolds 5 e ∧ e.Boolless) ∧ (∀ c ∈ [Value.int 1, .int 1], c.Plain) ∧
    Derives .literal paired.graph.node 5 [.int 1, .int 1]
      (.tuple [.int 1, .tuple [.int 1, .int 1]]) ∧
    ∃ answer g, Gives (fun ask => Parse.parse ask true [.int 1, .int 1] 5) paired.graph answer g ∧
      .tuple [.int 1, .tuple [.int 1, .int 1]] ∉ answer.1 := by
  have straight := paired_straight fun c => c.boolless = true
  have symbols : ∀ c ∈ [Value.int 1, .int 1], c.Plain := by
    simp [Value.Plain, Value.hashable, Value.boolless]
  have keeps (v w : Value) (hv : v.boolless = true)
      (applied : (Transform.append (.int 1)).apply v = .ok w) : w.boolless = true :=
    Except.ok.inj applied ▸ Value.boolless_closed.cons hv rfl
  have boolless : (Tree.alt (.char (.int 1)) (.red (.char (.int 1)) (.append (.int 1)))).Boolless :=
    ⟨trivial, trivial, keeps⟩
  refine ⟨straight, paired_built, ⟨_, paired_unfolds, boolless, boolless⟩, symbols, ?_, ?_⟩
  · exact paired_unfolds.yields_iff.mp ⟨[.int 1], [.int 1], .int 1, .tuple [.int 1, .int 1],
      rfl, rfl, .inl ⟨rfl, rfl⟩, .inr ⟨.int 1, ⟨rfl, rfl⟩, rfl⟩⟩
  · obtain ⟨e, unfolds, -, -, answer, g, gives, same⟩ :=
      straight.parse paired_built true symbols
    obtain rfl := unfolds.unique paired_unfolds
    have same : answer.1 = [.tuple [.int 1, .int 1],
        .tuple [.tuple [.int 1, .int 1], .tuple [.int 1, .int 1]]] := same
    exact ⟨answer, g, gives, by simp [same]⟩

/-- Where nothing that is paired is ambiguous, a parse returns the witnesses of all derivations
and no others, with compaction and without. -/
theorem parse_clear (straight : b.Straight Construction.Total fun c => c.boolless = true)
    (built : b.built n) (symbols : ∀ c ∈ s, c.Plain) (compaction : Bool) :
    ∃ e, b.graph.Unfolds n e ∧ (e.Boolless → e.Clear → ∃ answer g,
      Gives (fun ask => Parse.parse ask compaction s n) b.graph answer g ∧
      ∀ w, w ∈ answer.1 ↔ Derives .literal b.graph.node n s w) := by
  obtain ⟨e, unfolds, proper, -, answer, g, gives, same⟩ := straight.parse built compaction symbols
  refine ⟨e, unfolds, fun boolless clear => ⟨answer, g, gives, fun w => ?_⟩⟩
  rw [same, ← unfolds.yields_iff]
  exact clear.mem_left (boolless.plain proper) symbols compaction

end Bench

end GrammarGraph
