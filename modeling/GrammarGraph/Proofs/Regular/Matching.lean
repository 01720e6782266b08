import GrammarGraph.Proofs.Gauge.Calls
import GrammarGraph.Proofs.Regular.Rewriting

/-! Recognition and parsing under gauges of languages: both decide whether the sentence belongs
to the language of the node. -/
namespace GrammarGraph

instance : Gauge.Rules languages where
  body t lower i level := by
    cases i with
    | forest => exact t.forest lower
    | nullable => exact t.nullable lower
    | emptyLike => exact t.emptyLike lower
    | epsLike => exact t.epsLike lower
    | compact => exact t.compact lower level
  derive t lower hashable := t.derive lower hashable

/-- The empty sentence is left if the sentence belongs to the language. -/
theorem nil_mem_left (compaction : Bool) {s : List Value} {L : Language Value} :
    [] ∈ languages.left compaction s L ↔ s ∈ L := by
  have step (c : Value) (L : Language Value) : languages.advance compaction c L = following c L := by
    cases compaction <;> rfl
  induction s generalizing L with
  | nil => rfl
  | cons c s ih =>
    rw [Sense.left, step]
    exact ih.trans mem_following

namespace Gauge.Rested

variable {x : Gauge (Language Value)} {g : Graph} {L : Language Value} {n : NodeId}
  {symbols : List Value} (h : Rested languages x g) (denotes : x.Denotes g L n)
  (compaction : Bool) (hashable : ∀ c ∈ symbols, c.hashable = true)
include h denotes hashable

theorem recognize_language :
    (resting languages).Ends x g (fun ask => Parse.recognize ask compaction symbols n)
      fun _ _ answer => answer.1 = true ↔ symbols ∈ L :=
  .imp (h.recognize denotes compaction hashable) fun _ _ _ _ _ decides =>
    Iff.trans decides (nil_mem_left compaction)

theorem parse_language :
    (resting languages).Ends x g (fun ask => Parse.parse ask compaction symbols n)
      fun _ _ answer => answer.1 ≠ [] ↔ symbols ∈ L := by
  refine .imp (h.parse denotes compaction hashable) ?_
  rintro _ _ _ - - ⟨ws, ⟨_, some_⟩, answer⟩
  rw [answer, ne_eq, Forest.distinct_eq_nil]
  exact some_.trans (nil_mem_left compaction)

end Gauge.Rested

end GrammarGraph
