import GrammarGraph.Proofs.Regular.Expression

/-! Recognition of regular expressions is exact. Neither the simplifications of the
constructors nor compaction nor anything that was asked before changes the language of an
expression as it was written. -/
namespace GrammarGraph.Draft

open GrammarGraph.RunOf (Gives)

variable {d : Draft} {e : Regular} {n : NodeId} {s : List Value}

/-- Recognition and parsing end, and both decide membership, with and without compaction. -/
theorem recognize_parse_exact (reached : d.Reached) (written : (e, n) ∈ d.nodes)
    (hashable : ∀ c ∈ s, c.hashable = true) (compaction : Bool) :
    (∃ answer g, Gives (fun ask => Parse.recognize ask compaction s n) d.graph answer g ∧
      (answer.1 = true ↔ s ∈ e.language)) ∧
    ∃ answer g, Gives (fun ask => Parse.parse ask compaction s n) d.graph answer g ∧
      (answer.1 ≠ [] ↔ s ∈ e.language) := by
  obtain ⟨x, weighed⟩ := reached.weighed
  have denotes := weighed.nodes (e, n) written
  constructor
  · obtain ⟨answer, g, gives, _, _, _, decides⟩ :=
      weighed.rested.recognize_language denotes compaction hashable
    exact ⟨answer, g, gives, decides⟩
  · obtain ⟨answer, g, gives, _, _, _, decides⟩ :=
      weighed.rested.parse_language denotes compaction hashable
    exact ⟨answer, g, gives, decides⟩

/-- Any number of ones, as node 3. -/
def repeated : Draft :=
  let one : Graph := Graph.addNode { kind := .char, symbol := .int 1 } {}
  ⟨one.addNode { kind := .rep, first := .node 2 },
    [(.rep (.char (.int 1)), 3), (.char (.int 1), 2), (.empty, .empty), (.eps Forest.trivial, .eps)]⟩

theorem repeated_reached : repeated.Reached :=
  .tail (.tail .refl (.write (.char (.int 1)) rfl)) (.write (.rep List.mem_cons_self) rfl)

theorem recognize_parse_exact_repeated : repeated.Reached ∧
    (.rep (.char (.int 1)), 3) ∈ repeated.nodes ∧
    (∀ c ∈ [Value.int 1, Value.int 1], c.hashable = true) ∧
    ∃ answer g, Gives (fun ask => Parse.recognize ask true [.int 1, .int 1] 3) repeated.graph
      answer g ∧ answer.1 = true := by
  have hashable : ∀ c ∈ [Value.int 1, Value.int 1], c.hashable = true := by simp [Value.hashable]
  have written : (.rep (.char (.int 1)), 3) ∈ repeated.nodes := List.mem_cons_self
  obtain ⟨⟨answer, g, gives, decides⟩, _⟩ :=
    recognize_parse_exact repeated_reached written hashable true
  refine ⟨repeated_reached, written, hashable, answer, g, gives, decides.mpr ?_⟩
  have one : [Value.int 1] ∈ matching (.int 1) := ⟨.int 1, rfl, rfl⟩
  rw [Regular.language, Regular.language]
  refine Language.mem_kstar.mpr ⟨[[.int 1], [.int 1]], rfl, fun s member => ?_⟩
  simp only [List.mem_cons, List.not_mem_nil, or_false, or_self] at member
  rw [member]
  exact one

end GrammarGraph.Draft
