import GrammarGraph.Proofs.Regime

/-! What constructors do, case by case. A shortcut looks at concrete operands only: it gives an
atom, or an operand that already stands for the whole. A definition completes its placeholder,
or leaves the graph as it is. -/
namespace GrammarGraph

theorem Node.kind_of_isTrivial {node : Node} (h : node.isTrivial = true) : node.kind = .eps := by
  rw [isTrivial, Bool.and_eq_true] at h
  exact eq_of_beq h.1

namespace Operand

variable {g : Graph} {x : Operand} {n : NodeId}

@[simp] theorem kind?_node : (node n).kind? g = some (g.node n).kind := rfl

@[simp] theorem kind?_deferred {s : Suspension} : (deferred s).kind? g = none := rfl

@[simp] theorem kind?_other {typeName : String} : (other typeName).kind? g = none := rfl

theorem eq_node_of_node? (h : x.node? = some n) : x = .node n := by
  cases x with
  | node m => cases h; rfl
  | deferred s => cases h
  | other typeName => cases h

end Operand

namespace Grammar

variable {g : Graph} {x y : Operand} {n k : NodeId} {s s' : Suspension}

theorem catShortcut_deferred : catShortcut g (.deferred s) (.deferred s') = none := rfl

theorem catShortcut_node_deferred : catShortcut g (.node k) (.deferred s) =
    if (g.node k).kind = .empty then some .empty else none := by
  simp [catShortcut]

theorem catShortcut_deferred_node : catShortcut g (.deferred s) (.node k) =
    if (g.node k).kind = .empty then some .empty else none := by
  simp [catShortcut]

theorem catShortcut_cases (found : catShortcut g x y = some n) :
    (x.kind? g = some .empty ∨ y.kind? g = some .empty) ∧ n = .empty ∨
    ∃ a b, x = .node a ∧ y = .node b ∧
      ((g.node a).isTrivial = true ∧ n = b ∨ (g.node b).isTrivial = true ∧ n = a) := by
  unfold catShortcut at found
  split at found
  · next empty =>
    cases found
    exact .inl ⟨by simpa using empty, rfl⟩
  · split at found
    · next a b _ =>
      refine .inr ⟨a, b, rfl, rfl, ?_⟩
      split at found
      · next trivial => cases found; exact .inl ⟨trivial, rfl⟩
      · split at found
        · next trivial => cases found; exact .inr ⟨trivial, rfl⟩
        · cases found
    · cases found

theorem altShortcut_cases (found : altShortcut g x y = some n) :
    ∃ a b, x = .node a ∧ y = .node b ∧
      ((g.node a).kind = .empty ∧ n = b ∨
        (g.node a).kind ≠ .empty ∧ (g.node b).kind = .empty ∧ n = a) := by
  unfold altShortcut at found
  split at found
  · next a b =>
    refine ⟨a, b, rfl, rfl, ?_⟩
    simp only [beq_iff_eq] at found
    split at found
    · next empty => cases found; exact .inl ⟨empty, rfl⟩
    · next other =>
      split at found
      · next empty => cases found; exact .inr ⟨other, empty, rfl⟩
      · cases found
  · cases found

theorem repShortcut_cases (found : repShortcut g x = some n) :
    (x.kind? g = some .empty ∨ x.kind? g = some .eps) ∧ n = .eps ∨
    x = .node n ∧ (g.node n).kind = .rep := by
  unfold repShortcut at found
  split at found
  · next kind => cases found; exact .inl ⟨.inl kind, rfl⟩
  · next kind => cases found; exact .inl ⟨.inr kind, rfl⟩
  · next kind =>
    obtain rfl := Operand.eq_node_of_node? found
    exact .inr ⟨rfl, Option.some.inj kind⟩
  · cases found

theorem deltaShortcut_cases (found : deltaShortcut g x = some n) :
    (x.kind? g = some .empty ∨ x.kind? g = some .char) ∧ n = .empty ∨
    x = .node n ∧ (g.node n).kind = .eps := by
  unfold deltaShortcut at found
  split at found
  · next kind => cases found; exact .inl ⟨.inl kind, rfl⟩
  · next kind => cases found; exact .inl ⟨.inr kind, rfl⟩
  · next kind =>
    obtain rfl := Operand.eq_node_of_node? found
    exact .inr ⟨rfl, Option.some.inj kind⟩
  · cases found

theorem redShortcut_cases (found : redShortcut g x = some n) :
    x.kind? g = some .empty ∧ n = .empty := by
  unfold redShortcut at found
  split at found
  · next kind => cases found; exact ⟨eq_of_beq kind, rfl⟩
  · cases found

variable {g' : Graph} {result : Except Fault NodeId}

theorem define_cases (ends : define n x g = some (result, g')) :
    (∃ fault, result = .error fault) ∧ g' = g ∨
    ∃ k, x = .node k ∧ (g.node k).kind.isAtomic = false ∧ result = .ok n ∧
      g' = g.become n k := by
  cases x with
  | deferred | other =>
    cases ends
    exact .inl ⟨⟨_, rfl⟩, rfl⟩
  | node k =>
    unfold define Run.kind at ends
    dsimp only at ends
    rw [RunOf.read_bind] at ends
    split at ends
    · cases ends
      exact .inl ⟨⟨_, rfl⟩, rfl⟩
    · next compound =>
      cases ends
      exact .inr ⟨k, rfl, by simpa using compound, rfl, rfl⟩

theorem define_ok {body m : NodeId} (ends : define n (.node body) g = some (.ok m, g')) :
    (g.node body).kind.isAtomic = false ∧ g' = g.become n body := by
  obtain ⟨⟨_, ⟨⟩⟩, -⟩ | ⟨k, ⟨⟩, compound, -, become⟩ := define_cases ends
  exact ⟨compound, become⟩

/-- The body of a definition may fail. -/
theorem defined_cases {built : Except Fault Operand}
    (ends : (RunOf.ofExcept built >>= define n) g = some (result, g')) :
    g' = g ∨ ∃ k, built = .ok (.node k) ∧ (g.node k).kind.isAtomic = false ∧
      g' = g.become n k := by
  cases built with
  | error fault =>
    cases ends
    exact .inl rfl
  | ok operand =>
    obtain ⟨-, same⟩ | ⟨k, rfl, compound, -, become⟩ := define_cases ends
    · exact .inl same
    · exact .inr ⟨k, rfl, compound, become⟩

/-- A definition leaves the graph that its body left, or completes the placeholder in it. -/
theorem letrec_cases {body : NodeId → Run Operand}
    (ends : (do
      let placeholder ← Run.make { kind := .placeholder }
      let body ← body placeholder
      define placeholder body) g = some (result, g')) :
    ∃ built g₁, body g.nodes.size (g.addNode { kind := .placeholder }) = some (built, g₁) ∧
      (g' = g₁ ∨ ∃ k, built = .ok (.node k) ∧ (g₁.node k).kind.isAtomic = false ∧
        g' = g₁.become g.nodes.size k) := by
  change (body g.nodes.size >>= define g.nodes.size) (g.addNode _) = _ at ends
  rw [RunOf.bind_run] at ends
  obtain ⟨⟨built, g₁⟩, building, ends⟩ := Option.bind_eq_some_iff.mp ends
  exact ⟨built, g₁, building, defined_cases (by rw [RunOf.bind_run]; exact ends)⟩

end Grammar

end GrammarGraph
