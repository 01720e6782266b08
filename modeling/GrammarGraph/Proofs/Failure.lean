import GrammarGraph.Proofs.Balance

/-! How a fault travels. A call that fails ends every computation that waits for it, with the same
fault; on the way out marks and frames are taken away, but nothing is recorded and no slot is
filled. So what the call left without a result is without one in the end. -/
namespace GrammarGraph

namespace RunOf

variable {σ τ κ : Type} {A : κ → Type} {α β ρ : Type}

/-- From `t`, the run makes the call `k` in state `s`: without an answer to that call it does not
end, although it ends with one. -/
def Calls (r : ((k : κ) → RunOf σ (A k)) → RunOf τ α) (answers : (k : κ) → RunOf σ (A k)) (t : τ)
    (k : κ) (s : σ) : Prop :=
  r answers t ≠ none ∧ ∀ others : (k : κ) → RunOf σ (A k),
    (∀ k' s', ¬ (k' = k ∧ s' = s) → others k' s' = answers k' s') → others k s = none →
      r others t = none

/-- From the states in order, `r` ends as `r₀` does, except that it may end with the fault and then
in a state with the property. -/
def Stops (valid : σ → Prop) (fault : Fault) (left : σ → Prop) (r₀ r : RunOf σ α) : Prop :=
  ∀ s result s', valid s → r s = some (result, s') →
    r₀ s = some (result, s') ∨ result = .error fault ∧ left s'

namespace Stops

variable {valid left : σ → Prop} {fault : Fault} {r r₀ : RunOf σ α} {f f₀ : α → RunOf σ β}

theorem refl (r : RunOf σ α) : Stops valid fault left r r :=
  fun _ _ _ _ ends => .inl ends

theorem bind (keeps : ∀ {s result s'}, valid s → r s = some (result, s') → valid s')
    (hr : Stops valid fault left r₀ r) (hf : ∀ a, Stops valid fault left (f₀ a) (f a)) :
    Stops valid fault left (r₀ >>= f₀) (r >>= f) := by
  intro s result s' start ends
  rw [bind_run] at ends ⊢
  obtain ⟨⟨first, s₁⟩, began, ends⟩ := Option.bind_eq_some_iff.mp ends
  rcases hr _ _ _ start began with same | ⟨rfl, lacks⟩
  · rw [same, Option.bind_some]
    cases first with
    | error _ => exact .inl ends
    | ok a => exact hf a _ _ _ (keeps start began) ends
  · cases ends
    exact .inr ⟨rfl, lacks⟩

theorem evaluation {held : Held σ (Evaluation ρ)} {default b b₀ : RunOf σ ρ} {n : Nat}
    (leave : ∀ {s}, left s → left (held.modify (Evaluation.leave n) s))
    (body : ∀ {s result s'}, valid s → (held.get s).Fresh n →
      b (held.modify (Evaluation.enter n) s) = some (result, s') →
      b₀ (held.modify (Evaluation.enter n) s) = some (result, s') ∨
        result = .error fault ∧ left s') :
    Stops valid fault left (Evaluation.demand held default b₀ n)
      (Evaluation.demand held default b n) := by
  intro s result s' start ends
  by_cases same : (held.get s).Fresh n → b₀ (held.modify (Evaluation.enter n) s) =
      b (held.modify (Evaluation.enter n) s)
  · exact .inl ((Evaluation.demand_congr same).trans ends)
  · obtain ⟨fresh, differ⟩ := Classical.not_imp.mp same
    cases ran : b (held.modify (Evaluation.enter n) s) with
    | none =>
      cases Evaluation.demanded ends with
      | stored stored => cases fresh.stored.symm.trans stored
      | active _ active => cases fresh.active.symm.trans active
      | provisional _ _ provisional => cases fresh.provisional.symm.trans provisional
      | failed _ ran' => cases ran.symm.trans ran'
      | postponed _ ran' => cases ran.symm.trans ran'
      | computed _ ran' => cases ran.symm.trans ran'
    | some ended =>
      obtain ⟨first, s₁⟩ := ended
      rcases body start fresh ran with equal | ⟨rfl, lacks⟩
      · exact absurd (equal.trans ran.symm) differ
      · cases (Evaluation.demand_failed fresh ran).symm.trans ends
        exact .inr ⟨rfl, leave lacks⟩

theorem memo {held : Held σ (Memo ρ)} {name : String} {b b₀ : RunOf σ ρ} {n : Nat} {key : Value}
    (stop : ∀ {s}, left s → left (held.modify (Memo.stop n key) s))
    (body : ∀ {s result s'}, valid s → b (held.modify (Memo.start n key) s) = some (result, s') →
      b₀ (held.modify (Memo.start n key) s) = some (result, s') ∨
        result = .error fault ∧ left s') :
    Stops valid fault left (Memo.demand held name b₀ n key) (Memo.demand held name b n key) := by
  intro s result s' start ends
  by_cases same : key.hashable = true → (held.get s).find? n key = none →
      (held.get s).isStarted n key = false →
      b₀ (held.modify (Memo.start n key) s) = b (held.modify (Memo.start n key) s)
  · exact .inl ((Memo.demand_congr same).trans ends)
  · obtain ⟨hashable, same⟩ := Classical.not_imp.mp same
    obtain ⟨absent, same⟩ := Classical.not_imp.mp same
    obtain ⟨fresh, differ⟩ := Classical.not_imp.mp same
    cases ran : b (held.modify (Memo.start n key) s) with
    | none =>
      cases Memo.demanded ends with
      | unhashable other => cases hashable.symm.trans other
      | finished _ found => cases absent.symm.trans found
      | started _ _ started => cases fresh.symm.trans started
      | failed _ _ _ ran' => cases ran.symm.trans ran'
      | computed _ _ _ ran' => cases ran.symm.trans ran'
    | some ended =>
      obtain ⟨first, s₁⟩ := ended
      rcases body start ran with equal | ⟨rfl, lacks⟩
      · exact absurd (equal.trans ran.symm) differ
      · cases (Memo.demand_failed hashable absent fresh ran).symm.trans ends
        exact .inr ⟨rfl, stop lacks⟩

theorem call {answers others : (k : κ) → RunOf σ (A k)} {k : κ} {s : σ}
    (fails : valid s → ∃ s', answers k s = some (.error fault, s') ∧ left s')
    (alike : ∀ k' s', ¬ (k' = k ∧ s' = s) → others k' s' = answers k' s') (k' : κ) :
    Stops valid fault left (others k') (answers k') := by
  intro s' result s'' start ends
  by_cases here : k' = k ∧ s' = s
  · obtain ⟨rfl, rfl⟩ := here
    obtain ⟨_, failed, lacks⟩ := fails start
    cases failed.symm.trans ends
    exact .inr ⟨rfl, lacks⟩
  · exact .inl ((alike k' s' here).trans ends)

end Stops

/-- A run that makes a call does not end as it would if that call gave no answer. -/
theorem Calls.marked {r : ((k : κ) → RunOf σ (A k)) → RunOf τ ρ}
    {answers : (k : κ) → RunOf σ (A k)} {k : κ} {s : σ} {t : τ} {P : Except Fault ρ → τ → Prop}
    (calls : Calls r answers t k s)
    (marks : ∀ others : (k : κ) → RunOf σ (A k),
      (∀ k' s', ¬ (k' = k ∧ s' = s) → others k' s' = answers k' s') →
        ∀ result t', r answers t = some (result, t') →
          r others t = some (result, t') ∨ P result t') :
    ∃ result t', r answers t = some (result, t') ∧ P result t' := by
  classical
  let others : (k : κ) → RunOf σ (A k) := fun k' s' =>
    if k' = k ∧ s' = s then none else answers k' s'
  have alike (k' : κ) (s' : σ) (other : ¬ (k' = k ∧ s' = s)) : others k' s' = answers k' s' :=
    if_neg other
  have spent := calls.2 others alike (if_pos ⟨rfl, rfl⟩)
  obtain ⟨⟨result, t'⟩, ends⟩ := Option.ne_none_iff_exists'.mp calls.1
  rcases marks others alike result t' ends with same | so
  · cases spent.symm.trans same
  · exact ⟨result, t', ends, so⟩

end RunOf

open RunOf (Stops Calls)

namespace Graph

/-- The query has no result: nothing is recorded for it, the slot that it reads is deferred. -/
def Lacks (g : Graph) : Query → Prop
  | .child n side => ∃ cell, (g.node n).slot side = .deferred cell
  | .nullable n => g.nullable.stored.get? n = none
  | .forest n => g.forests.stored.get? n = none
  | .emptyLike n => g.emptyLike.stored.get? n = none
  | .epsLike n => g.epsLike.stored.get? n = none
  | .compact n => g.compacted.stored.get? n = none
  | .derive c n => g.derivatives.find? n c = none
  | .nodeCount _ => True

namespace Lacks

variable {g g' : Graph} {q : Query} (h : g.Lacks q)
include h

theorem leave (i : Evaluator) (n : NodeId) : (i.held.modify (Evaluation.leave n) g).Lacks q := by
  cases i <;> cases q <;> exact h

theorem stop (n : NodeId) (c : Value) : (Held.derivatives.modify (Memo.stop n c) g).Lacks q := by
  cases q <;> exact h

theorem unmark (cell : CellId) : (g.setForcing cell false).Lacks q := by
  cases q <;> exact h

theorem journal (journal : Option Journal) : Graph.Lacks { g with journal } q := by
  cases q <;> exact h

end Lacks

end Graph

namespace Ask.Balances

variable {ask : Ask} (h : ask.Balances) {g g' g₁ : Graph} {i : Evaluator} {n : NodeId}
include h

/-- Nothing is stored about a node while its rule is at work. -/
theorem unstored {result : Except Fault i.Result} (tidy : g.Tidy) (fresh : (i.of g).Fresh n)
    (ended : i.body ask n (i.held.modify (Evaluation.enter n) g) = some (result, g₁)) :
    (i.of g₁).stored.get? n = none := by
  by_cases lt : i = .compact ∨ n < g.nodes.size
  · have entered := tidy.enter fresh lt
    obtain ⟨_, within, tidy₁, -⟩ :=
      balanced_constructive.toCompositional.body i n ask h.keeps _ entered _ _ ended
    exact (within.visited fresh tidy (tidy₁.orderly i)).unknown_left.1
  · obtain ⟨other, out⟩ := not_or.mp lt
    rw [Evaluator.body_out other (by simpa using out)] at ended
    cases ended
    rw [Evaluator.of_modify]
    exact fresh.stored

theorem evaluate_lacks {fault : Fault} (tidy : g.Tidy)
    (ends : Evaluation.demand i.held (i.default n) (i.body ask n) n g = some (.error fault, g')) :
    (i.of g').stored.get? n = none := by
  cases Evaluation.demanded ends with
  | active _ _ default =>
    obtain ⟨v, gives⟩ := i.exists_default n
    cases (gives _).symm.trans default
  | failed fresh ended =>
    rw [Evaluator.of_modify]
    exact h.unstored tidy fresh ended

theorem answer_lacks {bound : Nat} {q : Query} {fault : Fault} (tidy : g.Tidy)
    (ends : Engine.answer bound ask q g = some (.error fault, g')) : g'.Lacks q := by
  cases q with
  | nullable n => exact h.evaluate_lacks (i := .nullable) tidy ends
  | forest n => exact h.evaluate_lacks (i := .forest) tidy ends
  | emptyLike n => exact h.evaluate_lacks (i := .emptyLike) tidy ends
  | epsLike n => exact h.evaluate_lacks (i := .epsLike) tidy ends
  | compact n => exact h.evaluate_lacks (i := .compact) tidy ends
  | nodeCount n => exact trivial
  | child n side => cases Child.read_outcome ends with
    | busy slot => exact ⟨_, slot⟩
    | failed slot suspended free ran | refused slot suspended free ran =>
      obtain ⟨_, within, -⟩ :=
        balanced_constructive.compute (Suspension.uses_true _) ask h.keeps _ (tidy.setForcing _ true) _ _ ran
      exact ⟨_, within.evolves.held (Graph.lt_of_suspension suspended) slot⟩
  | derive c n => cases Memo.demanded ends with
    | unhashable other =>
      refine Option.eq_none_iff_forall_ne_some.mpr fun d found => ?_
      cases other.symm.trans (tidy.found found).2.1
    | started _ absent => exact absent
    | failed hashable absent _ ran =>
      have begun : (Held.derivatives.modify (Memo.start n c) g).Tidy := tidy.derivatives .inl
      obtain ⟨_, within, -⟩ :=
        balanced_constructive.toCompositional.derive c n ask h.keeps _ begun _ _ ran
      refine within.derivatives.unfound (Memo.isStarted_iff.mpr ⟨c, ?_, Value.same_refl c⟩) absent
      exact List.mem_cons_self

end Ask.Balances

/-- What asks a failing question fails, and leaves the query `q` without a result if the question
does. -/
theorem stops_constructive {ask others : Ask} (h : balanced.Answers ask) {fault : Fault} {q : Query}
    (stops : ∀ q', Stops Graph.Tidy fault (·.Lacks q) (others q') (ask q')) :
    Constructive fun _ r => (∀ ask, balanced.Answers ask → balanced.Keeps (r ask)) ∧
      Stops Graph.Tidy fault (·.Lacks q) (r others) (r ask) where
  given result := ⟨balanced_constructive.given result, .refl _⟩
  read p := ⟨balanced_constructive.read p, .refl _⟩
  bind hr hf := by
    refine ⟨balanced_constructive.bind hr.1 fun a => (hf a).1, .bind (fun {g _ _} tidy ends => ?_)
      hr.2 fun a => (hf a).2⟩
    obtain ⟨_, -, tidy', -⟩ := hr.1 ask h g tidy _ _ ends
    exact tidy'
  spent α := ⟨balanced_constructive.spent α, .refl _⟩
  ask q' := ⟨balanced_constructive.ask q', stops q'⟩
  make canonical fits := ⟨balanced_constructive.make canonical fits, .refl _⟩
  defer plain := ⟨balanced_constructive.defer plain, .refl _⟩
  postpone scope uses fits := ⟨balanced_constructive.postpone scope uses fits, .refl _⟩
  note level message := ⟨balanced_constructive.note level message, .refl _⟩
  letrec {body} each := by
    refine ⟨balanced_constructive.letrec fun n => (each n).1, ?_⟩
    have make (node : Node) {g g' : Graph} {result : Except Fault NodeId} (tidy : g.Tidy)
        (ends : Run.make node g = some (result, g')) : g'.Tidy := by
      cases ends
      exact (tidy.addNode node).2
    refine .bind (make _) (.refl _) fun n => .bind (fun {g _ _} tidy ends => ?_) (each n).2 fun _ =>
      .refl _
    obtain ⟨_, -, tidy', -⟩ := (each n).1 ask h g tidy _ _ ends
    exact tidy'
  anyNode raw node fits := ⟨balanced_constructive.anyNode raw node fits, .refl _⟩

section

variable {ask others : Ask} {fault : Fault} {q : Query}

/-- An answer fails if a question that it needs does. -/
theorem stops_answer (h : ask.Balances)
    (stops : ∀ q', Stops Graph.Tidy fault (·.Lacks q) (others q') (ask q')) (bound : Nat)
    (q' : Query) : Stops Graph.Tidy fault (·.Lacks q) (Engine.answer bound others q')
      (Engine.answer bound ask q') := by
  have parts := stops_constructive h.keeps stops
  have evaluate (i : Evaluator) (n : NodeId) : Stops Graph.Tidy fault (·.Lacks q)
      (Evaluation.demand i.held (i.default n) (i.body others n) n)
      (Evaluation.demand i.held (i.default n) (i.body ask n) n) := by
    refine .evaluation (fun lacks => lacks.leave i n) fun {g _ _} tidy fresh ends => ?_
    by_cases lt : i = .compact ∨ n < g.nodes.size
    · exact (parts.toCompositional.body i n).2 _ _ _ (tidy.enter fresh lt) ends
    · obtain ⟨other, out⟩ := not_or.mp lt
      rw [Evaluator.body_out other (by simpa using out)] at ends ⊢
      exact .inl ends
  cases q' with
  | nullable n => exact evaluate .nullable n
  | forest n => exact evaluate .forest n
  | emptyLike n => exact evaluate .emptyLike n
  | epsLike n => exact evaluate .epsLike n
  | compact n => exact evaluate .compact n
  | nodeCount n => exact (parts.toCompositional.nodeCount bound n).2
  | derive c n =>
    exact .memo (fun lacks => lacks.stop n c) fun tidy ends =>
      (parts.toCompositional.derive c n).2 _ _ _ (tidy.derivatives .inl) ends
  | child n side =>
    intro g result g' tidy ends
    by_cases same : ∀ cell s, (g.node n).slot side = .deferred cell → g.suspension? cell = some s →
        g.isForcing cell = false → Child.compute others s (g.setForcing cell true) =
          Child.compute ask s (g.setForcing cell true)
    · exact .inl ((Child.read_congr (same _ _)).trans ends)
    · push Not at same
      obtain ⟨cell, s, slot, suspended, free, differ⟩ := same
      change Child.read ask n side g = _ at ends
      cases ran : Child.compute ask s (g.setForcing cell true) with
      | none =>
        rw [Child.read_eq slot suspended free, RunOf.bind_run, Child.force_eq, ran] at ends
        cases ends
      | some ended =>
        obtain ⟨first, g₁⟩ := ended
        rcases (parts.compute s.uses_true).2 _ _ _ (tidy.setForcing cell true) ran with equal | ⟨rfl, lacks⟩
        · exact absurd (equal.trans ran.symm) differ
        · cases (Child.read_failed slot suspended free ran).symm.trans ends
          exact .inr ⟨rfl, lacks.unmark cell⟩

end

namespace Engine

/-- In order, the question `q'` ends with the fault and leaves `q` without a result. -/
def Fails (fault : Fault) (q : Query) (bound : Nat) (q' : Query) (g : Graph) : Prop :=
  g.Tidy → ∃ g', run bound q' g = some (.error fault, g') ∧ g'.Lacks q

theorem Fails.itself {fault : Fault} {bound : Nat} {q : Query} {g g' : Graph}
    (ends : run bound q g = some (.error fault, g')) : Fails fault q bound q g := by
  intro tidy
  cases bound with
  | zero => cases ends
  | succ bound => exact ⟨g', ends, (run_balances bound).answer_lacks tidy ends⟩

theorem Fails.outward {fault : Fault} {bound : Nat} {q q₁ q₂ : Query} {g g₂ : Graph}
    (fails : Fails fault q bound q₂ g₂)
    (calls : Calls (fun ask => answer bound ask q₁) (run bound) g q₂ g₂) :
    Fails fault q (bound + 1) q₁ g := by
  intro tidy
  obtain ⟨_, g', ends, rfl, lacks⟩ := calls.marked
    (P := fun result (g' : Graph) => result = .error fault ∧ g'.Lacks q)
    fun others alike result g' ends =>
      stops_answer (run_balances bound) (.call fails alike) bound q₁ _ _ _ tidy ends
  exact ⟨g', ends, lacks⟩

end Engine

end GrammarGraph
