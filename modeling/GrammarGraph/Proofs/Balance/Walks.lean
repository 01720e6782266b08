import GrammarGraph.Proofs.Balance
import GrammarGraph.Proofs.Operations

/-! Walks end what they begin, like the evaluators whose two disciplines they follow. -/
namespace GrammarGraph

/-- The books of a walk are in order. -/
structure Walk.Tidy (w : Walk) : Prop where
  orderly : w.results.Orderly
  hashed : ∀ {n c v}, w.remembered.find? n c = some v → c.hashable = true

/-- How a run may leave a walk. -/
structure Walk.Balanced (w w' : Walk) : Prop where
  results : w.results.Above 0 w'.results
  remembered : w.remembered.Balanced w'.remembered

namespace Tour

variable {α β : Type} {t t' t₁ : Tour} {r : RunOf Tour α} {f : α → RunOf Tour β} {n : NodeId}

structure Tidy (t : Tour) : Prop where
  graph : t.graph.Tidy
  walk : t.walk.Tidy

theorem Tidy.enter (tidy : t.Tidy) (fresh : t.walk.results.Fresh n) :
    (Held.results.modify (Evaluation.enter n) t).Tidy :=
  ⟨tidy.graph, tidy.walk.orderly.enter fresh.stored fresh.provisional, tidy.walk.hashed⟩

theorem Tidy.start (tidy : t.Tidy) (n : NodeId) (key : Value) :
    (Held.remembered.modify (Memo.start n key) t).Tidy :=
  ⟨tidy.graph, tidy.walk.orderly, tidy.walk.hashed⟩

structure Balanced (t t' : Tour) : Prop where
  graph : t.graph.Balanced t'.graph
  walk : t.walk.Balanced t'.walk

theorem Balanced.refl (t : Tour) : t.Balanced t :=
  ⟨.refl _, .refl _ _, .refl _⟩

theorem Balanced.trans (h : t.Balanced t₁) (k : t₁.Balanced t') : t.Balanced t' :=
  ⟨h.graph.trans k.graph, h.walk.results.trans k.walk.results,
    h.walk.remembered.trans k.walk.remembered⟩

/-- However the run ends, it leaves books in order and nothing in progress that was not before. -/
def Keeps (r : RunOf Tour α) : Prop :=
  ∀ t result t', t.Tidy → r t = some (result, t') → t.Balanced t' ∧ t'.Tidy

namespace Keeps

theorem ofExcept (result : Except Fault α) : Keeps (RunOf.ofExcept result) := by
  rintro t _ _ tidy ⟨⟩
  exact ⟨.refl t, tidy⟩

theorem read (p : Tour → α) : Keeps (RunOf.read p) := by
  rintro t _ _ tidy ⟨⟩
  exact ⟨.refl t, tidy⟩

theorem update {p : Tour → Tour} (h : ∀ t, t.Tidy → t.Balanced (p t) ∧ (p t).Tidy) :
    Keeps (RunOf.update p) := by
  rintro t _ _ tidy ⟨⟩
  exact h t tidy

theorem bind (hr : Keeps r) (hf : ∀ a, Keeps (f a)) : Keeps (r >>= f) := by
  intro t result t' tidy ends
  rw [RunOf.bind_run] at ends
  obtain ⟨⟨first, t₁⟩, began, ends⟩ := Option.bind_eq_some_iff.mp ends
  obtain ⟨step, tidy₁⟩ := hr t first t₁ tidy began
  cases first with
  | error fault =>
    cases ends
    exact ⟨step, tidy₁⟩
  | ok a =>
    obtain ⟨rest, tidy'⟩ := hf a t₁ result t' tidy₁ ends
    exact ⟨step.trans rest, tidy'⟩

/-- A run on the graph alone. -/
theorem inside {r : Run α} (h : balanced.Keeps r) : Keeps (RunOf.inside .tourGraph r) := by
  intro t result t' tidy ends
  obtain ⟨⟨_, g⟩, ran, same⟩ := Option.map_eq_some_iff.mp ends
  cases same
  obtain ⟨_, step, tidy', -⟩ := h _ tidy.graph _ _ ran
  exact ⟨⟨step, .refl _ _, .refl _⟩, tidy', tidy.walk⟩

/-- A walk with a default where a cycle closes. -/
theorem evaluation {default body : RunOf Tour Value} (gives : ∀ t, ∃ v, default t = some (.ok v, t))
    (hb : Keeps body) (n : NodeId) : Keeps (Evaluation.demand .results default body n) := by
  intro t result t' tidy ends
  have reliedOn (depth : Nat) : t.Balanced (Held.results.modify (Evaluation.reliedOn depth) t) ∧
      (Held.results.modify (Evaluation.reliedOn depth) t).Tidy :=
    ⟨⟨.refl _, .reliedOn _ (.inr rfl) depth, .refl _⟩, tidy.graph,
      tidy.walk.orderly.reliedOn depth, tidy.walk.hashed⟩
  -- The node is left, with `p` for what then becomes of the results.
  have leave {t₁ : Tour} {ended : Except Fault Value} (fresh : t.walk.results.Fresh n)
      (ran : body (Held.results.modify (Evaluation.enter n) t) = some (ended, t₁))
      {p : Evaluation Value → Evaluation Value}
      (left : ∀ {e'}, Evaluation.Visited 0 n t.walk.results e' → e' = t₁.walk.results →
        t.walk.results.Above 0 (p e') ∧ (p e').Orderly) :
      t.Balanced (Held.results.modify p t₁) ∧ (Held.results.modify p t₁).Tidy := by
    obtain ⟨within, tidy₁⟩ := hb _ _ _ (tidy.enter fresh) ran
    obtain ⟨above, orderly⟩ :=
      left (fresh.visited within.walk.results tidy.walk.orderly tidy₁.walk.orderly) rfl
    exact ⟨⟨within.graph, above, within.walk.remembered⟩, tidy₁.graph, orderly, tidy₁.walk.hashed⟩
  cases Evaluation.demanded ends with
  | stored => exact ⟨.refl t, tidy⟩
  | active _ _ ended =>
    obtain ⟨v, same⟩ := gives (Held.results.modify (Evaluation.reliedOn _) t)
    cases same.symm.trans ended
    exact reliedOn _
  | provisional => exact reliedOn _
  | failed fresh ran => exact leave fresh ran fun visited _ => ⟨visited.above_left, visited.orderly_left⟩
  | @postponed v t₁ fresh ran low =>
    refine leave fresh ran (p := fun e => (e.leave n).postpone n v t₁.walk.results.lowlink)
      fun {e'} visited same => ?_
    have close : e'.close n v t.walk.results.frames.size =
        (e'.leave n).postpone n v t₁.walk.results.lowlink := by
      rw [same]
      exact if_pos low
    exact close ▸ ⟨visited.above_close v, visited.orderly_close v⟩
  | @computed v t₁ fresh ran high =>
    refine leave fresh ran (p := fun e => (e.leave n).store n v) fun {e'} visited same => ?_
    have close : e'.close n v t.walk.results.frames.size = (e'.leave n).store n v := by
      rw [same]
      exact if_neg high
    exact close ▸ ⟨visited.above_close v, visited.orderly_close v⟩

/-- A memoized walk. -/
theorem memo {name : String} {body : RunOf Tour Value} (hb : Keeps body) (n : NodeId) (key : Value) :
    Keeps (Memo.demand .remembered name body n key) := by
  intro t result t' tidy ends
  have started := tidy.start n key
  cases Memo.demanded ends with
  | unhashable | finished | started => exact ⟨.refl t, tidy⟩
  | failed _ _ _ ran =>
    obtain ⟨within, tidy₁⟩ := hb _ _ _ started ran
    exact ⟨⟨within.graph, within.walk.results, within.walk.remembered.stop⟩, tidy₁.graph,
      tidy₁.walk.orderly, tidy₁.walk.hashed⟩
  | @computed v t₁ hashable none fresh ran =>
    obtain ⟨within, tidy₁⟩ := hb _ _ _ started ran
    refine ⟨⟨within.graph, within.walk.results, within.walk.remembered.finish none fresh v⟩,
      tidy₁.graph, tidy₁.walk.orderly, fun {m c u} known => ?_⟩
    have known : ((t₁.walk.remembered.stop n key).finish n key v).find? m c = some u := known
    rw [Memo.find?_finish] at known
    split at known
    · next here => exact Value.hashable_eq_of_same here.2 ▸ hashable
    · exact tidy₁.walk.hashed known

end Keeps

theorem visit_keeps (n : NodeId) : Keeps (RunOf.update (visit n)) := by
  refine .update fun t tidy => ?_
  have results : (t.walk.meet n).results = t.walk.results := by
    unfold Walk.meet
    split <;> rfl
  have remembered : (t.walk.meet n).remembered = t.walk.remembered := by
    unfold Walk.meet
    split <;> rfl
  exact ⟨⟨.refl _, results ▸ .refl _ _, remembered ▸ .refl _⟩, tidy.graph,
    results ▸ tidy.walk.orderly, remembered ▸ tidy.walk.hashed⟩

/-- Walks end what they begin if the evaluators do. -/
theorem keeps_compositional : Compositional fun _ r => ∀ ask again, balanced.Answers ask →
    (∀ n, Keeps (again n)) → Keeps (r ask again) where
  given result _ _ _ _ := .ofExcept result
  read p _ _ _ _ := .read p
  bind hr hf ask again h hagain := .bind (hr ask again h hagain) fun a => hf a ask again h hagain
  visit n _ _ _ _ := visit_keeps n
  graph assembled ask _ h _ := .inside (assembled _ balanced_constructive ask h)
  again n _ _ _ hagain := hagain n

theorem turn_keeps {ask : Ask} (h : balanced.Answers ask) (extra : List Value) (plan : Plan)
    {again : Again} (hagain : ∀ n, Keeps (again n)) (n : NodeId) :
    Keeps (turn ask extra plan again n) := by
  cases plan with
  | fixpoint rule d =>
    refine .evaluation (fun t => ?_) (keeps_compositional.step rule n ask again h hagain) n
    cases d <;> exact ⟨_, rfl⟩
  | memo => exact .memo (keeps_compositional.step .term n ask again h hagain) n _

/-- A walk ends what it begins, within any bound. -/
theorem descend_keeps {ask : Ask} (h : balanced.Answers ask) (extra : List Value) (plan : Plan)
    (bound : Nat) (n : NodeId) : Keeps (descend ask extra plan bound n) := by
  induction bound generalizing n with
  | zero => exact fun _ _ _ _ ends => nomatch ends
  | succ bound ih => exact turn_keeps h extra plan ih n

end Tour

end GrammarGraph
