import GrammarGraph.Proofs.Balance.Walks

/-! Between operations nothing is in progress, whether the operations before ended with a reply or
with a fault. -/
namespace GrammarGraph

namespace Evaluation

variable {α : Type} {e e' : Evaluation α}

/-- No node is being evaluated, and no value waits for one that is. -/
structure Resting (e : Evaluation α) : Prop where
  active : ∀ n, e.active.get? n = none
  frames : e.frames = #[]
  provisional : ∀ n, e.provisional.get? n = none

theorem Resting.initial : ({} : Evaluation α).Resting :=
  ⟨fun _ => Table.get?_empty _, rfl, fun _ => Table.get?_empty _⟩

theorem Resting.orderly (h : e.Resting) : e.Orderly where
  active known := by
    rw [h.active] at known
    cases known
  apart known := by
    rw [h.active] at known
    cases known
  listed known := by
    rw [h.provisional] at known
    cases known
  pending there := by
    rw [h.frames] at there
    cases there

/-- Frames and what is provisional go together. -/
theorem Above.resting (h : e.Above 0 e') (rest : e.Resting) (orderly : e'.Orderly) :
    e'.Resting where
  active n := (h.active n).trans (rest.active n)
  frames := Array.eq_empty_of_size_eq_zero (h.size.trans (by rw [rest.frames]; rfl))
  provisional n := by
    refine Option.eq_none_iff_forall_ne_some.mpr fun p known => ?_
    have lt := orderly.lowlink_lt known
    rw [h.size, rest.frames] at lt
    exact absurd lt (Nat.not_lt_zero _)

theorem Resting.forget (h : e.Resting) (n : Nat) : (e.forget n).Resting :=
  ⟨h.active, h.frames, h.provisional⟩

theorem Resting.standing (h : e.Resting) (n : Nat) :
    e.standing n = .fresh 0 ∨ ∃ v, e.standing n = .stored v := by
  unfold Evaluation.standing
  cases e.stored.get? n with
  | some v => exact .inr ⟨v, rfl⟩
  | none =>
    rw [h.active, h.provisional, h.frames]
    exact .inl rfl

end Evaluation

theorem Memo.progress_of_resting {ρ : Type} {m : Memo ρ} (h : m.inProgress = []) (n : Nat)
    (key : Value) : m.progress n key = .absent ∨ ∃ r, m.progress n key = .finished r := by
  unfold Memo.progress
  cases m.find? n key with
  | some r => exact .inr ⟨r, rfl⟩
  | none =>
    have absent : m.isStarted n key = false := by simp [isStarted, h]
    rw [absent]
    exact .inl rfl

/-- Nothing is in progress: no evaluator has a frame or a value for the time being, no derivative
is started, and no cell is being computed. -/
structure Graph.Resting (g : Graph) : Prop where
  books : ∀ i, (Evaluator.of i g).Resting
  started : g.derivatives.inProgress = []
  forcing : ∀ cell, g.isForcing cell = false

structure Walk.Resting (w : Walk) : Prop where
  results : w.results.Resting
  started : w.remembered.inProgress = []

namespace Graph

variable {g g' : Graph}

theorem Balanced.resting (h : g.Balanced g') (rest : g.Resting) (tidy : g'.Tidy) : g'.Resting where
  books i := (h.books i).resting (rest.books i) (tidy.orderly i)
  started := h.derivatives.started.trans rest.started
  forcing cell := (h.forcing cell).trans (rest.forcing cell)

theorem Resting.become (h : g.Resting) (n other : NodeId) : (g.become n other).Resting where
  books i := by
    rw [Evaluator.of_become]
    exact (h.books i).forget n
  started := h.started
  forcing := h.forcing

theorem initial_tidy : ({} : Graph).Tidy where
  room := by decide
  orderly i := by cases i <;> exact Evaluation.Resting.initial.orderly
  active i _ n d known := by cases i <;> cases (Table.get?_empty n).symm.trans known
  known i n v known := by
    have none : ¬ ({} : Evaluation i.Result).Knows n v := by
      rintro (stored | ⟨_, provisional, _⟩)
      · cases (Table.get?_empty n).symm.trans stored
      · cases (Table.get?_empty n).symm.trans provisional
    cases i <;> exact absurd known none
  found {n c d} known := by
    have none : ({} : Memo NodeId).find? n c = none := by simp [Memo.find?]
    cases none.symm.trans known

theorem initial_resting : ({} : Graph).Resting where
  books i := by cases i <;> exact .initial
  started := rfl
  forcing cell := by simp [isForcing]

end Graph

theorem Walk.Balanced.resting {w w' : Walk} (h : w.Balanced w') (rest : w.Resting)
    (tidy : w'.Tidy) : w'.Resting :=
  ⟨h.results.resting rest.results tidy.orderly, h.remembered.started.trans rest.started⟩

theorem Bindings.mem_put {α : Type} {name : String} {a : α} {bindings : Bindings α}
    {b : String × α} (member : b ∈ bindings.put name a) : b = (name, a) ∨ b ∈ bindings := by
  rcases List.mem_cons.mp member with same | kept
  · exact .inl same
  · exact .inr (List.mem_filter.mp kept).1

theorem mem_of_lookup {α : Type} {name : String} {a : α} {bindings : Bindings α}
    (found : bindings.lookup name = some a) : (name, a) ∈ bindings := by
  induction bindings with
  | nil => cases found
  | cons b bindings ih =>
    obtain ⟨other, a'⟩ := b
    rw [List.lookup_cons] at found
    split at found
    · next same =>
      cases found
      rw [eq_of_beq same]
      exact List.mem_cons_self
    · exact List.mem_cons_of_mem _ (ih found)

namespace Session

variable {s s' : Session}

/-- The books of a session are in order, and nothing is in progress. -/
structure Resting (s : Session) : Prop where
  tidy : s.graph.Tidy
  graph : s.graph.Resting
  walks : ∀ {name w}, (name, w) ∈ s.walks → w.Tidy ∧ w.Resting

/-- The sessions that operations lead to, whatever came of each. -/
inductive Reached : Session → Prop where
  | start : Reached {}
  | perform {s s' : Session} {result : Except Fault Reply} (bound : Nat) (op : Operation) :
      Reached s → perform bound op s = some (result, s') → Reached s'

/-- The run leaves a resting session, however it ends. -/
def Rests {α : Type} (r : Act α) : Prop :=
  ∀ s result s', s.Resting → r s = some (result, s') → s'.Resting

namespace Rests

variable {α β : Type} {r : Act α} {f : α → Act β}

theorem ofExcept (result : Except Fault α) : Rests (RunOf.ofExcept result) := by
  rintro s _ _ rest ⟨⟩
  exact rest

theorem read (p : Session → α) : Rests (RunOf.read p) := by
  rintro s _ _ rest ⟨⟩
  exact rest

theorem update {p : Session → Session} (h : ∀ s, s.Resting → (p s).Resting) :
    Rests (RunOf.update p) := by
  rintro s _ _ rest ⟨⟩
  exact h s rest

theorem bind (hr : Rests r) (hf : ∀ a, Rests (f a)) : Rests (r >>= f) := by
  intro s result s' rest ends
  rw [RunOf.bind_run] at ends
  obtain ⟨⟨first, s₁⟩, began, ends⟩ := Option.bind_eq_some_iff.mp ends
  have rest₁ := hr s first s₁ rest began
  cases first with
  | error fault =>
    cases ends
    exact rest₁
  | ok a => exact hf a s₁ result s' rest₁ ends

/-- A run on the graph leaves the walks alone. -/
theorem onGraph_eq {r : Run α} {s s' : Session} {result : Except Fault α}
    (ends : onGraph r s = some (result, s')) :
    ∃ g, r s.graph = some (result, g) ∧ s' = { s with graph := g } := by
  obtain ⟨⟨_, g⟩, ran, same⟩ := Option.map_eq_some_iff.mp ends
  cases same
  exact ⟨g, ran, rfl⟩

theorem onGraph {r : Run α} (keeps : balanced.Keeps r) : Rests (onGraph r) := by
  intro s result s' rest ends
  obtain ⟨g, ran, rfl⟩ := onGraph_eq ends
  obtain ⟨_, step, tidy, -⟩ := keeps _ rest.tidy _ _ ran
  exact ⟨tidy, step.resting rest.graph tidy, rest.walks⟩

theorem journaled {r : Run α} (log : Option Level) (keeps : balanced.Keeps r) :
    Rests (journaled log r) := by
  refine onGraph (.bind (.update fun g tidy => tidy.journal _) fun _ =>
    .bind (fun g tidy => .imp (.outcome (keeps g tidy)) fun _ _ _ _ _ _ => trivial) fun ended =>
    fun g tidy => .read ?_)
  have closed := tidy.journal none
  exact .update (y := ()) closed.1 (.given closed.2 fun _ _ => .pure closed.2 trivial)

theorem call {ask : Ask} (h : balanced.Answers ask) (bound : Nat) (name : String) (term : Term)
    (extra : List Value) : Rests (call ask bound name term extra) := by
  intro s result s' rest ends
  cases found : s.walks.lookup name with
  | none =>
    cases (call_unbound ask bound term extra found).symm.trans ends
    exact rest
  | some w =>
    rw [call_eq ask bound term extra found, RunOf.bind_run] at ends
    obtain ⟨⟨node, s₁⟩, began, ends⟩ := Option.bind_eq_some_iff.mp ends
    have named : balanced.Keeps (do (← term.build ask []).language) :=
      balanced_constructive.bind (balanced_constructive.build [] term.uses_true)
        balanced_constructive.language ask h
    obtain ⟨g, _, rfl⟩ := onGraph_eq began
    have rest₁ := Rests.onGraph named _ _ _ rest began
    cases node with
    | error fault =>
      cases ends
      exact rest₁
    | ok n =>
      obtain ⟨tidy, still⟩ := rest.walks (mem_of_lookup found)
      obtain ⟨⟨ended, t⟩, followed, same⟩ := Option.map_eq_some_iff.mp ends
      cases same
      obtain ⟨step, tidy'⟩ :=
        Tour.descend_keeps h extra w.plan bound n _ _ _ ⟨rest₁.tidy, tidy⟩ followed
      refine ⟨tidy'.graph, step.graph.resting rest₁.graph tidy'.graph, fun {name' w'} member => ?_⟩
      rcases Bindings.mem_put member with same | old
      · obtain ⟨rfl, rfl⟩ := Prod.mk.inj same
        exact ⟨tidy'.walk, step.walk.resting still tidy'.walk⟩
      · exact rest.walks old

end Rests

/-- Operations leave nothing in progress. -/
theorem rests_operative :
    Operative fun _ r => ∀ ask, balanced.Answers ask → Rests (r ask) where
  given result _ _ := .ofExcept result
  read p _ _ := .read p
  bind hr hf ask h := .bind (hr ask h) fun a => hf a ask h
  graph assembled ask h := .onGraph (assembled _ balanced_constructive ask h)
  journaled log assembled ask h := .journaled log (assembled _ balanced_constructive ask h)
  name x n _ _ := .onGraph (.update fun g tidy => ⟨.congr (Graph.evolves_of_eq rfl rfl) (fun _ => rfl)
    (fun i => by cases i <;> rfl) rfl, tidy.congr (Nat.le_refl _) rfl (fun i => by cases i <;> rfl) rfl⟩)
  parser name parser _ _ := .update fun s rest => ⟨rest.tidy, rest.graph, rest.walks⟩
  walk name plan _ _ := .update fun s rest => by
    refine ⟨rest.tidy, rest.graph, fun member => ?_⟩
    rcases Bindings.mem_put member with same | old
    · obtain ⟨-, rfl⟩ := Prod.mk.inj same
      refine ⟨⟨Evaluation.Resting.initial.orderly, fun {m c v} known => ?_⟩, .initial, rfl⟩
      have none : ({} : Memo Value).find? m c = none := by simp [Memo.find?]
      cases none.symm.trans known
    · exact rest.walks old
  become n other _ _ := .update fun s rest => by
    refine ⟨rest.tidy.become other fun _ => (rest.graph.books .compact).provisional n,
      rest.graph.become n other, fun {name w} member => ?_⟩
    obtain ⟨⟨_, w₀⟩, old, same⟩ := List.mem_map.mp member
    obtain ⟨rfl, rfl⟩ := Prod.mk.inj same
    obtain ⟨tidy, still⟩ := rest.walks old
    exact ⟨⟨tidy.orderly.forget n, fun known => tidy.hashed (Memo.find?_forget known)⟩,
      still.results.forget n, still.started⟩

theorem operate_rests {ask : Ask} (h : balanced.Answers ask) (bound : Nat) (op : Operation) :
    Rests (operate ask bound op) := by
  by_cases still : ∀ name term extra, op ≠ .call name term extra
  · exact rests_operative.operate bound still ask h
  · push Not at still
    obtain ⟨name, term, extra, rfl⟩ := still
    exact .call h bound name term extra

/-- Whatever was done, nothing is in progress. -/
theorem Reached.resting {s : Session} (h : s.Reached) : s.Resting := by
  induction h with
  | start => exact ⟨Graph.initial_tidy, Graph.initial_resting, fun none => nomatch none⟩
  | perform bound op _ ends ih =>
    exact operate_rests (Engine.run_balances bound).keeps bound op _ _ _ ih ends

end Session

end GrammarGraph
