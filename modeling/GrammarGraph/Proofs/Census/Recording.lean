import GrammarGraph.Proofs.Census.Turns

/-! What becomes of a census when a node is entered or left in a visit, when the value of an
unfinished node is asked for, and when a value is recorded. Only the books of one evaluator
change. -/
namespace GrammarGraph

open Evaluation (Visited)

variable {C : Finset Value} {roots : Finset NodeId} {visit : Visit} {own : Origin → Prop}
  {x x₁ : Census} {g g₁ : Graph} {n : NodeId} {i : Evaluator}

theorem Counted.modify (h : Counted C roots x g) {f : Evaluation i.Result → Evaluation i.Result}
    (knows : ∀ {m u}, (f (i.of g)).Knows m u →
      (i.of g).Knows m u ∨ (g.node m).kind ≠ .placeholder ∧ x.Records g m i u)
    (stored : ∀ m u, (i.of g).stored.get? m = some u → (f (i.of g)).stored.get? m = some u)
    (status : ∀ {m d}, (i.of g).active.get? m = some d →
      (∃ d', (f (i.of g)).active.get? m = some d') ∨ (∃ u, (f (i.of g)).stored.get? m = some u) ∨
        (i = .compact → x.Vacant g (.compacted m)))
    (orderly : (f (i.of g)).Orderly) : Counted C roots x (i.held.modify f g) := by
  have others {j : Evaluator} (other : j ≠ i) : j.of (i.held.modify f g) = j.of g :=
    Evaluator.of_modify_of_ne f other
  refine h.books (by simp) (fun _ => by simp [Graph.suspension?]) (by simp) (fun k lt ended => ?_)
    (fun found => h.derivatives (by simpa using found)) (fun j m u known => ?_) (.modify f stored)
    fun j => ?_
  · cases origin : x.origin k with
    | built => exact .inl trivial
    | derived c m part =>
      rw [origin] at ended
      simp only [Graph.Done, Graph.Engaged, Evaluator.derivatives_modify] at ended ⊢
      exact ended
    | compacted m =>
      rw [origin] at ended
      by_cases same : i = .compact
      · subst same
        rcases ended with ⟨u, done⟩ | ⟨d, engaged⟩
        · exact .inl ⟨u, stored m u done⟩
        · rcases status engaged with ⟨d', engaged⟩ | ⟨u, done⟩ | vacant
          · exact .inr ⟨d', engaged⟩
          · exact .inl ⟨u, done⟩
          · exact absurd origin (vacant rfl k lt)
      · have same : (i.held.modify f g).compacted = g.compacted := others fun is => same is.symm
        rw [Graph.Done, Graph.Engaged, same]
        exact ended
  · by_cases same : j = i
    · subst same
      rw [Evaluator.of_modify] at known
      exact (knows known).elim (h.results j) id
    · rw [others same] at known
      exact h.results j known
  · by_cases same : j = i
    · subst same
      rw [Evaluator.of_modify]
      exact orderly
    · rw [others same]
      exact h.orderly j

namespace Census

theorem complete_modify (h : g.Complete) (f : Evaluation i.Result → Evaluation i.Result) :
    (i.held.modify f g).Complete := by
  intro k lt
  rw [Evaluator.nodes_modify] at lt
  rw [Graph.node_congr (Evaluator.nodes_modify f)]
  exact h k lt

/-- The floor of a visit is the depth down to which its books may change. -/
theorem base_visit (holds : visit.Holds x g) :
    Visit.base (some visit) visit.evaluator (visit.evaluator.of g) = visit.floor := by
  rw [Visit.base, if_pos rfl]
  exact Nat.min_eq_left holds.floor

/-- Only the books of the evaluator of a visit changed, and only above its floor. -/
theorem Later.books_only {f : Evaluation visit.evaluator.Result → Evaluation visit.evaluator.Result}
    (holds : visit.Holds x g)
    (above : (visit.evaluator.of g).Above visit.floor (f (visit.evaluator.of g))) :
    Later (some visit) own x g x (visit.evaluator.held.modify f g) := by
  refine ⟨Evaluator.evolves_modify f, .modify f above.stored, fun _ _ => rfl, fun _ _ => rfl,
    Evaluator.isForcing_modify f, by simp, fun _ => by simp, fun j => ?_, fun k le lt => ?_⟩
  · by_cases same : j = visit.evaluator
    · subst same
      rw [Evaluator.of_modify, base_visit holds]
      exact above
    · rw [Evaluator.of_modify_of_ne f same]
      exact .refl _ _
  · rw [Evaluator.nodes_modify] at lt
    exact absurd lt (Nat.not_lt_of_le le)

/-- An unfinished node was asked for, or a value that leans on one. -/
theorem Valid.rely (h : Valid C roots (some visit) x g) {depth : Nat} (floor : visit.floor ≤ depth)
    (lt : depth < (visit.evaluator.of g).frames.size) :
    Later (some visit) nothing x g x (visit.evaluator.held.modify (Evaluation.reliedOn depth) g) ∧
      Valid C roots (some visit) x
        (visit.evaluator.held.modify (Evaluation.reliedOn depth) g) := by
  have holds := h.visit visit rfl
  refine ⟨.books_only holds (.reliedOn _ (.inl (Nat.lt_of_le_of_lt floor lt)) depth),
    h.counted.modify (fun known => .inl known) (fun _ _ known => known)
      (fun {m d} active => .inl ⟨d, active⟩) ((h.counted.orderly _).reliedOn depth),
    complete_modify h.complete _, ?_⟩
  rintro _ ⟨⟩
  refine ⟨?_, ?_, fun {m d} known => ?_, fun {m p} known => ?_⟩
  · rw [Evaluator.of_modify, Evaluation.size_frames_reliedOn]
    exact holds.floor
  · rw [Evaluator.of_modify]
    exact holds.upright.reliedOn floor
  · rw [Evaluator.of_modify] at known
    rw [Evaluator.nodes_modify]
    exact holds.active known
  · rw [Evaluator.of_modify] at known
    rw [Evaluator.nodes_modify]
    exact holds.provisional known

section Enter

variable (h : Valid C roots (some visit) x g) (lt : n < g.nodes.size)
  (level : x.level n = visit.level) (stored : (visit.evaluator.of g).stored.get? n = none)
  (active : (visit.evaluator.of g).active.get? n = none)
  (provisional : (visit.evaluator.of g).provisional.get? n = none)
include h lt level stored provisional

theorem Valid.enter : Valid C roots (some visit) x
    (visit.evaluator.held.modify (Evaluation.enter n) g) := by
  have holds := h.visit visit rfl
  refine ⟨h.counted.modify (fun known => .inl known) (fun _ _ known => known)
      (fun {m d} active => .inl ?_) ((h.counted.orderly _).enter stored provisional),
    complete_modify h.complete _, ?_⟩
  · rw [Evaluation.active_enter]
    split
    · exact ⟨_, rfl⟩
    · exact ⟨d, active⟩
  rintro _ ⟨⟩
  refine ⟨?_, ?_, fun {m d} known => ?_, fun {m p} known => ?_⟩
  · rw [Evaluator.of_modify, Evaluation.frames_enter, Array.size_push]
    exact Nat.le_succ_of_le holds.floor
  · rw [Evaluator.of_modify]
    exact holds.upright.enter holds.floor
  · rw [Evaluator.of_modify, Evaluation.active_enter] at known
    rw [Evaluator.nodes_modify]
    split at known
    · next same =>
      cases known
      rw [same]
      exact ⟨lt, Nat.le_of_eq level.symm, fun _ => holds.floor⟩
    · exact holds.active known
  · rw [Evaluator.of_modify] at known
    rw [Evaluator.nodes_modify]
    exact holds.provisional known

omit h stored provisional in
theorem Busy.enter {t : Nat} (busy : Busy x g t) (turn : t ≤ visit.turn) :
    Busy x (visit.evaluator.held.modify (Evaluation.enter n) g) t := by
  refine ⟨fun {cell s} held suspended => ?_, fun member => ?_, fun j m d known => ?_,
    fun j m p known => ?_⟩
  · rw [Evaluator.isForcing_modify] at held
    exact busy.forcing held (by simpa [Graph.suspension?] using suspended)
  · rw [Evaluator.derivatives_modify] at member
    rw [Evaluator.nodes_modify]
    exact busy.started member
  · rw [Evaluator.nodes_modify]
    by_cases same : j = visit.evaluator
    · subst same
      rw [Evaluator.of_modify, Evaluation.active_enter] at known
      split at known
      · next this =>
        rw [this, level]
        exact ⟨lt, turn⟩
      · exact busy.active _ known
    · rw [Evaluator.of_modify_of_ne _ same] at known
      exact busy.active j known
  · rw [Evaluator.nodes_modify]
    by_cases same : j = visit.evaluator
    · subst same
      rw [Evaluator.of_modify] at known
      exact busy.provisional _ known
    · rw [Evaluator.of_modify_of_ne _ same] at known
      exact busy.provisional j known

include active

theorem Valid.visited (later : Later (some visit) own x
      (visit.evaluator.held.modify (Evaluation.enter n) g) x₁ g₁)
    (valid : Valid C roots (some visit) x₁ g₁) :
    Visited visit.floor n (visit.evaluator.of g) (visit.evaluator.of g₁) where
  above := by
    have books := later.books visit.evaluator
    rw [base_visit ((h.enter lt level stored provisional).visit visit rfl),
      Evaluator.of_modify] at books
    exact books
  before := h.counted.orderly _
  after := valid.counted.orderly _
  upright := (valid.visit visit rfl).upright
  floor := (h.visit visit rfl).floor
  unknown := stored
  idle := active

end Enter

def mine : Evaluator → NodeId → Origin → Prop
  | .compact, n => (· = .compacted n)
  | _, _ => nothing

theorem mine_iff {o : Origin} : mine i n o ↔ i = .compact ∧ o = .compacted n := by
  cases i <;> simp [mine]

/-- What was in progress when a node was entered is not made by its visit. -/
theorem not_mine {o : Origin} (idle : (i.of g).active.get? n = none) (engaged : g.Engaged o) :
    ¬ mine i n o := by
  rw [mine_iff]
  rintro ⟨rfl, rfl⟩
  obtain ⟨d, active⟩ := engaged
  cases active.symm.trans idle

theorem engaged_enter {o : Origin} (engaged : g.Engaged o) :
    (i.held.modify (Evaluation.enter n) g).Engaged o := by
  cases o with
  | built => trivial
  | derived c m part =>
    rw [Graph.Engaged, Evaluator.derivatives_modify]
    exact engaged
  | compacted m =>
    obtain ⟨d, active⟩ := engaged
    by_cases same : i = .compact
    · subst same
      change ∃ d, (g.compacted.enter n).active.get? m = some d
      rw [Evaluation.active_enter]
      split
      · exact ⟨_, rfl⟩
      · exact ⟨d, active⟩
    · have same : (i.held.modify (Evaluation.enter n) g).compacted = g.compacted :=
        Evaluator.of_modify_of_ne (j := .compact) _ fun is => same is.symm
      exact ⟨d, by rw [same]; exact active⟩

theorem Later.close {v : visit.evaluator.Result}
    (visited : Visited visit.floor n (visit.evaluator.of g) (visit.evaluator.of g₁))
    (holds : visit.Holds x g)
    (later : Later (some visit) (mine visit.evaluator n) x
      (visit.evaluator.held.modify (Evaluation.enter n) g) x₁ g₁) :
    Later (some visit) nothing x g x₁ (visit.evaluator.held.modify
      (Evaluation.close n v (visit.evaluator.of g).frames.size) g₁) := by
  exact
    { evolves :=
        (Evaluator.evolves_modify _).trans (later.evolves.trans (Evaluator.evolves_modify _))
      extends_ := (Graph.Extends.modify _ fun _ _ known => known).trans
        (later.extends_.trans (.modify _ fun _ _ => visited.stored_of_stored))
      level := fun k lt => later.level k (by rwa [Evaluator.nodes_modify])
      origin := fun k lt => later.origin k (by rwa [Evaluator.nodes_modify])
      forcing := fun cell => by
        rw [Evaluator.isForcing_modify, later.forcing, Evaluator.isForcing_modify]
      started := by simpa using later.started
      pending := fun started => by simpa using later.pending (by simpa using started)
      books := fun j => by
        by_cases same : j = visit.evaluator
        · subst same
          rw [Evaluator.of_modify, base_visit holds]
          exact visited.above_close v
        · have books := later.books j
          rw [Evaluator.of_modify_of_ne _ same] at books ⊢
          exact books
      fresh := fun k le lt engaged => by
        rw [Evaluator.nodes_modify] at lt
        exact absurd (later.fresh k (by rwa [Evaluator.nodes_modify]) lt (engaged_enter engaged))
          (not_mine visited.idle engaged) }

/-- The value of a node is recorded when the node is left. Where a node was made for it, it must
not lean on anything unfinished. -/
theorem Valid.close {v : visit.evaluator.Result}
    (visited : Visited visit.floor n (visit.evaluator.of g) (visit.evaluator.of g₁))
    (holds : visit.Holds x g) (level : x.level n = visit.level)
    (later : Later (some visit) (mine visit.evaluator n) x
      (visit.evaluator.held.modify (Evaluation.enter n) g) x₁ g₁)
    (valid : Valid C roots (some visit) x₁ g₁) (lt : n < g.nodes.size)
    (records : x₁.Records g₁ n visit.evaluator v)
    (once : visit.evaluator = .compact → x₁.Vacant g₁ (.compacted n) ∨
      (visit.evaluator.of g).frames.size ≤ (visit.evaluator.of g₁).lowlink) :
    Valid C roots (some visit) x₁ (visit.evaluator.held.modify
      (Evaluation.close n v (visit.evaluator.of g).frames.size) g₁) := by
  have lt₁ : n < g₁.nodes.size := later.lt (by rwa [Evaluator.nodes_modify])
  have holds₁ := valid.visit visit rfl
  have above := visited.above_close v
  refine ⟨valid.counted.modify (fun {m u} known => ?_) (fun m u => visited.stored_of_stored)
      (fun {m d} active => ?_) (visited.orderly_close v), complete_modify valid.complete _, ?_⟩
  · refine (Visited.knows_close known).imp_right ?_
    rintro ⟨rfl, rfl⟩
    exact ⟨valid.complete m lt₁, records⟩
  · rw [visited.above.active, Evaluation.active_enter] at active
    split at active
    · next same =>
      subst same
      refine .inr ?_
      by_cases compact : visit.evaluator = .compact
      · rcases once compact with vacant | upright
        · exact .inr fun _ => vacant
        · exact .inl ⟨v, Visited.stored_self upright⟩
      · exact .inr fun is => absurd is compact
    · exact .inl ⟨d, by rw [above.active]; exact active⟩
  rintro _ ⟨⟩
  have entry {m : NodeId} {d : Nat} (k : m < g.nodes.size ∧ visit.level ≤ x.level m ∧
      (x.level m = visit.level → visit.floor ≤ d)) : m < g₁.nodes.size ∧
        visit.level ≤ x₁.level m ∧ (x₁.level m = visit.level → visit.floor ≤ d) := by
    have lt : m < (visit.evaluator.held.modify (Evaluation.enter n) g).nodes.size := by
      rw [Evaluator.nodes_modify]
      exact k.1
    rw [later.level m lt]
    exact ⟨later.lt lt, k.2⟩
  refine ⟨?_, ?_, fun {m d} known => ?_, fun {m p} known => ?_⟩
  · rw [Evaluator.of_modify, above.size]
    exact holds.floor
  · rw [Evaluator.of_modify]
    exact visited.upright_close v
  · rw [Evaluator.of_modify, above.active] at known
    rw [Evaluator.nodes_modify]
    exact entry (holds.active known)
  · rw [Evaluator.of_modify] at known
    rw [Evaluator.nodes_modify]
    rcases visited.provisional_close known with known | ⟨rfl, floor⟩
    · exact holds₁.provisional known
    · have same : x₁.level m = visit.level :=
        (later.level m (by rwa [Evaluator.nodes_modify])).trans level
      exact ⟨lt₁, Nat.le_of_eq same.symm, fun _ => floor⟩

end Census

end GrammarGraph
