import GrammarGraph.Proofs.Census.Counting
import GrammarGraph.Proofs.Census.Recording
import GrammarGraph.Proofs.Census.Rewriting

/-! Visits end. A visit enters each node on its level at most once at a time, and there are only so
many, so it cannot go ever deeper. The value of the node that it starts with is stored. -/
namespace GrammarGraph

open Evaluation (Visited)

variable {C : Finset Value} {roots : Finset NodeId} {visit : Visit} {own : Origin → Prop}
  {x x₁ : Census} {g g₁ : Graph} {n k : NodeId} {t : Nat}

def Visit.entered (visit : Visit) (x : Census) (g : Graph) : Finset NodeId :=
  (x.upTo g visit.level).filter fun n => ((visit.evaluator.of g).active.get? n).isSome

namespace Census

theorem mem_entered : n ∈ visit.entered x g ↔ (n < g.nodes.size ∧ x.level n ≤ visit.level) ∧
    ∃ d, (visit.evaluator.of g).active.get? n = some d := by
  rw [Visit.entered, Finset.mem_filter, mem_upTo, Option.isSome_iff_exists]

theorem Later.entered (later : Later (some visit) own x g x₁ g₁) :
    (visit.entered x g).card ≤ (visit.entered x₁ g₁).card := by
  refine Finset.card_le_card fun n member => ?_
  rw [mem_entered] at member ⊢
  obtain ⟨⟨lt, level⟩, active⟩ := member
  rw [later.level n lt, (later.books _).active]
  exact ⟨⟨later.lt lt, level⟩, active⟩

theorem card_entered_enter (lt : n < g.nodes.size) (level : x.level n = visit.level)
    (idle : (visit.evaluator.of g).active.get? n = none) :
    (visit.entered x (visit.evaluator.held.modify (Evaluation.enter n) g)).card =
      (visit.entered x g).card + 1 := by
  have new : n ∉ visit.entered x g := by
    rw [mem_entered, idle]
    exact fun ⟨_, _, active⟩ => nomatch active
  rw [← Finset.card_insert_of_notMem new]
  congr 1
  ext m
  rw [Finset.mem_insert, mem_entered, mem_entered, Evaluator.nodes_modify, Evaluator.of_modify,
    Evaluation.active_enter]
  by_cases same : m = n
  · subst same
    simp [lt, Nat.le_of_eq level]
  · simp [same]

theorem card_entered_lt (h : Counted C roots x g) (lt : n < g.nodes.size)
    (level : x.level n = visit.level) (idle : (visit.evaluator.of g).active.get? n = none) :
    (visit.entered x g).card < population roots.card C.card visit.level := by
  refine Nat.lt_of_lt_of_le (Finset.card_lt_card ⟨Finset.filter_subset _ _, fun all => ?_⟩)
    (card_upTo_le h visit.level)
  obtain ⟨-, d, active⟩ := mem_entered.mp (all (mem_upTo.mpr ⟨lt, Nat.le_of_eq level⟩))
  cases active.symm.trans idle

theorem rule {depth : Nat} (h : Visiting C roots visit (mine visit.evaluator n) x g n)
    (fresh : visit.evaluator = .compact → g.Engaged (.compacted n) ∧
      x.Vacant g (.compacted n) ∧ depth ≤ (visit.evaluator.of g).lowlink ∧
      ∀ {m d}, g.compacted.active.get? m = some d → visit.floor ≤ d →
        m = n ∨ g.Anchored m ∧ Relation.TransGen g.Passes m n) :
    (counting C roots (some visit) (mine visit.evaluator n)).Ends x g
      (fun ask => visit.evaluator.body ask n) fun x' g' v => x'.Records g' n visit.evaluator v ∧
        (visit.evaluator = .compact → x'.Vacant g' (.compacted n) ∨
          depth ≤ (visit.evaluator.of g').lowlink) := by
  obtain ⟨i, floor, level⟩ := visit
  cases i with
  | forest => exact .imp (forest h) fun _ _ _ _ _ hashable => ⟨hashable, nofun⟩
  | nullable => exact .imp (nullable h) fun _ _ _ _ _ _ => ⟨trivial, nofun⟩
  | emptyLike => exact .imp (emptyLike h) fun _ _ _ _ _ _ => ⟨trivial, nofun⟩
  | epsLike =>
    refine .imp (epsLike h) fun x₁ g₁ v later _ ⟨delta, open_⟩ =>
      ⟨⟨fun kind => delta ?_, open_⟩, nofun⟩
    rwa [← Later.kind later h.turn.lt]
  | compact =>
    obtain ⟨engaged, vacant, lowlink, path⟩ := fresh rfl
    refine .imp (compact ⟨h, engaged, vacant, lowlink, path⟩) fun x₁ g₁ m later _ rewritten =>
      ⟨⟨rewritten.lt, ?_, rewritten.refuted, rewritten.rewrites⟩, fun _ => rewritten.once⟩
    rw [Later.level later n h.turn.lt, h.level]
    exact rewritten.level

/-- What an evaluator other than compaction gives for a node that is in progress. -/
theorem default_records {i : Evaluator} (other : i ≠ .compact) :
    ∃ r, i.default n g = some (.ok r, g) ∧ x.Records g n i r := by
  cases i with
  | compact => exact absurd rfl other
  | forest => exact ⟨[], rfl, fun _ none => nomatch none⟩
  | nullable | emptyLike => exact ⟨false, rfl, trivial⟩
  | epsLike => exact ⟨true, rfl, fun _ => rfl, nofun⟩

/-- Compaction does not come back to a node that is in progress. -/
theorem Arrives.fresh {d : Nat} (h : Arrives visit g n) (is : visit.evaluator = .compact)
    (active : (visit.evaluator.of g).active.get? n = some d) (le : visit.floor ≤ d) : False := by
  obtain ⟨i, floor, level⟩ := visit
  cases is
  obtain ⟨anchored, circle⟩ := h rfl active le
  exact anchored.not_circular circle

/-- Nothing was made for a node that is not rewritten yet. -/
theorem vacant_compacted (h : Counted C roots x g) (stored : g.compacted.stored.get? n = none)
    (idle : g.compacted.active.get? n = none) : x.Vacant g (.compacted n) := by
  intro k lt origin
  obtain ⟨-, -, -, status⟩ := h.made k lt n (by rw [origin]; rfl)
  rw [origin] at status
  rcases status with ⟨m, done⟩ | ⟨d, engaged⟩
  · cases done.symm.trans stored
  · cases engaged.symm.trans idle

/-- A node that nothing is known about is entered, evaluated by the rule and left. The value is
stored if the visit starts with the node. -/
theorem fresh_ends (h : Valid C roots (some visit) x g) (lt : n < g.nodes.size)
    (level : x.level n = visit.level) (stored : (visit.evaluator.of g).stored.get? n = none)
    (active : (visit.evaluator.of g).active.get? n = none)
    (provisional : (visit.evaluator.of g).provisional.get? n = none) (arrives : Arrives visit g n)
    (entered : Visiting C roots visit (mine visit.evaluator n) x
      (visit.evaluator.held.modify (Evaluation.enter n) g) n) :
    (counting C roots (some visit) nothing).Ends x g
      (fun ask => Evaluation.demand visit.evaluator.held (visit.evaluator.default n)
        (visit.evaluator.body ask n) n) fun x' g' r => x'.Records g' n visit.evaluator r ∧
          ((visit.evaluator.of g).frames.size = visit.floor →
            (visit.evaluator.of g').stored.get? n = some r) := by
  have holds := h.visit visit rfl
  have fresh : visit.evaluator = .compact →
      (visit.evaluator.held.modify (Evaluation.enter n) g).Engaged (.compacted n) ∧
      x.Vacant (visit.evaluator.held.modify (Evaluation.enter n) g) (.compacted n) ∧
      (visit.evaluator.of g).frames.size ≤
        (visit.evaluator.of (visit.evaluator.held.modify (Evaluation.enter n) g)).lowlink ∧
      ∀ {m d}, (visit.evaluator.held.modify (Evaluation.enter n) g).compacted.active.get? m = some d →
        visit.floor ≤ d → m = n ∨
          (visit.evaluator.held.modify (Evaluation.enter n) g).Anchored m ∧
          Relation.TransGen (visit.evaluator.held.modify (Evaluation.enter n) g).Passes m n := by
    have grown : g.Extends (visit.evaluator.held.modify (Evaluation.enter n) g) :=
      .modify _ fun _ _ known => known
    obtain ⟨i, floor, l⟩ := visit
    rintro rfl
    refine ⟨⟨g.compacted.frames.size, ?_⟩,
      fun k klt => vacant_compacted h.counted stored active k klt, ?_, fun {m d} busy le => ?_⟩
    · exact Evaluation.active_enter.trans (if_pos rfl)
    · rw [Evaluator.of_modify]
      exact Nat.le_of_eq (Evaluation.lowlink_of_frames Evaluation.frames_enter).symm
    · have busy : (g.compacted.enter n).active.get? m = some d := busy
      rw [Evaluation.active_enter] at busy
      split at busy
      · next same => exact .inl same
      · exact .inr ((arrives rfl busy le).imp grown.anchored
          (Relation.TransGen.mono (fun _ _ => grown.passes) _ _))
  obtain ⟨v, g₁, ⟨least, gives⟩, x₁, later, valid, records, once⟩ := rule entered fresh
  have visited := h.visited lt level stored active provisional later valid
  refine ⟨v, _, ⟨least, fun bound le => Evaluator.demand_visited stored active provisional
    (gives bound le)⟩, x₁, later.close visited holds,
    valid.close visited holds level later lt records once, ?_, fun first => ?_⟩
  · exact records.evolves (valid.complete n (later.lt entered.turn.lt))
      (.modify _ fun _ _ => visited.stored_of_stored) fun _ _ => rfl
  · rw [Evaluator.of_modify]
    exact Visited.stored_self (first ▸ visited.le_lowlink)

/-- A visit answers for a node up to its level, if it goes on once the node is entered. -/
theorem visit_step (lower : Answers C roots visit.turn) (h : Valid C roots (some visit) x g)
    (busy : Busy x g visit.turn) (lt : n < g.nodes.size) (level : x.level n ≤ visit.level)
    (arrives : Arrives visit g n)
    (again : x.level n = visit.level → (visit.evaluator.of g).active.get? n = none →
      Turn C roots (some visit) visit.turn x
        (visit.evaluator.held.modify (Evaluation.enter n) g) n →
      Recurs C roots visit (mine visit.evaluator n) x
        (visit.evaluator.held.modify (Evaluation.enter n) g)) :
    (counting C roots (some visit) nothing).Ends x g (fun ask => visit.evaluator.ask ask n)
      fun x' g' r => x'.Records g' n visit.evaluator r ∧
        ((visit.evaluator.of g).frames.size = visit.floor →
          (visit.evaluator.of g').stored.get? n = some r) := by
  have holds := h.visit visit rfl
  rcases Nat.lt_or_eq_of_le level with below | level
  · refine .imp (h.ends (lower.evaluate visit.evaluator h.whole busy lt ?_))
      fun _ _ _ _ valid ⟨_, _, stored⟩ =>
        ⟨(Valid.counted valid |>.results _ (.inl stored)).2, fun _ => stored⟩
    rw [Visit.turn]
    omega
  refine .evaluator ?_
  cases stored : (visit.evaluator.of g).stored.get? n with
  | some r =>
    exact ⟨r, g, ⟨0, fun _ _ => Evaluation.demand_stored stored⟩, x, .refl _ _ x g, h,
      (h.counted.results _ (.inl stored)).2, fun _ => stored⟩
  | none =>
    cases active : (visit.evaluator.of g).active.get? n with
    | some depth =>
      have floor := (holds.active active).2.2 level
      have inside := (h.counted.orderly _).active active
      obtain ⟨later, valid⟩ := h.rely floor inside
      obtain ⟨r, default, records⟩ := default_records (x := x) (n := n)
        (g := visit.evaluator.held.modify (Evaluation.reliedOn depth) g)
        fun is => arrives.fresh is active floor
      refine ⟨r, _, ⟨0, fun _ _ => (Evaluation.demand_active stored active).trans default⟩, x,
        later, valid, records, fun first => ?_⟩
      omega
    | none =>
      cases provisional : (visit.evaluator.of g).provisional.get? n with
      | some p =>
        have floor := (holds.provisional provisional).2.2 level
        have inside := (h.counted.orderly _).lowlink_lt provisional
        obtain ⟨later, valid⟩ := h.rely floor inside
        have records := (h.counted.results _ (.inr ⟨p, provisional, rfl⟩)).2
        refine ⟨p.value, _, ⟨0, fun _ _ => Evaluation.demand_provisional stored active provisional⟩,
          x, later, valid, records.evolves (h.complete n lt) later.extends_ fun _ _ => rfl,
          fun first => ?_⟩
        omega
      | none =>
        have turn : Turn C roots (some visit) visit.turn x
            (visit.evaluator.held.modify (Evaluation.enter n) g) n := by
          refine ⟨h.enter lt level stored provisional,
            Busy.enter lt level busy (Nat.le_refl _), ?_, ?_, ?_⟩
          · rwa [Evaluator.nodes_modify]
          · have index : 2 ≤ visit.evaluator.index := by cases visit.evaluator <;> decide
            rw [Visit.turn, level]
            omega
          · rintro _ ⟨⟩
            exact Nat.le_refl _
        exact fresh_ends h lt level stored active provisional arrives
          ⟨turn, lower, again level active turn, level⟩

theorem visit_ends (lower : Answers C roots visit.turn) (m : Nat) {x : Census} {g : Graph}
    {n : NodeId} (h : Valid C roots (some visit) x g) (busy : Busy x g visit.turn)
    (lt : n < g.nodes.size) (level : x.level n ≤ visit.level) (arrives : Arrives visit g n)
    (enough : population roots.card C.card visit.level ≤ (visit.entered x g).card + m) :
    (counting C roots (some visit) nothing).Ends x g (fun ask => visit.evaluator.ask ask n)
      fun x' g' r => x'.Records g' n visit.evaluator r ∧
        ((visit.evaluator.of g).frames.size = visit.floor →
          (visit.evaluator.of g').stored.get? n = some r) := by
  induction m generalizing x g n with
  | zero =>
    refine visit_step lower h busy lt level arrives fun level idle _ => ?_
    exact absurd (card_entered_lt h.counted lt level idle) (Nat.not_lt_of_le enough)
  | succ m ih =>
    refine visit_step lower h busy lt level arrives fun same idle turn => ?_
    intro x₁ g₁ k later valid klt klevel arrives'
    have more := later.entered
    rw [card_entered_enter lt same idle] at more
    exact .imp (ih valid (later.busy turn.valid valid turn.visit turn.busy) klt klevel arrives'
      (by omega)) fun _ _ _ _ _ ⟨records, _⟩ => records

theorem evaluate_step (i : Evaluator) (lower : Answers C roots t) (h : Valid C roots none x g)
    (busy : Busy x g (t + 1)) (lt : n < g.nodes.size) (turn : 8 * x.level n + i.index = t) :
    (counting C roots none nothing).Ends x g (fun ask => i.ask ask n) fun x' g' r =>
      x'.Fits g' (x.level n) i r ∧ (i.of g').stored.get? n = some r := by
  let visit : Visit := ⟨i, (i.of g).frames.size, x.level n⟩
  have is : visit.turn = t := turn
  have lower' : Answers C roots visit.turn := is ▸ lower
  have starts : Valid C roots (some visit) x g := by
    refine ⟨h.counted, h.complete, ?_⟩
    rintro _ ⟨⟩
    refine ⟨Nat.le_refl _, fun d frame le there => ?_, fun {m d} known => ?_, fun {m p} known => ?_⟩
    · exact absurd (Array.getElem?_eq_some_iff.mp there).1 (Nat.not_lt_of_le le)
    · obtain ⟨mlt, le⟩ := busy.active i known
      exact ⟨mlt, by dsimp only [visit]; omega, fun same => by dsimp only [visit] at same; omega⟩
    · obtain ⟨mlt, le⟩ := busy.provisional i known
      exact ⟨mlt, by dsimp only [visit]; omega, fun same => by dsimp only [visit] at same; omega⟩
  have arrives : Arrives visit g n := by
    rintro rfl m d active le
    exact absurd ((h.counted.orderly .compact).active active) (Nat.not_lt_of_le le)
  obtain ⟨r, g', gives, x', later, valid, records, stored⟩ :=
    visit_ends lower' _ starts (is ▸ busy.mono (Nat.le_succ t)) lt
      (Nat.le_refl _) arrives (Nat.le_add_left _ _)
  refine ⟨r, g', gives, x', { later with books := fun j => ?_ }, valid.whole,
    later.level n lt ▸ records.fits, stored rfl⟩
  have books := later.books j
  have base : Visit.base (some visit) j (j.of g) = (j.of g).frames.size := by
    by_cases same : j = i
    · subst same
      exact base_visit (starts.visit visit rfl)
    · exact if_neg fun is => same is.symm
  rw [base] at books
  exact books

end Census

end GrammarGraph
