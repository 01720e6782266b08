import GrammarGraph.Proofs.Census.Answers
import GrammarGraph.Proofs.Gauge.Survey
import GrammarGraph.Proofs.Reach

/-! Queries while nothing is in progress. A survey ends as well: all that it meets lies on the level
of its root or below, and it meets no node twice. -/
namespace GrammarGraph

/-- Nothing is in progress. -/
structure Graph.Still (g : Graph) : Prop where
  forcing : ∀ cell, g.isForcing cell = false
  started : g.derivatives.inProgress = []
  active : ∀ i n, (Evaluator.of i g).active.get? n = none
  provisional : ∀ i n, (Evaluator.of i g).provisional.get? n = none

namespace Census

variable {C : Finset Value} {roots : Finset NodeId} {x x' : Census} {g g' : Graph} {n k : NodeId}
  {c : Value} {side : Side} {l : Nat}

theorem Busy.of_still (still : g.Still) (t : Nat) : Busy x g t where
  forcing {cell s} held _ := by rw [still.forcing] at held; cases held
  started member := by rw [still.started] at member; cases member
  active i n d known := by rw [still.active] at known; cases known
  provisional i n p known := by rw [still.provisional] at known; cases known

/-- The census is right between queries. -/
structure Rested (C : Finset Value) (roots : Finset NodeId) (x : Census) (g : Graph) : Prop where
  valid : Valid C roots none x g
  still : g.Still

/-- The regime of a census between queries. -/
def resting (C : Finset Value) (roots : Finset NodeId) : Regime Census where
  Valid := Rested C roots
  Later := Later none nothing
  refl := .refl none nothing
  trans := .trans

namespace Rested

variable (h : Rested C roots x g)
include h

theorem ends {α : Type} {r : Ask → Run α} {Q : Census → Graph → α → Prop}
    (ends : (counting C roots none nothing).Ends x g r Q) : (resting C roots).Ends x g r Q :=
  let ⟨a, g', gives, x', later, valid, q⟩ := ends
  ⟨a, g', gives, x', later, ⟨valid, fun cell => (later.forcing cell).trans (h.still.forcing cell),
    later.started.trans h.still.started, fun i n => ((later.books i).active n).trans (h.still.active i n),
    fun i n => ((later.books i).provisional_eq (h.valid.counted.orderly i) (valid.counted.orderly i)
      n).trans (h.still.provisional i n)⟩, q⟩

theorem busy (t : Nat) : Busy x g t :=
  .of_still h.still t

theorem child? (lt : n < g.nodes.size) (member : side ∈ (g.node n).sides) :
    (resting C roots).Ends x g (fun ask => ask.child? n side) fun x' g' child =>
      ∃ k, child = some k ∧ k < g'.nodes.size ∧ x'.level k ≤ x.level n ∧
        (g'.node n).slot side = .node k := by
  refine .imp (.gives (h.ends
    ((answers C roots _).child h.valid (h.busy _) lt member (Nat.le_refl _)))) ?_
  rintro x' g' _ later - ⟨gives, k, rfl, klt, level⟩
  exact ⟨k, rfl, klt, level, gives.slot (Later.lt later lt)⟩

theorem derive (lt : n < g.nodes.size) (hashable : c.hashable = true) (counts : c.numeric ∈ C) :
    (resting C roots).Ends x g (fun ask => ask.derive c n) fun x' g' d =>
      d < g'.nodes.size ∧ x'.level d ≤ x.level n + 1 :=
  h.ends ((answers C roots _).derive h.valid (h.busy _) lt hashable counts (Nat.lt_succ_self _))

theorem evaluate (i : Evaluator) (lt : n < g.nodes.size) :
    (resting C roots).Ends x g (fun ask => i.ask ask n) fun x' g' r =>
      x'.Fits g' (x.level n) i r ∧ (i.of g').stored.get? n = some r :=
  h.ends ((answers C roots _).evaluate i h.valid (h.busy _) lt (Nat.lt_succ_self _))

theorem children (lt : n < g.nodes.size) (low : x.level n ≤ l) :
    (resting C roots).Ends x g (fun ask => ask.children n) fun x' g' ks =>
      List.Forall₂ (fun side k => x'.level k ≤ l ∧ k < g'.nodes.size ∧
        (g'.node n).slot side = .node k) (g'.node n).sides ks := by
  refine .read (p := fun g => g.node n) ?_
  refine .imp (.mapM (S := fun x' g' side k => x'.level k ≤ l ∧ k < g'.nodes.size ∧
    (g'.node n).slot side = .node k) (fun later low => ?_) h
      fun side member x₁ g₁ later₁ h₁ => ?_) fun x' g' _ later _ all => ?_
  · obtain ⟨level, klt, slot⟩ := low
    exact ⟨by rwa [Later.level later _ klt], Later.lt later klt, (Later.evolves later).filled slot⟩
  · have member₁ : side ∈ (g₁.node n).sides := by rwa [Later.sides later₁ lt]
    refine .bind (Rested.child? h₁ (Later.lt later₁ lt) member₁) ?_
    rintro x₂ g₂ _ - h₂ ⟨k, rfl, klt, level, slot⟩
    refine .pure h₂ ⟨Nat.le_trans level ?_, klt, slot⟩
    rw [Later.level later₁ n lt]
    exact low
  · rwa [Later.sides later lt]

end Rested

/-- All that a survey from `root` met lies on level `l` or below. -/
structure Surveyed (x : Census) (g : Graph) (l : Nat) (root : NodeId) (s : Survey) : Prop where
  explores : s.Explores g root
  low : ∀ k ∈ s.order, x.level k ≤ l

theorem Surveyed.later (h : Surveyed x g l n s) (later : Later none nothing x g x' g') :
    Surveyed x' g' l n s :=
  ⟨h.explores.evolves later.evolves, fun k member => by
    rw [later.level k (h.explores.inside k member)]
    exact h.low k member⟩

/-- A survey meets no more nodes than there are. -/
theorem Surveyed.size_le (h : Surveyed x g l n s) (counted : Counted C roots x g) :
    s.order.size ≤ population roots.card C.card l := by
  rw [← h.explores.numbered.card]
  refine (Finset.card_le_card fun k member => ?_).trans (card_upTo_le counted l)
  have met := Array.mem_toList_iff.mp (List.mem_toFinset.mp member)
  exact mem_upTo.mpr ⟨h.explores.inside k met, h.low k met⟩

theorem Rested.explore (b : Nat) {x : Census} {g : Graph} {s : Survey} (h : Rested C roots x g)
    (surveyed : Surveyed x g l n s) (enough : population roots.card C.card l ≤ s.contents.size + b) :
    (resting C roots).Ends x g (fun ask => Survey.explore (Survey.forcing ask) b s) fun _ g' s' =>
      s'.Explores g' n ∧ s'.current? = none := by
  have size := surveyed.size_le h.valid.counted
  induction b generalizing x g s with
  | zero =>
    refine .pure h ⟨surveyed.explores, ?_⟩
    rw [Survey.current?, Array.getElem?_eq_none (by omega)]
  | succ b ih =>
    unfold Survey.explore
    cases current : s.current? with
    | none => exact .pure h ⟨surveyed.explores, current⟩
    | some m =>
      have member : m ∈ s.order := Array.mem_of_getElem? current
      refine .bind (Q := fun x' g' seen => List.Forall₂ (fun side k => x'.level k ≤ l ∧
        k < g'.nodes.size ∧ (g'.node m).slot side = .node k) (g'.node m).sides seen.2) ?_ ?_
      · refine .bind (h.children (surveyed.explores.inside m member) (surveyed.low m member))
          fun x₁ g₁ ks _ h₁ children => ?_
        exact .read (p := fun g => g.node m) (.pure h₁ children)
      · rintro x₁ g₁ ⟨node, ks⟩ later h₁ children
        have surveyed₁ := surveyed.later later
        have advanced : Surveyed x₁ g₁ l n (s.advance node ks) := by
          refine ⟨surveyed₁.explores.advance current node (children.imp fun _ _ => And.right),
            fun k member => (Survey.mem_advance member).elim (surveyed₁.low k) fun member => ?_⟩
          obtain ⟨_, -, level, -⟩ := exists_related children.flip member
          exact level
        refine ih h₁ advanced ?_ (advanced.size_le (Rested.valid h₁).counted)
        rw [Survey.contents_advance, Array.size_push]
        omega

theorem Rested.nodeCount (h : Rested C roots x g) (lt : n < g.nodes.size) :
    (resting C roots).Ends x g (fun ask => ask.nodeCount n) fun _ g' count =>
      ∃ S, g'.Spans n S ∧ S.card = count := by
  have surveyed : Surveyed x g (x.level n) n (Survey.start n) := by
    refine ⟨.start lt, fun k member => ?_⟩
    obtain rfl : k = n := (Survey.mem_meet member).resolve_left (Array.not_mem_empty k)
    exact Nat.le_refl _
  obtain ⟨s, g', gives, x', later, h', explores, ended⟩ :=
    h.explore _ surveyed (Nat.le_add_left _ _)
  exact ⟨s.order.size, g', Survey.nodeCount_gives gives ended, x', later, h', _,
    explores.spans ended, explores.numbered.card⟩

end Census

/-- A census beside an exact gauge. -/
def watching {σ : Type} (S : Sense σ) (C : Finset Value) (roots : Finset NodeId) :
    Regime (Census × Gauge σ) :=
  (Census.resting C roots).beside (Gauge.resting S)

end GrammarGraph
