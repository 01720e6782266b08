import Mathlib.Algebra.GroupWithZero.Nat
import Mathlib.Algebra.Order.BigOperators.Group.List
import Mathlib.Algebra.Order.Group.Nat
import GrammarGraph.Proofs.Gauge.Answers

/-! Queries while nothing is in progress. Evaluators, children and derivatives are answered
as in a turn. A survey ends as well: a node is worth three to the power of its rank, and its
children are together worth less than it. -/
namespace GrammarGraph

namespace Survey

/-- The nodes met but not looked at. -/
def pending (s : Survey) : List NodeId :=
  s.order.toList.drop s.contents.size

variable {s : Survey} {n k : NodeId}

theorem pending_meet : (s.meet k).pending.Sublist (s.pending ++ [k]) := by
  unfold meet pending
  split
  · exact List.sublist_append_left _ _
  · simp only [Array.toList_push, List.drop_append]
    exact (List.Sublist.refl _).append (List.drop_sublist _ _)

theorem pending_foldl_meet (children : List NodeId) :
    (children.foldl meet s).pending.Sublist (s.pending ++ children) := by
  induction children generalizing s with
  | nil => simp
  | cons k children ih =>
    refine (ih (s := s.meet k)).trans ?_
    rw [List.append_cons]
    exact pending_meet.append (List.Sublist.refl _)

theorem pending_advance (h : s.current? = some n) (node : Node) (children : List NodeId) :
    ∃ rest, s.pending = n :: rest ∧
      (s.advance node children).pending.Sublist (rest ++ children) := by
  obtain ⟨lt, here⟩ := Array.getElem?_eq_some_iff.mp h
  refine ⟨s.order.toList.drop (s.contents.size + 1), ?_, ?_⟩
  · rw [pending, List.drop_eq_getElem_cons (by simpa using lt)]
    simpa using here
  · refine (pending_foldl_meet children).trans ?_
    rw [pending, Array.size_push]

/-- A survey that is over after some number of looks counts what it met. -/
theorem nodeCount_gives {g g' : Graph} {bound : Nat}
    (gives : RunOf.Gives (fun ask => explore (forcing ask) bound (start n)) g s g')
    (ended : s.current? = none) : RunOf.Gives (fun ask => ask.nodeCount n) g s.order.size g' := by
  obtain ⟨least, gives⟩ := gives
  refine .ask (max least bound + 1) ?_
  have visited : run (forcing (Engine.run (max least bound))) bound n g = some (.ok s, g') := by
    have explored := gives (max least bound) (Nat.le_max_left ..)
    dsimp only at explored
    unfold run
    rw [RunOf.bind_run, explored]
    simp only [Option.bind_some, ended, Option.isSome_none, Bool.false_eq_true, if_false]
    rfl
  have counted := run_within (fun _ => .refl _) (Nat.le_max_right least bound) n g _ visited
  change (run _ _ n >>= fun s => pure s.order.size) g = _
  rw [RunOf.bind_run, counted]
  rfl

end Survey

namespace Regime.Ends

variable {γ α β : Type} {R : Regime γ} {S : γ → Graph → α → β → Prop}

/-- What holds of each result, and goes on holding, holds of all of them in the end. -/
theorem mapM {f : Ask → α → Run β}
    (stable : ∀ {x g x' g' a b}, R.Later x g x' g' → S x g a b → S x' g' a b) :
    ∀ {as : List α} {x g}, R.Valid x g →
      (∀ a ∈ as, ∀ {x' g'}, R.Later x g x' g' → R.Valid x' g' →
        R.Ends x' g' (fun ask => f ask a) fun x g => S x g a) →
      R.Ends x g (fun ask => as.mapM (f ask)) fun x' g' bs => List.Forall₂ (S x' g') as bs
  | [], x, g, valid, _ => by
    simp only [List.mapM_nil]
    exact pure valid .nil
  | a :: as, x, g, valid, each => by
    simp only [List.mapM_cons]
    refine bind (each a List.mem_cons_self (R.refl x g) valid) fun x₁ g₁ b later valid₁ first => ?_
    refine bind (mapM stable valid₁ fun c member _ _ later' valid₂ =>
      each c (List.mem_cons_of_mem _ member) (R.trans later later') valid₂) ?_
    exact fun x₂ g₂ bs later' valid₂ rest => pure valid₂ (.cons (stable later' first) rest)

end Regime.Ends

namespace Gauge

variable {σ : Type} {S : Sense σ} {x : Gauge σ} {g : Graph} {c : Value} {n : NodeId} {side : Side}

/-- Nothing is in progress. -/
structure Rested (S : Sense σ) (x : Gauge σ) (g : Graph) : Prop where
  valid : Exact S x g
  busy : ∀ v, Busy x g v

/-- The regime of exact gauges between queries. -/
def resting (S : Sense σ) : Regime (Gauge σ) where
  Valid := Rested S
  Later := Later
  refl := Later.refl
  trans := Later.trans

namespace Rested

theorem ends (h : Rested S x g) {α : Type} {r : Ask → Run α} {Q : Gauge σ → Graph → α → Prop}
    (ends : (weighing S).Ends x g r Q) : (resting S).Ends x g r Q := by
  obtain ⟨a, g', gives, x', later, valid, q⟩ := ends
  exact ⟨a, g', gives, x', later, ⟨valid, fun v => later.busy (h.busy v)⟩, q⟩

variable [Rules S] (h : Rested S x g)
include h

theorem child? (lt : n < g.nodes.size) (member : side ∈ (g.node n).sides) :
    (resting S).Ends x g (fun ask => ask.child? n side) fun x' g' child =>
      ∃ k, child = some k ∧ x'.Stands g' (x ((g.node n).slot side)) k :=
  h.ends ((answers _).child h.valid (h.busy _) lt member (Nat.lt_succ_self _))

theorem derive (lt : n < g.nodes.size) (takes : S.takes c) :
    (resting S).Ends x g (fun ask => ask.derive c n) fun x' g' d =>
      x'.Stands g' ((x (.node n)).after S c) d :=
  h.ends ((answers _).derive h.valid (h.busy _) lt takes (Nat.lt_succ_self _))

theorem evaluate (i : Evaluator) (lt : n < g.nodes.size) :
    (resting S).Ends x g (fun ask => i.ask ask n) fun x' g' r => x'.Fits S g' (x (.node n)) i r :=
  h.ends ((answers _).evaluate i h.valid (h.busy _) lt (Nat.lt_succ_self _))

theorem children (lt : n < g.nodes.size) :
    (resting S).Ends x g (fun ask => ask.children n) fun x' g' ks => ks.length ≤ 2 ∧
      ∀ k ∈ ks, k < g'.nodes.size ∧ (x' (.node k)).rank < (x (.node n)).rank := by
  refine .read (p := fun g => g.node n) ?_
  refine .imp (.mapM (S := fun x' g' _ k => k < g'.nodes.size ∧
    (x' (.node k)).rank < (x (.node n)).rank) (fun later low => ?_) h
      fun side member x₁ g₁ later₁ h₁ => ?_) fun x₂ g₂ ks _ _ lows => ⟨?_, fun k member => ?_⟩
  · exact ⟨Later.lt later low.1, by rw [Later.node later low.1]; exact low.2⟩
  · have lt₁ := Later.lt later₁ lt
    have member₁ : side ∈ (g₁.node n).sides := by rwa [Later.sides later₁ lt]
    refine .bind (Rested.child? h₁ lt₁ member₁) ?_
    rintro x₂ g₂ _ - h₂ ⟨k, rfl, stands⟩
    refine .pure h₂ ⟨stands.lt, Nat.lt_of_le_of_lt stands.within.rank ?_⟩
    rw [← Later.node later₁ lt]
    exact ((Rested.valid h₁).nodes n lt₁).slots side member₁ |>.2
  · rw [← lows.length_eq]
    unfold Node.sides
    split <;> simp
  · obtain ⟨_, -, low⟩ := exists_related lows.flip member
    exact low

end Rested

/-- What the pending nodes of a survey are worth. -/
def cost (x : Gauge σ) (s : Survey) : Nat :=
  (s.pending.map fun n => 3 ^ (x (.node n)).rank).sum

theorem cost_advance {x x' : Gauge σ} {s : Survey} {node : Node} {children : List NodeId}
    (current : s.current? = some n) (same : ∀ k ∈ s.pending, x' (.node k) = x (.node k))
    (two : children.length ≤ 2)
    (low : ∀ k ∈ children, (x' (.node k)).rank < (x (.node n)).rank) :
    cost x' (s.advance node children) < cost x s := by
  obtain ⟨rest, pending, sublist⟩ := Survey.pending_advance current node children
  have worth (k : NodeId) (member : k ∈ children) :
      3 * 3 ^ (x' (.node k)).rank ≤ 3 ^ (x (.node n)).rank := by
    rw [← Nat.pow_succ']
    exact Nat.pow_le_pow_right (by decide) (low k member)
  have both : (children.map fun k => 3 ^ (x' (.node k)).rank).sum < 3 ^ (x (.node n)).rank := by
    have pos : 0 < 3 ^ (x (.node n)).rank := Nat.pow_pos (by decide)
    rcases children with _ | ⟨a, _ | ⟨b, _ | ⟨_, _⟩⟩⟩
    · exact pos
    · have := worth a (by simp)
      simp only [List.map_cons, List.map_nil, List.sum_cons, List.sum_nil]
      omega
    · have := worth a (by simp)
      have := worth b (by simp)
      simp only [List.map_cons, List.map_nil, List.sum_cons, List.sum_nil]
      omega
    · simp at two
  have others : (rest.map fun k => 3 ^ (x' (.node k)).rank).sum =
      (rest.map fun k => 3 ^ (x (.node k)).rank).sum := by
    congr 1
    refine List.map_congr_left fun k member => ?_
    rw [same k (by rw [pending]; exact List.mem_cons_of_mem n member)]
  have fewer : cost x' (s.advance node children) ≤
      ((rest ++ children).map fun k => 3 ^ (x' (.node k)).rank).sum :=
    List.Sublist.sum_le_sum (sublist.map _) fun _ _ => Nat.zero_le _
  rw [List.map_append, List.sum_append, others] at fewer
  simp only [cost, pending, List.map_cons, List.sum_cons] at fewer ⊢
  omega

theorem Rested.explore [Rules S] (k : Nat) {x : Gauge σ} {g : Graph} {s : Survey} (h : Rested S x g)
    (met : ∀ n ∈ s.pending, n < g.nodes.size) (enough : cost x s ≤ k) :
    (resting S).Ends x g (fun ask => Survey.explore (Survey.forcing ask) k s) fun _ _ s' =>
      s'.current? = none := by
  induction k generalizing x g s with
  | zero =>
    refine .pure h ?_
    cases current : s.current? with
    | none => rfl
    | some n =>
      obtain ⟨rest, pending, _⟩ := Survey.pending_advance current default []
      have pos : 0 < 3 ^ (x (.node n)).rank := Nat.pow_pos (by decide)
      simp only [cost, pending, List.map_cons, List.sum_cons] at enough
      omega
  | succ k ih =>
    unfold Survey.explore
    cases current : s.current? with
    | none => exact .pure h current
    | some n =>
      obtain ⟨rest, pending, sublist⟩ := Survey.pending_advance current default []
      have lt : n < g.nodes.size := met n (by rw [pending]; exact List.mem_cons_self)
      refine .bind (Q := fun x' g' seen => seen.2.length ≤ 2 ∧
        ∀ k ∈ seen.2, k < g'.nodes.size ∧ (x' (.node k)).rank < (x (.node n)).rank) ?_ ?_
      · refine .bind (h.children lt) fun x₁ g₁ ks _ h₁ lows => ?_
        exact .read (p := fun g => g.node n) (.pure h₁ lows)
      · rintro x₁ g₁ ⟨node, children⟩ later h₁ ⟨two, lows⟩
        obtain ⟨rest', pending', sublist'⟩ := Survey.pending_advance current node children
        refine ih h₁ (fun m member => ?_) (Nat.le_of_lt_succ (Nat.lt_of_lt_of_le
          (cost_advance current (fun m member => Later.node later (met m member)) two
            fun m member => (lows m member).2) enough))
        rcases List.mem_append.mp (sublist'.mem member) with member | member
        · exact Later.lt later (met m (by rw [pending']; exact List.mem_cons_of_mem n member))
        · exact (lows m member).1

theorem Rested.nodeCount [Rules S] (h : Rested S x g) (lt : n < g.nodes.size) :
    (resting S).Ends x g (fun ask => ask.nodeCount n) fun _ _ _ => True := by
  generalize enough : cost x (Survey.start n) = k
  have met (m : NodeId) (member : m ∈ (Survey.start n).pending) : m < g.nodes.size := by
    obtain rfl : m = n := by
      have := Survey.pending_meet.mem member
      simpa [Survey.pending] using this
    exact lt
  obtain ⟨s, g', gives, x', later, h', ended⟩ := h.explore k met (Nat.le_of_eq enough)
  exact ⟨s.order.size, g', Survey.nodeCount_gives gives ended, x', later, h', trivial⟩

end Gauge

end GrammarGraph
