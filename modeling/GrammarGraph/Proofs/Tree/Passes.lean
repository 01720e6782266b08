import Mathlib.Logic.Function.Iterate
import GrammarGraph.Proofs.Census.Building

/-! Compaction again and again. One pass need not reach the end, since what a part is compacted to
may be merged with what is above it in the next pass only. But a pass that changes anything leaves
a smaller tree, so passes come to an end. -/
namespace GrammarGraph

namespace Tree

/-- The number of nodes, each counted as often as it can be reached. -/
def size : Tree → Nat
  | .empty | .eps _ | .char _ => 1
  | .rep e | .delta e | .red e _ => e.size + 1
  | .cat a b | .alt a b => a.size + b.size + 1

theorem size_pos (e : Tree) : 0 < e.size := by
  cases e <;> exact Nat.succ_pos _

/-- The tree stays, or there is less of it. -/
def Shrinks (e e' : Tree) : Prop :=
  e' = e ∨ e'.size < e.size

namespace Shrinks

variable {a b e a' b' e' rest : Tree} {t : Transform}

theorem le (h : e.Shrinks e') : e'.size ≤ e.size :=
  h.elim (fun same => Nat.le_of_eq (congrArg size same)) Nat.le_of_lt

theorem rep (h : e.Shrinks e') : (Tree.rep e).Shrinks (.rep e') :=
  h.imp (congrArg _) Nat.succ_lt_succ

theorem red (h : e.Shrinks e') : (Tree.red e t).Shrinks (.red e' t) :=
  h.imp (congrArg (Tree.red · t)) Nat.succ_lt_succ

theorem pair {node : Tree → Tree → Tree} (sizes : ∀ a b, (node a b).size = a.size + b.size + 1)
    (first : a.Shrinks a') (second : b.Shrinks b') : (node a b).Shrinks (node a' b') := by
  have le := first.le
  have le' := second.le
  rcases first with rfl | lt
  · rcases second with rfl | lt'
    · exact .inl rfl
    · refine .inr ?_
      rw [sizes, sizes]
      omega
  · refine .inr ?_
    rw [sizes, sizes]
    omega

theorem folded (compound : 1 < e.size) (h : e.Shrinks rest) : e.Shrinks (e.folded rest) := by
  unfold Tree.folded
  split
  · exact .inr compound
  · split
    · refine .inr ?_
      unfold settled
      split <;> exact compound
    · exact h

theorem chosen (first : a.Shrinks a') (second : b.Shrinks b') :
    (Tree.alt a b).Shrinks (Tree.chosen a b a' b') := by
  have le := first.le
  have le' := second.le
  unfold Tree.chosen
  split
  · refine .inr ?_
    rw [size]
    omega
  · split
    · refine .inr ?_
      rw [size]
      omega
    · exact .pair (fun _ _ => rfl) first second

theorem joined (first : a.Shrinks a') (second : b.Shrinks b') :
    (Tree.cat a b).Shrinks (Tree.joined a b a' b') := by
  have le := first.le
  have le' := second.le
  have pos := a.size_pos
  have pos' := b.size_pos
  have empty : Tree.empty.size < (Tree.cat a b).size := by
    rw [size, size]
    omega
  unfold Tree.joined
  split
  · exact .inr empty
  · refine .inr ?_
    rw [size, size]
    omega
  · unfold joinedLast
    split
    · exact .inr empty
    · refine .inr ?_
      rw [size, size]
      omega
    · exact .pair (fun _ _ => rfl) first second

end Shrinks

theorem compact_shrinks (e : Tree) : e.Shrinks e.compact := by
  have pair (a b : Tree) : 1 < a.size + b.size + 1 :=
    Nat.succ_lt_succ (Nat.add_pos_left a.size_pos b.size)
  induction e using Tree.compact.induct with
  | case1 | case2 | case3 => exact .inl rfl
  | case4 e =>
    have small : 1 < (Tree.delta e).size := Nat.succ_lt_succ e.size_pos
    rw [compact]
    exact .folded small (.inr small)
  | case5 e ih =>
    rw [compact]
    exact .folded (Nat.succ_lt_succ e.size_pos) ih.rep
  | case6 a b iha ihb =>
    rw [compact]
    exact .folded (pair a b) (.chosen iha ihb)
  | case7 a b iha ihb =>
    rw [compact]
    exact .folded (pair a b) (.joined iha ihb)
  | case8 e t' t ih =>
    rw [compact]
    have merged : (Tree.red e.compact (.compose t t')).size < (Tree.red (.red e t') t).size :=
      Nat.succ_lt_succ (Nat.lt_succ_of_le ih.le)
    exact .folded (Nat.succ_lt_succ (Nat.succ_pos _)) (.inr merged)
  | case9 a b t ihb ih =>
    rw [compact]
    refine .folded (Nat.succ_lt_succ (Nat.succ_pos _)) ?_
    split
    · have := ihb.le
      have := a.size_pos
      refine .inr ?_
      rw [size, size, size]
      omega
    · exact ih.red
  | case10 e t no_red no_cat ih =>
    rw [compact]
    · exact .folded (Nat.succ_lt_succ e.size_pos) ih.red
    · exact no_red
    · exact no_cat

/-- After fewer passes than there are nodes, nothing changes any more. -/
theorem compact_settles (e : Tree) : ∃ k < e.size, ∀ j, k ≤ j → compact^[j] e = compact^[k] e := by
  induction size : e.size using Nat.strong_induction_on generalizing e with
  | _ n ih =>
    subst size
    rcases e.compact_shrinks with same | lt
    · exact ⟨0, e.size_pos, fun j _ => Function.iterate_fixed same j⟩
    · obtain ⟨k, small, stays⟩ := ih _ lt e.compact rfl
      refine ⟨k + 1, Nat.lt_of_le_of_lt small lt, fun j le => ?_⟩
      cases j with
      | zero => exact absurd le (Nat.not_succ_le_zero k)
      | succ j => exact stays j (Nat.le_of_succ_le_succ le)

/-- A second pass finds one reduction right below another. -/
example : let e := Tree.red (.cat (.char (.int 1)) (.eps [.int 2])) (.append (.int 3))
    e.compact.size = 3 ∧ e.compact.compact.size = 2 := by
  constructor <;> rfl

end Tree

open RunOf (Gives)

/-- Passes of compaction, one after the other. -/
def Ask.passes (ask : Ask) : Nat → NodeId → Run NodeId
  | 0, n => pure n
  | k + 1, n => do passes ask k (← ask.compact n)

/-- Where all that can be reached has been read, the tree of a node stands below it. -/
theorem Gauge.Exact.unfolds_of_spans {x : Gauge Tree} {g : Graph} (h : Exact trees x g) {n : NodeId}
    {S : Finset NodeId} (spans : g.Spans n S) : g.Unfolds n (x (.node n)).sense := by
  have concrete : ∀ k, k ∈ S → k < g.nodes.size ∧ (g.node k).Concrete (· ∈ S) := by
    intro k member
    have lt := spans.inside k member
    have weighs := h.nodes k lt
    refine ⟨lt, weighs.known, fun side there => ?_, weighs.vacant⟩
    obtain ⟨j, inS, slot⟩ := spans.closed k member side there
    exact ⟨j, slot, inS⟩
  exact h.unfolds concrete spans.root

theorem passes_ends {C : Finset Value} {roots : Finset NodeId} {z : Census × Gauge Tree} {g : Graph}
    {n : NodeId} {e : Tree} (valid : (watching trees C roots).Valid z g)
    (denotes : z.2.Denotes g e n) (k : Nat) :
    (watching trees C roots).Ends z g (fun ask => ask.passes k n) fun z' g' m =>
      z'.2.Denotes g' (Tree.compact^[k] e) m := by
  induction k generalizing z g n e with
  | zero => exact .pure valid denotes
  | succ k ih =>
    have compacted := Regime.Ends.beside (z := z)
      (valid.1.evaluate .compact denotes.lt) (valid.2.evaluate .compact denotes.lt)
    refine .bind compacted ?_
    rintro z₁ g₁ m - valid₁ ⟨-, fits⟩
    refine ih valid₁ ?_
    rw [← denotes.sense]
    exact Gauge.Stands.denotes fits

namespace Bench

/-- Compaction again and again, with all children read in the end, gives one and the same tree after
fewer passes than there are nodes. -/
theorem Straight.passes_settle {b : Bench} {n : NodeId}
    (h : b.Straight Construction.Total fun c => c.boolless = true) (built : b.built n) :
    ∃ e, b.graph.Unfolds n e ∧ ∃ k < e.size, ∀ j, k ≤ j → ∃ m g,
      Gives (fun ask => do
        let m ← ask.passes j n
        let _ ← ask.nodeCount m
        return m) b.graph m g ∧ g.Unfolds m (Tree.compact^[k] e) := by
  obtain ⟨x, weighed⟩ := h.rested (fun _ total => total) fun c boolless hashable =>
    ⟨hashable, boolless⟩
  obtain ⟨C, roots, y, rested, -⟩ := h.census (fun _ total => total)
    (c := .query (.compact n)) trivial
  have valid : (watching trees C roots).Valid (y, x) b.graph := ⟨rested, weighed⟩
  obtain ⟨k, small, stays⟩ := (x (.node n)).sense.compact_settles
  refine ⟨_, weighed.valid.unfolds (fun _ => h.concrete) built, k, small, fun j le => ?_⟩
  have forced : (watching trees C roots).Ends (y, x) b.graph (fun ask => do
      let m ← ask.passes j n
      let _ ← ask.nodeCount m
      return m) fun _ g m => g.Unfolds m (Tree.compact^[k] (x (.node n)).sense) := by
    refine .bind (passes_ends valid ⟨(h.concrete built).1, rfl⟩ j) ?_
    rintro z₁ g₁ m - valid₁ left
    refine .bind (Regime.Ends.beside (valid₁.1.nodeCount left.lt) (valid₁.2.nodeCount left.lt)) ?_
    rintro z₂ g₂ count ⟨-, later⟩ valid₂ ⟨⟨S, spans, -⟩, -⟩
    refine .pure valid₂ ?_
    rw [← stays j le, ← left.sense, ← later.node left.lt]
    exact valid₂.2.valid.unfolds_of_spans spans
  obtain ⟨m, g, gives, _, _, _, unfolds⟩ := forced
  exact ⟨m, g, gives, unfolds⟩

end Bench

end GrammarGraph
