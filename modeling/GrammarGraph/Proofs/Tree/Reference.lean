import GrammarGraph.Proofs.Tree

/-! The forest of a sentence, split by split. The reference never takes a derivative: it
follows the tree and tries every split of the sentence in order. Taking the symbols one by one
and reading the forest of what is left gives the same witnesses in the same order. -/
namespace GrammarGraph

namespace Forest

variable {c u v : Value} {F G : List Value → Forest} {s p q : List Value}

/-- The witnesses of concatenations, over all splits of the sentence from left to right: at each
of them two forests are paired position by position, up to the end of the shorter. -/
def splits (F G : List Value → Forest) (s : List Value) : Forest :=
  distinct ((List.range (s.length + 1)).flatMap fun i =>
    List.zipWith cons (F (s.take i)) (G (s.drop i)))

/-- The witnesses of repetitions: a first round that takes symbols, and the other rounds. -/
def rounds (F : List Value → Forest) : List Value → Forest
  | [] => trivial
  | c :: s => distinct ((List.range (s.length + 1)).flatMap fun i =>
      List.zipWith cons (F (c :: s.take i)) (rounds F (s.drop i)))
termination_by s => s.length
decreasing_by
  rw [List.length_drop, List.length_cons]
  omega

theorem rounds_nil : rounds F [] = trivial := by
  rw [rounds]

theorem rounds_cons : rounds F (c :: s) = splits (fun t => F (c :: t)) (rounds F) s := by
  rw [rounds]
  rfl

theorem splits_nil : splits F G [] = distinct (List.zipWith cons (F []) (G [])) := by
  simp [splits]

/-- The first split leaves the whole sentence to the second part. -/
theorem splits_cons : splits F G (c :: s) =
    distinct (List.zipWith cons (F []) (G (c :: s)) ++ splits (fun t => F (c :: t)) G s) := by
  unfold splits
  rw [distinct_append_distinct, List.length_cons, List.range_succ_eq_map, List.flatMap_cons,
    List.flatMap_map]
  rfl

theorem splits_of_first_none (none : ∀ t, F t = []) : splits F G s = [] := by
  simp [splits, none, distinct, List.flatMap]

theorem splits_of_second_none (none : ∀ t, G t = []) : splits F G s = [] := by
  simp [splits, none, distinct, List.flatMap]

/-- A first part that takes no symbol. -/
theorem splits_of_first_settled (none : ∀ c t, F (c :: t) = []) :
    splits F G s = distinct (List.zipWith cons (F []) (G s)) := by
  cases s with
  | nil => exact splits_nil
  | cons c s => rw [splits_cons, splits_of_first_none (none c), List.append_nil]

/-- Single witnesses of the two parts of a split are paired. -/
theorem exists_same_splits (first : F p = [u]) (second : G q = [v]) :
    ∃ w ∈ splits F G (p ++ q), w.same (cons u v) = true := by
  refine exists_same_distinct (List.mem_flatMap.mpr ⟨p.length, ?_, ?_⟩)
  · rw [List.mem_range, List.length_append]
    omega
  · rw [List.take_left, List.drop_left, first, second]
    exact List.mem_singleton_self _

end Forest

namespace Tree

open Forest (splits rounds)

/-- The witnesses of the sentence. -/
def reference : Tree → List Value → Forest
  | .eps ws, [] => ws
  | .char a, [c] => if a.same c then [c] else []
  | .alt a b, s => Forest.distinct (a.reference s ++ b.reference s)
  | .cat a b, s => splits a.reference b.reference s
  | .rep e, s => rounds e.reference s
  | .delta e, [] => e.reference []
  | .red e t, s => Forest.distinct (t.results (e.reference s))
  | _, _ => []

variable {a b e : Tree} {s : List Value}

theorem reference_empty (s : List Value) : Tree.empty.reference s = [] :=
  rfl

theorem reference_nil (e : Tree) : e.reference [] = e.forest := by
  induction e with
  | empty | eps | char => rfl
  | delta e ih => exact ih
  | rep e => exact Forest.rounds_nil
  | alt a b iha ihb => rw [reference, iha, ihb, forest]
  | cat a b iha ihb => rw [reference, Forest.splits_nil, iha, ihb, forest]
  | red e t ih => rw [reference, ih, forest]

theorem reference_skipping : (skipping a b).reference s = splits a.reference b.reference s := by
  unfold skipping
  split
  · next none =>
    rw [eq_empty_of_isEmpty none]
    exact (Forest.splits_of_first_none fun _ => rfl).symm
  · rfl

theorem reference_taking : (taking a b).reference s = splits a.reference b.reference s := by
  unfold taking
  split
  · next none =>
    rw [eq_empty_of_isEmpty none]
    exact (Forest.splits_of_second_none fun _ => rfl).symm
  · rfl

theorem reference_either (ha : Forest.Distinct (a.reference s))
    (hb : Forest.Distinct (b.reference s)) :
    (either a b).reference s = Forest.distinct (a.reference s ++ b.reference s) := by
  unfold either
  split
  · next none =>
    rw [eq_empty_of_isEmpty none]
    exact (Forest.distinct_of_distinct hb).symm
  · split
    · next none =>
      rw [eq_empty_of_isEmpty none, reference_empty, List.append_nil]
      exact (Forest.distinct_of_distinct ha).symm
    · rfl

theorem reference_vanished_nil (e : Tree) : e.vanished.reference [] = e.reference [] := by
  cases e <;> rfl

theorem reference_vanished_cons (e : Tree) (c : Value) (s : List Value) :
    e.vanished.reference (c :: s) = [] := by
  cases e <;> rfl

/-- A derivative gives the witnesses of the sentences that begin with its symbol. -/
theorem reference_derive (e : Tree) (c : Value) (s : List Value) :
    (e.derive c).reference s = e.reference (c :: s) := by
  induction e generalizing s with
  | empty | eps | delta => rfl
  | char a =>
    rw [Tree.derive]
    split
    · next same => cases s <;> simp [reference, same]
    · next other => cases s <;> simp [reference, other]
  | alt a b iha ihb => rw [Tree.derive, reference, iha, ihb, reference]
  | red e t ih => rw [Tree.derive, reference, ih, reference]
  | rep e ih =>
    rw [Tree.derive, reference, funext ih, reference, Forest.rounds_cons]
    rfl
  | cat a b iha ihb =>
    have skips (t : List Value) : (skipping a.vanished (b.derive c)).reference t =
        Forest.distinct (List.zipWith Forest.cons (a.reference []) (b.reference (c :: t))) := by
      rw [reference_skipping, Forest.splits_of_first_settled (reference_vanished_cons a),
        reference_vanished_nil, ihb]
    have takes (t : List Value) : (taking (a.derive c) b).reference t =
        splits (fun t => a.reference (c :: t)) b.reference t := by
      rw [reference_taking, funext iha]
    rw [Tree.derive, reference_either, skips, takes, Forest.distinct_distinct_append, reference,
      Forest.splits_cons]
    · rw [skips]
      exact Forest.distinct_distinct _
    · rw [takes]
      exact Forest.distinct_distinct _

end Tree

end GrammarGraph
