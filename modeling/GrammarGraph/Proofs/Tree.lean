import GrammarGraph.Proofs.Gauge

/-! Grammars as trees. Where definitions are not recursive, the graph below a node is a tree
with shared parts, and what evaluators, derivatives and compaction do to the graph are
functions on that tree. The functions here look at concrete operands where the constructors
do; a deferred operand is never looked at. -/
namespace GrammarGraph

inductive Tree where
  | empty
  | eps (witnesses : Forest)
  | char (symbol : Value)
  | cat (first second : Tree)
  | alt (first second : Tree)
  | rep (inner : Tree)
  | delta (inner : Tree)
  | red (inner : Tree) (transform : Transform)

namespace Tree

def nullable : Tree → Bool
  | .empty | .char _ => false
  | .eps _ | .rep _ => true
  | .delta e | .red e _ => e.nullable
  | .alt a b => a.nullable || b.nullable
  | .cat a b => a.nullable && b.nullable

def emptyLike : Tree → Bool
  | .empty => true
  | .eps _ | .char _ | .rep _ => false
  | .alt a b => a.emptyLike && b.emptyLike
  | .cat a b => a.emptyLike || b.emptyLike
  | .red e _ => e.emptyLike
  | .delta e => !e.nullable

def epsLike : Tree → Bool
  | .empty | .char _ => false
  | .eps _ | .delta _ => true
  | .rep e => e.emptyLike || e.epsLike
  | .alt a b => (a.epsLike || a.emptyLike) && (b.epsLike || b.emptyLike)
  | .cat a b => a.epsLike && b.epsLike
  | .red e _ => e.epsLike

def forest : Tree → Forest
  | .empty | .char _ => []
  | .eps ws => ws
  | .delta e => e.forest
  | .rep _ => Forest.trivial
  | .alt a b => Forest.distinct (a.forest ++ b.forest)
  | .cat a b => Forest.distinct (List.zipWith Forest.cons a.forest b.forest)
  | .red e t => Forest.distinct (t.results e.forest)

def isEmpty : Tree → Bool
  | .empty => true
  | _ => false

theorem eq_empty_of_isEmpty {e : Tree} (h : e.isEmpty = true) : e = .empty := by
  cases e with
  | empty => rfl
  | _ => cases h

/-- The part that takes no symbol, from a concrete operand. -/
def vanished : Tree → Tree
  | .empty | .char _ => .empty
  | .eps ws => .eps ws
  | e => .delta e

/-- A concatenation with a concrete first operand. -/
def skipping (first second : Tree) : Tree :=
  if first.isEmpty then .empty else .cat first second

/-- A concatenation with a concrete second operand. -/
def taking (first second : Tree) : Tree :=
  if second.isEmpty then .empty else .cat first second

/-- A choice between concrete operands. -/
def either (first second : Tree) : Tree :=
  if first.isEmpty then second else if second.isEmpty then first else .alt first second

def derive (c : Value) : Tree → Tree
  | .empty | .eps _ | .delta _ => .empty
  | .char a => if a.same c then .eps [c] else .empty
  | .alt a b => .alt (a.derive c) (b.derive c)
  | .cat a b => either (skipping (vanished a) (b.derive c)) (taking (a.derive c) b)
  | .rep e => .cat (e.derive c) (.rep e)
  | .red e t => .red (e.derive c) t

/-- The witnesses of a tree that takes no symbol. -/
def settled? (e : Tree) : Option Forest :=
  if e.epsLike then some e.forest else none

/-- The atom with the witnesses. -/
def settled : Forest → Tree
  | [] => .empty
  | ws => .eps (Forest.distinct ws)

/-- An atom for what takes no symbol, and otherwise `rest`. -/
def folded (e rest : Tree) : Tree :=
  if e.emptyLike then .empty else if e.epsLike then settled e.forest else rest

/-- A choice of trees, from what they are compacted to. -/
def chosen (a b a' b' : Tree) : Tree :=
  if a.emptyLike then b' else if b.emptyLike then a' else .alt a' b'

/-- A concatenation without a first part that is settled, from what the parts are compacted to. -/
def joinedLast (b a' b' : Tree) : Tree :=
  match b.settled? with
  | some [] => .empty
  | some [tail] => .red a' (.append tail)
  | _ => .cat a' b'

/-- A concatenation, from what its parts are compacted to. -/
def joined (a b a' b' : Tree) : Tree :=
  match a.settled? with
  | some [] => .empty
  | some [head] => .red b' (.prepend head)
  | _ => joinedLast b a' b'

def compact : Tree → Tree
  | .empty => .empty
  | .eps ws => .eps ws
  | .char a => .char a
  | .delta e => folded (.delta e) .empty
  | .rep e => folded (.rep e) (.rep e.compact)
  | .alt a b => folded (.alt a b) (chosen a b a.compact b.compact)
  | .cat a b => folded (.cat a b) (joined a b a.compact b.compact)
  | .red (.red e t') t => folded (.red (.red e t') t) (.red e.compact (.compose t t'))
  | .red (.cat a b) t => folded (.red (.cat a b) t) <|
    match a.settled? with
    | some [head] => .red b.compact (.compose t (.prepend head))
    | _ => .red (Tree.cat a b).compact t
  | .red e t => folded (.red e t) (.red e.compact t)

theorem joined_of_none {a b a' b' : Tree} (none : a.settled? = some []) :
    a.joined b a' b' = .empty := by
  rw [joined, none]

theorem joined_of_one {a b a' b' : Tree} {head : Value} (one : a.settled? = some [head]) :
    a.joined b a' b' = .red b' (.prepend head) := by
  rw [joined, one]

theorem joined_of_several {a b a' b' : Tree} (not_none : a.settled? ≠ some [])
    (not_one : ∀ head, a.settled? ≠ some [head]) : a.joined b a' b' = b.joinedLast a' b' := by
  unfold joined
  split
  · next none => exact absurd none not_none
  · next one => exact absurd one (not_one _)
  · rfl

theorem joinedLast_of_several {b a' b' : Tree} (not_none : b.settled? ≠ some [])
    (not_one : ∀ tail, b.settled? ≠ some [tail]) : b.joinedLast a' b' = .cat a' b' := by
  unfold joinedLast
  split
  · next none => exact absurd none not_none
  · next one => exact absurd one (not_one _)
  · rfl

/-- A reduction, from its operand. -/
def reduced (t : Transform) : Tree → Tree
  | .red e t' => .red e.compact (.compose t t')
  | .cat a b => match a.settled? with
    | some [head] => .red b.compact (.compose t (.prepend head))
    | _ => .red (Tree.cat a b).compact t
  | e => .red e.compact t

theorem compact_red (e : Tree) (t : Transform) :
    (Tree.red e t).compact = folded (.red e t) (e.reduced t) := by
  cases e <;> rfl

theorem reduced_cat_of_several {a b : Tree} {t : Transform}
    (not_one : ∀ head, a.settled? ≠ some [head]) :
    (Tree.cat a b).reduced t = .red (Tree.cat a b).compact t := by
  rw [reduced]
  split
  · next one => exact absurd one (not_one _)
  · rfl

theorem folded_of_active {e rest : Tree} (some_ : e.emptyLike = false) (takes : e.epsLike = false) :
    e.folded rest = rest := by
  simp [folded, some_, takes]

theorem compact_of_emptyLike {e : Tree} (none : e.emptyLike = true) : e.compact = .empty := by
  cases e with
  | empty => rfl
  | eps | char | rep => cases none
  | red => rw [compact_red, folded, if_pos none]
  | _ => rw [compact, folded, if_pos none]

theorem compact_of_epsLike {e : Tree} (compound : ∀ ws, e ≠ .eps ws) (some_ : e.emptyLike = false)
    (likely : e.epsLike = true) : e.compact = settled e.forest := by
  have kept (rest : Tree) : e.folded rest = settled e.forest := by simp [folded, some_, likely]
  cases e with
  | eps ws => exact absurd rfl (compound ws)
  | empty | char => cases likely
  | red => rw [compact_red, kept]
  | _ => rw [compact, kept]

/-- Witnesses have the property and differ, and functions keep it and never fail. -/
def Proper (P : Value → Prop) : Tree → Prop
  | .empty | .char _ => True
  | .eps ws => (∀ w ∈ ws, P w) ∧ Forest.Distinct ws
  | .cat a b | .alt a b => a.Proper P ∧ b.Proper P
  | .rep e | .delta e => e.Proper P
  | .red e t => e.Proper P ∧ t.Keeps P

namespace Proper

variable {P : Value → Prop} (closed : Forest.Closed P) {a b e a' b' : Tree} {c w : Value}
  {ws : Forest}

theorem forest_distinct (proper : e.Proper P) : Forest.Distinct e.forest := by
  induction e with
  | empty | char => exact .nil
  | eps ws => exact proper.2
  | delta e ih => exact ih proper
  | rep => exact List.pairwise_singleton _ _
  | alt | cat | red => exact Forest.distinct_distinct _

theorem eps_distinct (all : ∀ w ∈ ws, P w) : (Tree.eps (Forest.distinct ws)).Proper P :=
  ⟨fun w member => all w (Forest.mem_of_mem_distinct member), Forest.distinct_distinct ws⟩

theorem settled (all : ∀ w ∈ ws, P w) : (Tree.settled ws).Proper P := by
  unfold Tree.settled
  split
  · trivial
  · exact eps_distinct all

theorem chosen (first : a'.Proper P) (second : b'.Proper P) : (Tree.chosen a b a' b').Proper P := by
  unfold Tree.chosen
  split
  · exact second
  · split
    · exact first
    · exact ⟨first, second⟩

include closed

theorem forest (proper : e.Proper P) : ∀ w ∈ e.forest, P w := by
  induction e with
  | empty | char => exact fun _ none => (nomatch none)
  | eps ws => exact proper.1
  | delta e ih => exact ih proper
  | rep => exact fun w member => List.mem_singleton.mp member ▸ closed.nothing
  | alt a b iha ihb =>
    intro w member
    exact (List.mem_append.mp (Forest.mem_of_mem_distinct member)).elim
      (iha proper.1 w) (ihb proper.2 w)
  | cat a b iha ihb =>
    exact fun w member => closed.zip (iha proper.1) (ihb proper.2) w
      (Forest.mem_of_mem_distinct member)
  | red e t ih =>
    exact fun w member => proper.2.results (ih proper.1) w (Forest.mem_of_mem_distinct member)

/-- The witness of a tree that has no other one. -/
theorem of_settled (proper : e.Proper P) (settled : e.settled? = some [w]) : P w := by
  unfold settled? at settled
  split at settled
  · exact proper.forest closed w (Option.some.inj settled ▸ List.mem_singleton_self w)
  · cases settled

theorem folded {rest : Tree} (proper : e.Proper P) (other : rest.Proper P) :
    (e.folded rest).Proper P := by
  unfold Tree.folded
  split
  · trivial
  · split
    · exact .settled (proper.forest closed)
    · exact other

theorem joined (ha : a.Proper P) (hb : b.Proper P) (first : a'.Proper P) (second : b'.Proper P) :
    (Tree.joined a b a' b').Proper P := by
  unfold Tree.joined
  split
  · trivial
  · next head settled =>
    exact ⟨second, Transform.keeps_prepend closed (ha.of_settled closed settled)⟩
  · unfold joinedLast
    split
    · trivial
    · next tail settled =>
      exact ⟨first, Transform.keeps_append closed (hb.of_settled closed settled)⟩
    · exact ⟨first, second⟩

theorem compact (proper : e.Proper P) : e.compact.Proper P := by
  induction e using Tree.compact.induct with
  | case1 | case3 => trivial
  | case2 ws => exact proper
  | case4 e => exact .folded closed (e := .delta e) proper trivial
  | case5 e ih => exact .folded closed (e := .rep e) proper (ih proper)
  | case6 a b iha ihb =>
    rw [Tree.compact]
    exact .folded closed proper (.chosen (iha proper.1) (ihb proper.2))
  | case7 a b iha ihb =>
    rw [Tree.compact]
    exact .folded closed proper (.joined closed proper.1 proper.2 (iha proper.1) (ihb proper.2))
  | case8 e t' t ih =>
    exact .folded closed (e := .red (.red e t') t) proper
      ⟨ih proper.1.1, proper.2.compose proper.1.2⟩
  | case9 a b t ihb ih =>
    rw [Tree.compact]
    refine .folded closed proper ?_
    split
    · next head settled =>
      exact ⟨ihb proper.1.2, proper.2.compose
        (Transform.keeps_prepend closed (proper.1.1.of_settled closed settled))⟩
    · exact ⟨ih proper.1, proper.2⟩
  | case10 e t no_red no_cat ih =>
    rw [Tree.compact]
    · exact .folded closed proper ⟨ih proper.1, proper.2⟩
    · exact no_red
    · exact no_cat

omit closed

theorem derive (hc : P c) (proper : e.Proper P) : (e.derive c).Proper P := by
  induction e with
  | empty | eps | delta => trivial
  | char a =>
    rw [Tree.derive]
    split
    · exact ⟨by simpa using hc, List.pairwise_singleton _ _⟩
    · trivial
  | alt a b iha ihb => exact ⟨iha proper.1, ihb proper.2⟩
  | rep e ih => exact ⟨ih proper, proper⟩
  | red e t ih => exact ⟨ih proper.1, proper.2⟩
  | cat a b iha ihb =>
    have vanished : a.vanished.Proper P := by
      cases a with
      | empty | char => trivial
      | _ => exact proper.1
    have skips : (skipping a.vanished (b.derive c)).Proper P := by
      unfold skipping
      split
      · trivial
      · exact ⟨vanished, ihb proper.2⟩
    have takes : (taking (a.derive c) b).Proper P := by
      unfold taking
      split
      · trivial
      · exact ⟨iha proper.1, proper.2⟩
    rw [Tree.derive]
    unfold either
    split
    · exact takes
    · split
      · exact skips
      · exact ⟨skips, takes⟩

end Proper

end Tree

end GrammarGraph
