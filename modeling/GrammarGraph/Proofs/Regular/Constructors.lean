import GrammarGraph.Proofs.Constructors
import GrammarGraph.Proofs.Forests
import GrammarGraph.Proofs.Gauge.Making
import GrammarGraph.Proofs.Regular.Language

/-! Nodes stand for their languages. Each constructor gives a node with the language that its
name promises, whether it makes a new node or finds one that is there. -/
namespace GrammarGraph

open Computability

/-- What the node makes of the languages of its slots. -/
noncomputable def Node.language (node : Node) (part : Side → Language Value) : Language Value :=
  match node.kind with
  | .eps => 1
  | .char => matching node.symbol
  | .cat => part .first * part .second
  | .alt => part .first + part .second
  | .rep => (part .first)∗
  | .delta => part .first ⊓ 1
  | .red => part .first
  | _ => 0

/-- What a node makes of fair languages is fair. -/
theorem Node.fair_language {part : Side → Language Value} (fair : ∀ side, Fair (part side))
    (node : Node) : Fair (node.language part) := by
  unfold Node.language
  cases node.kind with
  | eps => exact fair_one
  | char => exact fair_matching
  | cat => exact Fair.mul (fair .first) (fair .second)
  | alt => exact Fair.add (fair .first) (fair .second)
  | rep => exact Fair.kstar (fair .first)
  | delta => exact Fair.meet_one (fair .first)
  | red => exact fair .first
  | _ => exact fair_zero

/-- Which witnesses there are is left open: a forest says only whether there is one. -/
noncomputable def languages : Sense (Language Value) where
  node := Node.language
  after := following
  compacted := id
  agrees
    | .forest, L, ws => (∀ w ∈ ws, w.hashable = true) ∧ (ws ≠ [] ↔ [] ∈ L)
    | .nullable, L, v => v = true ↔ [] ∈ L
    | .emptyLike, L, v => v = true ↔ L = 0
    | .epsLike, L, v => (v = true → L ≤ 1) ∧ (L ≤ 1 → v = true ∨ L = 0)
    | .compact, _, _ => True
  proper L := Fair L
  grants ws := ws ≠ [] ∧ ∀ w ∈ ws, w.hashable = true
  takes c := c.hashable = true
  nothing := 0
  node_bare same := by
    simp only [Node.language, Node.kind_of_bare same, Node.symbol_of_bare same]
  node_empty empty := by
    simp only [Node.language, empty]
  after_nothing _ := following_zero
  compacted_nothing := rfl
  after_congr _ _ same fair := Fair.following_congr fair same
  proper_nothing := fair_zero
  proper_node _ _ fair := Node.fair_language fair _
  proper_after _ fair := Fair.following fair
  proper_compacted fair := fair
  grants_trivial := ⟨List.cons_ne_nil _ _, by simp [Value.hashable, Value.hashableAll]⟩
  hashable_takes takes := takes
  hashable_forest _ agrees := agrees.1

namespace Gauge.Exact

variable {x : Gauge (Language Value)} {g : Graph} {w u v : Weight (Language Value)} {n : NodeId}
  {a b : Operand}

/-- Compaction keeps the language. -/
theorem offers_compacted (stands : x.Stands g w n) :
    x.Offers languages g w (Compaction.later n) :=
  stands.later

variable (h : Exact languages x g)
include h

theorem eps_stands (sense : w.sense = 1) : x.Stands g w .eps :=
  ⟨h.formed.eps_lt, (h.sense_of_kind h.formed.eps_lt h.formed.eps).trans sense.symm,
    by rw [h.atoms.2]; exact Nat.zero_le _⟩

theorem char (symbol : Value) (sense : w.sense = matching symbol) :
    (weighing languages).Ends x g (fun _ => Grammar.char symbol) fun x' g' d => x'.Stands g' w d :=
  h.atom { kind := .char, symbol } rfl Kind.noConfusion rfl sense fun eps => (nomatch eps)

theorem eps {ws : List Value} (some_ : ws ≠ []) (hashable : ∀ v ∈ ws, v.hashable = true)
    (sense : w.sense = 1) :
    (weighing languages).Ends x g (fun _ => Grammar.eps ws) fun x' g' d => x'.Stands g' w d := by
  unfold Grammar.eps
  rw [Forest.ofWitnesses_ok.mpr ⟨hashable, rfl⟩]
  refine .ok ?_
  split
  · exact .pure h (h.eps_stands sense)
  · refine h.atom { kind := .eps, witnesses := Forest.distinct ws } rfl Kind.noConfusion rfl sense
      fun _ => ⟨?_, fun v member => hashable v (Forest.mem_of_mem_distinct member)⟩
    exact mt Forest.distinct_eq_nil.mp some_

theorem cat (first : x.Offers languages g u a) (second : x.Offers languages g v b)
    (sense : w.sense = u.sense * v.sense)
    (lower : u.rank < w.rank ∧ v.rank < w.rank) :
    (weighing languages).Ends x g (fun _ => Grammar.cat a b) fun x' g' d => x'.Stands g' w d := by
  refine .reuse h (fun d found => ?_) fun _ => h.pair (.inl rfl) first second lower
    fun x y z hy hz => by rw [sense, ← hy, ← hz]; rfl
  obtain ⟨empty, rfl⟩ | ⟨k, m, rfl, rfl, ⟨trivial, rfl⟩ | ⟨trivial, rfl⟩⟩ :=
    Grammar.catShortcut_cases found
  · refine h.empty_stands (sense.trans (mul_eq_zero_iff.mpr ?_))
    rcases empty with empty | empty
    · obtain ⟨_, _, _, _, none⟩ := h.offers_kind first empty
      exact .inl none
    · obtain ⟨_, _, _, _, none⟩ := h.offers_kind second empty
      exact .inr none
  · have one : (x (.node k)).sense = 1 := h.sense_of_kind first.lt (Node.kind_of_isTrivial trivial)
    refine second.mono ⟨?_, Nat.le_of_lt lower.2⟩
    rw [sense, ← first.within.sense, one, one_mul]
  · have one : (x (.node m)).sense = 1 := h.sense_of_kind second.lt (Node.kind_of_isTrivial trivial)
    refine first.mono ⟨?_, Nat.le_of_lt lower.1⟩
    rw [sense, ← second.within.sense, one, mul_one]

theorem alt (first : x.Offers languages g u a) (second : x.Offers languages g v b)
    (sense : w.sense = u.sense + v.sense)
    (lower : u.rank < w.rank ∧ v.rank < w.rank) :
    (weighing languages).Ends x g (fun _ => Grammar.alt a b) fun x' g' d => x'.Stands g' w d := by
  refine .reuse h (fun d found => ?_) fun _ => h.pair (.inr rfl) first second lower
    fun x y z hy hz => by rw [sense, ← hy, ← hz]; rfl
  obtain ⟨k, m, rfl, rfl, ⟨empty, rfl⟩ | ⟨-, empty, rfl⟩⟩ := Grammar.altShortcut_cases found
  · have none : (x (.node k)).sense = 0 := h.sense_of_kind first.lt empty
    refine second.mono ⟨?_, Nat.le_of_lt lower.2⟩
    rw [sense, ← first.within.sense, none, zero_add]
  · have none : (x (.node m)).sense = 0 := h.sense_of_kind second.lt empty
    refine first.mono ⟨?_, Nat.le_of_lt lower.1⟩
    rw [sense, ← second.within.sense, none, add_zero]

theorem rep (inner : x.Offers languages g u a) (sense : w.sense = u.sense∗)
    (lower : u.rank < w.rank) :
    (weighing languages).Ends x g (fun _ => Grammar.rep a) fun x' g' d => x'.Stands g' w d := by
  refine .reuse h (fun d found => ?_) fun _ => h.single (.inl rfl) inner (fun red => (nomatch red))
    lower fun x y hy => by rw [sense, ← hy]; rfl
  obtain ⟨kind | kind, rfl⟩ | ⟨rfl, kind⟩ := Grammar.repShortcut_cases found
  · obtain ⟨_, _, _, _, none⟩ := h.offers_kind inner kind
    exact h.eps_stands (sense.trans (by rw [show u.sense = 0 from none]; exact kstar_zero))
  · obtain ⟨_, _, _, _, one⟩ := h.offers_kind inner kind
    exact h.eps_stands (sense.trans (by rw [show u.sense = 1 from one]; exact kstar_one))
  · obtain ⟨_, ⟨⟩, stands, _, star⟩ := h.offers_kind inner (congrArg some kind)
    refine stands.mono ⟨?_, Nat.le_of_lt lower⟩
    rw [sense, star]
    exact (kstar_idem _).symm

theorem delta (inner : x.Offers languages g u a) (sense : w.sense = u.sense ⊓ 1)
    (lower : u.rank < w.rank) :
    (weighing languages).Ends x g (fun _ => Grammar.delta a) fun x' g' d => x'.Stands g' w d := by
  refine .reuse h (fun d found => ?_) fun _ => h.single (.inr (.inl rfl)) inner
    (fun red => (nomatch red)) lower fun x y hy => by rw [sense, ← hy]; rfl
  obtain ⟨kind | kind, rfl⟩ | ⟨rfl, kind⟩ := Grammar.deltaShortcut_cases found
  · obtain ⟨_, _, _, _, none⟩ := h.offers_kind inner kind
    refine h.empty_stands (sense.trans (meet_one_eq_zero_iff.mpr ?_))
    rw [show u.sense = 0 from none]
    exact Language.notMem_zero []
  · obtain ⟨k, _, _, _, symbol⟩ := h.offers_kind inner kind
    refine h.empty_stands (sense.trans (meet_one_eq_zero_iff.mpr ?_))
    rw [show u.sense = matching (g.node k).symbol from symbol]
    exact nil_not_mem_matching
  · obtain ⟨_, ⟨⟩, stands, _, one⟩ := h.offers_kind inner (congrArg some kind)
    refine stands.mono ⟨?_, Nat.le_of_lt lower⟩
    rw [sense, show u.sense = 1 from one]
    exact (inf_idem _).symm

theorem reduction {transform : Transform} (total : transform.Total) (inner : x.Offers languages g u a)
    (sense : w.sense = u.sense) (lower : u.rank < w.rank) :
    (weighing languages).Ends x g (fun _ => Grammar.reduction a transform) fun x' g' d =>
      x'.Stands g' w d := by
  refine .reuse h (fun d found => ?_) fun _ => h.single (.inr (.inr rfl)) inner (fun _ => total)
    lower fun x y hy => by rw [sense, ← hy]; rfl
  obtain ⟨empty, rfl⟩ := Grammar.redShortcut_cases found
  obtain ⟨_, _, _, _, none⟩ := h.offers_kind inner empty
  exact h.empty_stands (sense.trans none)

end Gauge.Exact

end GrammarGraph
