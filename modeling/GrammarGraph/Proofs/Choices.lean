import GrammarGraph.Proofs.Reach
import GrammarGraph.Proofs.Repeated
import GrammarGraph.Proofs.Tree.Unfolding

/-! Any number of symbols, each of which is one of several. After every symbol the same tree is
left, under a reduction that puts the symbols taken in front; so a sentence has one witness, nested
to the right. -/
namespace GrammarGraph

/-- Any number of symbols, each one of `cs`. -/
def Term.anyOf (cs : List Value) : Term :=
  .rep (.alt (cs.map .char))

/-- The witness of symbols in a row, nested to the right. -/
def Value.chain : List Value → Value
  | [] => .nothing
  | [c] => .tuple [c]
  | c :: s => Forest.cons c (chain s)

theorem Value.chain_cons {c : Value} (solid : c.Solid) (s : List Value) :
    chain (c :: s) = Forest.cons c (chain s) := by
  cases s with
  | nil =>
    rw [Forest.cons, solid.share]
    rfl
  | cons d s => rfl

/-- Puts `c` in front, and the symbols `s` behind it. -/
def Transform.fronting (c : Value) (s : List Value) : Transform :=
  s.foldl (fun t c => .compose t (.prepend c)) (.prepend c)

theorem Transform.apply_fronting (c : Value) (s : List Value) (w : Value) :
    (fronting c s).apply w = .ok ((c :: s).foldr Forest.cons w) := by
  induction s using List.reverseRecOn generalizing w with
  | nil => rfl
  | append_singleton s d ih =>
    rw [fronting, List.foldl_append, List.foldl_cons, List.foldl_nil, apply_compose]
    change (fronting c s).apply (Forest.cons d w) = _
    rw [ih, ← List.cons_append, List.foldr_append]
    rfl

namespace Tree

/-- A choice between the symbols `cs`. -/
inductive Choice : List Value → Tree → Prop where
  | char (c : Value) : Choice [c] (.char c)
  | alt {cs cs' : List Value} {a b : Tree} : Choice cs a → Choice cs' b →
      Choice (cs ++ cs') (.alt a b)

namespace Choice

variable {cs : List Value} {e : Tree} {c : Value} (h : Choice cs e)
include h

theorem emptyLike : e.emptyLike = false := by
  induction h with
  | char => rfl
  | alt _ _ iha ihb => rw [Tree.emptyLike, iha, ihb, Bool.and_self]

theorem epsLike : e.epsLike = false := by
  induction h with
  | char => rfl
  | alt ha _ iha _ => rw [Tree.epsLike, iha, ha.emptyLike, Bool.or_self, Bool.false_and]

/-- Nothing is lost when a choice is compacted. -/
theorem compact : e.compact = e := by
  induction h with
  | char => rfl
  | alt ha hb iha ihb =>
    rw [Tree.compact, folded_of_active (alt ha hb).emptyLike (alt ha hb).epsLike, iha, ihb, chosen,
      ha.emptyLike, hb.emptyLike]
    rfl

theorem compact_rep : (Tree.rep e).compact = .rep e := by
  have active : (Tree.rep e).epsLike = false := by
    rw [Tree.epsLike, h.emptyLike, h.epsLike, Bool.or_self]
  rw [Tree.compact, folded_of_active rfl active, h.compact]

theorem derive_emptyLike : (e.derive c).emptyLike = !cs.any (·.same c) := by
  induction h with
  | char a =>
    rw [Tree.derive, List.any_cons, List.any_nil, Bool.or_false]
    cases a.same c <;> rfl
  | alt _ _ iha ihb => rw [Tree.derive, Tree.emptyLike, iha, ihb, List.any_append, Bool.not_or]

theorem derive_forest : (e.derive c).forest = if cs.any (·.same c) then [c] else [] := by
  induction h with
  | char a =>
    rw [Tree.derive, List.any_cons, List.any_nil, Bool.or_false]
    cases a.same c <;> rfl
  | @alt cs cs' _ _ _ _ iha ihb =>
    rw [Tree.derive, Tree.forest, iha, ihb, List.any_append]
    have twice : Forest.distinct [c, c] = [c] := by
      simp [Forest.distinct, Forest.insert, Value.same_refl]
    cases cs.any (·.same c) <;> cases cs'.any (·.same c) <;> first | exact twice | rfl

theorem derive_epsLike (taken : ∃ a ∈ cs, a.same c = true) : (e.derive c).epsLike = true := by
  have either : (e.derive c).epsLike = true ∨ (e.derive c).emptyLike = true := by
    clear taken
    induction h with
    | char a =>
      rw [Tree.derive]
      cases a.same c
      · exact .inr rfl
      · exact .inl rfl
    | alt _ _ iha ihb =>
      refine .inl ?_
      rw [Tree.derive, Tree.epsLike, Bool.and_eq_true, Bool.or_eq_true, Bool.or_eq_true]
      exact ⟨iha, ihb⟩
  refine either.resolve_right ?_
  rw [h.derive_emptyLike, List.any_eq_true.mpr taken]
  exact Bool.false_ne_true

theorem derive_settled (taken : ∃ a ∈ cs, a.same c = true) :
    (e.derive c).settled? = some [c] := by
  rw [settled?, h.derive_epsLike taken, if_pos rfl, h.derive_forest, List.any_eq_true.mpr taken,
    if_pos rfl]

/-- What follows the symbol is neither nothing nor settled. -/
theorem active (taken : ∃ a ∈ cs, a.same c = true) :
    ((e.derive c).cat (.rep e)).emptyLike = false ∧
      ((e.derive c).cat (.rep e)).epsLike = false := by
  constructor
  · rw [Tree.emptyLike, h.derive_emptyLike, List.any_eq_true.mpr taken]
    rfl
  · rw [Tree.epsLike, Tree.epsLike, h.emptyLike, h.epsLike, Bool.or_self, Bool.and_false]

theorem advance_rep (taken : ∃ a ∈ cs, a.same c = true) :
    trees.advance true c (.rep e) = .red (.rep e) (.prepend c) := by
  obtain ⟨some_, takes⟩ := h.active taken
  change ((e.derive c).cat (.rep e)).compact = _
  rw [Tree.compact, folded_of_active some_ takes, joined_of_one (h.derive_settled taken),
    h.compact_rep]

/-- The symbol is folded into the reduction, in front of the same repetition. -/
theorem advance_red (taken : ∃ a ∈ cs, a.same c = true) (t : Transform) :
    trees.advance true c (.red (.rep e) t) = .red (.rep e) (.compose t (.prepend c)) := by
  obtain ⟨some_, takes⟩ := h.active taken
  have folded (rest : Tree) : (Tree.red ((e.derive c).cat (.rep e)) t).folded rest = rest :=
    folded_of_active some_ takes
  change (Tree.red ((e.derive c).cat (.rep e)) t).compact = _
  rw [compact_red, folded, reduced, h.derive_settled taken, h.compact_rep]

theorem left_red {s : List Value} (taken : ∀ d ∈ s, ∃ a ∈ cs, a.same d = true) (t : Transform) :
    trees.left true s (.red (.rep e) t) =
      .red (.rep e) (s.foldl (fun t c => .compose t (.prepend c)) t) := by
  induction s generalizing t with
  | nil => rfl
  | cons d s ih =>
    rw [Sense.left, h.advance_red (taken d List.mem_cons_self)]
    exact ih (fun d' member => taken d' (List.mem_cons_of_mem d member)) _

theorem left {s : List Value} (taken : ∀ d ∈ c :: s, ∃ a ∈ cs, a.same d = true) :
    trees.left true (c :: s) (.rep e) = .red (.rep e) (.fronting c s) := by
  rw [Sense.left, h.advance_rep (taken c List.mem_cons_self)]
  exact h.left_red (fun d member => taken d (List.mem_cons_of_mem c member)) _

/-- A sentence has one witness. -/
theorem forest_left {s : List Value} (taken : ∀ d ∈ c :: s, ∃ a ∈ cs, a.same d = true)
    (solid : ∀ d ∈ c :: s, d.Solid) :
    Forest.distinct (trees.left true (c :: s) (.rep e)).forest = [.chain (c :: s)] := by
  have nested : ∀ {s : List Value}, (∀ d ∈ s, d.Solid) →
      s.foldr Forest.cons .nothing = Value.chain s := by
    intro s solid
    induction s with
    | nil => rfl
    | cons d s ih =>
      rw [List.foldr_cons, ih fun d' member => solid d' (List.mem_cons_of_mem d member),
        Value.chain_cons (solid d List.mem_cons_self)]
  have one (t : Transform) (w : Value) (applied : t.apply .nothing = .ok w) :
      t.results Forest.trivial = [w] := by
    rw [Transform.results, List.filterMap_cons, applied]
    rfl
  rw [h.left taken, Tree.forest, Tree.forest,
    one _ _ ((Transform.apply_fronting c s _).trans (congrArg _ (nested solid)))]
  rfl

end Choice

end Tree

/-- The kind of the nodes that stand for the tree. -/
def Tree.kind : Tree → Kind
  | .empty => .empty
  | .eps _ => .eps
  | .char _ => .char
  | .cat _ _ => .cat
  | .alt _ _ => .alt
  | .rep _ => .rep
  | .delta _ => .delta
  | .red _ _ => .red

theorem Gauge.Exact.kind {x : Gauge Tree} {g : Graph} (h : Exact trees x g) {n : NodeId}
    (lt : n < g.nodes.size) : (g.node n).kind = (x (.node n)).sense.kind := by
  have weighs := h.nodes n lt
  rw [weighs.sense]
  change _ = ((g.node n).tree fun side => (x ((g.node n).slot side)).sense).kind
  unfold Node.tree
  cases kind : (g.node n).kind with
  | placeholder => exact absurd kind weighs.complete
  | other name => exact absurd kind (weighs.known name)
  | _ => rfl

/-- A node that stands for a reduction is one. -/
theorem Gauge.Exact.red {x : Gauge Tree} {g : Graph} (h : Exact trees x g) {n : NodeId}
    (lt : n < g.nodes.size) {e : Tree} {t : Transform} (sense : (x (.node n)).sense = .red e t) :
    (g.node n).kind = .red ∧ (x (g.node n).first).sense = e ∧ (g.node n).transform = t := by
  have kind : (g.node n).kind = .red := by rw [h.kind lt, sense]; rfl
  have whole := (h.sense_of_kind lt kind).symm.trans sense
  exact ⟨kind, Tree.red.inj whole⟩

open Relation (ReflTransGen)

namespace Graph

/-- A choice between the nodes `ls`, each for one symbol. -/
inductive Choice (g : Graph) : NodeId → List NodeId → Prop where
  | char {n : NodeId} : (g.node n).kind = .char → Choice g n [n]
  | alt {n a b : NodeId} {ls ls' : List NodeId} : (g.node n).kind = .alt →
      (g.node n).first = .node a → (g.node n).second = .node b → Choice g a ls → Choice g b ls' →
      Choice g n (ls ++ ls')

/-- The symbols of the nodes. -/
def symbols (g : Graph) (ls : List NodeId) : List Value :=
  ls.map fun l => (g.node l).symbol

theorem Evolves.symbols {g g' : Graph} (h : g.Evolves g') {ls : List NodeId}
    (chars : ∀ l ∈ ls, (g.node l).kind = .char) : g'.symbols ls = g.symbols ls := by
  refine List.map_congr_left fun l member => Node.symbol_of_bare (h.bare l ?_)
  exact lt_of_kind (by rw [chars l member]; decide)

namespace Choice

variable {g g' : Graph} {n : NodeId} {ls : List NodeId}

theorem kind (h : g.Choice n ls) : (g.node n).kind = .char ∨ (g.node n).kind = .alt := by
  cases h with
  | char kind => exact .inl kind
  | alt kind => exact .inr kind

theorem tree {x : Gauge Tree} (exact_ : Gauge.Exact trees x g) (h : g.Choice n ls) :
    Tree.Choice (g.symbols ls) (x (.node n)).sense := by
  induction h with
  | char kind =>
    rw [exact_.sense_of_known kind (by decide)]
    exact .char _
  | alt kind first second ha hb iha ihb =>
    rw [exact_.sense_of_known kind (by decide)]
    change Tree.Choice _ (.alt (x (g.node _).first).sense (x (g.node _).second).sense)
    rw [first, second, symbols, List.map_append]
    exact .alt iha ihb

theorem char_of_mem (h : g.Choice n ls) : ∀ l ∈ ls, (g.node l).kind = .char := by
  induction h with
  | char kind => exact fun l member => List.mem_singleton.mp member ▸ kind
  | alt _ _ _ _ _ iha ihb => exact fun l member => (List.mem_append.mp member).elim (iha l) (ihb l)

theorem evolves (h : g.Choice n ls) (evolves : g.Evolves g') : g'.Choice n ls := by
  induction h with
  | char kind => exact .char (evolves.kind_eq kind (by decide))
  | alt kind first second _ _ iha ihb =>
    exact .alt (evolves.kind_eq kind (by decide))
      (evolves.filled (show (g.node _).slot .first = .node _ from first))
      (evolves.filled (show (g.node _).slot .second = .node _ from second)) iha ihb

/-- A choice between `k` distinct nodes has `2 k - 1` nodes. -/
theorem spans (h : g.Choice n ls) (distinct : ls.Nodup) : ∃ S, g.Spans n S ∧
    S.card + 1 = 2 * ls.length ∧ (∀ k ∈ S, (g.node k).kind = .char ∨ (g.node k).kind = .alt) ∧
    (∀ k ∈ S, (g.node k).kind = .char → k ∈ ls) ∧
    ∀ k ∈ S, ∃ l, ReflTransGen g.Child k l ∧ (g.node l).kind = .char := by
  classical
  induction h with
  | @char n kind =>
    refine ⟨{n}, ⟨by simp, ?_, ?_, ?_⟩, rfl, ?_, ?_, ?_⟩
    all_goals
      intro k member
      obtain rfl := Finset.mem_singleton.mp member
    · exact lt_of_kind (by rw [kind]; decide)
    · intro side none
      rw [Node.sides_of_atomic (by rw [kind]; rfl)] at none
      cases none
    · exact .refl
    · exact .inl kind
    · exact fun _ => List.mem_singleton_self k
    · exact ⟨k, .refl, kind⟩
  | @alt n a b ls ls' kind first second ha hb iha ihb =>
    obtain ⟨distinctA, distinctB, apart⟩ := List.nodup_append'.mp distinct
    obtain ⟨A, spansA, cardA, kindsA, charsA, leavesA⟩ := iha distinctA
    obtain ⟨B, spansB, cardB, kindsB, charsB, leavesB⟩ := ihb distinctB
    have childA : g.Child n a := ⟨.first, Node.mem_sides_of_pair (.inr kind) .first, first⟩
    have childB : g.Child n b := ⟨.second, Node.mem_sides_of_pair (.inr kind) .second, second⟩
    -- A node of both sides would lead to a symbol that both sides have.
    have disjoint : Disjoint A B := by
      refine Finset.disjoint_left.mpr fun k inA inB => ?_
      obtain ⟨l, path, char⟩ := leavesA k inA
      exact apart (charsA l (spansA.mem_of_reached inA path) char)
        (charsB l (spansB.mem_of_reached inB path) char)
    have fresh : n ∉ A ∪ B := by
      intro member
      rcases Finset.mem_union.mp member with inA | inB
      · exact Finset.disjoint_left.mp disjoint (spansA.mem_of_child inA childB) spansB.root
      · exact Finset.disjoint_left.mp disjoint spansA.root (spansB.mem_of_child inB childA)
    refine ⟨insert n (A ∪ B), spansA.of_pair spansB (.inr kind) first second, ?_, ?_, ?_, ?_⟩
    · rw [Finset.card_insert_of_notMem fresh, Finset.card_union_of_disjoint disjoint,
        List.length_append]
      omega
    all_goals
      intro k member
      rcases Finset.mem_insert.mp member with rfl | member
    · exact .inr kind
    · exact (Finset.mem_union.mp member).elim (kindsA k) (kindsB k)
    · exact fun char => by cases kind.symm.trans char
    · intro char
      exact (Finset.mem_union.mp member).elim
        (fun inA => List.mem_append_left _ (charsA k inA char))
        fun inB => List.mem_append_right _ (charsB k inB char)
    · obtain ⟨l, path, char⟩ := leavesA a spansA.root
      exact ⟨l, .head childA path, char⟩
    · exact (Finset.mem_union.mp member).elim (leavesA k) (leavesB k)

end Choice

/-- The node `r` is a repetition of the choice `a` between the nodes `ls`. -/
structure AnyOf (g : Graph) (ls : List NodeId) (r a : NodeId) : Prop where
  kind : (g.node r).kind = .rep
  first : (g.node r).first = .node a
  choice : g.Choice a ls

namespace AnyOf

variable {g g' : Graph} {ls : List NodeId} {r a : NodeId} (h : g.AnyOf ls r a)
include h

theorem lt : r < g.nodes.size :=
  lt_of_kind (by rw [h.kind]; decide)

theorem evolves (evolves : g.Evolves g') : g'.AnyOf ls r a where
  kind := evolves.kind_eq h.kind (by decide)
  first := evolves.filled (show (g.node r).slot .first = .node a from h.first)
  choice := h.choice.evolves evolves

theorem sense {x : Gauge Tree} (exact_ : Gauge.Exact trees x g) :
    (x (.node r)).sense = .rep (x (.node a)).sense := by
  rw [exact_.sense_of_kind h.lt h.kind, ← h.first]
  rfl

theorem symbols (evolves : g.Evolves g') : g'.symbols ls = g.symbols ls :=
  evolves.symbols h.choice.char_of_mem

end AnyOf

end Graph

end GrammarGraph
