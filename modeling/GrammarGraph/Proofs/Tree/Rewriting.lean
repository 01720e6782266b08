import GrammarGraph.Proofs.Constructors
import GrammarGraph.Proofs.Gauge.Answers
import GrammarGraph.Proofs.Tree.Evaluators

/-! Derivation and compaction make nodes for the trees that the functions on trees give. -/
namespace GrammarGraph

/-- A trivial forest holds the witness of nothing alone. -/
theorem Forest.eq_trivial {ws : Forest} (h : isTrivial ws = true) : ws = trivial := by
  unfold isTrivial at h
  split at h
  · next w => rw [(Value.isNothing_iff w).mp h]
  · cases h

theorem Node.kind_of_sense_eps {x : Gauge Tree} {node : Node} {ws : Forest}
    (h : node.sense trees x = .eps ws) : node.kind = .eps := by
  simp only [Node.sense, trees, Node.tree] at h
  split at h
  · next kind => exact kind
  all_goals cases h

namespace Gauge

variable {x x₁ : Gauge Tree} {g g₁ : Graph} {v : Nat} {w u u' : Weight Tree} {c : Value}
  {n k m : NodeId} {s s' : Suspension}

namespace Exact

variable (h : Exact trees x g)
include h

/-- The tree of a concrete operand, by its contents. -/
theorem sense_of_stands (stands : x.Stands g u k) :
    u.sense = (g.node k).tree fun side => (x ((g.node k).slot side)).sense :=
  stands.within.sense.symm.trans (h.nodes k stands.lt).sense

theorem isEmpty_iff (stands : x.Stands g u k) :
    u.sense.isEmpty = true ↔ (g.node k).kind = .empty := by
  have weighs := h.nodes k stands.lt
  rw [h.sense_of_stands stands]
  unfold Node.tree
  cases kind : (g.node k).kind with
  | placeholder => exact absurd kind weighs.complete
  | other name => exact absurd kind (weighs.known name)
  | _ => simp [Tree.isEmpty]

theorem cat_deferred (first : x.Bears trees g u s) (second : x.Bears trees g u' s')
    (lower : u.rank < w.rank ∧ u'.rank < w.rank) (sense : w.sense = .cat u.sense u'.sense) :
    (weighing trees).Ends x g (fun _ => Grammar.cat (.deferred s) (.deferred s'))
      fun x' g' d => x'.Stands g' w d :=
  .reuse h (fun d found => by rw [Grammar.catShortcut_deferred] at found; cases found)
    fun _ => h.pair (.inl rfl) (a := .deferred s) (b := .deferred s') first second lower
      fun x y z hy hz => by rw [sense, ← hy, ← hz]; rfl

theorem cat_skipping (first : x.Stands g u k) (second : x.Bears trees g u' s')
    (lower : u.rank < w.rank ∧ u'.rank < w.rank)
    (sense : w.sense = Tree.skipping u.sense u'.sense) :
    (weighing trees).Ends x g (fun _ => Grammar.cat (.node k) (.deferred s'))
      fun x' g' d => x'.Stands g' w d := by
  have empty := h.isEmpty_iff first
  refine .reuse h (fun d found => ?_) fun fresh => ?_
  · rw [Grammar.catShortcut_node_deferred] at found
    split at found
    · next kind =>
      cases found
      exact h.empty_stands (by rw [sense, Tree.skipping, if_pos (empty.mpr kind)]; rfl)
    · cases found
  · refine h.pair (.inl rfl) (a := .node k) (b := .deferred s') first second lower
      fun x y z hy hz => ?_
    rw [Grammar.catShortcut_node_deferred] at fresh
    have kind : (g.node k).kind ≠ .empty := fun kind => by simp [kind] at fresh
    rw [sense, Tree.skipping, if_neg (mt empty.mp kind), ← hy, ← hz]
    rfl

theorem cat_taking (first : x.Bears trees g u s) (second : x.Stands g u' k)
    (lower : u.rank < w.rank ∧ u'.rank < w.rank)
    (sense : w.sense = Tree.taking u.sense u'.sense) :
    (weighing trees).Ends x g (fun _ => Grammar.cat (.deferred s) (.node k))
      fun x' g' d => x'.Stands g' w d := by
  have empty := h.isEmpty_iff second
  refine .reuse h (fun d found => ?_) fun fresh => ?_
  · rw [Grammar.catShortcut_deferred_node] at found
    split at found
    · next kind =>
      cases found
      exact h.empty_stands (by rw [sense, Tree.taking, if_pos (empty.mpr kind)]; rfl)
    · cases found
  · refine h.pair (.inl rfl) (a := .deferred s) (b := .node k) first second lower
      fun x y z hy hz => ?_
    rw [Grammar.catShortcut_deferred_node] at fresh
    have kind : (g.node k).kind ≠ .empty := fun kind => by simp [kind] at fresh
    rw [sense, Tree.taking, if_neg (mt empty.mp kind), ← hy, ← hz]
    rfl

theorem alt_deferred (first : x.Bears trees g u s) (second : x.Bears trees g u' s')
    (lower : u.rank < w.rank ∧ u'.rank < w.rank) (sense : w.sense = .alt u.sense u'.sense) :
    (weighing trees).Ends x g (fun _ => Grammar.alt (.deferred s) (.deferred s'))
      fun x' g' d => x'.Stands g' w d :=
  .reuse h (fun d found => by cases found)
    fun _ => h.pair (.inr rfl) (a := .deferred s) (b := .deferred s') first second lower
      fun x y z hy hz => by rw [sense, ← hy, ← hz]; rfl

theorem alt_either (first : x.Stands g u k) (second : x.Stands g u' m)
    (lower : u.rank < w.rank ∧ u'.rank < w.rank)
    (sense : w.sense = Tree.either u.sense u'.sense) :
    (weighing trees).Ends x g (fun _ => Grammar.alt (.node k) (.node m))
      fun x' g' d => x'.Stands g' w d := by
  have empty := h.isEmpty_iff first
  have empty' := h.isEmpty_iff second
  refine .reuse h (fun d found => ?_) fun fresh => ?_
  · obtain ⟨_, _, ⟨⟩, ⟨⟩, ⟨kind, rfl⟩ | ⟨other, kind, rfl⟩⟩ := Grammar.altShortcut_cases found
    · refine second.mono ⟨?_, Nat.le_of_lt lower.2⟩
      rw [sense, Tree.either, if_pos (empty.mpr kind)]
    · refine first.mono ⟨?_, Nat.le_of_lt lower.1⟩
      rw [sense, Tree.either, if_neg (mt empty.mp other), if_pos (empty'.mpr kind)]
  · refine h.pair (.inr rfl) (a := .node k) (b := .node m) first second lower
      fun x y z hy hz => ?_
    simp only [Grammar.altShortcut, beq_iff_eq] at fresh
    have kind : (g.node k).kind ≠ .empty := fun kind => by simp [kind] at fresh
    have kind' : (g.node m).kind ≠ .empty := fun kind' => by simp [kind, kind'] at fresh
    rw [sense, Tree.either, if_neg (mt empty.mp kind), if_neg (mt empty'.mp kind'), ← hy, ← hz]
    rfl

theorem rep_deferred (inner : x.Bears trees g u s) (lower : u.rank < w.rank)
    (sense : w.sense = .rep u.sense) :
    (weighing trees).Ends x g (fun _ => Grammar.rep (.deferred s))
      fun x' g' d => x'.Stands g' w d :=
  .reuse h (fun d found => by cases found)
    fun _ => h.single (.inl rfl) (a := .deferred s) inner (fun red => (nomatch red)) lower
      fun x y hy => by rw [sense, ← hy]; rfl

theorem red_deferred {transform : Transform} (total : transform.Total)
    (inner : x.Bears trees g u s) (lower : u.rank < w.rank)
    (sense : w.sense = .red u.sense transform) :
    (weighing trees).Ends x g (fun _ => Grammar.reduction (.deferred s) transform)
      fun x' g' d => x'.Stands g' w d :=
  .reuse h (fun d found => by cases found)
    fun _ => h.single (.inr (.inr rfl)) (a := .deferred s) inner (fun _ => total) lower
      fun x y hy => by rw [sense, ← hy]; rfl

theorem delta_vanished (inner : x.Stands g u k) (lower : u.rank < w.rank)
    (sense : w.sense = u.sense.vanished) :
    (weighing trees).Ends x g (fun _ => Grammar.delta (.node k))
      fun x' g' d => x'.Stands g' w d := by
  have contents := h.sense_of_stands inner
  refine .reuse h (fun d found => ?_) fun fresh => ?_
  · obtain ⟨kind, rfl⟩ | ⟨⟨⟩, kind⟩ := Grammar.deltaShortcut_cases found
    · have kind := kind.imp Option.some.inj Option.some.inj
      refine h.empty_stands ?_
      rw [sense, contents]
      rcases kind with kind | kind <;> simp [Node.tree, kind, Tree.vanished] <;> rfl
    · refine inner.mono ⟨?_, Nat.le_of_lt lower⟩
      rw [sense, contents]
      simp [Node.tree, kind, Tree.vanished]
  · refine h.single (.inr (.inl rfl)) (a := .node k) inner (fun red => (nomatch red)) lower
      fun x y hy => ?_
    have complete := (h.nodes k inner.lt).complete
    have known := (h.nodes k inner.lt).known
    have kept : u.sense.vanished = .delta u.sense := by
      rw [contents]
      cases kind : (g.node k).kind with
      | placeholder => exact absurd kind complete
      | other name => exact absurd kind (known name)
      | _ =>
        simp_all [Grammar.deltaShortcut, Operand.kind?, Operand.node?, Node.tree, Tree.vanished]
    rw [sense, kept, ← hy]
    rfl

theorem tree_eps {ws : List Value} (hashable : ∀ v ∈ ws, v.hashable = true)
    (sense : w.sense = .eps (Forest.distinct ws)) :
    (weighing trees).Ends x g (fun _ => Grammar.eps ws) fun x' g' d => x'.Stands g' w d := by
  unfold Grammar.eps
  rw [Forest.ofWitnesses_ok.mpr ⟨hashable, rfl⟩]
  refine .ok ?_
  split
  · next trivial_ =>
    have lt := h.formed.eps_lt
    refine .pure h ⟨lt, ?_, by rw [h.atoms.2]; exact Nat.zero_le _⟩
    rw [(h.nodes NodeId.eps lt).sense, sense, Forest.eq_trivial trivial_, Node.sense]
    simp only [trees, Node.tree, h.formed.eps, h.formed.trivial]
  · exact h.atom { kind := .eps, witnesses := Forest.distinct ws } rfl Kind.noConfusion rfl sense
      fun _ => ⟨Forest.hashable_distinct hashable, Forest.distinct_distinct ws⟩

end Exact

/-- The parts of the derivative of a concatenation, as the functions on trees make them. -/
def treeSplitting : Splitting trees where
  vanished := Tree.vanished
  skipping := Tree.skipping
  taking := Tree.taking
  either := Tree.either
  delta := Exact.delta_vanished
  skip := Exact.cat_skipping
  take := Exact.cat_taking
  join := Exact.alt_either

namespace Turn

variable (t : Turn trees v x g n) (lower : Answers trees v)
include t lower

theorem tree_derive (takes : trees.takes c) :
    (weighing trees).Ends x g (fun ask => Derivative.derive ask c n) fun x' g' d =>
      x'.Stands g' ((x (.node n)).after trees c) d := by
  have sense {kind : Kind} (hk : (g.node n).kind = kind) :
      ((x (.node n)).after trees c).sense =
        (({ g.node n with kind } : Node).sense trees x).derive c :=
    congrArg (Tree.derive c) (t.sense_of_kind hk)
  by_cases pair : (g.node n).kind = .cat
  · exact t.derive_cat lower treeSplitting takes pair (sense pair)
  refine .read (p := fun g => g.node n) ?_
  cases kind : (g.node n).kind with
  | placeholder => exact absurd kind t.weighs.complete
  | other name => exact absurd kind (t.weighs.known name)
  | empty | eps | delta => exact .pure t.valid (t.valid.empty_stands (sense kind))
  | char =>
    have derived := sense kind
    dsimp only
    cases same : (g.node n).symbol.same c with
    | false =>
      refine .pure t.valid (t.valid.empty_stands (derived.trans ?_))
      simp [Node.sense, trees, Node.tree, Tree.derive, same]
    | true =>
      refine t.valid.tree_eps (by simpa using takes.1) (derived.trans ?_)
      simp [Node.sense, trees, Node.tree, Tree.derive, same, Forest.distinct, Forest.insert]
  | red =>
    have member := Node.mem_sides_of_single (.inr (.inr kind))
    refine t.valid.red_deferred (t.weighs.red kind) (offers_later takes member) ?_ (sense kind)
    have below := t.slot_lower member
    simp only [Weight.after]
    omega
  | rep =>
    have member := Node.mem_sides_of_single (.inl kind)
    have whole : (x (.node n)).sense = .rep (x ((g.node n).slot .first)).sense :=
      t.sense_of_kind kind
    have filled : (x (.node n)).sense.isEmpty = false := by rw [whole]; rfl
    have itself : x.Stands g (x (.node n)) n := ⟨t.lt, .refl _⟩
    refine t.valid.cat_taking (offers_later takes member) itself ?_ ?_
    · have below := t.slot_lower member
      simp only [Weight.after]
      omega
    · rw [sense kind, Tree.taking, filled, whole]
      rfl
  | alt =>
    have member := Node.mem_sides_of_pair (.inr kind)
    refine t.valid.alt_deferred (offers_later takes (member .first))
      (offers_later takes (member .second)) ?_ (sense kind)
    have below := t.slot_lower (member .first)
    have below' := t.slot_lower (member .second)
    simp only [Weight.after]
    omega
  | cat => exact absurd kind pair

/-- The witnesses of a tree that takes no symbol. -/
theorem tree_settled (later : Later x g x₁ g₁) (h₁ : Exact trees x₁ g₁) (stands : x₁.Stands g₁ w k)
    (below : 8 * w.rank + 7 < v) :
    (weighing trees).Ends x₁ g₁ (fun ask => Compaction.settled? ask k) fun _ _ found =>
      found = w.sense.settled? := by
  refine .bind (t.evaluate lower .epsLike later h₁ stands below) fun x₂ g₂ r later₂ h₂ fits => ?_
  have fits : r = w.sense.epsLike := fits
  cases r with
  | false =>
    refine .pure h₂ ?_
    rw [Tree.settled?, ← fits]
    rfl
  | true =>
    refine .bind (t.evaluate lower .forest (later.trans later₂) h₂ (later₂.stands stands) below)
      fun x₃ g₃ ws later₃ h₃ fits' => ?_
    refine .pure h₃ ?_
    rw [Tree.settled?, ← fits, if_pos rfl]
    exact congrArg some fits'

/-- The choice between two nodes that lie lower. -/
theorem tree_compactAlt {a b : NodeId} (later : Later x g x₁ g₁) (h₁ : Exact trees x₁ g₁)
    (first : x₁.Stands g₁ u a) (second : x₁.Stands g₁ u' b) (below : 8 * u.rank + 7 < v)
    (below' : 8 * u'.rank + 7 < v) (ranks : u.rank < w.rank ∧ u'.rank < w.rank)
    (sense : w.sense = u.sense.chosen u'.sense u.sense.compact u'.sense.compact) :
    (weighing trees).Ends x₁ g₁ (fun ask => Compaction.alt ask a b) fun x' g' m =>
      x'.Stands g' w m := by
  refine .bind (t.evaluate lower .emptyLike later h₁ first below) fun x₂ g₂ none step₂ h₂ fits => ?_
  have later₂ := later.trans step₂
  have second := step₂.stands second
  have fits : none = u.sense.emptyLike := fits
  cases none with
  | true =>
    refine .imp (t.evaluate lower .compact later₂ h₂ second below') fun _ _ _ _ _ stands => ?_
    refine Stands.mono (w := u'.compacted trees) stands ⟨?_, Nat.le_of_lt ranks.2⟩
    rw [sense, Tree.chosen, ← fits]
    rfl
  | false =>
    refine .bind (t.evaluate lower .emptyLike later₂ h₂ second below')
      fun x₃ g₃ none step₃ h₃ fits' => ?_
    have first := (step₂.trans step₃).stands first
    have fits' : none = u'.sense.emptyLike := fits'
    cases none with
    | true =>
      refine .imp (t.evaluate lower .compact (later₂.trans step₃) h₃ first below)
        fun _ _ _ _ _ stands => ?_
      refine Stands.mono (w := u.compacted trees) stands ⟨?_, Nat.le_of_lt ranks.1⟩
      rw [sense, Tree.chosen, ← fits, ← fits']
      rfl
    | false =>
      refine h₃.alt_deferred first.later (step₃.stands second).later ranks ?_
      rw [sense, Tree.chosen, ← fits, ← fits']
      rfl

/-- The concatenation of two nodes that lie lower. -/
theorem tree_compactCat {a b : NodeId} (later : Later x g x₁ g₁) (h₁ : Exact trees x₁ g₁)
    (first : x₁.Stands g₁ u a) (second : x₁.Stands g₁ u' b) (below : 8 * u.rank + 7 < v)
    (below' : 8 * u'.rank + 7 < v) (ranks : u.rank < w.rank ∧ u'.rank < w.rank)
    (sense : w.sense = u.sense.joined u'.sense u.sense.compact u'.sense.compact) :
    (weighing trees).Ends x₁ g₁ (fun ask => Compaction.cat ask a b) fun x' g' m =>
      x'.Stands g' w m := by
  have hashable (side : Weight Tree) {n : NodeId} {head : Value} (stands : x₁.Stands g₁ side n)
      (one : side.sense.settled? = some [head]) : head.hashable = true :=
    (stands.within.sense ▸ h₁.proper _ : trees.proper side.sense).of_settled
      Forest.hashable_closed one
  refine .bind (t.tree_settled lower later h₁ first below) fun x₂ g₂ found step₂ h₂ heads => ?_
  split
  · exact .pure h₂ (h₂.empty_stands (sense.trans (Tree.joined_of_none heads.symm)))
  · exact h₂.red_deferred (Transform.total_prepend (hashable u first heads.symm))
      (step₂.stands second).later ranks.2 (sense.trans (Tree.joined_of_one heads.symm))
  · next not_none not_one =>
    rw [Tree.joined_of_several (heads ▸ not_none) (heads ▸ not_one)] at sense
    refine .bind (t.tree_settled lower (later.trans step₂) h₂ (step₂.stands second) below')
      fun x₃ g₃ found' step₃ h₃ tails => ?_
    have step₃ := step₂.trans step₃
    split
    · refine .pure h₃ (h₃.empty_stands ?_)
      rw [sense, Tree.joinedLast, ← tails]
      rfl
    · next tail =>
      refine h₃.red_deferred (Transform.total_append (hashable u' second tails.symm))
        (step₃.stands first).later ranks.1 ?_
      rw [sense, Tree.joinedLast, ← tails]
      rfl
    · next not_none not_one =>
      rw [Tree.joinedLast_of_several (tails ▸ not_none) (tails ▸ not_one)] at sense
      exact h₃.cat_deferred (step₃.stands first).later (step₃.stands second).later ranks sense

/-- A reduction of a node that lies lower. -/
theorem tree_compactRed {transform : Transform} (total : transform.Total) (later : Later x g x₁ g₁)
    (h₁ : Exact trees x₁ g₁) (inner : x₁.Stands g₁ u k) (below : 8 * u.rank + 7 < v)
    (rank : u.rank < w.rank) (sense : w.sense = u.sense.reduced transform) :
    (weighing trees).Ends x₁ g₁ (fun ask => Compaction.red ask k transform) fun x' g' m =>
      x'.Stands g' w m := by
  have turn : Turn trees v x₁ g₁ k := by
    refine ⟨h₁, later.busy t.busy, inner.lt, ?_⟩
    have := inner.within.rank
    omega
  have contents := h₁.sense_of_stands inner
  have low := inner.within.rank
  refine .read (p := fun g => g.node k) ?_
  split
  · next kind =>
    have member := Node.mem_sides_of_single (.inr (.inr kind))
    have lies := turn.slot_lower member
    refine .bind (turn.child lower (.refl x₁ g₁) h₁ member) fun x₂ g₂ m step₂ h₂ nested => ?_
    refine h₂.red_deferred (total.compose (turn.weighs.red kind)) nested.later
      (Nat.lt_of_lt_of_le lies (Nat.le_of_lt (Nat.lt_of_le_of_lt low rank))) ?_
    rw [sense, contents, Node.tree, kind]
    rfl
  · next kind =>
    have member := Node.mem_sides_of_pair (.inl kind)
    have lies := turn.slot_lower (member .second)
    have parts : u.sense = .cat (x₁ ((g₁.node k).slot .first)).sense
        (x₁ ((g₁.node k).slot .second)).sense := by
      rw [contents, Node.tree, kind]
    refine .bind (turn.child lower (.refl x₁ g₁) h₁ (member .first))
      fun x₂ g₂ m step₂ h₂ first => ?_
    refine .bind (turn.tree_settled lower step₂ h₂ first (turn.slot_below (member .first)))
      fun x₃ g₃ found step₃ h₃ heads => ?_
    have later₃ := step₂.trans step₃
    split
    · next head =>
      have hashable :=
        (h₁.proper ((g₁.node k).slot .first)).of_settled Forest.hashable_closed heads.symm
      refine .bind (turn.child lower later₃ h₃ (member .second))
        fun x₄ g₄ rest step₄ h₄ second => ?_
      refine h₄.red_deferred (total.compose (Transform.total_prepend hashable)) second.later
        (Nat.lt_of_lt_of_le lies (Nat.le_of_lt (Nat.lt_of_le_of_lt low rank))) ?_
      rw [sense, parts, Tree.reduced, ← heads]
      rfl
    · next not_one =>
      refine h₃.red_deferred total (later₃.stands inner).later rank ?_
      rw [sense, parts, Tree.reduced_cat_of_several (heads ▸ not_one), ← parts]
      rfl
  · next no_red no_cat =>
    refine h₁.red_deferred total inner.later rank ?_
    rw [sense]
    unfold Node.tree at contents
    cases kind : (g₁.node k).kind with
    | red => exact absurd kind no_red
    | cat => exact absurd kind no_cat
    | _ =>
      rw [kind] at contents
      rw [Weight.compacted, contents]
      rfl

/-- A node that takes symbols. -/
theorem tree_compound (later : Later x g x₁ g₁) (h₁ : Exact trees x₁ g₁)
    (some_ : (x (.node n)).sense.emptyLike = false) (takes : (x (.node n)).sense.epsLike = false)
    (parts : (g.node n).kind ≠ .char) :
    (weighing trees).Ends x₁ g₁ (fun ask => Compaction.compound ask n) fun x' g' m =>
      x'.Stands g' ((x (.node n)).compacted trees) m := by
  have kinds := later.kind t.lt
  have transform := Node.transform_of_bare (later.evolves.bare n t.lt)
  refine .read (p := fun g => g.node n) ?_
  rw [kinds, transform]
  have contents {kind : Kind} (hk : (g.node n).kind = kind) := t.sense_of_kind hk
  cases kind : (g.node n).kind with
  | placeholder => exact absurd kind t.weighs.complete
  | other name => exact absurd kind (t.weighs.known name)
  | empty => rw [contents kind] at some_; cases some_
  | eps => rw [contents kind] at takes; cases takes
  | delta => rw [contents kind] at takes; cases takes
  | char => exact absurd kind parts
  | rep =>
    have member := Node.mem_sides_of_single (.inl kind)
    refine .bind (t.child lower later h₁ member) fun x₂ g₂ a step₂ h₂ inner => ?_
    refine h₂.rep_deferred inner.later (t.slot_lower member) ?_
    rw [contents kind] at some_ takes
    rw [Weight.compacted, contents kind]
    exact Tree.folded_of_active some_ takes
  | red =>
    have member := Node.mem_sides_of_single (.inr (.inr kind))
    refine .bind (t.child lower later h₁ member) fun x₂ g₂ a step₂ h₂ inner => ?_
    refine t.tree_compactRed lower (t.weighs.red kind) (later.trans step₂) h₂ inner
      (t.slot_below member) (t.slot_lower member) ?_
    rw [contents kind] at some_ takes
    rw [Weight.compacted, contents kind]
    exact (Tree.compact_red _ _).trans (Tree.folded_of_active some_ takes)
  | alt =>
    have member := Node.mem_sides_of_pair (.inr kind)
    refine t.children lower later h₁ member fun later₃ h₃ first second => ?_
    refine t.tree_compactAlt lower later₃ h₃ first second
      (t.slot_below (member .first)) (t.slot_below (member .second))
      ⟨t.slot_lower (member .first), t.slot_lower (member .second)⟩ ?_
    rw [contents kind] at some_ takes
    rw [Weight.compacted, contents kind]
    exact Tree.folded_of_active some_ takes
  | cat =>
    have member := Node.mem_sides_of_pair (.inl kind)
    refine t.children lower later h₁ member fun later₃ h₃ first second => ?_
    refine t.tree_compactCat lower later₃ h₃ first second
      (t.slot_below (member .first)) (t.slot_below (member .second))
      ⟨t.slot_lower (member .first), t.slot_lower (member .second)⟩ ?_
    rw [contents kind] at some_ takes
    rw [Weight.compacted, contents kind]
    exact Tree.folded_of_active some_ takes

theorem tree_compact (level : 8 * (x (.node n)).rank + Evaluator.index .compact = v) :
    (weighing trees).Ends x g (fun ask => Compaction.compact ask n) fun x' g' m =>
      x'.Stands g' ((x (.node n)).compacted trees) m := by
  -- The other evaluators of the node come before compaction.
  have itself (i : Evaluator) (before : i.index < Evaluator.index .compact) {x₁ g₁}
      (later : Later x g x₁ g₁) (h₁ : Exact trees x₁ g₁) :
      (weighing trees).Ends x₁ g₁ (fun ask => i.ask ask n) fun x' g' r =>
        x'.Fits trees g' (x (.node n)) i r := by
    have turn := t.later later h₁
    rw [← later.node t.lt] at level ⊢
    exact lower.evaluate i h₁ turn.busy turn.lt (by omega)
  have same {e : Tree} (contents : (x (.node n)).sense = e) (fixed : e.compact = e) :
      x.Stands g ((x (.node n)).compacted trees) n :=
    ⟨t.lt, (contents.trans fixed.symm).trans (congrArg Tree.compact contents.symm), Nat.le_refl _⟩
  have contents {kind : Kind} (hk : (g.node n).kind = kind) := t.sense_of_kind hk
  refine .read (p := fun g => (g.node n).kind) ?_
  split
  · next kind => exact .pure t.valid (same (contents kind) rfl)
  · next kind => exact .pure t.valid (same (contents kind) rfl)
  · next kind => exact .pure t.valid (same (contents kind) rfl)
  · next no_empty no_eps parts =>
    refine .bind (itself .emptyLike (by decide) (.refl x g) t.valid)
      fun x₁ g₁ none later₁ h₁ fits => ?_
    have fits : none = (x (.node n)).sense.emptyLike := fits
    cases none with
    | true => exact .pure h₁ (h₁.empty_stands (Tree.compact_of_emptyLike fits.symm))
    | false =>
      refine .bind (itself .epsLike (by decide) later₁ h₁) fun x₂ g₂ likely step₂ h₂ fits' => ?_
      have later₂ := later₁.trans step₂
      have fits' : likely = (x (.node n)).sense.epsLike := fits'
      cases likely with
      | false => exact t.tree_compound lower later₂ h₂ fits.symm fits'.symm parts
      | true =>
        refine .bind (itself .forest (by decide) later₂ h₂) fun x₃ g₃ ws step₃ h₃ witnesses => ?_
        have witnesses : ws = (x (.node n)).sense.forest := witnesses
        have compacted : ((x (.node n)).compacted trees).sense = Tree.settled ws := by
          rw [witnesses]
          refine Tree.compact_of_epsLike (fun us held => no_eps ?_) fits.symm fits'.symm
          exact Node.kind_of_sense_eps (t.weighs.sense.symm.trans held)
        split
        · exact .pure h₃ (h₃.empty_stands compacted)
        · next some_ =>
          have hashable := (t.valid.proper (.node n)).forest Forest.hashable_closed
          refine h₃.tree_eps (witnesses ▸ hashable) (compacted.trans ?_)
          rw [Tree.settled]
          exact some_

end Turn

end Gauge

instance : Gauge.Rules trees where
  body t lower i level := by
    cases i with
    | forest => exact t.tree_forest lower
    | nullable => exact t.tree_nullable lower
    | emptyLike => exact t.tree_emptyLike lower
    | epsLike => exact t.tree_epsLike lower
    | compact => exact t.tree_compact lower level
  derive t lower takes := t.tree_derive lower takes

end GrammarGraph
