import GrammarGraph.Proofs.Choices
import GrammarGraph.Proofs.Growth

/-! What is left of any number of symbols, as it stands in the graph: a reduction over what the
repetition became when it was compacted, once for every symbol. All that it became leads to the
same nodes for the symbols, so the number of nodes stays. -/
namespace GrammarGraph

open Relation (ReflTransGen)

namespace Graph

variable {g g' : Graph} {n m k : NodeId} {w : Value}

abbrev Became (g : Graph) (n m : NodeId) : Prop :=
  g.Settled (.compacted n) m

theorem Extends.became (h : g.Extends g') (path : ReflTransGen g.Became n m) :
    ReflTransGen g'.Became n m :=
  ReflTransGen.mono (fun _ _ => h.settled) _ _ path

namespace Rewrites

variable (h : g.Rewrites n m) (empty : (g.node .empty).kind = .empty)
include h empty

theorem of_char (kind : (g.node n).kind = .char) (kind' : (g.node m).kind = .char) : m = n := by
  cases h with
  | itself => rfl
  | nothing => cases empty.symm.trans kind'
  | passes passes => cases passes <;> simp_all
  | _ => simp_all

theorem of_rep (kind : (g.node n).kind = .rep) (kind' : (g.node m).kind = .rep) :
    ∃ k, (g.node n).first = .node k ∧ g.Awaits k (g.node m).first := by
  cases h with
  | rep _ slot _ awaited => exact ⟨_, slot, awaited⟩
  | nothing => cases empty.symm.trans kind'
  | passes passes => cases passes <;> simp_all
  | _ => simp_all

theorem of_alt (kind : (g.node n).kind = .alt) (kind' : (g.node m).kind = .alt)
    (stays : ∀ k, ¬ g.Passes n k) : ∃ a b, (g.node n).first = .node a ∧
      (g.node n).second = .node b ∧ g.Awaits a (g.node m).first ∧ g.Awaits b (g.node m).second := by
  cases h with
  | alt _ first second _ awaited awaited' => exact ⟨_, _, first, second, awaited, awaited'⟩
  | nothing => cases empty.symm.trans kind'
  | passes passes => exact absurd passes (stays _)
  | _ => simp_all

theorem of_prepend (kind : (g.node n).kind = .cat) (kind' : (g.node m).kind = .red)
    (front : (g.node m).transform = .prepend w) :
    ∃ b, (g.node n).second = .node b ∧ g.Awaits b (g.node m).first := by
  cases h with
  | head _ _ second _ _ awaited => exact ⟨_, second, awaited⟩
  | nothing => cases empty.symm.trans kind'
  | passes passes => cases passes <;> simp_all
  | _ => simp_all

/-- A reduction takes over the settled part of a concatenation. -/
theorem of_red (kind : (g.node n).kind = .red) (kind' : (g.node m).kind = .red)
    (differs : (g.node m).transform ≠ (g.node n).transform)
    (inner : ∀ k, (g.node n).first = .node k → (g.node k).kind = .cat) : ∃ k b,
      (g.node n).first = .node k ∧ (g.node k).second = .node b ∧ g.Awaits b (g.node m).first := by
  cases h with
  | headed _ slot _ _ second _ _ awaited => exact ⟨_, _, slot, second, awaited⟩
  | nothing => cases empty.symm.trans kind'
  | nested _ slot kind' => cases kind'.symm.trans (inner _ slot)
  | passes passes => cases passes <;> simp_all
  | _ => simp_all

end Rewrites

end Graph

/-- The node `r` is a repetition of the choice `a`, and has the tree of a repetition of `e`. -/
structure Repeats (x : Gauge Tree) (g : Graph) (e : Tree) (ls : List NodeId) (r a : NodeId) : Prop
    extends g.AnyOf ls r a where
  sense : (x (.node r)).sense = .rep e

/-- The node `n` is a reduction of what the repetition `r` becomes. -/
structure Steady (x : Gauge Tree) (g : Graph) (e : Tree) (ls : List NodeId) (r a : NodeId)
    (t : Transform) (n : NodeId) : Prop where
  repeats : Repeats x g e ls r a
  lt : n < g.nodes.size
  sense : (x (.node n)).sense = .red (.rep e) t
  source : ∃ k, ReflTransGen g.Became r k ∧ g.Awaits k (g.node n).first

variable {C : Finset Value} {roots : Finset NodeId} {z z' : Census × Gauge Tree} {g g' : Graph}
  {e : Tree} {cs s : List Value} {ls : List NodeId} {r a n m d k : NodeId} {c : Value}
  {t : Transform}

theorem Repeats.later (h : Repeats z.2 g e ls r a) (later : Gauge.Later z.2 g z'.2 g') :
    Repeats z'.2 g' e ls r a where
  toAnyOf := h.toAnyOf.evolves later.evolves
  sense := by rw [later.node h.lt]; exact h.sense

theorem Steady.later (h : Steady z.2 g e ls r a t n) (later : Gauge.Later z.2 g z'.2 g')
    (extends_ : g.Extends g') : Steady z'.2 g' e ls r a t n where
  repeats := h.repeats.later later
  lt := later.lt h.lt
  sense := by rw [later.node h.lt]; exact h.sense
  source :=
    let ⟨k, path, awaited⟩ := h.source
    ⟨k, extends_.became path, extends_.awaits .first awaited⟩

section Watching

variable (valid : (watching trees C roots).Valid z g)
include valid

theorem empty_kind : (g.node .empty).kind = .empty :=
  valid.1.valid.counted.formed.empty

theorem became_compacted (became : g.Became n m) : g.Rewrites n m ∧ m < g.nodes.size ∧
    (z.2 (.node m)).sense = (z.2 (.node n)).sense.compact := by
  obtain ⟨-, lt, -, -, rewrites⟩ := valid.1.valid.counted.results .compact (.inl became.2)
  exact ⟨rewrites, lt, (valid.2.valid.stored .compact became.2).2.within.sense⟩

theorem sense_of_alt {a b : NodeId} (kind : (g.node n).kind = .alt)
    (first : (g.node n).first = .node a) (second : (g.node n).second = .node b) :
    (z.2 (.node n)).sense = .alt (z.2 (.node a)).sense (z.2 (.node b)).sense := by
  rw [valid.2.valid.sense_of_known kind (by decide), ← first, ← second]
  rfl

theorem Tree.Choice.not_passes (choice : Tree.Choice cs (z.2 (.node n)).sense) :
    ¬ g.Passes n k := by
  have judged {a b : NodeId} (kind : (g.node n).kind = .alt) (first : (g.node n).first = .node a)
      (second : (g.node n).second = .node b) :
      (z.2 (.node a)).sense.emptyLike = false ∧ (z.2 (.node b)).sense.emptyLike = false := by
    rw [sense_of_alt valid kind first second] at choice
    cases choice with
    | alt first second => exact ⟨first.emptyLike, second.emptyLike⟩
  have stored {k : NodeId} (judged : g.Judged k true) : true = (z.2 (.node k)).sense.emptyLike :=
    (valid.2.valid.stored .emptyLike judged.2).2
  intro passes
  cases passes with
  | first kind first second empty =>
    exact Bool.false_ne_true ((judged kind first second).2.symm.trans (stored empty).symm)
  | second kind first second empty =>
    exact Bool.false_ne_true ((judged kind first second).1.symm.trans (stored empty).symm)

theorem became_char (kind : (g.node n).kind = .char) (path : ReflTransGen g.Became n m) :
    m = n := by
  induction path with
  | refl => rfl
  | tail _ became ih =>
    subst ih
    obtain ⟨rewrites, lt, sense⟩ := became_compacted valid became
    refine rewrites.of_char (empty_kind valid) kind ?_
    rw [valid.2.valid.kind lt, sense, valid.2.valid.sense_of_known kind (by decide)]
    rfl

/-- What a choice of two becomes is a choice of what the two become. -/
theorem became_alt {b : NodeId} (choice : Tree.Choice cs (z.2 (.node n)).sense)
    (kind : (g.node n).kind = .alt) (first : (g.node n).first = .node a)
    (second : (g.node n).second = .node b) (path : ReflTransGen g.Became n m) :
    (g.node m).kind = .alt ∧ (z.2 (.node m)).sense = (z.2 (.node n)).sense ∧
      (∀ j, (g.node m).first = .node j → ReflTransGen g.Became a j) ∧
      ∀ j, (g.node m).second = .node j → ReflTransGen g.Became b j := by
  induction path with
  | refl =>
    refine ⟨kind, rfl, fun j slot => ?_, fun j slot => ?_⟩
    · obtain rfl := Slot.node.inj (first.symm.trans slot)
      exact .refl
    · obtain rfl := Slot.node.inj (second.symm.trans slot)
      exact .refl
  | @tail k m _ became ih =>
    obtain ⟨kind', same, left, right⟩ := ih
    obtain ⟨rewrites, lt, sense⟩ := became_compacted valid became
    rw [same, choice.compact] at sense
    have kind'' : (g.node m).kind = .alt := by
      rw [valid.2.valid.kind lt, sense, sense_of_alt valid kind first second]
      rfl
    obtain ⟨o, o', slot, slot', awaited, awaited'⟩ := rewrites.of_alt (empty_kind valid) kind'
      kind'' fun j => Tree.Choice.not_passes valid (same.symm ▸ choice)
    refine ⟨kind'', sense, fun j here => .tail (left o slot) ?_,
      fun j here => .tail (right o' slot') ?_⟩
    · rw [here] at awaited
      exact awaited
    · rw [here] at awaited'
      exact awaited'

/-- What a choice becomes is a choice between the same nodes, once all of it has been read. -/
theorem Graph.Choice.became {S : Finset NodeId} (h : g.Choice n ls)
    (choice : Tree.Choice cs (z.2 (.node n)).sense) (path : ReflTransGen g.Became n m)
    (spans : g.Spans k S) (member : m ∈ S) : g.Choice m ls := by
  induction h generalizing m cs with
  | @char n kind =>
    rw [became_char valid kind path]
    exact .char kind
  | @alt n a b ls ls' kind first second ha hb iha ihb =>
    obtain ⟨kind', -, left, right⟩ := became_alt valid choice kind first second path
    rw [sense_of_alt valid kind first second] at choice
    have pair (side : Side) : side ∈ (g.node m).sides := Node.mem_sides_of_pair (.inr kind') side
    obtain ⟨i, inS, slot⟩ := spans.closed m member .first (pair .first)
    obtain ⟨j, inS', slot'⟩ := spans.closed m member .second (pair .second)
    cases choice with
    | alt first_ second_ =>
      exact .alt kind' slot slot' (iha first_ (left i slot) inS) (ihb second_ (right j slot') inS')

/-- What a repetition becomes is a repetition of what the choice becomes. -/
theorem Repeats.became (h : Repeats z.2 g e ls r a) (choice : Tree.Choice cs e)
    (path : ReflTransGen g.Became r m) : m < g.nodes.size ∧ (z.2 (.node m)).sense = .rep e ∧
      ∀ j, (g.node m).first = .node j → ReflTransGen g.Became a j := by
  induction path with
  | refl =>
    refine ⟨h.lt, h.sense, fun j first => ?_⟩
    obtain rfl := Slot.node.inj (h.first.symm.trans first)
    exact .refl
  | @tail k m _ became ih =>
    obtain ⟨lt, sense, below⟩ := ih
    obtain ⟨rewrites, lt', sense'⟩ := became_compacted valid became
    rw [sense, choice.compact_rep] at sense'
    have kind : (g.node k).kind = .rep := by rw [valid.2.valid.kind lt, sense]; rfl
    have kind' : (g.node m).kind = .rep := by rw [valid.2.valid.kind lt', sense']; rfl
    obtain ⟨o, first, awaited⟩ := rewrites.of_rep (empty_kind valid) kind kind'
    refine ⟨lt', sense', fun j slot => .tail (below o first) ?_⟩
    rw [slot] at awaited
    exact awaited

theorem Steady.ne_empty (h : Steady z.2 g e ls r a t n) : n ≠ .empty := by
  rintro rfl
  cases (valid.2.valid.red h.lt h.sense).1.symm.trans (empty_kind valid)

theorem advance_became {e : Tree} (denotes : z.2.Denotes g e n) (takes : Census.Takes C c)
    (plain : c.Plain) :
    (watching trees C roots).Ends z g (fun ask => Parse.advance ask true c n) fun z' g' m =>
      (z'.2.Denotes g' (trees.advance true c e) m) ∧
        ∃ d, g'.derivatives.find? n c = some d ∧ g'.Became d m := by
  have derived := Regime.Ends.beside (z := z)
    (Regime.Ends.gives (valid.1.derive denotes.lt takes.1 takes.2))
    (valid.2.derive denotes.lt plain)
  refine .bind derived ?_
  rintro z₁ g₁ d - valid₁ ⟨⟨gives, dlt, -⟩, stands⟩
  refine .imp (Regime.Ends.beside (valid₁.1.evaluate .compact dlt)
    (valid₁.2.evaluate .compact dlt)) ?_
  rintro z₂ g₂ m ⟨grown, later⟩ valid₂ ⟨⟨-, stored⟩, fits⟩
  refine ⟨?_, d, grown.extends_.memo gives.derived, ?_, stored⟩
  · rw [← denotes.sense]
    exact (Gauge.Stands.mono fits stands.within.compacted).denotes
  · exact valid₂.1.valid.complete d (later.lt dlt)

/-- After the first symbol, there is a reduction of what the repetition is compacted to. -/
theorem Repeats.steady (h : Repeats z.2 g e ls r a)
    (denotes : z.2.Denotes g (.red (.rep e) (.prepend c)) m)
    (found : g.derivatives.find? r c = some d) (became : g.Became d m) :
    Steady z.2 g e ls r a (.prepend c) m := by
  refine ⟨h, denotes.lt, denotes.sense, r, .refl, ?_⟩
  obtain ⟨rewrites, lt, -⟩ := became_compacted valid became
  obtain ⟨kind, -, front⟩ := valid.2.valid.red lt denotes.sense
  cases (valid.1.valid.counted.derivatives found).2.2.2 with
  | rep _ kind' _ second =>
    obtain ⟨b, slot, awaited⟩ := rewrites.of_prepend (empty_kind valid) kind' kind front
    obtain rfl := Slot.node.inj (second.symm.trans slot)
    exact awaited
  | _ => simp_all [h.kind]

/-- After another symbol, the reduction has taken over what was settled of its derivative. -/
theorem Steady.again (h : Steady z.2 g e ls r a t n) (choice : Tree.Choice cs e) (plain : c.Plain)
    (denotes : z.2.Denotes g (.red (.rep e) (.compose t (.prepend c))) m)
    (found : g.derivatives.find? n c = some d) (became : g.Became d m) :
    Steady z.2 g e ls r a (.compose t (.prepend c)) m := by
  refine ⟨h.repeats, denotes.lt, denotes.sense, ?_⟩
  obtain ⟨o, path, awaited⟩ := h.source
  obtain ⟨rewrites, lt, -⟩ := became_compacted valid became
  obtain ⟨kind, -, transform⟩ := valid.2.valid.red lt denotes.sense
  obtain ⟨-, dlt, -, derivative⟩ := valid.1.valid.counted.derivatives found
  have derived : (z.2 (.node d)).sense = .red ((e.derive c).cat (.rep e)) t := by
    rw [(valid.2.valid.derivatives found plain).2.within.sense]
    change (z.2 (.node n)).sense.derive c = _
    rw [h.sense]
    rfl
  obtain ⟨kind', below, transform'⟩ := valid.2.valid.red dlt derived
  have grown : (g.node m).transform ≠ (g.node d).transform := by
    rw [transform, transform']
    intro same
    have length := congrArg (fun t => t.parts.length) same
    simp [Transform.compose, Transform.parts] at length
  have inner : ∀ k, (g.node d).first = .node k → (g.node k).kind = .cat := by
    intro k slot
    have covers := valid.2.valid.formed.covers d .first
    rw [show (g.node d).slot .first = .node k from slot] at covers
    rw [valid.2.valid.kind covers, ← slot, below]
    rfl
  -- The settled part is that of the derivative of a repetition, which the second part is.
  obtain ⟨k, b, slot, second, awaited'⟩ := rewrites.of_red (empty_kind valid) kind' kind grown inner
  cases derivative with
  | red _ _ _ promised =>
    rw [slot] at promised
    obtain ⟨i, there, found'⟩ := promised
    rw [show (g.node n).first = .node i from there] at awaited
    have path' : ReflTransGen g.Became r i := .tail path awaited
    obtain ⟨ilt, sense, -⟩ := h.repeats.became valid choice path'
    have kind'' : (g.node i).kind = .rep := by rw [valid.2.valid.kind ilt, sense]; rfl
    cases (valid.1.valid.counted.derivatives found').2.2.2 with
    | rep _ _ _ second' =>
      obtain rfl := Slot.node.inj (second'.symm.trans second)
      exact ⟨i, path', awaited'⟩
    | _ => simp_all
  | _ => simp_all [(valid.2.valid.red h.lt h.sense).1]

theorem Repeats.advance (h : Repeats z.2 g e ls r a) (choice : Tree.Choice cs e)
    (taken : ∃ a ∈ cs, a.same c = true) (takes : Census.Takes C c) (plain : c.Plain) :
    (watching trees C roots).Ends z g (fun ask => Parse.advance ask true c r) fun z' g' m =>
      Steady z'.2 g' e ls r a (.prepend c) m := by
  have advanced := advance_became valid ⟨h.lt, h.sense⟩ takes plain
  rw [choice.advance_rep taken] at advanced
  refine .imp advanced ?_
  rintro z₁ g₁ m ⟨-, later⟩ valid₁ ⟨denotes, d, found, became⟩
  exact (h.later later).steady valid₁ denotes found became

theorem Steady.advance (h : Steady z.2 g e ls r a t n) (choice : Tree.Choice cs e)
    (taken : ∃ a ∈ cs, a.same c = true) (takes : Census.Takes C c) (plain : c.Plain) :
    (watching trees C roots).Ends z g (fun ask => Parse.advance ask true c n) fun z' g' m =>
      Steady z'.2 g' e ls r a (.compose t (.prepend c)) m := by
  have advanced := advance_became valid ⟨h.lt, h.sense⟩ takes plain
  rw [choice.advance_red taken] at advanced
  refine .imp advanced ?_
  rintro z₁ g₁ m ⟨grown, later⟩ valid₁ ⟨denotes, d, found, became⟩
  exact (h.later later grown.extends_).again valid₁ choice plain denotes found became

/-- All that is below is the repetition, and the choice in it. -/
theorem Steady.card {S : Finset NodeId} (h : Steady z.2 g e ls r a t n) (choice : Tree.Choice cs e)
    (distinct : ls.Nodup) (spans : g.Spans n S) : S.card = 2 * ls.length + 1 := by
  classical
  obtain ⟨kind, -⟩ := valid.2.valid.red h.lt h.sense
  obtain ⟨o, path, awaited⟩ := h.source
  obtain ⟨k, inS, first⟩ :=
    spans.closed n spans.root .first (Node.mem_sides_of_single (.inr (.inr kind)))
  rw [show (g.node n).first = .node k from first] at awaited
  obtain ⟨klt, sense, below⟩ := h.repeats.became valid choice (.tail path awaited)
  have kind' : (g.node k).kind = .rep := by rw [valid.2.valid.kind klt, sense]; rfl
  obtain ⟨j, inS', first'⟩ := spans.closed k inS .first (Node.mem_sides_of_single (.inl kind'))
  have choice' : g.Choice j ls := h.repeats.choice.became valid
    (h.repeats.choice.tree valid.2.valid) (below j first') spans inS'
  obtain ⟨T, spansT, card, kinds, -, -⟩ := choice'.spans distinct
  have whole := (spansT.of_single (.inl kind') first').of_single (.inr (.inr kind)) first
  have outside {i : NodeId} (other : (g.node i).kind = .rep ∨ (g.node i).kind = .red) : i ∉ T := by
    intro member
    have known := kinds i member
    rcases other with other | other <;> rw [other] at known <;> exact absurd known (by decide)
  have apart : n ≠ k := by
    rintro rfl
    cases kind.symm.trans kind'
  rw [spans.unique whole, Finset.card_insert_of_notMem,
    Finset.card_insert_of_notMem (outside (.inl kind'))]
  · omega
  · exact fun member => (Finset.mem_insert.mp member).elim apart (outside (.inr kind))

omit valid in
/-- What is left after the first symbol is not empty, so the others are taken from it. -/
theorem residualFrom_cons {position : Nat} {Q : Census × Gauge Tree → Graph → Residual → Prop}
    (first : (watching trees C roots).Ends z g (fun ask => Parse.advance ask true c n)
      fun z' g' m => Steady z'.2 g' e ls r a t m)
    (rest : ∀ {z' g' m}, (watching trees C roots).Valid z' g' → Steady z'.2 g' e ls r a t m →
      (watching trees C roots).Ends z' g'
        (fun ask => Parse.residualFrom ask true (position + 1) s m) Q) :
    (watching trees C roots).Ends z g
      (fun ask => Parse.residualFrom ask true position (c :: s) n) Q := by
  unfold Parse.residualFrom
  refine .bind first ?_
  rintro z₁ g₁ m - valid₁ steady
  have other : (m == .empty) = false := beq_eq_false_iff_ne.mpr (steady.ne_empty valid₁)
  simp only [other, Bool.false_eq_true, if_false]
  have reported := Regime.Ends.beside (z := z₁)
    (valid₁.1.report steady.lt position c) (valid₁.2.report steady.lt position c)
  refine .bind reported ?_
  rintro z₂ g₂ - ⟨grown, later⟩ valid₂ -
  exact rest valid₂ (steady.later later grown.extends_)

theorem Steady.residualFrom (position : Nat) (h : Steady z.2 g e ls r a t n)
    (choice : Tree.Choice cs e) (taken : ∀ c ∈ s, ∃ a ∈ cs, a.same c = true)
    (takes : ∀ c ∈ s, Census.Takes C c) (plain : ∀ c ∈ s, c.Plain) :
    (watching trees C roots).Ends z g (fun ask => Parse.residualFrom ask true position s n)
      fun z' g' left => Steady z'.2 g' e ls r a
        (s.foldl (fun t c => .compose t (.prepend c)) t) left.node := by
  induction s generalizing z g n t position with
  | nil => exact .pure valid h
  | cons c s ih =>
    rw [List.forall_mem_cons] at taken takes plain
    refine residualFrom_cons (h.advance valid choice taken.1 takes.1 plain.1) ?_
    exact fun valid₁ steady => ih valid₁ (position + 1) steady taken.2 takes.2 plain.2

/-- What is left of the repetition is a reduction of it that puts the symbols in front. -/
theorem Repeats.residualFrom (position : Nat) (h : Repeats z.2 g e ls r a)
    (choice : Tree.Choice cs e) (taken : ∀ d ∈ c :: s, ∃ a ∈ cs, a.same d = true)
    (takes : ∀ d ∈ c :: s, Census.Takes C d) (plain : ∀ d ∈ c :: s, d.Plain) :
    (watching trees C roots).Ends z g (fun ask => Parse.residualFrom ask true position (c :: s) r)
      fun z' g' left => Steady z'.2 g' e ls r a (.fronting c s) left.node := by
  rw [List.forall_mem_cons] at taken takes plain
  refine residualFrom_cons (h.advance valid choice taken.1 takes.1 plain.1) ?_
  exact fun valid₁ steady =>
    steady.residualFrom valid₁ (position + 1) choice taken.2 takes.2 plain.2

/-- However many symbols are taken, the number of nodes that are left is the same. -/
theorem Repeats.residual_nodeCount (h : Repeats z.2 g e ls r a) (choice : Tree.Choice cs e)
    (distinct : ls.Nodup) (taken : ∀ d ∈ c :: s, ∃ a ∈ cs, a.same d = true)
    (takes : ∀ d ∈ c :: s, Census.Takes C d) (plain : ∀ d ∈ c :: s, d.Plain) :
    (watching trees C roots).Ends z g
      (fun ask => do ask.nodeCount (← Parse.residual ask true (c :: s) r).node)
      fun _ _ count => count = 2 * ls.length + 1 := by
  refine .bind (h.residualFrom valid 0 choice taken takes plain) ?_
  rintro z₁ g₁ left - valid₁ steady
  have counts := Regime.Ends.beside (z := z₁)
    (valid₁.1.nodeCount steady.lt) (valid₁.2.nodeCount steady.lt)
  refine .imp counts ?_
  rintro z₂ g₂ count ⟨grown, later⟩ valid₂ ⟨⟨S, spans, rfl⟩, -⟩
  exact (steady.later later grown.extends_).card valid₂ choice distinct spans

end Watching

end GrammarGraph
