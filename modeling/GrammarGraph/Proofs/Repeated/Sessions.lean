import GrammarGraph.Proofs.Operations
import GrammarGraph.Proofs.Repeated
import GrammarGraph.Proofs.Sketch.Outlines

/-! Parsing with the grammars of one repeated symbol. Two symbols after the first one the outline of
what is left recurs, so any number of symbols is taken, and what is left stays small. -/
namespace GrammarGraph

def Material.ofSymbol (x : Value) (hashable : x.hashable = true) (solid : x.Solid) : Material where
  symbol := x
  Apt w := w.hashable = true ∧ ∀ l ∈ w.leaves, l = x
  closed := {
    nothing := ⟨rfl, fun _ none => nomatch none⟩
    cons := fun hu hv => by
      refine ⟨Forest.hashable_closed.cons hu.1 hv.1, fun l member => ?_⟩
      rw [Forest.leaves_cons] at member
      exact (List.mem_append.mp member).elim (hu.2 l) (hv.2 l) }
  hashable := And.left
  apt := ⟨hashable, by simp [solid.leaves]⟩
  solid := solid.isNothing

namespace Outline

/-- The outline of one symbol, any number of times. -/
def repeated (side : Side) : Outline :=
  ⟨2, (Bench.repeated side (.int 1)).graph⟩

/-- Where the nodes and the cells of what two symbols leave are in what three symbols leave. -/
def recurring : Side → List (Nat × Nat) × List (Nat × Nat)
  | .first => ([(0, 0), (1, 1), (20, 28), (17, 25), (16, 24), (12, 20), (14, 22), (15, 23), (4, 4),
      (10, 10), (19, 27), (18, 26), (13, 21)], [(12, 20), (13, 21)])
  | .second => ([(0, 0), (1, 1), (14, 22), (11, 19), (13, 21), (7, 7), (10, 18), (12, 20), (3, 3)],
      [(10, 21)])

theorem repeated_settles (side : Side) :
    (repeated side).Settles (recurring side).1 (recurring side).2 := by
  cases side <;> decide +kernel

theorem repeated_single (side : Side) (k : Nat) :
    ((repeated side).after (min (k + 1) 2)).isSingle = true :=
  after_of_early (P := fun o => o.isSingle = true) (by cases side <;> decide +kernel) k

theorem repeated_first_count (k : Nat) :
    ((repeated .first).after (min (k + 1) 2)).count? = some 4 :=
  after_of_early (P := fun o => o.count? = some 4) (by decide +kernel) k

theorem repeated_second_count (k : Nat) :
    ((repeated .second).after (min (k + 2) 2)).count? = some 6 := by
  rw [Nat.min_eq_right (Nat.le_add_left 2 k)]
  decide +kernel

end Outline

namespace Bench

open RunOf (Gives)

variable {K : Cast} {c c' : Value}

/-- Where one symbol may stand for another, so may the grammars of the two. -/
theorem repeated_sketches (symbols : K.Symbols c c') (side : Side) : ∃ p : Placing K,
    Sketches p (repeated side c).graph (repeated side c').graph ∧ p.At 2 2 := by
  have rest {p : Placing K} (eps : p.At 1 1) (whole : p.At 2 2) :
      p.Nodes { kind := .alt, first := .node 1, second := .node 2 }
        { kind := .alt, first := .node 1, second := .node 2 } :=
    ⟨rfl, eps, whole, Kind.noConfusion, K.none, K.identity⟩
  have unit {p : Placing K} :
      p.Nodes { kind := .char, symbol := c } { kind := .char, symbol := c' } :=
    ⟨rfl, True.intro, True.intro, fun _ => symbols, K.none, K.identity⟩
  have placeholder {p : Placing K} : p.Nodes { kind := .placeholder } { kind := .placeholder } :=
    ⟨rfl, True.intro, True.intro, Kind.noConfusion, K.none, K.identity⟩
  have begun := (Sketches.initial K).addNode placeholder
  have complete {p : Placing K} {h g : Graph} (s : Sketches p h g)
      (sizes : h.nodes.size = 5 ∧ g.nodes.size = 5) (whole : p.At 2 2) (first : p.At 3 3)
      (second : p.At 4 4) : ∃ q : Placing K, Sketches q
        ((h.addNode { kind := .cat, first := .node 3, second := .node 4 }).become 2 5)
        ((g.addNode { kind := .cat, first := .node 3, second := .node 4 }).become 2 5) ∧
        q.At 2 2 := by
    have pair : p.Nodes { kind := .cat, first := .node 3, second := .node 4 }
        { kind := .cat, first := .node 3, second := .node 4 } :=
      ⟨rfl, first, second, Kind.noConfusion, K.none, K.identity⟩
    have made := s.addNode pair
    rw [sizes.1, sizes.2] at made
    exact ⟨_, made.become (.inl whole) (by decide) (.inr ⟨rfl, rfl⟩), .inl whole⟩
  cases side with
  | first =>
    exact complete ((begun.addNode (rest begun.eps (.inr ⟨rfl, rfl⟩))).addNode unit) ⟨rfl, rfl⟩
      (.inl (.inl (.inr ⟨rfl, rfl⟩))) (.inl (.inr ⟨rfl, rfl⟩)) (.inr ⟨rfl, rfl⟩)
  | second =>
    have one := begun.addNode unit
    exact complete (one.addNode (rest one.eps (.inl (.inr ⟨rfl, rfl⟩)))) ⟨rfl, rfl⟩
      (.inl (.inl (.inr ⟨rfl, rfl⟩))) (.inl (.inr ⟨rfl, rfl⟩)) (.inr ⟨rfl, rfl⟩)

theorem parse_repeated_silent {x : Value} (side : Side) {bound : Nat} {compaction : Bool}
    {symbols : List Value} {result : Except Fault (Forest × Nat)} {g : Graph}
    (ends : Parse.parse (Engine.run bound) compaction symbols 2 (repeated side x).graph =
      some (result, g)) : g.journal = none := by
  have symbol : (Cast.same fun _ => True).Symbols x x := rfl
  obtain ⟨p, sketches, placed⟩ := repeated_sketches symbol side
  have met := ((Cast.same _).run_mirrored bound).parse
    (fun c (_ : c ∈ symbols) => rfl) (Cast.same_faithful _) compaction placed _ _ sketches
  rw [ends] at met
  generalize Parse.parse _ _ _ _ _ = ended at met
  cases met with
  | spent both => cases both trivial
  | ended step => exact step.silent (by cases side <;> rfl)

variable {x : Value} (hashable : x.hashable = true) (solid : x.Solid) (side : Side) (k : Nat)
include hashable solid

theorem residual_repeated : ∃ r g, Parse.residual (Engine.run Outline.depth) true (.replicate k x) 2
      (repeated side x).graph = some (.ok ⟨r, k⟩, g) ∧
    ((Outline.repeated side).after (min k 2)).Shows (.ofSymbol x hashable solid) r g := by
  let M : Material := .ofSymbol x hashable solid
  have symbol : (Cast.slim M).Symbols (.int 1) x := Material.Stands.self
  obtain ⟨p, sketches, placed⟩ := repeated_sketches symbol side
  have shows_ : (Outline.repeated side).Shows M 2 (repeated side x).graph :=
    ⟨by cases side <;> rfl, p, sketches, placed⟩
  have taken :=
    Outline.Shows.residualFrom (Outline.repeated_settles side).leads k 0 (j := 0) shows_
  rwa [Nat.zero_add] at taken

theorem parse_repeated : ∃ g, Parse.parse (Engine.run Outline.depth) true (.replicate (k + 1) x) 2
    (repeated side x).graph = some (.ok ([side.nested x k], k + 1), g) := by
  obtain ⟨r, g, residual, shows_⟩ := residual_repeated hashable solid side (k + 1)
  obtain ⟨w, g', forest, apt⟩ := shows_.forest (Outline.repeated_single side k)
  have single : Forest.ofWitnesses [w] = .ok [w] :=
    Forest.ofWitnesses_ok.mpr ⟨by simpa using apt.1, rfl⟩
  obtain ⟨_, parse⟩ : ∃ g'', Parse.parse (Engine.run Outline.depth) true (.replicate (k + 1) x) 2
      (repeated side x).graph = some (.ok ([w], k + 1), g'') := by
    unfold Parse.parse
    rw [RunOf.bind_of_ok residual, RunOf.bind_of_ok forest, single]
    exact ⟨_, rfl⟩
  -- Which witness it is the outline does not tell, but the derivations of the sentence do.
  obtain ⟨t, alike, derives⟩ := (repeated_composed side x fun _ _ => True).reached.derives_of_parse
    Worth.witness_embeds (repeated_built side x) parse w List.mem_cons_self
  obtain ⟨j, length, -, witness⟩ := yields_repeated solid derives
  have lengths := congrArg List.length alike
  simp only [List.length_map, List.length_replicate, length, Nat.add_right_cancel_iff] at lengths
  subst lengths
  obtain rfl : w = side.nested x j :=
    Value.eq_of_leaves witness apt.2 (Side.leaves_nested side solid j)
  exact ⟨_, parse⟩

omit hashable in
theorem parse_repeated_rejected {symbols : List Value}
    (hashables : ∀ c ∈ symbols, c.hashable = true)
    (wrong : symbols = [] ∨ ∃ c ∈ symbols, c.same x = false) :
    ∃ consumed g, Gives (fun ask => Parse.parse ask true symbols 2) (repeated side x).graph
      ([], consumed) g := by
  obtain ⟨⟨ws, consumed⟩, g, gives, -⟩ :=
    parse_fringe (repeated_composed side x _) (by cases side <;> rfl) (repeated_built side x) true
      hashables
  obtain ⟨bound, ends⟩ := id gives
  suffices none : ws = [] by
    subst none
    exact ⟨consumed, g, gives⟩
  refine List.eq_nil_iff_forall_not_mem.mpr fun w member => ?_
  obtain ⟨t, alike, derives⟩ := (repeated_composed side x fun _ _ => True).reached.derives_of_parse
    Worth.witness_embeds (repeated_built side x) (ends bound (Nat.le_refl _)) w member
  obtain ⟨j, length, symbol, -⟩ := yields_repeated solid derives
  rcases wrong with rfl | ⟨c, member, other⟩
  · have none := congrArg List.length alike
    simp [length] at none
  · have numeric : c.numeric ∈ t.map Value.numeric := alike ▸ List.mem_map_of_mem member
    obtain ⟨d, member, same⟩ := List.mem_map.mp numeric
    have same : c.same x = true := (Value.same_iff c x).mpr (same.symm.trans (symbol d member))
    rw [other] at same
    cases same

end Bench

namespace Session

open RunOf (Gives)

/-- What a new session replies if it may go deep enough. -/
def Replies (op : Operation) (reply : Reply) : Prop :=
  ∃ least, ∀ bound, least ≤ bound → ∃ s, perform bound op {} = some (.ok reply, s)

variable {x : Value} {side : Side} {symbols : List Value}

theorem language_repeated (ask : Ask) (side : Side) (x : Value) :
    language ask (.repeated side x) {} =
      some (.ok 2, { graph := (Bench.repeated side x).graph }) := by
  unfold language onGraph RunOf.inside
  exact congrArg (Option.map _) (RunOf.bind_of_ok (Bench.build_repeated side x ask))

theorem replies_parse {ws : Forest} {consumed : Nat} {g : Graph}
    (gives : Gives (fun ask => Parse.parse ask true symbols 2) (Bench.repeated side x).graph
      (ws, consumed) g) :
    Replies (.parse symbols (.grammar (.repeated side x) none) none)
      (.parsed (.witnesses ws) consumed none) := by
  obtain ⟨least, gives⟩ := gives
  refine ⟨least, fun bound le => ?_⟩
  have silent := Bench.parse_repeated_silent side (gives bound le)
  have opened : { (Bench.repeated side x).graph with journal := none } =
      (Bench.repeated side x).graph := by
    cases side <;> rfl
  have ends := gives bound le
  rw [← opened] at ends
  obtain ⟨s, journaled⟩ := journaled_silent (s := { graph := (Bench.repeated side x).graph })
    ends silent
  refine ⟨s, ?_⟩
  change Session.parse (Engine.run bound) symbols _ none {} = _
  unfold Session.parse Session.resolve
  rw [RunOf.bind_of_ok (RunOf.bind_of_ok (language_repeated _ side x))]
  exact RunOf.bind_of_ok journaled

/-- The nodes of what some symbols leave are counted after the symbols were taken. -/
theorem replies_nodeCount {r : Residual} {count : Nat} {g g' : Graph}
    (residual : Gives (fun ask => Parse.residual ask true symbols 2)
      (Bench.repeated side x).graph r g)
    (counted : Gives (fun ask => ask.nodeCount r.node) g count g') :
    Replies (.nodeCount (.residual symbols (.repeated side x) true)) (.number count) := by
  obtain ⟨least, residual⟩ := residual
  obtain ⟨least', counted⟩ := counted
  refine ⟨max least least', fun bound le => ⟨{ graph := g' }, ?_⟩⟩
  have built : (Term.residual symbols (.repeated side x) true).build (Engine.run bound) [] {} =
      some (.ok (.node r.node), g) := by
    rw [Term.build, RunOf.bind_of_ok (Bench.build_repeated side x _)]
    exact RunOf.bind_of_ok (residual bound (le_of_max_le_left le))
  have left : language (Engine.run bound) (.residual symbols (.repeated side x) true) {} =
      some (.ok r.node, { graph := g }) := by
    unfold language onGraph RunOf.inside
    exact congrArg (Option.map _) (RunOf.bind_of_ok built)
  have number : onGraph ((Engine.run bound).nodeCount r.node) { graph := g } =
      some (.ok count, { graph := g' }) :=
    congrArg (Option.map _) (counted bound (le_of_max_le_right le))
  exact (RunOf.bind_of_ok left).trans (RunOf.bind_of_ok number)

/-- A symbol that is repeated is parsed, however often, to the one nested witness, and what is left
has four nodes by left recursion and, from the second symbol on, six by right recursion. With any
other symbol, or with none, there is no witness. -/
theorem replies_repeated (hashable : x.hashable = true) (solid : x.Solid) :
    (∀ side k, Replies (.parse (.replicate (k + 1) x) (.grammar (.repeated side x) none) none)
      (.parsed (.witnesses [side.nested x k]) (k + 1) none)) ∧
    (∀ k, Replies (.nodeCount (.residual (.replicate (k + 1) x) (.repeated .first x) true))
      (.number 4)) ∧
    (∀ k, Replies (.nodeCount (.residual (.replicate (k + 2) x) (.repeated .second x) true))
      (.number 6)) ∧
    ∀ side symbols, (∀ c ∈ symbols, c.hashable = true) →
      (symbols = [] ∨ ∃ c ∈ symbols, c.same x = false) → ∃ consumed,
        Replies (.parse symbols (.grammar (.repeated side x) none) none)
          (.parsed (.witnesses []) consumed none) := by
  have counted {side : Side} {k count : Nat}
      (known : ((Outline.repeated side).after (min k 2)).count? = some count) :
      Replies (.nodeCount (.residual (.replicate k x) (.repeated side x) true))
        (.number count) := by
    obtain ⟨r, g, residual, shows_⟩ := Bench.residual_repeated hashable solid side k
    obtain ⟨g', count⟩ := shows_.nodeCount known
    exact replies_nodeCount (.of_below (fun below => below.residual true _ 2) residual)
      (.ask _ count)
  refine ⟨fun side k => ?_, fun k => counted (Outline.repeated_first_count k),
    fun k => counted (Outline.repeated_second_count k), fun side symbols hashables wrong => ?_⟩
  · obtain ⟨g, parse⟩ := Bench.parse_repeated hashable solid side k
    exact replies_parse (.of_below (fun below => below.parse true _ 2) parse)
  · obtain ⟨consumed, g, rejected⟩ := Bench.parse_repeated_rejected solid side hashables wrong
    exact ⟨consumed, replies_parse rejected⟩

/-- Three times the same letter, and one that is followed by another. -/
theorem replies_repeated_three :
    (Value.str "x").hashable = true ∧ (Value.str "x").Solid ∧
    Replies (.parse [.str "x", .str "x", .str "x"]
        (.grammar (.repeated .first (.str "x")) none) none)
      (.parsed (.witnesses [.tuple [.tuple [.str "x", .str "x"], .str "x"]]) 3 none) ∧
    Replies (.parse [.str "x", .str "x", .str "x"]
        (.grammar (.repeated .second (.str "x")) none) none)
      (.parsed (.witnesses [.tuple [.str "x", .tuple [.str "x", .str "x"]]]) 3 none) ∧
    Replies (.nodeCount (.residual [.str "x", .str "x"] (.repeated .first (.str "x")) true))
      (.number 4) ∧
    Replies (.nodeCount (.residual [.str "x", .str "x"] (.repeated .second (.str "x")) true))
      (.number 6) ∧
    ∃ consumed, Replies (.parse [.str "x", .str "y"]
        (.grammar (.repeated .first (.str "x")) none) none)
      (.parsed (.witnesses []) consumed none) := by
  have solid : (Value.str "x").Solid := fun _ => nofun
  obtain ⟨parsed, first, second, rejected⟩ := replies_repeated (x := .str "x") rfl solid
  exact ⟨rfl, solid, parsed .first 2, parsed .second 2, first 1, second 0,
    rejected .first [.str "x", .str "y"] (by decide) (.inr ⟨.str "y", by simp, by decide⟩)⟩

end Session

end GrammarGraph
