import GrammarGraph.Proofs.Balance.Sessions
import GrammarGraph.Proofs.Regime.Calls
import GrammarGraph.Proofs.Sketch.Terms

/-! Graphs that are sketches as they are. Between calls a graph is a sketch of every graph that
holds more nodes and cells, so what goes on in it goes on there as well. -/
namespace GrammarGraph

abbrev Cast.plain : Cast := .same fun _ => False

/-- The graph `g'` holds more nodes and cells than `g`, and is otherwise the same. -/
structure Graph.Padded (g g' : Graph) : Prop where
  same : ∃ nodes cells, g' = { g with nodes, cells }
  size : g.nodes.size ≤ g'.nodes.size
  cellsSize : g.cells.size ≤ g'.cells.size
  node : ∀ {n}, n < g.nodes.size → g'.node n = g.node n
  cell : ∀ {c}, c < g.cells.size → g'.cells[c]? = g.cells[c]?

theorem Graph.Padded.refl (g : Graph) : g.Padded g :=
  ⟨⟨_, _, rfl⟩, Nat.le_refl _, Nat.le_refl _, fun _ => rfl, fun _ => rfl⟩

/-- Everything is placed where it is. -/
def Placing.whole {K : Cast} (g : Graph) : Placing K where
  At n n' := n' = n ∧ n < g.nodes.size
  AtCell c c' := c' = c ∧ c < g.cells.size

/-- Everything in the graph can take its own place. -/
structure Graph.Suits (g : Graph) (K : Cast) : Prop where
  symbol : ∀ {n}, (g.node n).kind = .char → K.Symbols (g.node n).symbol (g.node n).symbol
  witnesses : ∀ n, K.Forests (g.node n).witnesses (g.node n).witnesses
  transform : ∀ n, K.Transforms (g.node n).transform (g.node n).transform
  derivative : ∀ {cell c n side}, g.suspension? cell = some (.derivative c n side) → K.Symbols c c
  forests : ∀ {n ws}, g.forests.stored.get? n = some ws → K.Forests ws ws

theorem Graph.suits_same (g : Graph) (owns : String → Prop) : g.Suits (.same owns) :=
  ⟨fun _ => rfl, fun _ => rfl, fun _ => rfl, fun _ => rfl, fun _ => rfl⟩

/-- The nodes that are always there are there, and what is known about them is right. -/
structure Graph.Familiar (g : Graph) : Prop where
  atoms : g.HasAtoms
  known : ∀ (i : Evaluator) {n v}, i.atom n = some v → (i.of g).Settles n v
  derived : ∀ {n c d}, Derivative.atom n = some d → g.derivatives.Settles n c d

/-- Everything that is known is about nodes of the graph, and results are nodes of the graph. -/
structure Graph.Landed (g : Graph) : Prop where
  formed : g.Formed
  tidy : g.Tidy
  resting : g.Resting
  compacted : ∀ {n m}, g.compacted.stored.get? n = some m → m < g.nodes.size
  derivatives : ∀ {n c d}, g.derivatives.find? n c = some d → d < g.nodes.size

variable {K : Cast} {g g' h : Graph} {n m : NodeId} {c : CellId}

theorem Sketches.familiar {p : Placing .plain} (s : Sketches p h g) : h.Familiar where
  atoms := s.atoms
  known i _ _ known := ((s.books i).atoms (s.at_atom (Evaluator.eq_of_atom known)) known).1
  derived known :=
    (s.derivatives.atoms (s.at_atom (Derivative.eq_of_atom known).1) rfl known).1

namespace Graph

theorem HasAtoms.lt (h : g.HasAtoms) (atom : n = .empty ∨ n = .eps) : n < g.nodes.size := by
  refine lt_of_kind ?_
  rcases atom with rfl | rfl
  · rw [h.empty]; exact Kind.noConfusion
  · rw [h.eps]; exact Kind.noConfusion

namespace Landed

variable (landed : g.Landed)
include landed

theorem fresh (i : Evaluator) (le : g.nodes.size ≤ n) : (i.of g).Fresh n where
  stored := Option.eq_none_iff_forall_ne_some.mpr fun _ known =>
    absurd (landed.tidy.known i (.inl known)).lt (Nat.not_lt_of_le le)
  active := (landed.resting.books i).active n
  provisional := (landed.resting.books i).provisional n

theorem unfound (le : g.nodes.size ≤ n) (key : Value) : g.derivatives.find? n key = none :=
  Option.eq_none_iff_forall_ne_some.mpr fun _ known =>
    absurd (landed.tidy.found known).1 (Nat.not_lt_of_le le)

theorem slots (n : NodeId) (side : Side) :
    (Placing.whole (K := K) g).Slots ((g.node n).slot side) ((g.node n).slot side) := by
  have covers := landed.formed.covers n side
  cases slot : (g.node n).slot side with
  | vacant => trivial
  | node k => rw [slot] at covers; exact ⟨rfl, covers⟩
  | deferred cell => rw [slot] at covers; exact ⟨rfl, covers⟩

variable (suits : g.Suits K)
include suits

theorem suspensions {s : Suspension} (there : g.suspension? c = some s) :
    (Placing.whole (K := K) g).Suspensions s s := by
  cases s with
  | derivative key k side =>
    exact ⟨suits.derivative there, ⟨rfl, lt_of_kind (landed.formed.derivative there)⟩, rfl⟩
  | compacted k => exact ⟨rfl, landed.formed.compacted there⟩
  | term => exact absurd there landed.formed.term

theorem results {i : Evaluator} {v : i.Result} (known : (i.of g).stored.get? n = some v) :
    (Placing.whole (K := K) g).Results i v v := by
  cases i with
  | compact => exact ⟨rfl, landed.compacted known⟩
  | forest => exact suits.forests known
  | nullable | emptyLike | epsLike => rfl

end Landed

theorem matching_below (size : Nat) : Matching fun n n' : Nat => n' = n ∧ n < size :=
  ⟨fun hn hm => hm.1.trans hn.1.symm, fun hn hm => hm.1.symm.trans hn.1⟩

/-- A graph in which nothing goes on is a sketch of what it may be padded to. -/
theorem Landed.sketches (landed : g.Landed) (familiar : g.Familiar) (faithful : K.Faithful)
    (suits : g.Suits K) (unnamed : ∀ x, ¬ K.owns x) (padded : g.Padded g') :
    Sketches (K := K) (.whole g) g g' := by
  have atoms := familiar.atoms
  obtain ⟨nodes, cells, rfl⟩ := padded.same
  have books (i : Evaluator) : i.of { g with nodes, cells } = i.of g := by cases i <;> rfl
  exact {
    matching := matching_below _
    matchingCells := matching_below _
    inside := fun placed => ⟨placed.2, placed.1 ▸ Nat.lt_of_lt_of_le placed.2 padded.size⟩
    insideCells := fun placed => ⟨placed.2, placed.1 ▸ Nat.lt_of_lt_of_le placed.2 padded.cellsSize⟩
    empty := ⟨rfl, atoms.lt (.inl rfl)⟩
    eps := ⟨rfl, atoms.lt (.inr rfl)⟩
    atoms := atoms
    atoms' := atoms.of_node fun n atom => padded.node (atoms.lt atom)
    nodes := by
      rintro _ n ⟨rfl, lt⟩
      rw [padded.node lt]
      exact ⟨rfl, landed.slots n .first, landed.slots n .second, suits.symbol, suits.witnesses n,
        suits.transform n⟩
    cells := by
      rintro _ c ⟨rfl, lt⟩
      rw [padded.cell lt]
      cases there : g.cells[c]? with
      | none => exact .none
      | some content =>
        refine .some ⟨landed.suspensions suits (c := c) ?_, rfl⟩
        simp [Graph.suspension?, there]
    books := fun i => by
      rw [books]
      refine ⟨matching_below _, fun {n n' v} placed known => ?_, fun {n n'} placed _ => ?_, rfl,
        fun d => ?_⟩
      · exact ⟨familiar.known i known, placed.1 ▸ familiar.known i known⟩
      · obtain ⟨rfl, lt⟩ := placed
        have rest := landed.resting.books i
        refine ⟨?_, rfl, ?_⟩
        · cases known : (i.of g).stored.get? n' with
          | none => exact .none
          | some v => exact .some (landed.results suits known)
        · rw [rest.provisional]
          exact .none
      · rw [(landed.resting.books i).frames]
        exact .none
    derivatives := by
      refine ⟨matching_below _, K.keys, fun {n n' key key' d} placed same known => ?_,
        fun {n n' key key'} placed same _ => ?_, ?_, fun a member => ?_⟩
      · obtain ⟨rfl, -⟩ := placed
        obtain rfl := faithful.symbols same
        exact ⟨familiar.derived known, familiar.derived known⟩
      · obtain ⟨rfl, -⟩ := placed
        obtain rfl := faithful.symbols same
        cases known : g.derivatives.find? n' key' with
        | none => exact .none
        | some d => exact .some ⟨rfl, landed.derivatives known⟩
      · rw [landed.resting.started]
        exact .nil
      · rw [landed.resting.started] at member
        cases member
    known := fun i => by
      rw [books]
      exact ⟨fun n le => landed.fresh i le,
        fun n le => landed.fresh i (Nat.le_trans padded.size le)⟩
    derived := ⟨fun n le => landed.unfound le,
      fun n le => landed.unfound (Nat.le_trans padded.size le)⟩
    names := fun owned => absurd owned (unnamed _)
    journal := rfl }

end Graph

theorem Cast.self_of_faithful {α : Type} {R : α → α → Prop} (faithful : ∀ {a b}, R a b → b = a)
    {a b : α} (h : R a b) : R b b := by
  have same := faithful h
  subst same
  exact h

open Cast (self_of_faithful)

section

variable {p q : Placing K} (faithful : K.Faithful)
include faithful

theorem Sketches.suits (s : Sketches q h g') (covers : ∀ {n}, n < g'.nodes.size → q.Covers n)
    (coversCells : ∀ {c}, c < g'.cells.size → q.CoversCell c) : g'.Suits K where
  symbol {n} kind := by
    obtain ⟨m, placed⟩ := covers (Graph.lt_of_kind (by rw [kind]; exact Kind.noConfusion))
    have nodes := s.nodes placed
    exact self_of_faithful faithful.symbols (nodes.symbol (nodes.kind.symm.trans kind))
  witnesses n := by
    by_cases lt : n < g'.nodes.size
    · obtain ⟨m, placed⟩ := covers lt
      exact self_of_faithful faithful.forests (s.nodes placed).witnesses
    · rw [Graph.node_of_le (Nat.le_of_not_lt lt)]
      exact K.none
  transform n := by
    by_cases lt : n < g'.nodes.size
    · obtain ⟨m, placed⟩ := covers lt
      exact self_of_faithful faithful.transforms (s.nodes placed).transform
    · rw [Graph.node_of_le (Nat.le_of_not_lt lt)]
      exact K.identity
  derivative {cell c n side} suspended := by
    obtain ⟨d, placed⟩ := coversCells (Graph.lt_of_suspension suspended)
    have cells := s.cells placed
    obtain ⟨content, there, same⟩ := Option.map_eq_some_iff.mp suspended
    rw [there] at cells
    generalize h.cells[d]? = other at cells
    cases cells with
    | some agrees =>
      have suspensions := agrees.suspension
      rw [same] at suspensions
      generalize Cell.suspension _ = x at suspensions
      cases x with
      | derivative => exact self_of_faithful faithful.symbols suspensions.1
      | compacted | term => exact suspensions.elim
  forests {n ws} known := by
    have lt : n < g'.nodes.size := Nat.lt_of_not_le fun le => by
      cases ((s.known .forest).2 n le).stored.symm.trans known
    obtain ⟨m, placed⟩ := covers lt
    cases atom : Evaluator.forest.atom m with
    | some v =>
      obtain rfl := s.eq_of_atom (Evaluator.eq_of_atom atom) placed
      rcases ((s.books .forest).atoms placed atom).2 with fresh | stored
      · cases fresh.stored.symm.trans known
      · cases stored.symm.trans known
        exact s.results_atom atom
    | none =>
      have stored := ((s.books .forest).entries placed atom).stored
      generalize (Evaluator.of .forest h).stored.get? m = other at stored
      change Option.Rel K.Forests other (g'.forests.stored.get? n) at stored
      rw [known] at stored
      cases stored with
      | some related => exact self_of_faithful faithful.forests related

/-- A run that does in a graph what it does in the graph as a sketch of itself. -/
theorem Graph.Suits.kept (suits : g.Suits K) (landed : g.Landed) (familiar : g.Familiar)
    (unnamed : ∀ x, ¬ K.owns x) {α : Type} {V : Placing K → α → α → Prop} {r : Run α}
    (mirrors : Mirrors (.whole g) V r r) {result : Except Fault α} (ends : r g = some (result, g')) :
    g'.Suits K ∧ ∃ q, Sketches q g' g' ∧ Ended (V q) result result := by
  have met := mirrors g g (landed.sketches familiar faithful suits unnamed (.refl g))
  rw [ends] at met
  cases met with
  | @ended q _ _ _ _ step sketches related =>
    refine ⟨sketches.suits faithful (fun {n} lt => ?_) (fun {c} lt => ?_), q, sketches, related⟩
    · by_cases old : n < g.nodes.size
      · exact ⟨n, step.le.node ⟨rfl, old⟩⟩
      · exact step.covers (Nat.le_of_not_lt old) lt
    · by_cases old : c < g.cells.size
      · exact ⟨c, step.le.cell ⟨rfl, old⟩⟩
      · exact step.coversCells (Nat.le_of_not_lt old) lt

end

/-- Whatever is asked from outside goes on in the larger graph as well. -/
theorem Ask.Mirrored.call {ask ask' : Ask} (a : ask.Mirrored K ask') (faithful : K.Faithful)
    {p : Placing K} {call : Call} (keys : call.By fun c => K.Symbols c c)
    (placed : p.At call.node call.node) :
    Mirrors p (fun _ _ _ => True) (call.run ask) (call.run ask') := by
  have done {α α' : Type} {V : Placing K → α → α' → Prop} {r : Run α} {r' : Run α'}
      (h : Mirrors p V r r') :
      Mirrors p (fun _ _ _ => True) (do let _ ← r) (do let _ ← r') :=
    .bind h fun _ _ _ _ _ => .pure trivial
  cases call with
  | query q =>
    cases q with
    | child n side => exact done (a.child? side placed)
    | nullable n => exact done (a.evaluate .nullable placed)
    | forest n => exact done (a.evaluate .forest placed)
    | emptyLike n => exact done (a.evaluate .emptyLike placed)
    | epsLike n => exact done (a.evaluate .epsLike placed)
    | compact n => exact done (a.evaluate .compact placed)
    | derive c n => exact done (a.derive keys placed)
    | nodeCount n => exact done (a.nodeCount placed)
  | residual compaction symbols n => exact done (a.residual keys compaction placed)
  | recognize compaction symbols n => exact done (a.recognize keys compaction placed)
  | parse compaction symbols n => exact done (a.parse keys faithful compaction placed)

end GrammarGraph
