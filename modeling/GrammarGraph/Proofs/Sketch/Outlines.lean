import GrammarGraph.Proofs.Sketch.Chaining
import GrammarGraph.Proofs.Sketch.Terms

/-! Outlines: a sketch together with the node in it that stands for what is left of a grammar.
Taking the symbol leads from one outline to the next. Where the next one holds the first one again,
any number of symbols can be taken, and what is left always has the same outline. -/
namespace GrammarGraph

structure Outline where
  node : NodeId
  graph : Graph

namespace Outline

/-- How deep the engine goes in an outline. -/
abbrev depth : Nat := 40

def ask : Ask :=
  (Cast.slim .itself).run depth

def ended : Option (Except Fault NodeId × Graph) → Option Outline
  | some (.ok n, g) => some ⟨n, g⟩
  | _ => none

def next? (o : Outline) : Option Outline :=
  ended (Parse.advance ask true (.int 1) o.node o.graph)

/-- There is one witness of the empty sentence. -/
def isSingle (o : Outline) : Bool :=
  (ask.forest o.node o.graph).any fun (result, _) => result.toOption.any (·.length == 1)

def count? (o : Outline) : Option Nat :=
  (ask.nodeCount o.node o.graph).bind fun (result, _) => result.toOption

/-- What the outline `o` shows, the outline `o'` shows again where the lists say. -/
structure Recurs (nodes cells : List (Nat × Nat)) (o o' : Outline) : Prop where
  node : (o.node, o'.node) ∈ nodes
  graph : o.graph.Resembles nodes cells o'.graph

/-- After one more symbol there is something left, and it has the outline `o'`. -/
def Leads (o o' : Outline) : Prop :=
  ∃ next, o.next? = some next ∧ next.node ≠ .empty ∧
    (o' = next ∨ o' = o ∧ ∃ nodes cells, o.Recurs nodes cells next)

/-- The outline after `k` symbols, if they are taken. -/
def after (o : Outline) : Nat → Outline
  | 0 => o
  | k + 1 => (o.after k).next?.getD (o.after k)

/-- Three symbols are taken, and what two of them leave has the outline of what all three leave. -/
structure Settles (nodes cells : List (Nat × Nat)) (o : Outline) : Prop where
  taken : ∀ k ∈ List.range 3, (o.after k).next?.isSome = true
  left : ∀ k ∈ List.range 3, (o.after (k + 1)).node ≠ .empty
  recurs : (o.after 2).Recurs nodes cells (o.after 3)

instance {nodes cells : List (Nat × Nat)} {o o' : Outline} : Decidable (o.Recurs nodes cells o') :=
  decidable_of_iff ((Placing.ofPairs nodes cells).At o.node o'.node ∧
      o.graph.Resembles nodes cells o'.graph)
    ⟨fun h => ⟨h.1, h.2⟩, fun h => ⟨h.node, h.graph⟩⟩

instance {nodes cells : List (Nat × Nat)} {o : Outline} : Decidable (o.Settles nodes cells) :=
  decidable_of_iff ((∀ k ∈ List.range 3, (o.after k).next?.isSome = true) ∧
      (∀ k ∈ List.range 3, (o.after (k + 1)).node ≠ .empty) ∧
      (o.after 2).Recurs nodes cells (o.after 3))
    ⟨fun h => ⟨h.1, h.2.1, h.2.2⟩, fun h => ⟨h.taken, h.left, h.recurs⟩⟩

variable {M : Material} {o o' : Outline} {n : NodeId} {g : Graph} {w : Value} {k : Nat}

/-- The graph has what is outlined, at `n`; no journal is kept. -/
structure Shows (M : Material) (o : Outline) (n : NodeId) (g : Graph) : Prop where
  silent : g.journal = none
  placed : ∃ p : Placing (.slim M), Sketches p o.graph g ∧ p.At o.node n

theorem ended_eq {r : Option (Except Fault NodeId × Graph)} (h : ended r = some o) :
    r = some (.ok o.node, o.graph) := by
  unfold ended at h
  split at h
  · cases h; rfl
  · cases h

theorem ask_mirrored (M : Material) : ask.Mirrored (.slim M) (Engine.run depth) := by
  unfold ask
  rw [Cast.run_slim .itself M]
  exact Cast.run_mirrored _ depth

/-- What is true of the outlines after one symbol and after two stays true. -/
theorem after_of_early {P : Outline → Prop} (early : ∀ j < 2, P (o.after (j + 1))) (k : Nat) :
    P (o.after (min (k + 1) 2)) := by
  have index : min (k + 1) 2 = min k 1 + 1 := by omega
  rw [index]
  exact early _ (by omega)

theorem Settles.leads {nodes cells : List (Nat × Nat)} (h : o.Settles nodes cells) (j : Nat) :
    (o.after (min j 2)).Leads (o.after (min (j + 1) 2)) := by
  have within : min j 2 ∈ List.range 3 := List.mem_range.mpr (by omega)
  have next : (o.after (min j 2)).next? = some (o.after (min j 2 + 1)) := by
    obtain ⟨_, taken⟩ := Option.isSome_iff_exists.mp (h.taken _ within)
    rw [after, taken, Option.getD_some]
  refine ⟨_, next, h.left _ within, ?_⟩
  by_cases early : j < 2
  · left
    congr 1
    omega
  · right
    have here : min j 2 = 2 := by omega
    have there : min (j + 1) 2 = 2 := by omega
    rw [here, there]
    exact ⟨rfl, nodes, cells, h.recurs⟩

namespace Shows

/-- What a run does with an outline it does with what is outlined. -/
theorem ends {α : Type} {V : Placing (.slim M) → α → α → Prop} {r r' : Run α} {a : α} {h : Graph}
    (shows_ : o.Shows M n g)
    (mirrors : ∀ {p : Placing (.slim M)}, p.At o.node n → Mirrors p V r r')
    (run : r o.graph = some (.ok a, h)) : ∃ p a' g', r' g = some (.ok a', g') ∧ Sketches p h g' ∧
      V p a a' ∧ g'.journal = none := by
  obtain ⟨silent, p, sketches, placed⟩ := shows_
  have met := mirrors placed o.graph g sketches
  rw [run] at met
  generalize r' g = end_ at met
  cases met with
  | ended step sketches' related =>
    cases related with
    | value related => exact ⟨_, _, _, rfl, sketches', related, step.silent silent⟩

theorem next (shows_ : o.Shows M n g) (next : o.next? = some o') :
    ∃ n' g', Parse.advance (Engine.run depth) true M.symbol n g = some (.ok n', g') ∧
      o'.Shows M n' g' ∧ (n' = .empty ↔ o'.node = .empty) := by
  obtain ⟨p, n', g', ran, sketches, placed, silent⟩ := shows_.ends
    (fun placed => (ask_mirrored M).advance true Material.Stands.self placed) (ended_eq next)
  exact ⟨n', g', ran, ⟨silent, p, sketches, placed⟩, sketches.matching.eq_iff sketches.empty placed⟩

theorem again {nodes cells : List (Nat × Nat)} {n₀ : NodeId} {g₀ : Graph}
    (earlier : o.Shows M n₀ g₀) (shows_ : o'.Shows M n g) (recurs : o.Recurs nodes cells o') :
    o.Shows M n g := by
  obtain ⟨-, _, before, -⟩ := earlier
  obtain ⟨silent, p, sketches, placed⟩ := shows_
  have found := before.ofPairs sketches recurs.graph
  have atRest := recurs.graph.atRest.1
  exact ⟨silent, _, found.comp sketches atRest.frames (List.length_eq_zero_iff.mp atRest.started), _,
    recurs.node, placed⟩

theorem leads (shows_ : o.Shows M n g) (leads : o.Leads o') :
    ∃ n' g', Parse.advance (Engine.run depth) true M.symbol n g = some (.ok n', g') ∧
      o'.Shows M n' g' ∧ n' ≠ .empty := by
  obtain ⟨next, taken, left, here⟩ := leads
  obtain ⟨n', g', ran, later, empty⟩ := shows_.next taken
  refine ⟨n', g', ran, ?_, mt empty.mp left⟩
  rcases here with rfl | ⟨rfl, nodes, cells, recurs⟩
  · exact later
  · exact shows_.again later recurs

theorem forest (shows_ : o.Shows M n g) (single : o.isSingle = true) :
    ∃ w g', (Engine.run depth).forest n g = some (.ok [w], g') ∧ M.Apt w := by
  obtain ⟨⟨result, h⟩, run, single⟩ := (Option.any_eq_true _ _).mp single
  obtain ⟨ws, ok, length⟩ := (Option.any_eq_true _ _).mp single
  cases result with
  | error fault => cases ok
  | ok vs =>
    cases ok
    obtain ⟨p, ws', g', ran, -, related, -⟩ :=
      shows_.ends (fun placed => (ask_mirrored M).evaluate .forest placed) run
    cases related with
    | none => cases length
    | one akin => exact ⟨_, g', ran, akin.apt⟩

theorem nodeCount (shows_ : o.Shows M n g) (counted : o.count? = some k) :
    ∃ g', (Engine.run depth).nodeCount n g = some (.ok k, g') := by
  obtain ⟨⟨result, h⟩, run, counted⟩ := Option.bind_eq_some_iff.mp counted
  cases result with
  | error fault => cases counted
  | ok count =>
    cases counted
    obtain ⟨p, count', g', ran, -, same, -⟩ :=
      shows_.ends (fun placed => (ask_mirrored M).nodeCount placed) run
    exact ⟨g', by rw [ran, same]⟩

/-- Along a path of outlines any number of symbols is taken. -/
theorem residualFrom {path : Nat → Outline} (leads : ∀ j, (path j).Leads (path (j + 1)))
    (k position : Nat) {j : Nat} (shows_ : (path j).Shows M n g) :
    ∃ r g', Parse.residualFrom (Engine.run depth) true position (.replicate k M.symbol) n g =
      some (.ok ⟨r, position + k⟩, g') ∧ (path (j + k)).Shows M r g' := by
  induction k generalizing n g j position with
  | zero => exact ⟨n, g, rfl, shows_⟩
  | succ k ih =>
    obtain ⟨n', g', ran, later, left⟩ := shows_.leads (leads j)
    obtain ⟨r, g'', rest, last⟩ := ih (position + 1) later
    refine ⟨r, g'', ?_, ?_⟩
    · have other : ¬ (n' == NodeId.empty) = true := fun same => left (eq_of_beq same)
      have report : Parse.report (Engine.run depth) position M.symbol n' g' = some (.ok (), g') := by
        unfold Parse.report
        rw [RunOf.read_bind, Graph.admits, later.silent]
        rfl
      rw [List.replicate_succ, Parse.residualFrom, RunOf.bind_of_ok ran, if_neg other,
        RunOf.bind_of_ok report, rest, Nat.add_right_comm, Nat.add_assoc]
    · rwa [Nat.add_right_comm, Nat.add_assoc] at last

end Shows

end Outline

end GrammarGraph
