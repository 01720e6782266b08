import GrammarGraph.Proofs.Choices.Building
import GrammarGraph.Proofs.Choices.Steady
import GrammarGraph.Proofs.Consultation
import GrammarGraph.Proofs.Rejection

/-! What is answered about any number of symbols. However many were taken, what is left has as many
nodes, and there is one witness; after a symbol that is none of them, nothing is left at all. -/
namespace GrammarGraph

open Computability
open RunOf (Gives)

/-- A sentence of a choice is one symbol that equals one of its symbols. -/
theorem Graph.Choice.language {y : Gauge (Language Value)} {g : Graph} {n : NodeId}
    {ls : List NodeId} (exact_ : Gauge.Exact languages y g) (h : g.Choice n ls) {s : List Value}
    (member : s ∈ (y (.node n)).sense) : ∃ c, s = [c] ∧ ∃ a ∈ g.symbols ls, a.same c = true := by
  induction h with
  | @char n kind =>
    rw [exact_.sense_of_known kind (by decide)] at member
    obtain ⟨c, rfl, same⟩ := mem_matching.mp member
    exact ⟨c, rfl, _, List.mem_singleton_self _, same⟩
  | @alt n a b ls ls' kind first second _ _ iha ihb =>
    rw [exact_.sense_of_known kind (by decide)] at member
    change s ∈ (y (g.node n).first).sense + (y (g.node n).second).sense at member
    rw [first, second] at member
    rw [symbols, List.map_append]
    rcases (Language.mem_add _ _ _).mp member with member | member
    · obtain ⟨c, one, a, there, same⟩ := iha member
      exact ⟨c, one, a, List.mem_append_left _ there, same⟩
    · obtain ⟨c, one, a, there, same⟩ := ihb member
      exact ⟨c, one, a, List.mem_append_right _ there, same⟩

theorem Graph.AnyOf.language {y : Gauge (Language Value)} {g : Graph} {r a : NodeId}
    {ls : List NodeId} (exact_ : Gauge.Exact languages y g) (h : g.AnyOf ls r a) {s : List Value}
    (member : s ∈ (y (.node r)).sense) : ∀ c ∈ s, ∃ a ∈ g.symbols ls, a.same c = true := by
  rw [exact_.sense_of_kind h.lt h.kind] at member
  change s ∈ (y (g.node r).first).sense∗ at member
  rw [h.first] at member
  obtain ⟨ss, rfl, parts⟩ := Language.mem_kstar.mp member
  intro c inside
  obtain ⟨t, there, inside⟩ := List.mem_flatten.mp inside
  obtain ⟨d, rfl, taken⟩ := h.choice.language exact_ (parts t there)
  rwa [List.mem_singleton.mp inside]

/-- Reductions never fail, and what takes no symbol has a witness. -/
def Construction.Fruitful (c : Construction) : Prop :=
  c.Total ∧ c ≠ .eps []

namespace Bench.Straight

variable {b : Bench} {r a : NodeId} {ls : List NodeId} {c : Value} {s : List Value}
  (h : b.Straight Construction.Fruitful fun c => c.boolless = true)
include h

theorem gauge : ∃ x, Gauge.Rested trees x b.graph :=
  h.rested (fun _ apt => apt.1) fun _ boolless hashable => ⟨hashable, boolless⟩

theorem gauge_languages : ∃ y, Gauge.Rested languages y b.graph := by
  refine h.weighed (fun _ apt => apt.1) (fun {ws given} apt ok => ?_) fun _ _ hashable => hashable
  obtain ⟨hashable, rfl⟩ := Forest.ofWitnesses_ok.mp ok
  refine ⟨mt Forest.distinct_eq_nil.mp fun none => apt.2 (congrArg Construction.eps none), ?_⟩
  exact fun w member => hashable w (Forest.mem_of_mem_distinct member)

variable (any : b.graph.AnyOf ls r a)
include any

/-- What is left of a sentence has as many nodes as what is left of any other. -/
theorem nodeCount_anyOf (distinct : ls.Nodup) (plain : ∀ d ∈ c :: s, d.Plain)
    (taken : ∀ d ∈ c :: s, ∃ a ∈ b.graph.symbols ls, a.same d = true) :
    ∃ g, Gives (fun ask => do ask.nodeCount (← Parse.residual ask true (c :: s) r).node) b.graph
      (2 * ls.length + 1) g := by
  obtain ⟨x, weighed⟩ := h.gauge
  obtain ⟨C, roots, y, rested, takes⟩ := h.census (fun _ apt => apt.1)
    (c := .residual true (c :: s) r) fun d member => (plain d member).1
  have repeats : Repeats x b.graph (x (.node a)).sense ls r a := ⟨any, any.sense weighed.valid⟩
  have valid : (watching trees C roots).Valid (y, x) b.graph := ⟨rested, weighed⟩
  obtain ⟨count, g, gives, _, _, _, rfl⟩ := repeats.residual_nodeCount valid
    (any.choice.tree weighed.valid) distinct taken takes plain
  exact ⟨g, gives⟩

theorem parse_anyOf (plain : ∀ d ∈ c :: s, d.Plain) (solid : ∀ d ∈ c :: s, d.Solid)
    (taken : ∀ d ∈ c :: s, ∃ a ∈ b.graph.symbols ls, a.same d = true) :
    ∃ consumed g, Gives (fun ask => Parse.parse ask true (c :: s) r) b.graph
      ([.chain (c :: s)], consumed) g := by
  obtain ⟨x, weighed⟩ := h.gauge
  obtain ⟨⟨forest, consumed⟩, g, gives, _, _, _, ws, given, same⟩ :=
    weighed.parse ⟨any.lt, any.sense weighed.valid⟩ true plain
  obtain rfl : ws = _ := given
  obtain rfl : forest = _ := same
  rw [(any.choice.tree weighed.valid).forest_left taken solid] at gives
  exact ⟨consumed, g, gives⟩

theorem rejects_anyOf (some_ : s ≠ []) (hashable : ∀ d ∈ s, d.hashable = true) (member : c ∈ s)
    (other : ∀ a ∈ b.graph.symbols ls, a.same c = false) :
    (∃ consumed g, Gives (fun ask => Parse.residual ask true s r) b.graph ⟨.empty, consumed⟩ g) ∧
      ∃ consumed g, Gives (fun ask => Parse.parse ask true s r) b.graph ([], consumed) g := by
  obtain ⟨y, weighed⟩ := h.gauge_languages
  obtain ⟨C, roots, x, rested, takes⟩ := h.census (fun _ apt => apt.1)
    (c := .residual true s r) hashable
  have denotes : y.Denotes b.graph (y (.node r)).sense r := ⟨any.lt, rfl⟩
  have stuck : Stuck (y (.node r)).sense s := by
    intro t sentence
    obtain ⟨a, there, same⟩ :=
      any.language weighed.valid sentence c (List.mem_append_left t member)
    rw [other a there] at same
    cases same
  constructor
  · have valid : (watching languages C roots).Valid (x, y) b.graph := ⟨rested, weighed⟩
    obtain ⟨⟨left, consumed⟩, g, gives, _, _, _, messages, verdict, -⟩ :=
      residualFrom_ends 0 valid denotes (fun none => absurd none some_) takes
    obtain rfl : left = .empty := verdict.empty.mpr stuck
    exact ⟨consumed, g, gives⟩
  · obtain ⟨⟨forest, consumed⟩, g, gives, _, _, _, decides⟩ :=
      weighed.parse_language denotes true hashable
    have none : s ∉ (y (.node r)).sense := by
      have := stuck []
      rwa [List.append_nil] at this
    obtain rfl : forest = [] := not_not.mp (mt decides.mp none)
    exact ⟨consumed, g, gives⟩

end Bench.Straight

namespace Bench

variable {b : Bench} {cs : List Value}

/-- Any number of symbols that are no tuples, built on a straight bench, and whatever was asked
since then. After any sentence there are two nodes for every symbol that was written and one more,
and the sentence has one witness, nested to the right. A symbol that is none of those leaves
nothing. -/
theorem anyOf_steady (straight : b.Straight Construction.Fruitful fun c => c.boolless = true)
    (some_ : cs ≠ []) (symbols : ∀ c ∈ cs, c.Plain ∧ c.Solid) : ∃ (r : NodeId) (b' : Bench),
    (∀ ask scope, (Term.anyOf cs).build ask scope b.graph = some (.ok (.node r), b'.graph)) ∧
    ∀ b'' : Bench, b'.Consulted (fun c => c.boolless = true) b'' → ∀ s ≠ [],
      ((∀ c ∈ s, c ∈ cs) →
        (∃ g, Gives (fun ask => do ask.nodeCount (← Parse.residual ask true s r).node) b''.graph
          (2 * cs.length + 1) g) ∧
        ∃ consumed g, Gives (fun ask => Parse.parse ask true s r) b''.graph
          ([.chain s], consumed) g) ∧
      ((∀ c ∈ s, c.hashable = true) → (∃ c ∈ s, ∀ a ∈ cs, a.same c = false) →
        (∃ consumed g, Gives (fun ask => Parse.residual ask true s r) b''.graph
          ⟨.empty, consumed⟩ g) ∧
        ∃ consumed g, Gives (fun ask => Parse.parse ask true s r) b''.graph ([], consumed) g) := by
  obtain ⟨r, a, ls, b', onward, builds, -, any, distinct, rfl⟩ :=
    straight.build_anyOf (fun _ => ⟨trivial, nofun⟩) (fun _ => ⟨trivial, nofun⟩)
      (fun _ => ⟨trivial, nofun⟩) some_
  refine ⟨r, b', builds, fun b'' consulted s filled => ?_⟩
  have evolves := consulted.evolves (fun _ apt => apt.1)
    (fun _ boolless hashable => ⟨hashable, boolless⟩) onward.straight
  have later := consulted.straight onward.straight
  have same := any.symbols evolves
  have count : (b'.graph.symbols ls).length = ls.length := List.length_map _
  constructor
  · intro inside
    obtain ⟨c, s, rfl⟩ := List.exists_cons_of_ne_nil filled
    have plain : ∀ d ∈ c :: s, d.Plain := fun d member => (symbols d (inside d member)).1
    have taken : ∀ d ∈ c :: s, ∃ a ∈ b''.graph.symbols ls, a.same d = true :=
      fun d member => ⟨d, by rw [same]; exact inside d member, d.same_refl⟩
    rw [count]
    exact ⟨later.nodeCount_anyOf (any.evolves evolves) distinct plain taken,
      later.parse_anyOf (any.evolves evolves) plain
        (fun d member => (symbols d (inside d member)).2) taken⟩
  · intro hashable ⟨c, member, other⟩
    rw [← same] at other
    exact later.rejects_anyOf (any.evolves evolves) filled hashable member other

theorem anyOf_steady_two : Straight Construction.Fruitful (fun c => c.boolless = true) {} ∧
    [Value.int 1, .int 2] ≠ [] ∧ (∀ c ∈ [Value.int 1, .int 2], c.Plain ∧ c.Solid) ∧
    ∃ r g, (Term.anyOf [.int 1, .int 2]).build (Engine.run 0) [] {} = some (.ok (.node r), g) ∧
      (∃ g', Gives (fun ask => do
        ask.nodeCount (← Parse.residual ask true [.int 2, .int 1, .int 2] r).node) g 5 g') ∧
      (∃ consumed g', Gives (fun ask => Parse.parse ask true [.int 2, .int 1, .int 2] r) g
        ([.tuple [.int 2, .tuple [.int 1, .int 2]]], consumed) g') ∧
      ∃ consumed g', Gives (fun ask => Parse.residual ask true [.int 1, .str "x"] r) g
        ⟨.empty, consumed⟩ g' := by
  have straight : Straight Construction.Fruitful (fun c => c.boolless = true) {} := .start
  have symbols : ∀ c ∈ [Value.int 1, .int 2], c.Plain ∧ c.Solid := by
    simp [Value.Plain, Value.hashable, Value.boolless, Value.Solid]
  obtain ⟨r, b', builds, answers⟩ := anyOf_steady straight (List.cons_ne_nil _ _) symbols
  obtain ⟨inside, -⟩ := answers b' .refl [.int 2, .int 1, .int 2] (List.cons_ne_nil _ _)
  obtain ⟨-, out⟩ := answers b' .refl [.int 1, .str "x"] (List.cons_ne_nil _ _)
  obtain ⟨count, parse⟩ := inside (by simp)
  obtain ⟨rejected, -⟩ := out (by simp [Value.hashable])
    ⟨.str "x", by simp, by simp [Value.same, Value.number?]⟩
  exact ⟨straight, List.cons_ne_nil _ _, symbols, r, b'.graph, builds (Engine.run 0) [], count,
    parse, rejected⟩

end Bench

end GrammarGraph
