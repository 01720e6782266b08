import Mathlib.Logic.Relation
import GrammarGraph.Engine
import GrammarGraph.Proofs.Constructors
import GrammarGraph.Proofs.Forests
import GrammarGraph.Proofs.Formed
import GrammarGraph.Proofs.Regime

/-! Histories of a graph. Constructors are applied to concrete nodes, definitions are begun
and completed, and in between queries are answered in any order and within any bounds,
also such that end with a fault. -/
namespace GrammarGraph

/-- A constructor with its operands. -/
inductive Construction where
  | char (symbol : Value)
  | eps (witnesses : List Value)
  | cat (operands : List NodeId)
  | alt (operands : List NodeId)
  | rep (operand : NodeId)
  | delta (operand : NodeId)
  | red (operand : NodeId) (transform : Transform)

namespace Construction

def operands : Construction → List NodeId
  | .char _ | .eps _ => []
  | .cat operands | .alt operands => operands
  | .rep operand | .delta operand | .red operand _ => [operand]

def run : Construction → Run NodeId
  | .char symbol => Grammar.char symbol
  | .eps witnesses => Grammar.eps witnesses
  | .cat operands => Grammar.catAll (operands.map .node)
  | .alt operands => Grammar.altAll (operands.map .node)
  | .rep operand => Grammar.rep (.node operand)
  | .delta operand => Grammar.delta (.node operand)
  | .red operand transform => Grammar.reduction (.node operand) transform

end Construction

/-- What may be asked about a graph from outside. -/
inductive Call where
  | query (q : Query)
  | residual (compaction : Bool) (symbols : List Value) (n : NodeId)
  | recognize (compaction : Bool) (symbols : List Value) (n : NodeId)
  | parse (compaction : Bool) (symbols : List Value) (n : NodeId)

def Query.node : Query → NodeId
  | .child n _ | .nullable n | .forest n | .emptyLike n | .epsLike n | .compact n
  | .derive _ n | .nodeCount n => n

namespace Call

def node : Call → NodeId
  | .query q => q.node
  | .residual _ _ n | .recognize _ _ n | .parse _ _ n => n

def run (ask : Ask) : Call → Run Unit
  | .query q => do let _ ← ask q
  | .residual compaction symbols n => do let _ ← Parse.residual ask compaction symbols n
  | .recognize compaction symbols n => do let _ ← Parse.recognize ask compaction symbols n
  | .parse compaction symbols n => do let _ ← Parse.parse ask compaction symbols n

end Call

/-- A graph on which grammars are being built. -/
structure Bench where
  graph : Graph := {}
  /-- The nodes that constructors made, and the two atoms that are always there. -/
  built : NodeId → Prop := fun n => n = .empty ∨ n = .eps
  /-- The placeholders of the definitions that are not complete, innermost first. -/
  opened : List NodeId := []

namespace Bench

/-- The bench after a graph has grown by nodes of constructors only. -/
def grown (b : Bench) (g : Graph) : Bench :=
  { b with
    graph := g
    built := fun n => b.built n ∨ b.graph.nodes.size ≤ n ∧ n < g.nodes.size }

inductive Step (permitted : Bench → Call → Prop) (b : Bench) : Bench → Prop where
  | construct {n : NodeId} {g : Graph} (c : Construction) : (∀ k ∈ c.operands, b.built k) →
      c.run b.graph = some (.ok n, g) → Step permitted b (b.grown g)
  | begin {n : NodeId} {g : Graph} :
      Run.make { kind := .placeholder } b.graph = some (.ok n, g) →
      Step permitted b { b.grown g with opened := n :: b.opened }
  | complete {n body : NodeId} {rest : List NodeId} {g : Graph} : b.opened = n :: rest →
      b.built body → Grammar.define n (.node body) b.graph = some (.ok n, g) →
      Step permitted b { b with graph := g, opened := rest }
  | call {result : Except Fault Unit} {g : Graph} (bound : Nat) (c : Call) : permitted b c →
      c.node < b.graph.nodes.size → c.run (Engine.run bound) b.graph = some (result, g) →
      Step permitted b { b with graph := g }
  | journal (journal : Option Journal) :
      Step permitted b { b with graph := { b.graph with journal } }

/-- The benches that a history can lead to. -/
def Reached (permitted : Bench → Call → Prop) (b : Bench) : Prop :=
  Relation.ReflTransGen (Step permitted) {} b

/-- A recursive definition of any number of ones, as node 2. -/
def ones : Bench :=
  let begun : Bench := { grown {} (Graph.addNode { kind := .placeholder } {}) with opened := [2] }
  let one := begun.grown (begun.graph.addNode { kind := .char, symbol := .int 1 })
  let more := one.grown (one.graph.addNode { kind := .cat, first := .node 3, second := .node 2 })
  let body := more.grown (more.graph.addNode { kind := .alt, first := .node 1, second := .node 4 })
  { body with graph := body.graph.become 2 5, opened := [] }

theorem ones_reached (permitted : Bench → Call → Prop) : ones.Reached permitted :=
  .tail (.tail (.tail (.tail (.tail .refl
    (.begin rfl))
    (.construct (.char (.int 1)) (fun _ none => nomatch none) rfl))
    (.construct (.cat [3, 2]) (by simp [grown, Construction.operands]) rfl))
    (.construct (.alt [1, 4]) (by simp [grown, Construction.operands]) rfl))
    (.complete rfl (show Bench.built _ 5 by simp [grown]) rfl)

theorem ones_built : ones.built 2 := by
  simp [ones, grown]

end Bench

/-- What the construction decides about a node that it makes. -/
structure Construction.Fits (c : Construction) (node : Node) : Prop where
  complete : node.kind ≠ .placeholder
  some_ : node.kind ≠ .empty
  eps : node.kind = .eps → ∃ ws, c = .eps ws ∧ Forest.ofWitnesses ws = .ok node.witnesses
  red : node.kind = .red → ∃ n, c = .red n node.transform

theorem Run.make_ok {g g' : Graph} {node : Node} {n : NodeId}
    (h : Run.make node g = some (.ok n, g')) : n = g.nodes.size ∧ g' = g.addNode node := by
  cases h
  exact ⟨rfl, rfl⟩

/-- The graph grows by concrete nodes, one after the other. -/
inductive Laid (fits : Node → Prop) (base : NodeId → Prop) (start : Nat) :
    Graph → Graph → Prop where
  | refl : Laid fits base start g g
  | add {node : Node} : Laid fits base start g g' → fits node →
      node.Concrete (fun k => base k ∨ start ≤ k ∧ k < g'.nodes.size) →
      Laid fits base start g (g'.addNode node)

namespace Laid

variable {fits : Node → Prop} {base : NodeId → Prop} {start : Nat} {g g' g'' : Graph}

theorem trans (h : Laid fits base start g g') (k : Laid fits base start g' g'') :
    Laid fits base start g g'' := by
  induction k with
  | refl => exact h
  | add _ hf hc ih => exact .add ih hf hc

theorem evolves (h : Laid fits base start g g') : g.Evolves g' := by
  induction h with
  | refl => exact .refl g
  | add _ _ _ ih => exact ih.trans (Graph.addNode_evolves _)

/-- What holds of a graph with its built nodes, and of every larger one by a concrete
node, holds in the end. -/
theorem preserves {P : (NodeId → Prop) → Graph → Prop} (h : Laid fits base start g g')
    (le : start ≤ g.nodes.size) (first : P (fun k => base k ∨ start ≤ k ∧ k < g.nodes.size) g)
    (add : ∀ {built g node}, fits node → Node.Concrete built node → P built g →
      P (fun k => built k ∨ k = g.nodes.size) (g.addNode node)) :
    P (fun k => base k ∨ start ≤ k ∧ k < g'.nodes.size) g' := by
  induction h with
  | refl => exact first
  | @add g' node laid fit concrete ih =>
    have le := Nat.le_trans le laid.evolves.size
    have same : (fun k => (base k ∨ start ≤ k ∧ k < g'.nodes.size) ∨ k = g'.nodes.size) =
        fun k => base k ∨ start ≤ k ∧ k < (g'.addNode node).nodes.size := by
      funext k
      rw [Graph.nodes_addNode, Array.size_push, Nat.lt_succ_iff_lt_or_eq, or_assoc, and_or_left]
      exact propext (or_congr_right (or_congr_right
        ⟨fun last => ⟨last ▸ le, last⟩, And.right⟩))
    rw [← same]
    exact add fit concrete ih

end Laid

/-- The regime of constructors on concrete nodes. -/
def laying (fits : Node → Prop) (base : NodeId → Prop) (start : Nat) : Regime Unit where
  Valid _ g := start ≤ g.nodes.size ∧ base .empty ∧ base .eps
  Later _ g _ g' := Laid fits base start g g'
  refl _ _ := .refl
  trans := .trans

namespace Laid

variable {fits : Node → Prop} {base : NodeId → Prop} {start : Nat} {g : Graph}

/-- The node was built before or has been laid. -/
def Inside (base : NodeId → Prop) (start : Nat) (_ : Unit) (g : Graph) (k : NodeId) : Prop :=
  base k ∨ start ≤ k ∧ k < g.nodes.size

theorem inside_mono {g' : Graph} (h : Laid fits base start g g') {k : NodeId}
    (inside : Inside base start () g k) : Inside base start () g' k :=
  inside.imp_right fun ⟨from_, below⟩ => ⟨from_, Nat.lt_of_lt_of_le below h.evolves.size⟩

theorem make (valid : (laying fits base start).Valid () g) (node : Node) (fit : fits node)
    (concrete : node.Concrete (Inside base start () g)) :
    (laying fits base start).After () g (Run.make node) (Inside base start) := by
  have later : Laid fits base start g (g.addNode node) := .add .refl fit concrete
  refine .read (.update (y := ()) later (.pure ?_ (.inr ?_)))
  · exact ⟨Nat.le_trans valid.1 later.evolves.size, valid.2⟩
  · rw [Graph.nodes_addNode, Array.size_push]
    exact ⟨valid.1, Nat.lt_succ_self _⟩

theorem pair (valid : (laying fits base start).Valid () g) {a b : NodeId} {kind : Kind}
    (binary : kind = .cat ∨ kind = .alt) (fit : ∀ {node : Node}, node.kind = kind → fits node)
    (first : Inside base start () g a) (second : Inside base start () g b) :
    (laying fits base start).After () g (Grammar.pair kind (.node a) (.node b))
      (Inside base start) := by
  refine make valid { kind, first := .node a, second := .node b } (fit rfl) ?_
  refine ⟨?_, fun side _ => ?_, fun side out => absurd (Node.mem_sides_of_pair binary side) out⟩
  · rcases binary with rfl | rfl <;> simp
  · cases side with
    | first => exact ⟨a, rfl, first⟩
    | second => exact ⟨b, rfl, second⟩

theorem single (valid : (laying fits base start).Valid () g) {a : NodeId} {kind : Kind}
    {transform : Transform} (unary : kind = .rep ∨ kind = .delta ∨ kind = .red)
    (fit : fits { kind, first := .node a, transform }) (first : Inside base start () g a) :
    (laying fits base start).After () g
      (Run.make { kind, first := .node a, transform }) (Inside base start) := by
  refine make valid _ fit ⟨?_, fun side member => ?_, fun side out => ?_⟩
  · rcases unary with rfl | rfl | rfl <;> simp
  · cases Node.eq_first_of_single unary member
    exact ⟨a, rfl, first⟩
  · cases Node.eq_second_of_single unary out
    rfl

theorem atom (valid : (laying fits base start).Valid () g) {node : Node} (fit : fits node)
    (atomic : node.kind.isAtomic) (bare : node.bare = node) :
    (laying fits base start).After () g (Run.make node) (Inside base start) := by
  refine make valid _ fit ⟨fun name other => ?_, fun side member => ?_, fun side _ => ?_⟩
  · rw [other] at atomic; cases atomic
  · rw [Node.sides_of_atomic atomic] at member; cases member
  · rw [← bare]; cases side <;> rfl

theorem cat (valid : (laying fits base start).Valid () g) {a b : NodeId}
    (fit : ∀ {node : Node}, node.kind = .cat → fits node)
    (first : Inside base start () g a) (second : Inside base start () g b) :
    (laying fits base start).After () g (Grammar.cat (.node a) (.node b)) (Inside base start) := by
  refine .reuse valid (fun n found => ?_) fun _ => pair valid (.inl rfl) fit first second
  obtain ⟨-, rfl⟩ | ⟨_, _, ⟨⟩, ⟨⟩, ⟨-, rfl⟩ | ⟨-, rfl⟩⟩ := Grammar.catShortcut_cases found
  · exact .inl valid.2.1
  · exact second
  · exact first

theorem alt (valid : (laying fits base start).Valid () g) {a b : NodeId}
    (fit : ∀ {node : Node}, node.kind = .alt → fits node)
    (first : Inside base start () g a) (second : Inside base start () g b) :
    (laying fits base start).After () g (Grammar.alt (.node a) (.node b)) (Inside base start) := by
  refine .reuse valid (fun n found => ?_) fun _ => pair valid (.inr rfl) fit first second
  obtain ⟨_, _, ⟨⟩, ⟨⟩, ⟨-, rfl⟩ | ⟨-, -, rfl⟩⟩ := Grammar.altShortcut_cases found
  · exact second
  · exact first

theorem combine {unit : NodeId} {join : Operand → Operand → Run NodeId} (unit_ : base unit)
    (rule : ∀ {g a b}, (laying fits base start).Valid () g → Inside base start () g a →
      Inside base start () g b →
      (laying fits base start).After () g (join (.node a) (.node b)) (Inside base start))
    (valid : (laying fits base start).Valid () g) {operands : List NodeId}
    (inside : ∀ k ∈ operands, Inside base start () g k) :
    (laying fits base start).After () g (Grammar.combine unit join (operands.map .node))
      (Inside base start) := by
  have fold {operands : List NodeId} : ∀ {g n}, (laying fits base start).Valid () g →
      Inside base start () g n → (∀ k ∈ operands, Inside base start () g k) →
      (laying fits base start).After () g
        ((operands.map Operand.node).foldlM (fun n operand => join (.node n) operand) n)
        (Inside base start) := by
    induction operands with
    | nil => exact fun valid hn _ => .pure valid hn
    | cons k operands ih =>
      intro g n valid hn inside
      rw [List.map_cons, List.foldlM_cons]
      refine .bind (rule valid hn (inside k List.mem_cons_self)) fun _ g' m later valid' hm => ?_
      exact ih valid' hm fun j member => inside_mono later (inside j (List.mem_cons_of_mem _ member))
  match operands with
  | [] => exact .pure valid (.inl unit_)
  | [n] => exact .pure valid (inside n List.mem_cons_self)
  | a :: b :: rest =>
    refine .bind (rule valid (inside a (by simp)) (inside b (by simp))) fun _ g' n later valid' hn => ?_
    exact fold valid' hn fun k member => inside_mono later (inside k (by simp [member]))

end Laid

namespace Construction

variable {base : NodeId → Prop} {g g' : Graph} {n : NodeId}

theorem run_after (c : Construction) (start : Nat) (valid : (laying c.Fits base start).Valid () g)
    (built : ∀ k ∈ c.operands, base k) :
    (laying c.Fits base start).After () g c.run (Laid.Inside base start) := by
  have plain {node : Node} (hp : node.kind ≠ .placeholder) (hs : node.kind ≠ .empty)
      (he : node.kind ≠ .eps) (hr : node.kind ≠ .red) : c.Fits node :=
    ⟨hp, hs, fun h => absurd h he, fun h => absurd h hr⟩
  cases c with
  | char symbol => exact Laid.atom valid (plain (by simp) (by simp) (by simp) (by simp)) rfl rfl
  | eps ws =>
    refine .given valid fun forest given => ?_
    split
    · exact .pure valid (.inl valid.2.2)
    · exact Laid.atom valid ⟨Kind.noConfusion, Kind.noConfusion, fun _ => ⟨ws, rfl, given⟩,
        fun h => by cases h⟩ rfl rfl
  | cat ns =>
    exact Laid.combine valid.2.2 (fun valid => Laid.cat valid fun hk =>
        plain (by simp [hk]) (by simp [hk]) (by simp [hk]) (by simp [hk])) valid
      fun k member => .inl (built k member)
  | alt ns =>
    exact Laid.combine valid.2.1 (fun valid => Laid.alt valid fun hk =>
        plain (by simp [hk]) (by simp [hk]) (by simp [hk]) (by simp [hk])) valid
      fun k member => .inl (built k member)
  | rep a =>
    have inside : Laid.Inside base start () g a := .inl (built a (List.mem_singleton_self a))
    refine .reuse valid (fun n found => ?_) fun _ =>
      Laid.single valid (.inl rfl) (plain (by simp) (by simp) (by simp) (by simp)) inside
    obtain ⟨-, rfl⟩ | ⟨⟨⟩, -⟩ := Grammar.repShortcut_cases found
    · exact .inl valid.2.2
    · exact inside
  | delta a =>
    have inside : Laid.Inside base start () g a := .inl (built a (List.mem_singleton_self a))
    refine .reuse valid (fun n found => ?_) fun _ =>
      Laid.single valid (.inr (.inl rfl)) (plain (by simp) (by simp) (by simp) (by simp)) inside
    obtain ⟨-, rfl⟩ | ⟨⟨⟩, -⟩ := Grammar.deltaShortcut_cases found
    · exact .inl valid.2.1
    · exact inside
  | red a transform =>
    have inside : Laid.Inside base start () g a := .inl (built a (List.mem_singleton_self a))
    refine .reuse valid (fun n found => ?_) fun _ => Laid.single valid (.inr (.inr rfl))
      ⟨Kind.noConfusion, Kind.noConfusion, fun h => (nomatch h), fun _ => ⟨a, rfl⟩⟩ inside
    obtain ⟨-, rfl⟩ := Grammar.redShortcut_cases found
    exact .inl valid.2.1

/-- A constructor adds concrete nodes and gives one that is built. -/
theorem laid (c : Construction) (empty : base .empty) (eps : base .eps)
    (built : ∀ k ∈ c.operands, base k) (ends : c.run g = some (.ok n, g')) :
    Laid c.Fits base g.nodes.size g g' ∧ Laid.Inside base g.nodes.size () g' n := by
  obtain ⟨_, later, _, inside⟩ :=
    c.run_after g.nodes.size ⟨Nat.le_refl _, empty, eps⟩ built _ _ ends
  exact ⟨later, inside n rfl⟩

end Construction

end GrammarGraph
