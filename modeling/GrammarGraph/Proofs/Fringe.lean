import GrammarGraph.Proofs.Census.Building

/-! The fringe of a parse. In a grammar without reductions the leaves of every witness, from the
left, are the leaves of the symbols taken: pairs keep all leaves in order, also where compaction
moved what was taken into functions that attach it later. -/
namespace GrammarGraph

namespace Value

@[simp] theorem leavesAll_append (us vs : List Value) :
    leavesAll (us ++ vs) = leavesAll us ++ leavesAll vs := by
  induction us with
  | nil => rfl
  | cons u us ih => rw [List.cons_append, leavesAll, leavesAll, ih, List.append_assoc]

mutual

theorem leaves_numeric : ∀ v : Value, v.numeric.leaves = v.leaves.map numeric := by
  intro v
  cases v <;> simp [numeric, leaves, leavesAll_numericAll]

theorem leavesAll_numericAll : ∀ vs : List Value,
    leavesAll (numericAll vs) = (leavesAll vs).map numeric := by
  intro vs
  cases vs <;> simp [numericAll, leavesAll, leaves_numeric, leavesAll_numericAll]

end

theorem leaves_alike {v w : Value} (h : v.same w = true) : Alike v.leaves w.leaves := by
  rw [Alike, ← leaves_numeric, ← leaves_numeric, (same_iff v w).mp h]

end Value

namespace Forest

theorem leaves_collapse (w : Value) : (collapse w).leaves = w.leaves := by
  unfold collapse
  split
  · simp [Value.leaves, Value.leavesAll]
  · rfl

theorem leavesAll_share (w : Value) : Value.leavesAll (share w) = w.leaves := by
  unfold share
  split
  · next none => rw [(Value.isNothing_iff w).mp none]; rfl
  · simp [Value.leavesAll, leaves_collapse]

/-- A pair has the leaves of its parts, and in their order. -/
theorem leaves_cons (u v : Value) : (cons u v).leaves = u.leaves ++ v.leaves := by
  simp [cons, Value.leaves, leavesAll_share]

end Forest

theorem Alike.append {s s' t t' : List Value} (h : Alike s s') (h' : Alike t t') :
    Alike (s ++ t) (s' ++ t') := by
  rw [Alike, List.map_append, List.map_append, h, h']

theorem Alike.trans {s t u : List Value} (h : Alike s t) (k : Alike t u) : Alike s u :=
  Eq.trans h k

/-- The leaves of the symbols of a sentence, one symbol after the other. -/
abbrev fringe (s : List Value) : List Value :=
  s.flatMap Value.leaves

/-- Sentences that are equal symbol by symbol have equal leaves. -/
theorem Alike.fringe {s t : List Value} (h : Alike s t) :
    Alike (GrammarGraph.fringe s) (GrammarGraph.fringe t) := by
  induction s generalizing t with
  | nil =>
    obtain rfl : t = [] := by simpa [Alike, eq_comm] using h
    rfl
  | cons c s ih =>
    obtain ⟨d, t, rfl, same, rest⟩ := List.map_eq_cons_iff.mp (Eq.symm h)
    exact (Value.leaves_alike ((Value.same_iff c d).mpr same.symm)).append (ih rest.symm)

/-- A node that neither has witnesses of its own nor changes those of others. -/
structure Node.Free (node : Node) : Prop where
  red : node.kind ≠ .red
  eps : node.kind = .eps → node.witnesses = Forest.trivial

def Construction.Free : Construction → Prop
  | .red _ _ => False
  | .eps ws => ws = Forest.trivial
  | _ => True

theorem Construction.Free.node {c : Construction} (free : c.Free) {node : Node}
    (fit : c.Fits node) : node.Free where
  red kind := by
    obtain ⟨n, rfl⟩ := fit.red kind
    exact free
  eps kind := by
    obtain ⟨ws, rfl, given⟩ := fit.eps kind
    obtain rfl : ws = Forest.trivial := free
    exact (Forest.ofWitnesses_ok.mp given).2

theorem Construction.Free.total {c : Construction} (free : c.Free) : c.Total := by
  cases c with
  | red => exact free.elim
  | _ => trivial

/-- Where every node that can be reached is free, a derivation neither loses nor doubles a leaf,
and it keeps their order. -/
theorem Derives.fringe {look : NodeId → Node} {built : NodeId → Prop}
    (concrete : ∀ n, built n → (look n).Concrete built) (free : ∀ n, built n → (look n).Free)
    {n : NodeId} {s : List Value} {w : Value} (h : Derives .witness look n s w) (made : built n) :
    Alike w.leaves (GrammarGraph.fringe s) := by
  have child {n k : NodeId} {side : Side} (made : built n) (member : side ∈ (look n).sides)
      (slot : (look n).slot side = .node k) : built k := by
    obtain ⟨_, slot', made'⟩ := (concrete n made).child side member
    cases slot.symm.trans slot'
    exact made'
  have pair {u v : Value} {s t : List Value} (hu : Alike u.leaves (GrammarGraph.fringe s))
      (hv : Alike v.leaves (GrammarGraph.fringe t)) :
      Alike (Forest.cons u v).leaves (GrammarGraph.fringe (s ++ t)) := by
    rw [Forest.leaves_cons, GrammarGraph.fringe, List.flatMap_append]
    exact hu.append hv
  induction h with
  | eps kind member =>
    have member : _ ∈ (look _).witnesses := member
    rw [(free _ made).eps kind, List.mem_singleton] at member
    rw [member]
    rfl
  | char _ _ same =>
    rw [GrammarGraph.fringe, List.flatMap_singleton]
    exact Value.leaves_alike (Value.same_symm same)
  | alt side kind slot _ ih =>
    exact ih (child made (Node.mem_sides_of_pair (.inr kind) side) slot)
  | cat kind first second _ _ iha ihb =>
    have member := Node.mem_sides_of_pair (.inl kind)
    exact pair (iha (child made (member .first) first)) (ihb (child made (member .second) second))
  | repNone => rfl
  | repMore kind slot _ _ ih ihn =>
    exact pair (ih (child made (Node.mem_sides_of_single (.inl kind)) slot)) (ihn made)
  | delta kind slot _ ih =>
    exact ih (child made (Node.mem_sides_of_single (.inr (.inl kind))) slot)
  | red kind => exact absurd kind (free _ made).red

namespace Bench

open RunOf (Gives)

variable {b : Bench} {n : NodeId} {permitted : Bench → Call → Prop}

/-- Every witness of a parse is that of a derivation of the sentence. -/
theorem Reached.derives_of_parse {ω : Type} {A : Worth ω} {embed : Value → ω}
    (embeds : A.Embeds embed) (reached : b.Reached permitted) (built : b.built n) {bound : Nat}
    {compaction : Bool} {symbols : List Value} {answer : Forest × Nat} {g : Graph}
    (ends : Parse.parse (Engine.run bound) compaction symbols n b.graph = some (.ok answer, g)) :
    ∀ w ∈ answer.1, ∃ t, Alike t symbols ∧ Derives A b.graph.node n t (embed w) := by
  intro w member
  have tended := reached.tended embeds
  obtain ⟨_, sound⟩ := tended.now
  obtain ⟨_, _, _, given⟩ :=
    Ask.Honest.parse (Engine.run_honest embeds bound) sound (tended.lt built) compaction symbols
      _ _ ends
  have hw := given _ rfl w member
  rwa [Meaning.following, List.append_nil, sound.denotes built] at hw

theorem Composed.free (h : b.Composed Construction.Free permitted) :
    ∀ n, b.built n → (b.graph.node n).Free := by
  refine h.contents (fun k atom => ?_) ⟨Kind.noConfusion, fun kind => (nomatch kind)⟩
    fun free fit => free.node fit
  rw [Graph.node_initial]
  rcases atom with rfl | rfl
  · exact ⟨Kind.noConfusion, fun kind => (nomatch kind)⟩
  · exact ⟨Kind.noConfusion, fun _ => rfl⟩

/-- The leaves of every witness of a parse are the leaves of the symbols: none is lost, doubled or
moved, with compaction and without. -/
theorem parse_fringe (composed : b.Composed Construction.Free fun b _ => b.opened = [])
    (complete : b.opened = []) (built : b.built n) (compaction : Bool) {symbols : List Value}
    (hashable : ∀ c ∈ symbols, c.hashable = true) :
    ∃ answer g, Gives (fun ask => Parse.parse ask compaction symbols n) b.graph answer g ∧
      ∀ w ∈ answer.1, Alike w.leaves (fringe symbols) := by
  have total : b.Composed Construction.Total fun b _ => b.opened = [] :=
    composed.mono fun _ free => free.total
  obtain ⟨C, roots, x, rested, takes⟩ := total.rested (fun _ _ closed => closed) complete
    (c := .parse compaction symbols n) hashable
  obtain ⟨answer, g, gives, -⟩ := rested.parse (composed.lt built) compaction takes
  obtain ⟨least, ends⟩ := id gives
  refine ⟨answer, g, gives, fun w member => ?_⟩
  obtain ⟨t, alike, derives⟩ := composed.reached.derives_of_parse Worth.witness_embeds built
    (ends least (Nat.le_refl _)) w member
  exact (derives.fringe (fun _ => composed.concrete) composed.free built).trans alike.fringe

/-- Two ones are taken, and both are in the witness. -/
theorem parse_fringe_ones : ones.Composed Construction.Free (fun b _ => b.opened = []) ∧
    ones.opened = [] ∧ ones.built 2 ∧ (∀ c ∈ [Value.int 1, .int 1], c.hashable = true) ∧
    ∃ answer g, Gives (fun ask => Parse.parse ask true [.int 1, .int 1] 2) ones.graph answer g ∧
      answer.1 ≠ [] ∧ ∀ w ∈ answer.1, Alike w.leaves [.int 1, .int 1] := by
  have composed : ones.Composed Construction.Free fun b _ => b.opened = [] :=
    ones_composed _ trivial trivial trivial
  have hashable : ∀ c ∈ [Value.int 1, .int 1], c.hashable = true := by simp [Value.hashable]
  obtain ⟨answer, g, gives, leaves⟩ := parse_fringe composed rfl ones_built true hashable
  refine ⟨composed, rfl, ones_built, hashable, answer, g, gives, ?_, leaves⟩
  have some_ : (Parse.parse (Engine.run 14) true [.int 1, .int 1] 2 ones.graph).any
      (fun r => r.1.toOption.any fun a => !a.1.isEmpty) = true := by decide +kernel
  obtain ⟨end_, ends, some_⟩ := (Option.any_eq_true _ _).mp some_
  cases gives.unique (fun below => below.parse true [.int 1, .int 1] 2) ends
  obtain ⟨ws, consumed⟩ := answer
  rintro (rfl : ws = [])
  cases some_

end Bench

end GrammarGraph
