import Mathlib.Algebra.Order.BigOperators.Group.Finset
import GrammarGraph.Proofs.Reach
import GrammarGraph.Proofs.Termination

/-! Finite grammars stay finite. A node is compacted to one node, so what is compacted has no more
nodes than before. It has one derivative by a symbol, with at most four nodes of its own; all else
that can be reached from there was there before, or belongs to the derivatives of other nodes. -/
namespace GrammarGraph

open Relation (ReflTransGen)

namespace Graph

variable {g : Graph} {n m k d : NodeId} {c : Value} {P : Value → Prop} {S T : Finset NodeId}

theorem Passes.child (h : g.Passes n k) : g.Child n k := by
  cases h with
  | first kind first second _ => exact .of_pair (.inr kind) .first first
  | second kind first second _ => exact .of_pair (.inr kind) .second second

/-- What is below a compacted node is what nodes below the other are compacted to. -/
theorem Rewrites.child (empty : (g.node .empty).kind = .empty) (h : g.Rewrites n m)
    (child : g.Child m k) : ∃ j, ReflTransGen g.Child n j ∧ g.Settled (.compacted j) k := by
  have settled {j : NodeId} {y : Slot} (awaited : g.Awaits j y) (slot : y = .node k) :
      g.Settled (.compacted j) k := by
    rw [slot] at awaited
    exact awaited
  induction h with
  | itself kind =>
    refine absurd child (Child.not_atomic ?_)
    rcases kind with kind | kind | kind <;> rw [kind] <;> rfl
  | nothing => exact absurd child (Child.not_atomic (by rw [empty]; rfl))
  | settled kind => exact absurd child (Child.not_atomic (by rw [kind]; rfl))
  | rep kind slot kind' awaited =>
    exact ⟨_, .single (.of_single (.inl kind) slot), settled awaited (child.single (.inl kind'))⟩
  | alt kind first second kind' awaited awaited' =>
    rcases child.either with slot | slot
    · exact ⟨_, .single (.of_pair (.inr kind) .first first), settled awaited slot⟩
    · exact ⟨_, .single (.of_pair (.inr kind) .second second), settled awaited' slot⟩
  | passes passes _ ih =>
    obtain ⟨j, path, given⟩ := ih child
    exact ⟨j, .head passes.child path, given⟩
  | cat kind first second kind' awaited awaited' =>
    rcases child.either with slot | slot
    · exact ⟨_, .single (.of_pair (.inl kind) .first first), settled awaited slot⟩
    · exact ⟨_, .single (.of_pair (.inl kind) .second second), settled awaited' slot⟩
  | head kind first second kind' _ awaited =>
    exact ⟨_, .single (.of_pair (.inl kind) .second second),
      settled awaited (child.single (.inr (.inr kind')))⟩
  | tail kind first second kind' _ awaited =>
    exact ⟨_, .single (.of_pair (.inl kind) .first first),
      settled awaited (child.single (.inr (.inr kind')))⟩
  | red kind slot kind' _ awaited =>
    exact ⟨_, .single (.of_single (.inr (.inr kind)) slot),
      settled awaited (child.single (.inr (.inr kind')))⟩
  | nested kind slot inner slot' kind' _ awaited =>
    exact ⟨_, .head (.of_single (.inr (.inr kind)) slot) (.single (.of_single (.inr (.inr inner)) slot')),
      settled awaited (child.single (.inr (.inr kind')))⟩
  | headed kind slot inner first second kind' _ awaited =>
    exact ⟨_, .head (.of_single (.inr (.inr kind)) slot)
      (.single (.of_pair (.inl inner) .second second)),
      settled awaited (child.single (.inr (.inr kind')))⟩

/-- Distinct nodes below a compacted node are what distinct nodes below the other became. -/
theorem Spans.card_compacted (hS : g.Spans n S) (hT : g.Spans m T)
    (empty : (g.node .empty).kind = .empty) (given : g.Settled (.compacted n) m)
    (rewrites : ∀ {k m}, g.Settled (.compacted k) m → g.Rewrites k m) : T.card ≤ S.card := by
  have source : ∀ k ∈ T, ∃ j ∈ S, g.Settled (.compacted j) k :=
    hT.forall_of_step ⟨n, hS.root, given⟩ fun ⟨j, member, given⟩ child => by
      obtain ⟨o, path, given'⟩ := (rewrites given).child empty child
      exact ⟨o, hS.mem_of_reached member path, given'⟩
  have images : T ⊆ S.image fun j => (g.compacted.stored.get? j).getD .empty := by
    intro k member
    obtain ⟨j, there, _, stored⟩ := source k member
    exact Finset.mem_image.mpr ⟨j, there, by rw [stored]; rfl⟩
  exact (Finset.card_le_card images).trans Finset.card_image_le

/-- The nodes `F` are made for the derivative of `n`. From them lead slots to one another, to what
was below `n`, and to the derivatives of its children. -/
def Parts (g : Graph) (c : Value) (n : NodeId) (F : Finset NodeId) : Prop :=
  ∀ k ∈ F, ∀ j, g.Child k j → j ∈ F ∨ ReflTransGen g.Child n j ∨
    ∃ i, g.Child n i ∧ g.derivatives.find? i c = some j

theorem Promises.parts {side : Side} {y : Slot} (h : Promises P g c n side y) (slot : y = .node k)
    (member : side ∈ (g.node n).sides) :
    ∃ i, g.Child n i ∧ g.derivatives.find? i c = some k := by
  rw [slot] at h
  obtain ⟨i, there, found⟩ := h
  exact ⟨i, ⟨side, member, there⟩, found⟩

theorem not_child_of_eq_empty {j : NodeId} (empty : (g.node .empty).kind = .empty)
    (same : k = .empty) : ¬ g.Child k j := by
  subst same
  exact Child.not_atomic (by rw [empty]; rfl)

theorem Vanishes.child {a v j : NodeId} (empty : (g.node .empty).kind = .empty)
    (h : g.Vanishes a v) (child : g.Child v j) : j = a := by
  cases h with
  | nothing _ same => exact absurd child (not_child_of_eq_empty empty same)
  | itself kind same =>
    subst same
    exact absurd child (Child.not_atomic (by rw [kind]; rfl))
  | delta kind slot =>
    exact Slot.node.inj ((child.single (.inr (.inl kind))).symm.trans slot)

theorem Skips.child {v j : NodeId} (empty : (g.node .empty).kind = .empty)
    (pair : ∀ side, side ∈ (g.node n).sides) (h : Skips P g c n v k) (child : g.Child k j) :
    j = v ∨ ∃ i, g.Child n i ∧ g.derivatives.find? i c = some j := by
  cases h with
  | nothing _ same => exact absurd child (not_child_of_eq_empty empty same)
  | cat _ slot promised =>
    rcases child.either with slot' | slot'
    · exact .inl (Slot.node.inj (slot'.symm.trans slot))
    · exact .inr (promised.parts slot' (pair .second))

theorem Takes.child {b j : NodeId} (empty : (g.node .empty).kind = .empty)
    (pair : ∀ side, side ∈ (g.node n).sides) (h : Takes P g c n b k) (child : g.Child k j) :
    j = b ∨ ∃ i, g.Child n i ∧ g.derivatives.find? i c = some j := by
  cases h with
  | nothing _ same => exact absurd child (not_child_of_eq_empty empty same)
  | cat _ promised slot =>
    rcases child.either with slot' | slot'
    · exact .inr (promised.parts slot' (pair .first))
    · exact .inl (Slot.node.inj (slot'.symm.trans slot))

theorem Joins.child {a b j : NodeId} (h : g.Joins a b d) (child : g.Child d j) :
    j = a ∨ j = b ∨ g.Child a j ∨ g.Child b j := by
  cases h with
  | second _ same => exact .inr (.inr (.inr (same ▸ child)))
  | first _ same => exact .inr (.inr (.inl (same ▸ child)))
  | alt _ left right =>
    rcases child.either with slot | slot
    · exact .inl (Slot.node.inj (slot.symm.trans left))
    · exact .inr (.inl (Slot.node.inj (slot.symm.trans right)))

theorem Derivative.parts (empty : (g.node .empty).kind = .empty) (h : Derivative P g c n d) :
    ∃ F : Finset NodeId, F.card ≤ 4 ∧ d ∈ F ∧ g.Parts c n F := by
  have one (below : ∀ j, g.Child d j → ReflTransGen g.Child n j ∨
      ∃ i, g.Child n i ∧ g.derivatives.find? i c = some j) :
      ∃ F : Finset NodeId, F.card ≤ 4 ∧ d ∈ F ∧ g.Parts c n F := by
    refine ⟨{d}, by simp, Finset.mem_singleton_self d, fun k member j child => .inr (below j ?_)⟩
    rwa [← Finset.mem_singleton.mp member]
  cases h with
  | nothing _ same => exact one fun j child => absurd child (not_child_of_eq_empty empty same)
  | mismatch _ _ same => exact one fun j child => absurd child (not_child_of_eq_empty empty same)
  | taken _ _ kind _ _ _ =>
    exact one fun j child => absurd child (Child.not_atomic (by rw [kind]; rfl))
  | alt kind kind' promised =>
    refine one fun j ⟨side, _, slot⟩ => .inr ?_
    exact (promised side).parts slot (Node.mem_sides_of_pair (.inr kind) side)
  | rep kind kind' promised second =>
    refine one fun j child => ?_
    rcases child.either with slot | slot
    · exact .inr (promised.parts slot (Node.mem_sides_of_single (.inl kind)))
    · obtain rfl := Slot.node.inj (second.symm.trans slot)
      exact .inl .refl
  | red kind kind' _ promised =>
    have single : .first ∈ (g.node n).sides := Node.mem_sides_of_single (.inr (.inr kind))
    exact one fun j child => .inr (promised.parts (child.single (.inr (.inr kind'))) single)
  | @cat a b v skip take kind first second vanishes skips takes joins =>
    have pair : ∀ side, side ∈ (g.node n).sides := Node.mem_sides_of_pair (.inl kind)
    have reached (side : Side) {k : NodeId} (slot : (g.node n).slot side = .node k) :
        ReflTransGen g.Child n k := .single ⟨side, pair side, slot⟩
    refine ⟨{v, skip, take, d}, Finset.card_le_four, by simp, fun k member j child => ?_⟩
    simp only [Finset.mem_insert, Finset.mem_singleton] at member ⊢
    have ofSkip (child : g.Child skip j) := skips.child empty pair child
    have ofTake (child : g.Child take j) : ReflTransGen g.Child n j ∨ ∃ i, g.Child n i ∧
        g.derivatives.find? i c = some j :=
      (takes.child empty pair child).imp_left fun same => by
        rw [same]
        exact reached .second second
    rcases member with rfl | rfl | rfl | rfl
    · obtain rfl := vanishes.child empty child
      exact .inr (.inl (reached .first first))
    · exact (ofSkip child).imp .inl .inr
    · exact .inr (ofTake child)
    · rcases joins.child child with same | same | child | child
      · exact .inl (.inr (.inl same))
      · exact .inl (.inr (.inr (.inl same)))
      · exact (ofSkip child).imp .inl .inr
      · exact .inr (ofTake child)

/-- What is below a derivative was below the node already, or is part of the derivative of one of the
nodes there. -/
theorem Spans.card_derivative (hS : g.Spans n S) (hT : g.Spans d T)
    (empty : (g.node .empty).kind = .empty) (found : g.derivatives.find? n c = some d)
    (derivative : ∀ {k d}, g.derivatives.find? k c = some d → Derivative P g c k d) :
    T.card ≤ 5 * S.card := by
  classical
  have parts (k : NodeId) : ∃ F : Finset NodeId, F.card ≤ 4 ∧ g.Parts c k F ∧
      ∀ d, g.derivatives.find? k c = some d → d ∈ F := by
    cases known : g.derivatives.find? k c with
    | none => exact ⟨∅, Nat.zero_le 4, fun j none => absurd none (Finset.notMem_empty j), nofun⟩
    | some d =>
      obtain ⟨F, card, member, parts⟩ := (derivative known).parts empty
      exact ⟨F, card, parts, fun d' same => Option.some.inj same ▸ member⟩
  choose F card parts derived using parts
  have within : T ⊆ S ∪ S.biUnion F := by
    refine hT.forall_of_step ?_ fun {k j} member child => ?_
    · exact Finset.mem_union_right S (Finset.mem_biUnion.mpr ⟨n, hS.root, derived n d found⟩)
    · rcases Finset.mem_union.mp member with member | member
      · exact Finset.mem_union_left _ (hS.mem_of_child member child)
      · obtain ⟨o, there, member⟩ := Finset.mem_biUnion.mp member
        rcases parts o k member j child with own | path | ⟨i, child, found⟩
        · exact Finset.mem_union_right S (Finset.mem_biUnion.mpr ⟨o, there, own⟩)
        · exact Finset.mem_union_left _ (hS.mem_of_reached there path)
        · exact Finset.mem_union_right S (Finset.mem_biUnion.mpr
            ⟨i, hS.mem_of_child there child, derived i j found⟩)
  calc T.card ≤ (S ∪ S.biUnion F).card := Finset.card_le_card within
    _ ≤ S.card + (S.biUnion F).card := Finset.card_union_le S _
    _ ≤ S.card + S.card * 4 :=
      Nat.add_le_add_left (Finset.card_biUnion_le_card_mul S F 4 fun k _ => card k) _
    _ = 5 * S.card := by omega

end Graph

open RunOf (Gives)

/-- What `r` gives has at most `factor` times as many nodes as `n`, whichever is counted first. -/
def Graph.GrowsBy (factor : Nat) (g : Graph) (n : NodeId) (r : Ask → Run NodeId) : Prop :=
  (∃ more count g', Gives (fun ask => do
      let k ← r ask
      let more ← ask.nodeCount k
      return (more, ← ask.nodeCount n)) g (more, count) g' ∧ more ≤ factor * count) ∧
  ∃ more count g', Gives (fun ask => do
      let count ← ask.nodeCount n
      let k ← r ask
      return (← ask.nodeCount k, count)) g (more, count) g' ∧ more ≤ factor * count

namespace Census.Rested

variable {C : Finset Value} {roots : Finset NodeId} {x : Census} {g : Graph} {n : NodeId} {c : Value}

theorem empty (h : Rested C roots x g) : (g.node .empty).kind = .empty :=
  h.valid.counted.formed.empty

/-- What is known of the node that is given bounds its nodes, and stays known. -/
theorem growsBy {factor : Nat} {r : Ask → Run NodeId} (known : Graph → NodeId → Prop)
    (stable : ∀ {g g' : Graph} {k}, g.Extends g' → known g k → known g' k)
    (bound : ∀ {x g k S T}, Rested C roots x g → known g k → g.Spans n S → g.Spans k T →
      T.card ≤ factor * S.card)
    (runs : ∀ {x g}, Rested C roots x g → n < g.nodes.size →
      (resting C roots).Ends x g r fun _ g' k => k < g'.nodes.size ∧ known g' k)
    (h : Rested C roots x g) (lt : n < g.nodes.size) : g.GrowsBy factor n r := by
  constructor
  · have run : (resting C roots).Ends x g (fun ask => do
        let k ← r ask
        let more ← ask.nodeCount k
        return (more, ← ask.nodeCount n)) fun _ _ counts => counts.1 ≤ factor * counts.2 := by
      refine .bind (runs h lt) ?_
      rintro x₁ g₁ k later₁ h₁ ⟨klt, given⟩
      refine .bind (Rested.nodeCount h₁ klt) ?_
      rintro x₂ g₂ _ later₂ h₂ ⟨T, hT, rfl⟩
      refine .bind (Rested.nodeCount h₂ (Later.lt (Later.trans later₁ later₂) lt)) ?_
      rintro x₃ g₃ _ later₃ h₃ ⟨S, hS, rfl⟩
      exact .pure h₃ (bound h₃ (stable (Later.extends_ (Later.trans later₂ later₃)) given) hS
        (hT.evolves (Later.evolves later₃)))
    obtain ⟨⟨more, count⟩, g', gives, _, _, _, bounded⟩ := run
    exact ⟨more, count, g', gives, bounded⟩
  · have run : (resting C roots).Ends x g (fun ask => do
        let count ← ask.nodeCount n
        let k ← r ask
        return (← ask.nodeCount k, count)) fun _ _ counts => counts.1 ≤ factor * counts.2 := by
      refine .bind (h.nodeCount lt) ?_
      rintro x₁ g₁ _ later₁ h₁ ⟨S, hS, rfl⟩
      refine .bind (runs h₁ (Later.lt later₁ lt)) ?_
      rintro x₂ g₂ k later₂ h₂ ⟨klt, given⟩
      refine .bind (Rested.nodeCount h₂ klt) ?_
      rintro x₃ g₃ _ later₃ h₃ ⟨T, hT, rfl⟩
      exact .pure h₃ (bound h₃ (stable (Later.extends_ later₃) given)
        (hS.evolves (Later.evolves (Later.trans later₂ later₃))) hT)
    obtain ⟨⟨more, count⟩, g', gives, _, _, _, bounded⟩ := run
    exact ⟨more, count, g', gives, bounded⟩

theorem derive_grows (h : Rested C roots x g) (lt : n < g.nodes.size) (hashable : c.hashable = true)
    (counts : c.numeric ∈ C) : g.GrowsBy 5 n fun ask => ask.derive c n := by
  refine growsBy (fun g d => g.derivatives.find? n c = some d)
    (fun grown found => grown.memo found) (fun {x g d S T} h found hS hT => ?_)
    (fun {x g} h lt => ?_) h lt
  · exact hS.card_derivative hT h.empty found fun known =>
      (h.valid.counted.derivatives known).2.2.2
  · refine .imp (.gives (h.derive lt hashable counts)) ?_
    exact fun x' g' d _ _ ⟨gives, dlt, _⟩ => ⟨dlt, gives.derived⟩

theorem compact_grows (h : Rested C roots x g) (lt : n < g.nodes.size) :
    g.GrowsBy 1 n fun ask => ask.compact n := by
  refine growsBy (fun g m => g.Settled (.compacted n) m)
    (fun grown given => grown.settled given) (fun {x g m S T} h given hS hT => ?_)
    (fun {x g} h lt => ?_) h lt
  · rw [Nat.one_mul]
    exact hS.card_compacted hT h.empty given fun given =>
      (h.valid.counted.results .compact (.inl given.2)).2.2.2.2
  · refine .imp (h.evaluate .compact lt) ?_
    exact fun x' g' m later h' ⟨fits, stored⟩ => ⟨fits.1, h'.valid.complete n (Later.lt later lt), stored⟩

end Census.Rested

namespace Bench

variable {b : Bench} {n : NodeId} {c : Value}

/-- Whatever was built by constructors with total transforms and by definitions, and whatever was
asked before: a derivative has at most five times as many nodes, and what is compacted has no more
nodes than before. -/
theorem growth_bounded (composed : b.Composed Construction.Total fun b c =>
      b.opened = [] ∧ c.By fun s => s.hashable = true)
    (complete : b.opened = []) (hashable : c.hashable = true) (lt : n < b.graph.nodes.size) :
    b.graph.GrowsBy 5 n (fun ask => ask.derive c n) ∧
      b.graph.GrowsBy 1 n fun ask => ask.compact n := by
  obtain ⟨C, roots, x, rested, _, counts⟩ :=
    composed.rested (c := .query (.derive c n)) (fun _ _ allowed => allowed.1) complete hashable
  exact ⟨rested.derive_grows lt hashable counts, rested.compact_grows lt⟩

theorem growth_bounded_nested : nested.Composed Construction.Total (fun b c =>
      b.opened = [] ∧ c.By fun s => s.hashable = true) ∧ nested.opened = [] ∧
    (Value.int 1).hashable = true ∧ 2 < nested.graph.nodes.size ∧
    nested.graph.GrowsBy 5 2 (fun ask => ask.derive (.int 1) 2) ∧
    nested.graph.GrowsBy 1 2 fun ask => ask.compact 2 := by
  have composed := nested_composed fun b c => b.opened = [] ∧ c.By fun s => s.hashable = true
  exact ⟨composed, rfl, rfl, by decide, growth_bounded composed rfl rfl (by decide)⟩

end Bench

end GrammarGraph
