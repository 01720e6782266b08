import GrammarGraph.Proofs.Boolless
import GrammarGraph.Proofs.Gauge.Turns
import GrammarGraph.Proofs.Tree

/-! Nodes stand for trees, and the evaluators give what the functions on trees give. Only
derivatives by symbols without truth values are looked at: one symbol of several that are
equal has left its mark on a derivative that is found again. -/
namespace GrammarGraph

/-- What the node makes of the trees in its slots. -/
def Node.tree (node : Node) (part : Side → Tree) : Tree :=
  match node.kind with
  | .eps => .eps node.witnesses
  | .char => .char node.symbol
  | .cat => .cat (part .first) (part .second)
  | .alt => .alt (part .first) (part .second)
  | .rep => .rep (part .first)
  | .delta => .delta (part .first)
  | .red => .red (part .first) node.transform
  | _ => .empty

def trees : Sense Tree where
  node := Node.tree
  after := Tree.derive
  compacted := Tree.compact
  agrees
    | .forest, e, ws => ws = e.forest
    | .nullable, e, v => v = e.nullable
    | .emptyLike, e, v => v = e.emptyLike
    | .epsLike, e, v => v = e.epsLike
    | .compact, _, _ => True
  proper := Tree.Proper fun v => v.hashable = true
  grants ws := (∀ w ∈ ws, w.hashable = true) ∧ Forest.Distinct ws
  takes c := c.hashable = true ∧ c.boolless = true
  nothing := .empty
  node_bare same := by
    simp only [Node.tree, Node.kind_of_bare same, Node.symbol_of_bare same,
      Node.witnesses_of_bare same, Node.transform_of_bare same]
  node_empty empty := by
    simp only [Node.tree, empty]
  after_nothing _ := rfl
  compacted_nothing := rfl
  after_congr takes takes' same _ := by rw [Value.eq_of_same takes.2 takes'.2 same]
  proper_nothing := trivial
  proper_node eps red proper := by
    unfold Node.tree
    split
    · next kind => exact eps kind
    · trivial
    · exact ⟨proper .first, proper .second⟩
    · exact ⟨proper .first, proper .second⟩
    · exact proper .first
    · exact proper .first
    · next kind => exact ⟨proper .first, red kind⟩
    · trivial
  proper_after takes proper := proper.derive takes.1
  proper_compacted proper := proper.compact Forest.hashable_closed
  grants_trivial := ⟨Forest.hashable_trivial, List.pairwise_singleton _ _⟩
  hashable_takes takes := takes.1
  hashable_forest proper agrees := agrees ▸ proper.forest Forest.hashable_closed

namespace Gauge.Turn

variable {x : Gauge Tree} {g : Graph} {v : Nat} {c : Value} {n k : NodeId} {w : Weight Tree}
  (t : Turn trees v x g n) (lower : Answers trees v)
include t lower

theorem tree_nullable : (weighing trees).Ends x g (fun ask => Emptiness.nullable ask n)
    fun _ _ r => r = (x (.node n)).sense.nullable := by
  refine .read (p := fun g => (g.node n).kind) ?_
  have sense {kind : Kind} (hk : (g.node n).kind = kind) := t.sense_of_kind hk
  cases kind : (g.node n).kind with
  | placeholder => exact absurd kind t.weighs.complete
  | other name => exact absurd kind (t.weighs.known name)
  | empty | char | eps | rep =>
    rw [sense kind]
    exact .pure t.valid rfl
  | delta | red =>
    have member : Side.first ∈ (g.node n).sides := by simp [Node.sides, kind]
    rw [sense kind]
    exact t.onChild lower .nullable (.refl x g) t.valid member
  | alt =>
    have member := Node.mem_sides_of_pair (.inr kind)
    rw [sense kind]
    exact .either_eq (.imp (t.onChild lower .nullable (.refl x g) t.valid (member .first))
      fun x₁ g₁ r later₁ h₁ first =>
        ⟨first, t.onChild lower .nullable later₁ h₁ (member .second)⟩)
  | cat =>
    have member := Node.mem_sides_of_pair (.inl kind)
    rw [sense kind]
    exact .both_eq (.imp (t.onChild lower .nullable (.refl x g) t.valid (member .first))
      fun x₁ g₁ r later₁ h₁ first =>
        ⟨first, t.onChild lower .nullable later₁ h₁ (member .second)⟩)

theorem tree_emptyLike : (weighing trees).Ends x g (fun ask => Emptiness.emptyLike ask n)
    fun _ _ r => r = (x (.node n)).sense.emptyLike := by
  refine .read (p := fun g => (g.node n).kind) ?_
  have sense {kind : Kind} (hk : (g.node n).kind = kind) := t.sense_of_kind hk
  cases kind : (g.node n).kind with
  | placeholder => exact absurd kind t.weighs.complete
  | other name => exact absurd kind (t.weighs.known name)
  | empty | char | eps | rep =>
    rw [sense kind]
    exact .pure t.valid rfl
  | red =>
    have member := Node.mem_sides_of_single (.inr (.inr kind))
    rw [sense kind]
    exact t.onChild lower .emptyLike (.refl x g) t.valid member
  | delta =>
    have member := Node.mem_sides_of_single (.inr (.inl kind))
    rw [sense kind]
    refine .bind (t.child lower (.refl x g) t.valid member) fun x₁ g₁ k later₁ h₁ stands => ?_
    refine .bind (t.evaluate lower .nullable later₁ h₁ stands (t.slot_below member))
      fun x₂ g₂ r _ h₂ fits => ?_
    exact .pure h₂ (congrArg (!·) fits)
  | alt =>
    have member := Node.mem_sides_of_pair (.inr kind)
    rw [sense kind]
    exact .both_eq (.imp (t.onChild lower .emptyLike (.refl x g) t.valid (member .first))
      fun x₁ g₁ r later₁ h₁ first =>
        ⟨first, t.onChild lower .emptyLike later₁ h₁ (member .second)⟩)
  | cat =>
    have member := Node.mem_sides_of_pair (.inl kind)
    rw [sense kind]
    exact .either_eq (.imp (t.onChild lower .emptyLike (.refl x g) t.valid (member .first))
      fun x₁ g₁ r later₁ h₁ first =>
        ⟨first, t.onChild lower .emptyLike later₁ h₁ (member .second)⟩)

/-- Whether a node that lies lower takes no symbol. -/
theorem tree_epsLike_or_emptyLike {x₁ : Gauge Tree} {g₁ : Graph} (later : Later x g x₁ g₁)
    (h₁ : Exact trees x₁ g₁) (stands : x₁.Stands g₁ w k) (below : 8 * w.rank + 7 < v) :
    (weighing trees).Ends x₁ g₁ (fun ask => Run.either (ask.epsLike k) (ask.emptyLike k))
      fun _ _ r => r = (w.sense.epsLike || w.sense.emptyLike) :=
  .either_eq (.imp (t.evaluate lower .epsLike later h₁ stands below)
    fun _ _ _ later₂ h₂ fits =>
      ⟨fits, t.evaluate lower .emptyLike (later.trans later₂) h₂ (later₂.stands stands) below⟩)

theorem tree_epsLike : (weighing trees).Ends x g (fun ask => Emptiness.epsLike ask n)
    fun _ _ r => r = (x (.node n)).sense.epsLike := by
  refine .read (p := fun g => (g.node n).kind) ?_
  have sense {kind : Kind} (hk : (g.node n).kind = kind) := t.sense_of_kind hk
  cases kind : (g.node n).kind with
  | placeholder => exact absurd kind t.weighs.complete
  | other name => exact absurd kind (t.weighs.known name)
  | empty | char | eps | delta =>
    rw [sense kind]
    exact .pure t.valid rfl
  | red =>
    have member := Node.mem_sides_of_single (.inr (.inr kind))
    rw [sense kind]
    exact t.onChild lower .epsLike (.refl x g) t.valid member
  | rep =>
    have member := Node.mem_sides_of_single (.inl kind)
    rw [sense kind]
    refine .bind (t.child lower (.refl x g) t.valid member) fun x₁ g₁ k later₁ h₁ stands => ?_
    exact .either_eq (.imp (t.evaluate lower .emptyLike later₁ h₁ stands (t.slot_below member))
      fun x₂ g₂ r later₂ h₂ fits => ⟨fits, t.evaluate lower .epsLike (later₁.trans later₂) h₂
        (later₂.stands stands) (t.slot_below member)⟩)
  | alt =>
    have member := Node.mem_sides_of_pair (.inr kind)
    rw [sense kind]
    refine t.children lower (.refl x g) t.valid member fun later₂ h₂ first second => ?_
    refine .both_eq (.imp (t.tree_epsLike_or_emptyLike lower later₂ h₂ first
      (t.slot_below (member .first))) fun x₃ g₃ r step₃ h₃ fits => ⟨fits, ?_⟩)
    exact t.tree_epsLike_or_emptyLike lower (later₂.trans step₃) h₃ (step₃.stands second)
      (t.slot_below (member .second))
  | cat =>
    have member := Node.mem_sides_of_pair (.inl kind)
    rw [sense kind]
    exact .both_eq (.imp (t.onChild lower .epsLike (.refl x g) t.valid (member .first))
      fun x₁ g₁ r later₁ h₁ first =>
        ⟨first, t.onChild lower .epsLike later₁ h₁ (member .second)⟩)

theorem tree_forest : (weighing trees).Ends x g (fun ask => Extraction.forest ask n)
    fun _ _ ws => ws = (x (.node n)).sense.forest := by
  refine .read (p := fun g => g.node n) ?_
  have sense {kind : Kind} (hk : (g.node n).kind = kind) := t.sense_of_kind hk
  have hashable (side : Side) :=
    (t.valid.proper ((g.node n).slot side)).forest Forest.hashable_closed
  cases kind : (g.node n).kind with
  | placeholder => exact absurd kind t.weighs.complete
  | other name => exact absurd kind (t.weighs.known name)
  | empty | char | eps | rep =>
    rw [sense kind]
    exact .pure t.valid rfl
  | delta =>
    have member := Node.mem_sides_of_single (.inr (.inl kind))
    rw [sense kind]
    exact t.onChild lower .forest (.refl x g) t.valid member
  | red =>
    have member := Node.mem_sides_of_single (.inr (.inr kind))
    rw [sense kind]
    refine .bind (t.onChild lower .forest (.refl x g) t.valid member) ?_
    rintro x₁ g₁ _ - h₁ rfl
    rw [(t.weighs.red kind).image_ok (hashable .first)]
    exact .pure h₁ rfl
  | alt =>
    have member := Node.mem_sides_of_pair (.inr kind)
    rw [sense kind]
    refine t.onChildren lower .forest member ?_
    rintro x₂ g₂ _ _ h₂ rfl rfl
    rw [Forest.union_ok (hashable .first) (hashable .second)]
    exact .pure h₂ rfl
  | cat =>
    have member := Node.mem_sides_of_pair (.inl kind)
    rw [sense kind]
    refine t.onChildren lower .forest member ?_
    rintro x₂ g₂ _ _ h₂ rfl rfl
    rw [Forest.combine_ok (hashable .first) (hashable .second)]
    exact .pure h₂ rfl

end Gauge.Turn

end GrammarGraph
