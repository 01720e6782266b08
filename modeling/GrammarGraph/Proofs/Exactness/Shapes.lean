import GrammarGraph.Proofs.Constructors
import GrammarGraph.Proofs.Exactness.Rewrites
import GrammarGraph.Proofs.Outcomes

/-! What runs leave behind that ended well. A child that was read stands in its slot, and a
derivative that was taken is known. A constructor gives the node that a rule names, or a new node
whose slots were made for the operands. -/
namespace GrammarGraph

open GrammarGraph.Graph (Awaits Promises)

variable {P : Value → Prop} {g g' : Graph} {a b : Operand} {c : Value} {n k d : NodeId} {y : Slot}
  {side : Side} {transform : Transform}

namespace RunOf.Gives

theorem run {α : Type} {r : Run α} {a : α} (h : Gives (fun _ => r) g a g') :
    r g = some (.ok a, g') :=
  let ⟨least, gives⟩ := h
  gives least (Nat.le_refl least)

theorem slot (h : Gives (fun ask => ask.child? n side) g (some k) g') (lt : n < g'.nodes.size) :
    (g'.node n).slot side = .node k := by
  obtain ⟨least, gives⟩ := h
  have read : Child.read (Engine.run least) n side g = some (.ok (some k), g') :=
    gives (least + 1) (Nat.le_succ least)
  cases Child.read_outcome read with
  | node slot => exact slot
  | computed =>
    exact Graph.slot_setSlot_self side _ (by simpa using lt)

theorem derived (h : Gives (fun ask => ask.derive c n) g d g') :
    g'.derivatives.find? n c = some d := by
  obtain ⟨least, gives⟩ := h
  have demand : Memo.demand .derivatives "derive"
      (GrammarGraph.Derivative.derive (Engine.run least) c n) n c g = some (.ok d, g') :=
    gives (least + 1) (Nat.le_succ least)
  cases Memo.demanded demand with
  | finished _ found => exact found
  | computed => exact Memo.find?_finish.trans (if_pos ⟨rfl, c.same_refl⟩)

end RunOf.Gives

/-- The slot was made for the operand. -/
def Graph.Houses (g : Graph) : Operand → Slot → Prop
  | .node k, y => y = .node k
  | .deferred s, y => ∃ cell, y = .deferred cell ∧ g.suspension? cell = some s
  | .other _, _ => False

namespace Graph.Houses

theorem addCell (h : g.Houses a y) (s : Suspension) : (g.addCell s).Houses a y := by
  cases a with
  | node k => exact h
  | other => exact h
  | deferred s' =>
    obtain ⟨cell, same, suspended⟩ := h
    exact ⟨cell, same,
      (Graph.suspension_addCell_of_lt s (Graph.lt_of_suspension suspended)).trans suspended⟩

theorem awaits (h : g.Houses (.deferred (.compacted k)) y) : g.Awaits k y := by
  obtain ⟨cell, rfl, suspended⟩ := h
  exact suspended

theorem promises (h : g.Houses (.deferred (.derivative c n side)) y) (hp : P c) :
    Promises P g c n side y := by
  obtain ⟨cell, rfl, suspended⟩ := h
  exact ⟨c, hp, c.same_refl, suspended⟩

end Graph.Houses

theorem Operand.slot_ok (h : a.slot g = some (.ok y, g')) :
    g'.Houses a y ∧ ∀ {b z}, g.Houses b z → g'.Houses b z := by
  cases a with
  | node k =>
    cases h
    exact ⟨rfl, id⟩
  | other => cases h
  | deferred s =>
    cases h
    exact ⟨⟨_, rfl, by rw [Graph.suspension_addCell, if_pos rfl]⟩, fun housed => housed.addCell s⟩

namespace Grammar

theorem reuse_ok {shortcut : Graph → Option NodeId} {make : Run NodeId}
    (h : reuse shortcut make g = some (.ok d, g')) :
    (shortcut g = some d ∧ g' = g) ∨ make g = some (.ok d, g') := by
  unfold reuse at h
  rw [RunOf.read_bind] at h
  cases found : shortcut g with
  | some n =>
    rw [found] at h
    cases h
    exact .inl ⟨rfl, rfl⟩
  | none =>
    rw [found] at h
    exact .inr h

theorem make_ok {node : Node} (h : Run.make node g = some (.ok d, g')) :
    g'.node d = node ∧ ∀ {b z}, g.Houses b z → g'.Houses b z := by
  cases h
  refine ⟨by rw [Graph.node_addNode, if_pos rfl], fun {b z} housed => ?_⟩
  cases b <;> exact housed

theorem pair_ok {kind : Kind} (h : pair kind a b g = some (.ok d, g')) :
    ∃ y z, g'.node d = { kind, first := y, second := z } ∧ g'.Houses a y ∧ g'.Houses b z := by
  obtain ⟨y, g₁, first, h⟩ := RunOf.bind_ok h
  obtain ⟨z, g₂, second, h⟩ := RunOf.bind_ok h
  obtain ⟨housed, -⟩ := Operand.slot_ok first
  obtain ⟨housed', kept⟩ := Operand.slot_ok second
  obtain ⟨same, kept'⟩ := make_ok h
  exact ⟨y, z, same, kept' (kept housed), kept' housed'⟩

theorem single_ok {kind : Kind}
    (h : (do Run.make { kind, first := ← a.slot, transform }) g = some (.ok d, g')) :
    ∃ y, g'.node d = { kind, first := y, transform } ∧ g'.Houses a y := by
  obtain ⟨y, g₁, first, h⟩ := RunOf.bind_ok h
  obtain ⟨housed, -⟩ := Operand.slot_ok first
  obtain ⟨same, kept⟩ := make_ok h
  exact ⟨y, same, kept housed⟩

theorem eps_ok {ws : List Value} (formed : g.Formed) (h : eps ws g = some (.ok d, g')) :
    (g'.node d).kind = .eps ∧ Forest.ofWitnesses ws = .ok (g'.node d).witnesses := by
  unfold eps at h
  cases forest : Forest.ofWitnesses ws with
  | error fault =>
    rw [forest] at h
    cases h
  | ok ws' =>
    rw [forest, RunOf.ok_bind] at h
    split at h
    · next trivial =>
      cases h
      refine ⟨formed.eps, ?_⟩
      rw [formed.trivial]
      congr
      unfold Forest.isTrivial at trivial
      split at trivial
      · next w => rw [Forest.trivial, (Value.isNothing_iff w).mp trivial]
      · cases trivial
    · obtain ⟨same, -⟩ := make_ok h
      rw [same]
      exact ⟨rfl, rfl⟩

theorem cat_deferred {s s' : Suspension}
    (h : cat (.deferred s) (.deferred s') g = some (.ok d, g')) :
    (g'.node d).kind = .cat ∧ g'.Houses (.deferred s) (g'.node d).first ∧
      g'.Houses (.deferred s') (g'.node d).second := by
  obtain ⟨y, z, same, first, second⟩ := pair_ok ((reuse_ok h).resolve_left fun found => nomatch found.1)
  rw [same]
  exact ⟨rfl, first, second⟩

theorem alt_deferred {s s' : Suspension}
    (h : alt (.deferred s) (.deferred s') g = some (.ok d, g')) :
    (g'.node d).kind = .alt ∧ g'.Houses (.deferred s) (g'.node d).first ∧
      g'.Houses (.deferred s') (g'.node d).second := by
  obtain ⟨y, z, same, first, second⟩ := pair_ok ((reuse_ok h).resolve_left fun found => nomatch found.1)
  rw [same]
  exact ⟨rfl, first, second⟩

theorem rep_deferred {s : Suspension} (h : rep (.deferred s) g = some (.ok d, g')) :
    (g'.node d).kind = .rep ∧ g'.Houses (.deferred s) (g'.node d).first := by
  obtain ⟨y, same, first⟩ := single_ok ((reuse_ok h).resolve_left fun found => nomatch found.1)
  rw [same]
  exact ⟨rfl, first⟩

theorem red_deferred {s : Suspension}
    (h : reduction (.deferred s) transform g = some (.ok d, g')) :
    (g'.node d).kind = .red ∧ (g'.node d).transform = transform ∧
      g'.Houses (.deferred s) (g'.node d).first := by
  obtain ⟨y, same, first⟩ := single_ok ((reuse_ok h).resolve_left fun found => nomatch found.1)
  rw [same]
  exact ⟨rfl, rfl, first⟩

theorem delta_ok (h : delta (.node k) g = some (.ok d, g')) : g'.Vanishes k d := by
  rcases reuse_ok h with ⟨found, rfl⟩ | h
  · obtain ⟨kind, rfl⟩ | ⟨⟨⟩, kind⟩ := deltaShortcut_cases found
    · exact .nothing (kind.imp Option.some.inj Option.some.inj) rfl
    · exact .itself kind rfl
  · obtain ⟨y, same, rfl⟩ := single_ok h
    exact .delta (by rw [same]) (by rw [same])

theorem skips_ok (hp : P c)
    (h : cat (.node k) (.deferred (.derivative c n .second)) g = some (.ok d, g')) :
    g'.Skips P c n k d := by
  rcases reuse_ok h with ⟨found, rfl⟩ | h
  · rw [catShortcut_node_deferred, Option.ite_none_right_eq_some] at found
    obtain ⟨empty, ⟨⟩⟩ := found
    exact .nothing empty rfl
  · obtain ⟨y, z, same, rfl, second⟩ := pair_ok h
    exact .cat (by rw [same]) (by rw [same]) (by rw [same]; exact second.promises hp)

theorem takes_ok (hp : P c)
    (h : cat (.deferred (.derivative c n .first)) (.node k) g = some (.ok d, g')) :
    g'.Takes P c n k d := by
  rcases reuse_ok h with ⟨found, rfl⟩ | h
  · rw [catShortcut_deferred_node, Option.ite_none_right_eq_some] at found
    obtain ⟨empty, ⟨⟩⟩ := found
    exact .nothing empty rfl
  · obtain ⟨y, z, same, first, rfl⟩ := pair_ok h
    exact .cat (by rw [same]) (by rw [same]; exact first.promises hp) (by rw [same])

theorem joins_ok {i j : NodeId} (h : alt (.node i) (.node j) g = some (.ok d, g')) :
    g'.Joins i j d := by
  rcases reuse_ok h with ⟨found, rfl⟩ | h
  · obtain ⟨_, _, ⟨⟩, ⟨⟩, ⟨kind, rfl⟩ | ⟨-, kind, rfl⟩⟩ := altShortcut_cases found
    · exact .second kind rfl
    · exact .first kind rfl
  · obtain ⟨y, z, same, rfl, rfl⟩ := pair_ok h
    exact .alt (by rw [same]) (by rw [same]) (by rw [same])

end Grammar

end GrammarGraph
