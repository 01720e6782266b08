import GrammarGraph.Proofs.Exactness.Layers
import GrammarGraph.Proofs.Forests

/-! Making the nodes of a derivative. All of them lie one layer above the node; what a
constructor drops or keeps is read off the kinds of its concrete operands. -/
namespace GrammarGraph

open GrammarGraph.Graph (Promises)

variable {P : Value → Prop} {layer layer' : NodeId → Nat} {g g' : Graph} {c : Value} {n : NodeId}

namespace Operand

/-- The operand can be one of a node in layer `v`. -/
def Ready (P : Value → Prop) (layer : NodeId → Nat) (g : Graph) (v : Nat) : Operand → Prop
  | .node k => k < g.nodes.size ∧ layer k ≤ v
  | .deferred (.derivative c m side) => P c ∧ (g.node m).kind ≠ .placeholder ∧
      side ∈ (g.node m).sides ∧ layer m < v
  | _ => False

/-- What a slot that was made for the operand holds. -/
def Fills (P : Value → Prop) (g : Graph) (x : Slot) : Operand → Prop
  | .node k => x = .node k
  | .deferred (.derivative c m side) => Promises P g c m side x
  | _ => False

end Operand

namespace Layered.Later

theorem ready (later : Later layer g layer' g') {v : Nat} {a : Operand}
    (h : a.Ready P layer g v) : a.Ready P layer' g' v := by
  cases a with
  | node k => exact ⟨Nat.lt_of_lt_of_le h.1 later.extends_.size, by rw [later.layer k h.1]; exact h.2⟩
  | other => exact h
  | deferred s =>
    cases s with
    | derivative c m side =>
      obtain ⟨hp, known, member, lt⟩ := h
      have same := Node.kind_of_bare (later.extends_.bare m known)
      refine ⟨hp, by rwa [same], ?_, by rwa [later.layer m (Graph.lt_of_kind known)]⟩
      simpa only [Node.sides, same] using member
    | _ => exact h

/-- A slot on its own keeps what it holds. -/
theorem fills (later : Later layer g layer' g') {x : Slot} {a : Operand} (h : a.Fills P g x) :
    a.Fills P g' x := by
  cases a with
  | node k => exact h
  | other => exact h
  | deferred s =>
    cases s with
    | derivative c m side =>
      cases x with
      | vacant => exact h
      | node k => exact later.extends_.holds h
      | deferred cell => exact h.imp fun c' hc => ⟨hc.1, hc.2.1, later.extends_.suspension hc.2.2⟩
    | _ => exact h

end Layered.Later

namespace Layered

theorem slot_ends (valid : (layering P).Valid layer g) {v : Nat} {a : Operand}
    (ready : a.Ready P layer g v) :
    (layering P).Ends layer g (fun _ => a.slot) fun layer' g' x =>
      x.Fits layer' g' v ∧ a.Fills P g' x := by
  cases a with
  | node k => exact .pure valid ⟨ready, rfl⟩
  | other => exact ready.elim
  | deferred s =>
    cases s with
    | derivative c m side =>
      obtain ⟨hp, known, member, lt⟩ := ready
      obtain ⟨later, layered⟩ := valid.1.addCell hp known member
      have suspended : (g.addCell (.derivative c m side)).suspension? g.cells.size =
          some (.derivative c m side) := by rw [Graph.suspension_addCell, if_pos rfl]
      refine .bind (Q := fun layer' g' cell => layer' = layer ∧
          g' = g.addCell (.derivative c m side) ∧ cell = g.cells.size)
        (.read (.update (y := layer) later (.pure ⟨layered, valid.2⟩ ⟨rfl, rfl, rfl⟩))) ?_
      rintro _ _ _ - valid' ⟨rfl, rfl, rfl⟩
      exact .pure valid' ⟨⟨c, m, side, suspended, lt⟩, c, hp, c.same_refl, suspended⟩
    | _ => exact ready.elim

/-- The node is new in layer `v`. -/
structure Made (layer : NodeId → Nat) (g : Graph) (v : Nat) (kind : Kind) (d : NodeId) : Prop where
  lt : d < g.nodes.size
  lies : layer d = v
  kind : (g.node d).kind = kind

theorem make_ends (valid : (layering P).Valid layer g) (node : Node) {v : Nat}
    (known : ∀ name, node.kind ≠ .other name) (complete : node.kind ≠ .placeholder)
    (slots : ∀ side ∈ node.sides, node.slot side ≠ .vacant)
    (fits : ∀ side, (node.slot side).Fits layer g v) :
    (layering P).Ends layer g (fun _ => Run.make node) fun layer' g' d =>
      Made layer' g' v node.kind d ∧ g'.node d = node := by
  obtain ⟨later, layered⟩ := valid.1.addNode known slots fits
  have new : (g.addNode node).node g.nodes.size = node := by rw [Graph.node_addNode, if_pos rfl]
  refine .read (.update (y := raised layer g v) later (.pure ⟨layered, fun m lt => ?_⟩
    ⟨⟨?_, if_pos rfl, by rw [new]⟩, new⟩))
  · rw [Graph.node_addNode]
    split
    · exact complete
    · next other =>
      rw [Graph.nodes_addNode, Array.size_push] at lt
      exact valid.2 m (Nat.lt_of_le_of_ne (Nat.le_of_lt_succ lt) other)
  · rw [Graph.nodes_addNode, Array.size_push]
    exact Nat.lt_succ_self _

theorem Fills.not_vacant {x : Slot} {a : Operand} (h : a.Fills P g x) : x ≠ .vacant := by
  rintro rfl
  cases a with
  | node k => cases h
  | other => exact h
  | deferred s => cases s <;> exact h

theorem pair_ends (valid : (layering P).Valid layer g) {v : Nat} {kind : Kind} {a b : Operand}
    (binary : kind = .cat ∨ kind = .alt) (first : a.Ready P layer g v) (second : b.Ready P layer g v) :
    (layering P).Ends layer g (fun _ => Grammar.pair kind a b) fun layer' g' d =>
      Made layer' g' v kind d ∧ a.Fills P g' (g'.node d).first ∧ b.Fills P g' (g'.node d).second := by
  refine .bind (slot_ends valid first) fun layer₁ g₁ x later₁ valid₁ hx => ?_
  refine .bind (slot_ends valid₁ (later₁.ready second)) fun layer₂ g₂ y later₂ valid₂ hy => ?_
  have hx₂ := later₂.fills hx.2
  refine .imp (make_ends valid₂ { kind, first := x, second := y } (v := v) ?_ ?_ ?_ ?_)
    fun layer₃ g₃ d later₃ _ ⟨made, same⟩ => ⟨made, ?_, ?_⟩
  · rcases binary with rfl | rfl <;> simp
  · rcases binary with rfl | rfl <;> simp
  · rintro (_ | _) _
    · exact Fills.not_vacant hx₂
    · exact Fills.not_vacant hy.2
  · rintro (_ | _)
    · exact later₂.fits valid₁.1 hx.1
    · exact hy.1
  · rw [same]; exact later₃.fills hx₂
  · rw [same]; exact later₃.fills hy.2

theorem single_ends (valid : (layering P).Valid layer g) {v : Nat} {kind : Kind} {a : Operand}
    {transform : Transform} (unary : kind = .delta ∨ kind = .red) (first : a.Ready P layer g v) :
    (layering P).Ends layer g (fun _ => do Run.make { kind, first := ← a.slot, transform })
      fun layer' g' d => Made layer' g' v kind d ∧ a.Fills P g' (g'.node d).first ∧
        (g'.node d).transform = transform := by
  refine .bind (slot_ends valid first) fun layer₁ g₁ x later₁ valid₁ hx => ?_
  refine .imp (make_ends valid₁ { kind, first := x, transform } (v := v) ?_ ?_ ?_ ?_)
    fun layer₃ g₃ d later₃ _ ⟨made, same⟩ => ⟨made, ?_, ?_⟩
  · rcases unary with rfl | rfl <;> simp
  · rcases unary with rfl | rfl <;> simp
  · intro side member
    cases Node.eq_first_of_single (.inr unary) member
    exact Fills.not_vacant hx.2
  · rintro (_ | _)
    · exact hx.1
    · exact True.intro
  · rw [same]; exact later₃.fills hx.2
  · rw [same]

end Layered

end GrammarGraph
