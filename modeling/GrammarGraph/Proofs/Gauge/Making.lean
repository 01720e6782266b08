import GrammarGraph.Proofs.Gauge

/-! Making nodes under an exact gauge: a new node weighs what its kind makes of its operands,
and so does a node that is found in its place. -/
namespace GrammarGraph

namespace Gauge

variable {σ : Type} {S : Sense σ} {x x' : Gauge σ} {g g' : Graph} {w u v : Weight σ} {n : NodeId}
  {a b : Operand}

/-- The operand may fill a slot and lies within `w`. -/
def Offers (S : Sense σ) (x : Gauge σ) (g : Graph) (w : Weight σ) : Operand → Prop
  | .node k => x.Stands g w k
  | .deferred s => x.Bears S g w s
  | .other _ => False

theorem Later.offers (h : Later x g x' g') (k : x.Offers S g w a) : x'.Offers S g' w a := by
  cases a with
  | node k => exact h.stands k
  | deferred s => exact h.bears k
  | other => exact k

/-- The deferred compaction of a node. -/
theorem Stands.later (h : x.Stands g w n) :
    x.Offers S g (w.compacted S) (Compaction.later n) :=
  ⟨h.lt, h.within.compacted⟩

/-- What a slot that was made for the operand holds. -/
structure Holds (x : Gauge σ) (g : Graph) (w : Weight σ) (y : Slot) : Prop where
  covers : g.Covers y
  there : y ≠ .vacant
  within : (x y).Within w

theorem Later.holds (h : Later x g x' g') {y : Slot} (k : x.Holds g w y) : x'.Holds g' w y :=
  ⟨h.evolves.covers k.covers, k.there, by rw [h.agree y k.covers]; exact k.within⟩

namespace Exact

variable (h : Exact S x g)
include h

/-- What the kind of a node decides. -/
theorem sense_of_kind {kind : Kind} (lt : n < g.nodes.size) (hk : (g.node n).kind = kind) :
    (x (.node n)).sense = ({ g.node n with kind } : Node).sense S x := by
  subst hk
  exact (h.nodes n lt).sense

theorem sense_of_known {kind : Kind} (hk : (g.node n).kind = kind) (known : kind ≠ .placeholder) :
    (x (.node n)).sense = ({ g.node n with kind } : Node).sense S x :=
  h.sense_of_kind (Graph.lt_of_kind (hk ▸ known)) hk

theorem sense_empty : (x (.node .empty)).sense = S.nothing :=
  (h.nodes NodeId.empty h.formed.empty_lt).sense.trans (S.node_empty h.formed.empty)

theorem empty_stands (sense : w.sense = S.nothing) : x.Stands g w .empty :=
  ⟨h.formed.empty_lt, h.sense_empty.trans sense.symm, by rw [h.atoms.1]; exact Nat.zero_le _⟩

/-- A concrete operand with a kind that decides what it stands for. -/
theorem offers_kind (offers : x.Offers S g w a) {kind : Kind} (hk : a.kind? g = some kind) :
    ∃ k, a = .node k ∧ x.Stands g w k ∧ (g.node k).kind = kind ∧
      w.sense = ({ g.node k with kind } : Node).sense S x := by
  cases a with
  | node k =>
    obtain rfl := Option.some.inj hk
    exact ⟨k, rfl, offers, rfl, offers.within.sense.symm.trans (h.sense_of_kind offers.lt rfl)⟩
  | deferred s => cases hk
  | other => cases hk

theorem slot (offers : x.Offers S g w a) :
    (weighing S).Ends x g (fun _ => a.slot) fun x' g' y => x'.Holds g' w y := by
  cases a with
  | node k => exact .pure h ⟨offers.lt, Slot.noConfusion, offers.within⟩
  | other => exact offers.elim
  | deferred s =>
    obtain ⟨later, exact_⟩ := h.addCell offers
    refine .bind (Q := fun x' g' cell => x' = x.put (.deferred g.cells.size) w ∧
        g' = g.addCell s ∧ cell = g.cells.size)
      (.read (.update (y := x.put (.deferred g.cells.size) w) later
        (.pure exact_ ⟨rfl, rfl, rfl⟩))) ?_
    rintro _ _ _ - valid ⟨rfl, rfl, rfl⟩
    refine .pure valid ⟨?_, Slot.noConfusion, by rw [put_self]; exact .refl w⟩
    rw [Graph.Covers, Graph.cells_size_addCell]
    exact Nat.lt_succ_self _

theorem make (node : Node) (covers : ∀ side, g.Covers (node.slot side))
    (weighs : node.Weighs S x w) :
    (weighing S).Ends x g (fun _ => Run.make node) fun x' g' d => x'.Stands g' w d := by
  obtain ⟨later, exact_⟩ := h.addNode covers weighs
  refine .read (.update (y := x.put (.node g.nodes.size) w) later (.pure exact_ ⟨?_, ?_⟩))
  · rw [Graph.nodes_addNode, Array.size_push]
    exact Nat.lt_succ_self _
  · rw [put_self]
    exact .refl w

/-- A node with two children. -/
theorem pair {kind : Kind} (binary : kind = .cat ∨ kind = .alt) (first : x.Offers S g u a)
    (second : x.Offers S g v b) (lower : u.rank < w.rank ∧ v.rank < w.rank)
    (sense : ∀ (x : Gauge σ) y z, (x y).sense = u.sense → (x z).sense = v.sense →
      w.sense = ({ kind, first := y, second := z } : Node).sense S x) :
    (weighing S).Ends x g (fun _ => Grammar.pair kind a b) fun x' g' d => x'.Stands g' w d := by
  refine .bind (h.slot first) fun x₁ g₁ y later₁ h₁ hy => ?_
  refine .bind (slot h₁ (later₁.offers second)) fun x₂ g₂ z later₂ h₂ hz => ?_
  have hy := later₂.holds hy
  refine make h₂ { kind, first := y, second := z } (fun side => ?_)
    { known := fun name => by rcases binary with rfl | rfl <;> simp
      complete := by rcases binary with rfl | rfl <;> simp
      slots := fun side _ => by
        cases side with
        | first => exact ⟨hy.there, Nat.lt_of_le_of_lt hy.within.rank lower.1⟩
        | second => exact ⟨hz.there, Nat.lt_of_le_of_lt hz.within.rank lower.2⟩
      vacant := fun side out => absurd (Node.mem_sides_of_pair binary side) out
      sense := sense x₂ y z hy.within.sense hz.within.sense
      eps := by rcases binary with rfl | rfl <;> simp
      red := by rcases binary with rfl | rfl <;> simp }
  cases side with
  | first => exact hy.covers
  | second => exact hz.covers

theorem single {kind : Kind} {transform : Transform}
    (unary : kind = .rep ∨ kind = .delta ∨ kind = .red) (first : x.Offers S g u a)
    (total : kind = .red → transform.Total) (lower : u.rank < w.rank)
    (sense : ∀ (x : Gauge σ) y, (x y).sense = u.sense →
      w.sense = ({ kind, first := y, transform } : Node).sense S x) :
    (weighing S).Ends x g (fun _ => do Run.make { kind, first := ← a.slot, transform })
      fun x' g' d => x'.Stands g' w d := by
  refine .bind (h.slot first) fun x₁ g₁ y later₁ h₁ hy => ?_
  refine make h₁ { kind, first := y, transform } (fun side => ?_)
    { known := fun name => by rcases unary with rfl | rfl | rfl <;> simp
      complete := by rcases unary with rfl | rfl | rfl <;> simp
      slots := fun side member => by
        cases Node.eq_first_of_single unary member
        exact ⟨hy.there, Nat.lt_of_le_of_lt hy.within.rank lower⟩
      vacant := fun side out => by
        cases Node.eq_second_of_single unary out
        rfl
      sense := sense x₁ y hy.within.sense
      eps := by rcases unary with rfl | rfl | rfl <;> simp
      red := total }
  cases side with
  | first => exact hy.covers
  | second => exact True.intro

theorem atom (node : Node) (atomic : node.kind.isAtomic) (complete : node.kind ≠ .placeholder)
    (bare : node.bare = node) (sense : w.sense = node.sense S x)
    (eps : node.kind = .eps → S.grants node.witnesses) :
    (weighing S).Ends x g (fun _ => Run.make node) fun x' g' d => x'.Stands g' w d := by
  have vacant (side : Side) : node.slot side = .vacant := by rw [← bare]; cases side <;> rfl
  refine h.make node (fun side => ?_) ⟨fun name other => ?_, complete, fun side member => ?_,
    fun side _ => vacant side, sense, eps, fun red => ?_⟩
  · rw [vacant]; exact True.intro
  · rw [other] at atomic; cases atomic
  · rw [Node.sides_of_atomic atomic] at member; cases member
  · rw [red] at atomic; cases atomic

end Exact

end Gauge

end GrammarGraph
