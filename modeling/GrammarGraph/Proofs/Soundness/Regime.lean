import GrammarGraph.Proofs.Meaning
import GrammarGraph.Proofs.Regime.Demand

/-! The regime of soundness. A meaning supports the graph, is that of the least derivations
at the nodes that constructors made, and bounds every value on record: what is known to be
nullable has a derivation of the empty sentence, a forest holds witnesses of it, derivatives
and compacted nodes mean no more than they should. Nothing is said about the books of the
evaluations, since every default that closes a cycle is within the bounds as well. -/
namespace GrammarGraph

/-- The nodes that constructors made, with the contents they have once they are complete. -/
structure Blueprint where
  made : NodeId → Prop
  look : NodeId → Node

/-- Some derivation of the empty sentence, if eps nodes and transforms always give one. -/
def Meaning.Nulls (A : Worth ω) (M : Meaning ω) (g : Graph) (n : NodeId) : Prop :=
  n < g.nodes.size ∧ (A.Plentiful → ∃ w, M (.node n) [] w)

def Meaning.Witnesses (embed : Value → ω) (M : Meaning ω) (g : Graph) (n : NodeId)
    (ws : Forest) : Prop :=
  n < g.nodes.size ∧ ∀ w ∈ ws, M (.node n) [] (embed w)

/-- The node `m` means no more than `n`. -/
def Meaning.Bounds (M : Meaning ω) (g : Graph) (n m : NodeId) : Prop :=
  n < g.nodes.size ∧ m < g.nodes.size ∧ ∀ s w, M (.node m) s w → M (.node n) s w

/-- The node `d` means no more than `n` does after `c`. -/
def Meaning.Follows (M : Meaning ω) (g : Graph) (c : Value) (n d : NodeId) : Prop :=
  n < g.nodes.size ∧ d < g.nodes.size ∧ ∀ s w, M (.node d) s w → M (.node n) (c.numeric :: s) w

variable {ω : Type}

structure Sound (A : Worth ω) (embed : Value → ω) (plan : Blueprint) (M : Meaning ω) (g : Graph) :
    Prop where
  formed : g.Formed
  supports : M.Supports A g
  made : ∀ {n}, plan.made n → n < g.nodes.size ∧
    ((g.node n).kind = .placeholder ∨ g.node n = plan.look n)
  concrete : ∀ {n}, plan.made n → (g.node n).Concrete plan.made
  denotes : ∀ {n}, plan.made n → ∀ s w, M (.node n) s w ↔
    ∃ t : List Value, t.map Value.numeric = s ∧ Derives A plan.look n t w
  derivatives : ∀ {n c d}, g.derivatives.find? n c = some d → M.Follows g c n d
  nullable : ∀ {n v}, g.nullable.Knows n v → v = true → M.Nulls A g n
  forests : ∀ {n ws}, g.forests.Knows n ws → M.Witnesses embed g n ws
  compacted : ∀ {n m}, g.compacted.Knows n m → M.Bounds g n m

/-- Meanings stay what they are, and slots mean no more than before. -/
structure Meaning.Later (M : Meaning ω) (g : Graph) (M' : Meaning ω) (g' : Graph) : Prop where
  evolves : g.Evolves g'
  agree : ∀ x, g.Covers x → M' x = M x
  narrow : ∀ n < g.nodes.size, ∀ side s w,
    M' ((g'.node n).slot side) s w → M ((g.node n).slot side) s w

theorem Meaning.Later.refl (M : Meaning ω) (g : Graph) : M.Later g M g :=
  ⟨.refl g, fun _ _ => rfl, fun _ _ _ _ _ h => h⟩

theorem Meaning.Later.trans {M M' M'' : Meaning ω} {g g' g'' : Graph} (h : M.Later g M' g')
    (k : M'.Later g' M'' g'') : M.Later g M'' g'' where
  evolves := h.evolves.trans k.evolves
  agree x hx := (k.agree x (h.evolves.covers hx)).trans (h.agree x hx)
  narrow n lt side s w hw := h.narrow n lt side s w
    (k.narrow n (Nat.lt_of_lt_of_le lt h.evolves.size) side s w hw)

def soundness (A : Worth ω) (embed : Value → ω) (plan : Blueprint) : Regime (Meaning ω) where
  Valid := Sound A embed plan
  Later := Meaning.Later
  refl := .refl
  trans := .trans

variable {A : Worth ω} {embed : Value → ω} {plan : Blueprint} {M M' : Meaning ω} {g g' : Graph}

namespace Meaning.Later

theorem node (h : M.Later g M' g') {n : NodeId} (lt : n < g.nodes.size) :
    M' (.node n) = M (.node n) :=
  h.agree _ lt

theorem nulls (h : M.Later g M' g') {n : NodeId} (k : M.Nulls A g n) : M'.Nulls A g' n :=
  ⟨Nat.lt_of_lt_of_le k.1 h.evolves.size, fun plenty => by rw [h.node k.1]; exact k.2 plenty⟩

theorem witnesses (h : M.Later g M' g') {n : NodeId} {ws : Forest}
    (k : M.Witnesses embed g n ws) : M'.Witnesses embed g' n ws :=
  ⟨Nat.lt_of_lt_of_le k.1 h.evolves.size, fun w hw => by rw [h.node k.1]; exact k.2 w hw⟩

theorem bounds (h : M.Later g M' g') {n m : NodeId} (k : M.Bounds g n m) : M'.Bounds g' n m :=
  ⟨Nat.lt_of_lt_of_le k.1 h.evolves.size, Nat.lt_of_lt_of_le k.2.1 h.evolves.size,
    fun s w hw => by rw [h.node k.1]; rw [h.node k.2.1] at hw; exact k.2.2 s w hw⟩

theorem follows (h : M.Later g M' g') {c : Value} {n d : NodeId} (k : M.Follows g c n d) :
    M'.Follows g' c n d :=
  ⟨Nat.lt_of_lt_of_le k.1 h.evolves.size, Nat.lt_of_lt_of_le k.2.1 h.evolves.size,
    fun s w hw => by rw [h.node k.1]; rw [h.node k.2.1] at hw; exact k.2.2 s w hw⟩

/-- What a computation for later will mean can only shrink. -/
theorem ofSuspension (h : M.Later g M' g') {k : Suspension}
    (allowed : Graph.Formed.Allows g k) {s w} (hw : M'.ofSuspension g' k s w) :
    M.ofSuspension g k s w := by
  cases k with
  | derivative c n side => exact h.narrow n (Graph.lt_of_kind allowed) side _ _ hw
  | compacted n => rw [Meaning.ofSuspension, h.node allowed] at hw; exact hw
  | term => exact hw

end Meaning.Later

namespace Sound

/-- A change that touches no node and no cell, where each value on record afterwards was on
record or meets its bound. -/
theorem books (h : Sound A embed plan M g) (nodes : g'.nodes = g.nodes)
    (cells : g'.cells = g.cells)
    (derivatives : ∀ {n c d}, g'.derivatives.find? n c = some d → M.Follows g c n d)
    (nullable : ∀ {n v}, g'.nullable.Knows n v → v = true → M.Nulls A g n)
    (forests : ∀ {n ws}, g'.forests.Knows n ws → M.Witnesses embed g n ws)
    (compacted : ∀ {n m}, g'.compacted.Knows n m → M.Bounds g n m) :
    M.Later g M g' ∧ Sound A embed plan M g' := by
  have later : M.Later g M g' :=
    ⟨Graph.evolves_of_eq nodes cells, fun _ _ => rfl, fun n _ side _ _ hw => by
      rwa [Graph.node_congr nodes] at hw⟩
  refine ⟨later, h.formed.congr nodes (Graph.suspension_congr cells) (by rw [cells]),
    ⟨?_, ?_, ?_, ?_⟩, ?_, ?_, h.denotes, fun hd => later.follows (derivatives hd), fun hv ht => later.nulls (nullable hv ht),
    fun hw => later.witnesses (forests hw), fun hm => later.bounds (compacted hm)⟩
  · intro n s w hr
    rw [Graph.node_congr nodes] at hr
    exact h.supports.node hr
  · intro n c s u t v kind first rest
    rw [Graph.node_congr nodes] at kind first
    exact h.supports.again kind first rest
  · intro n s w atomic known hw
    rw [Graph.node_congr nodes] at atomic known ⊢
    exact h.supports.atom atomic known hw
  · intro cell suspension s w hs hw
    rw [Graph.suspension_congr cells] at hs
    rw [Meaning.ofSuspension_congr nodes] at hw
    exact h.supports.cell hs hw
  · intro n hn
    rw [Graph.node_congr nodes, nodes]
    exact h.made hn
  · intro n hn
    rw [Graph.node_congr nodes]
    exact h.concrete hn

theorem node_eq (h : Sound A embed plan M g) (evolves : g.Evolves g') {n : NodeId}
    (made : plan.made n) : g'.node n = g.node n := by
  have slot (side : Side) : (g'.node n).slot side = (g.node n).slot side := by
    rcases evolves.slot n (h.made made).1 side with same | ⟨cell, _, old, _, _⟩
    · exact same
    · exact absurd old ((h.concrete made).not_deferred side cell)
  have bare := evolves.bare n (h.made made).1
  have first := slot .first
  have second := slot .second
  revert bare first second
  cases g'.node n; cases g.node n
  simp +contextual [Node.bare, Node.slot]

theorem grow (h : Sound A embed plan M g) (later : M.Later g M' g') (formed : g'.Formed)
    (supports : M'.Supports A g') (derivatives : g'.derivatives = g.derivatives)
    (nullable : g'.nullable = g.nullable) (forests : g'.forests = g.forests)
    (compacted : g'.compacted = g.compacted) : Sound A embed plan M' g' := by
  refine ⟨formed, supports, fun hn => ?_, fun hn => ?_, fun hn => ?_, fun hd => ?_, fun hv ht => ?_,
    fun hw => ?_, fun hm => ?_⟩
  · rw [h.node_eq later.evolves hn]
    exact ⟨Nat.lt_of_lt_of_le (h.made hn).1 later.evolves.size, (h.made hn).2⟩
  · rw [h.node_eq later.evolves hn]; exact h.concrete hn
  · rw [later.node (h.made hn).1]; exact h.denotes hn
  · exact later.follows (h.derivatives (derivatives ▸ hd))
  · exact later.nulls (h.nullable (nullable ▸ hv) ht)
  · exact later.witnesses (h.forests (forests ▸ hw))
  · exact later.bounds (h.compacted (compacted ▸ hm))

end Sound

end GrammarGraph
