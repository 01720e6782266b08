import GrammarGraph.Proofs.Chronicle
import GrammarGraph.Proofs.Constructors

/-! What becomes of the slots of a node in the course of a run. A slot changes once at most, from a
computation to the node that it gave, and only when it is read; while it is being computed it stays
as it is and carries a mark, whatever is asked within. -/
namespace GrammarGraph

open Child (yield settle)

namespace Graph

variable {g g₁ g' : Graph} {n : NodeId} {side : Side} {cell : CellId}

/-- The slots of `n` are written once at most: a node stays, a computation may give way to one. -/
def WritesOnce (n : NodeId) (g g' : Graph) : Prop :=
  ∀ side, (∀ k, (g.node n).slot side = .node k → (g'.node n).slot side = .node k) ∧
    ∀ cell, (g.node n).slot side = .deferred cell →
      (g'.node n).slot side = .deferred cell ∨ ∃ k, (g'.node n).slot side = .node k

theorem WritesOnce.refl (n : NodeId) (g : Graph) : g.WritesOnce n g :=
  fun _ => ⟨fun _ => id, fun _ => .inl⟩

theorem WritesOnce.trans (h : g.WritesOnce n g₁) (h' : g₁.WritesOnce n g') : g.WritesOnce n g' := by
  refine fun side => ⟨fun k held => (h' side).1 k ((h side).1 k held), fun cell held => ?_⟩
  rcases (h side).2 cell held with same | ⟨k, filled⟩
  · exact (h' side).2 cell same
  · exact .inr ⟨k, (h' side).1 k filled⟩

theorem WritesOnce.of_eq (same : g'.node n = g.node n) : g.WritesOnce n g' := by
  intro side
  rw [same]
  exact WritesOnce.refl n g side

theorem WritesOnce.of_vacant (vacant : ∀ side, (g.node n).slot side = .vacant) :
    g.WritesOnce n g' := by
  intro side
  rw [vacant side]
  exact ⟨fun _ => nofun, fun _ => nofun⟩

theorem Evolves.writesOnce (h : g.Evolves g') (n : NodeId) : g.WritesOnce n g' := by
  refine fun side => ⟨fun k => h.filled, fun cell held => ?_⟩
  have lt : n < g.nodes.size := lt_of_slot fun vacant => by rw [held] at vacant; cases vacant
  rcases h.slot n lt side with same | ⟨_, k, _, _, filled⟩
  · exact .inl (same.trans held)
  · exact .inr ⟨k, filled⟩

theorem Evolves.mark (cell : CellId) (lt : cell < g.cells.size) :
    g.Evolves (g.setForcing cell true) := by
  refine ⟨Nat.le_refl _, fun _ _ => rfl, fun _ _ _ => .inl rfl, by simp,
    fun c _ => suspension_setForcing cell true c, fun c marked => ?_⟩
  rw [isForcing_setForcing _ lt, marked, ite_self]

end Graph

open GrammarGraph.Graph (WritesOnce)
open Inquiry (graphsOf allOf)

/-- Time passes from `g` to `g'`, while the questions are asked: nothing that was there at first is
overwritten, and the slots of `n` are written once at most. -/
structure Timely (n : NodeId) (g : Graph) (xs : List Inquiry) (g' : Graph) : Prop where
  evolves : g.Evolves g'
  marks : ∀ cell, g'.isForcing cell = g.isForcing cell
  since : ∀ h ∈ graphsOf xs, g.Evolves h
  until_end : ∀ h ∈ graphsOf xs, h.WritesOnce n g'
  order : (graphsOf xs).Pairwise (WritesOnce n)

namespace Timely

variable {n m : NodeId} {side : Side} {cell : CellId} {g g₁ g' : Graph} {xs ys : List Inquiry}

theorem quiet (evolves : g.Evolves g') (marks : ∀ cell, g'.isForcing cell = g.isForcing cell) :
    Timely n g [] g' :=
  ⟨evolves, marks, by simp, by simp, by simp⟩

theorem still (nodes : g'.nodes = g.nodes) (cells : g'.cells = g.cells) : Timely n g [] g' :=
  quiet (Graph.evolves_of_eq nodes cells) fun cell => by simp [Graph.isForcing, cells]

theorem append (h : Timely n g xs g₁) (h' : Timely n g₁ ys g') : Timely n g (xs ++ ys) g' where
  evolves := h.evolves.trans h'.evolves
  marks cell := (h'.marks cell).trans (h.marks cell)
  since k member := by
    rw [Inquiry.graphsOf_append, List.mem_append] at member
    exact member.elim (h.since k) fun later => h.evolves.trans (h'.since k later)
  until_end k member := by
    rw [Inquiry.graphsOf_append, List.mem_append] at member
    exact member.elim (fun earlier => (h.until_end k earlier).trans (h'.evolves.writesOnce n))
      (h'.until_end k)
  order := by
    rw [Inquiry.graphsOf_append, List.pairwise_append]
    exact ⟨h.order, h'.order, fun k earlier l later =>
      (h.until_end k earlier).trans ((h'.since l later).writesOnce n)⟩

/-- From the first to the last, the slots are written once at most. -/
theorem pairwise (h : Timely n g xs g') : (g :: (graphsOf xs ++ [g'])).Pairwise (WritesOnce n) := by
  rw [List.pairwise_cons, List.pairwise_append]
  refine ⟨fun k member => ?_, h.order, List.pairwise_singleton _ _, fun k member l last => ?_⟩
  · rcases List.mem_append.mp member with within | last
    · exact (h.since k within).writesOnce n
    · rw [List.mem_singleton.mp last]
      exact h.evolves.writesOnce n
  · rw [List.mem_singleton.mp last]
    exact h.until_end k member

/-- What was asked within belongs to a question. -/
theorem inquiry {q : Query} {result : Except Fault q.Answer} (h : Timely n g xs g') :
    Timely n g [.mk q g xs result g'] g' where
  evolves := h.evolves
  marks := h.marks
  since k member := by
    rw [Inquiry.graphsOf_mk, List.mem_cons, List.mem_append, List.mem_singleton] at member
    rcases member with rfl | inner | rfl
    · exact .refl _
    · exact h.since k inner
    · exact h.evolves
  until_end k member := by
    rw [Inquiry.graphsOf_mk, List.mem_cons, List.mem_append, List.mem_singleton] at member
    rcases member with rfl | inner | rfl
    · exact h.evolves.writesOnce n
    · exact h.until_end k inner
    · exact .refl n _
  order := Inquiry.graphsOf_mk ▸ h.pairwise

theorem settled (lt : cell < g.cells.size) (slot : (g.node m).slot side = .deferred cell)
    (free : g.isForcing cell = false) (h : Timely n (g.setForcing cell true) xs g₁)
    (ended : Except Fault NodeId) : Timely n g xs (settle m side cell ended g₁) := by
  have lt₁ : cell < g₁.cells.size := Nat.lt_of_lt_of_le (by simpa using lt) h.evolves.cells
  have unmarked : g.Evolves (g₁.setForcing cell false) := h.evolves.unmarked lt free
  have placed : (g₁.setForcing cell false).Evolves (settle m side cell ended g₁) := by
    cases ended with
    | error fault => exact .refl _
    | ok k => exact h.evolves.placed lt slot k
  have marks (c : CellId) : (settle m side cell ended g₁).isForcing c = g.isForcing c := by
    have same : (settle m side cell ended g₁).isForcing c =
        (g₁.setForcing cell false).isForcing c := by
      cases ended <;> rfl
    rw [same, Graph.isForcing_setForcing _ lt₁, h.marks, Graph.isForcing_setForcing _ lt]
    split
    · next here => rw [here, free]
    · rfl
  refine ⟨unmarked.trans placed, marks, fun k member => ?_, fun k member => ?_, h.order⟩
  · exact (Graph.Evolves.mark cell lt).trans (h.since k member)
  · exact (h.until_end k member).trans
      (WritesOnce.trans (.of_eq rfl : WritesOnce n _ (g₁.setForcing cell false)) (placed.writesOnce n))

/-- A definition is completed. Only its own node is overwritten, which has no children yet. -/
theorem defined {built : Except Fault Operand} {result : Except Fault NodeId}
    (h : Timely n (g.addNode { kind := .placeholder }) xs g₁)
    (ends : (RunOf.ofExcept built >>= Grammar.define g.nodes.size) g₁ = some (result, g')) :
    Timely n g xs g' := by
  have grown := Graph.addNode_evolves (g := g) { kind := .placeholder }
  have start : Timely n g [] (g.addNode { kind := .placeholder }) := quiet grown fun _ => rfl
  have vacant (side : Side) : (g₁.node g.nodes.size).slot side = .vacant := by
    have empty : ((g.addNode { kind := .placeholder }).node g.nodes.size).slot side = .vacant := by
      rw [Graph.node_addNode, if_pos rfl]
      cases side <;> rfl
    rcases h.evolves.slot g.nodes.size (by simp) side with same | ⟨_, _, held, -⟩
    · exact same.trans empty
    · cases held.symm.trans empty
  have whole : Timely n g xs g₁ := start.append h
  rcases Grammar.defined_cases ends with rfl | ⟨k, -, -, rfl⟩
  · exact whole
  · refine ⟨whole.evolves.become (Nat.le_refl _) k, whole.marks, whole.since,
      fun m member => (whole.until_end m member).trans ?_, whole.order⟩
    by_cases own : n = g.nodes.size
    · exact .of_vacant (own ▸ vacant)
    · exact .of_eq (Graph.node_become_of_ne k own)

end Timely

theorem Chronicle.timely {σ α : Type} {held : Held σ Graph} {bound : Nat} {r : Ask → RunOf σ α}
    {s s' : σ} {xs : List Inquiry} {result : Except Fault α} (n : NodeId)
    (h : Chronicle held bound r s xs result s') : Timely n (held.get s) xs (held.get s') := by
  induction h with
  | still _ nodes cells => exact .still nodes cells
  | make node g => exact .quiet (Graph.addNode_evolves node) fun _ => rfl
  | defer s g => exact .quiet (Graph.addCell_evolves s) (Graph.isForcing_addCell s)
  | letrec _ defined ih => exact ih.defined defined
  | bind _ _ first second => exact first.append second
  | fails _ ih => exact ih
  | outcome _ ih => exact ih
  | inside into back _ ih =>
    rw [back]
    exact into ▸ ih
  | present _ _ => exact .inquiry (.still rfl rfl)
  | computed slot suspended free _ ih =>
    exact .inquiry (ih.settled (Graph.lt_of_suspension suspended) slot free _)
  | asks _ _ ih => exact .inquiry ih

/-- How a slot was read: a node is given as it is, a computation in progress is a fault, and what
is computed meets the slot as it was, and a mark, at every question that it asks. Only a node takes
the place of its computation; otherwise the slot can be read again. -/
structure Inquiry.Reads (n : NodeId) (side : Side) (before : Graph) (within : List Inquiry)
    (result : Except Fault (Option NodeId)) (after : Graph) : Prop where
  gives : ∀ k, result = .ok (some k) → (after.node n).slot side = .node k
  node : ∀ k, (before.node n).slot side = .node k →
    within = [] ∧ result = .ok (some k) ∧ after = before
  busy : ∀ cell, (before.node n).slot side = .deferred cell → before.isForcing cell = true →
    within = [] ∧ result = .error .childInProgress ∧ after = before
  computed : ∀ cell s, (before.node n).slot side = .deferred cell →
    before.suspension? cell = some s → before.isForcing cell = false →
      (∀ y ∈ allOf within, (y.before.node n).slot side = .deferred cell ∧
        y.before.isForcing cell = true) ∧
      ∃ bound ended g, Child.compute (Engine.run bound) s (before.setForcing cell true) =
          some (ended, g) ∧ result = (yield ended).map some ∧
        (∀ k, yield ended = .ok k → (after.node n).slot side = .node k) ∧
        ∀ fault, yield ended = .error fault → (after.node n).slot side = .deferred cell ∧
          after.suspension? cell = some s ∧ after.isForcing cell = false

/-- Questions for children are as they should be. -/
def Inquiry.Proper : Inquiry → Prop
  | .mk (.child n side) before within result after => Reads n side before within result after
  | _ => True

namespace Inquiry.Reads

variable {n : NodeId} {side : Side} {cell : CellId} {g g₁ : Graph} {xs : List Inquiry}

theorem present {bound : Nat} {result : Except Fault (Option NodeId)}
    (still : ∀ cell s, (g.node n).slot side = .deferred cell → g.suspension? cell = some s →
      g.isForcing cell = true)
    (ends : Child.read (Engine.run bound) n side g = some (result, g)) :
    Reads n side g [] result g where
  gives k given := by
    subst given
    cases slot : (g.node n).slot side with
    | node m =>
      cases (Child.read_node slot).symm.trans ends
      rfl
    | vacant => cases (Child.read_vacant slot).symm.trans ends
    | deferred cell => cases suspended : g.suspension? cell with
      | none => cases (Child.read_lost slot suspended).symm.trans ends
      | some s =>
        cases (Child.read_busy slot (still cell s slot suspended)).symm.trans ends
  node k held := by
    cases (Child.read_node held).symm.trans ends
    exact ⟨rfl, rfl, rfl⟩
  busy cell held marked := by
    cases (Child.read_busy held marked).symm.trans ends
    exact ⟨rfl, rfl, rfl⟩
  computed cell s held suspended free := by cases free.symm.trans (still cell s held suspended)

theorem of_computed {bound : Nat} {s : Suspension} {ended : Except Fault Operand}
    (slot : (g.node n).slot side = .deferred cell) (suspended : g.suspension? cell = some s)
    (free : g.isForcing cell = false)
    (h : Chronicle .whole bound (fun ask => Child.compute ask s) (g.setForcing cell true) xs ended
      g₁) :
    Reads n side g xs ((yield ended).map some) (settle n side cell (yield ended) g₁) := by
  have lt := Graph.lt_of_suspension suspended
  have timely := h.timely n
  have evolves : (g.setForcing cell true).Evolves g₁ := timely.evolves
  have nlt : n < (g₁.setForcing cell false).nodes.size := Graph.lt_of_slot fun vacant => by
    cases (evolves.held lt slot).symm.trans vacant
  have placed (k : NodeId) (given : yield ended = .ok k) :
      ((settle n side cell (yield ended) g₁).node n).slot side = .node k := by
    rw [given, settle, Graph.slot_setSlot_self side _ nlt]
  refine ⟨fun k given => placed k ?_, fun k held => ?_, fun c held marked => ?_,
    fun c s' held suspended' _ => ?_⟩
  · cases came : yield ended with
    | error fault =>
      rw [came] at given
      cases given
    | ok m =>
      rw [came] at given
      cases given
      rfl
  · cases slot.symm.trans held
  · cases slot.symm.trans held
    cases free.symm.trans marked
  · cases slot.symm.trans held
    cases suspended.symm.trans suspended'
    refine ⟨fun y member => ?_, bound, ended, g₁, h.run, rfl, placed, fun fault given => ?_⟩
    · have since := timely.since _ (before_mem_graphsOf member)
      refine ⟨since.held lt slot, since.forcing cell ?_⟩
      exact (Graph.isForcing_setForcing true lt cell).trans (if_pos rfl)
    · have lt₁ : cell < g₁.cells.size := Nat.lt_of_lt_of_le (by simpa using lt) evolves.cells
      rw [given, settle]
      refine ⟨evolves.held lt slot, ?_, ?_⟩
      · rw [Graph.suspension_setForcing, evolves.suspension cell (by simpa using lt),
          Graph.suspension_setForcing, suspended]
      · rw [Graph.isForcing_setForcing _ lt₁, if_pos rfl]

end Inquiry.Reads

/-- Every question for a child, at whatever depth. -/
theorem Chronicle.proper {σ α : Type} {held : Held σ Graph} {bound : Nat} {r : Ask → RunOf σ α}
    {s s' : σ} {xs : List Inquiry} {result : Except Fault α}
    (h : Chronicle held bound r s xs result s') : ∀ x ∈ allOf xs, x.Proper := by
  induction h with
  | still | make | defer => simp
  | letrec _ _ ih | fails _ ih | outcome _ ih | inside _ _ _ ih => exact ih
  | bind _ _ first second =>
    intro x member
    rw [Inquiry.allOf_append, List.mem_append] at member
    exact member.elim (first x) (second x)
  | present still ends =>
    intro x member
    rw [Inquiry.allOf_mk, Inquiry.allOf_nil, List.mem_singleton] at member
    exact member ▸ Inquiry.Reads.present still ends
  | computed slot suspended free inner ih =>
    intro x member
    rw [Inquiry.allOf_mk, List.mem_cons] at member
    rcases member with rfl | deeper
    · exact Inquiry.Reads.of_computed slot suspended free inner
    · exact ih x deeper
  | @asks bound q g g' xs result other _ ih =>
    intro x member
    rw [Inquiry.allOf_mk, List.mem_cons] at member
    rcases member with rfl | deeper
    · cases q with
      | child n side => exact absurd rfl (other n side)
      | _ => trivial
    · exact ih x deeper

end GrammarGraph
