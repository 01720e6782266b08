import GrammarGraph.Proofs.Evaluator
import GrammarGraph.Proofs.Formed

/-! Derivatives as they stand in a graph. A deferred slot promises the derivative of a child;
once it is filled, it holds the node that the memo knows for that child. Which node the
derivative of a node is follows, kind by kind, from such promises, and stays true while the
graph grows and slots are filled. -/
namespace GrammarGraph

namespace Graph

/-- The derivative of the node in a slot is known. -/
def Holds (g : Graph) (c : Value) (n : NodeId) (side : Side) (k : NodeId) : Prop :=
  ∃ j, (g.node n).slot side = .node j ∧ g.derivatives.find? j c = some k

/-- What a suspension has given, once it was computed. -/
def Settled (g : Graph) : Suspension → NodeId → Prop
  | .derivative c n side, k => g.Holds c n side k
  | .compacted n, k => (g.node n).kind ≠ .placeholder ∧ g.compacted.stored.get? n = some k
  | .term _ _, _ => False

/-- How a graph may change while queries are answered and grammars are built: slots are filled
with what their cells give, and no result is lost. -/
structure Extends (g g' : Graph) : Prop where
  size : g.nodes.size ≤ g'.nodes.size
  bare : ∀ n, (g.node n).kind ≠ .placeholder → (g'.node n).bare = (g.node n).bare
  slot : ∀ n side, (g.node n).slot side ≠ .vacant →
    (g'.node n).slot side = (g.node n).slot side ∨
    ∃ cell k, (g.node n).slot side = .deferred cell ∧ (g'.node n).slot side = .node k ∧
      ∀ s, g.suspension? cell = some s → g'.Settled s k
  suspension : ∀ {cell s}, g.suspension? cell = some s → g'.suspension? cell = some s
  memo : ∀ {n c d}, g.derivatives.find? n c = some d → g'.derivatives.find? n c = some d
  results : ∀ i {n v}, (g.node n).kind ≠ .placeholder →
    (Evaluator.of i g).stored.get? n = some v → (Evaluator.of i g').stored.get? n = some v

namespace Extends

variable {g g' g'' : Graph}

theorem refl (g : Graph) : g.Extends g :=
  ⟨Nat.le_refl _, fun _ _ => rfl, fun _ _ _ => .inl rfl, fun h => h, fun h => h, fun _ _ _ _ h => h⟩

theorem kind_same (h : g.Extends g') {n : NodeId} (known : (g.node n).kind ≠ .placeholder) :
    (g'.node n).kind = (g.node n).kind :=
  Node.kind_of_bare (h.bare n known)

theorem kind (h : g.Extends g') {n : NodeId} {kind : Kind} (hk : (g.node n).kind = kind)
    (known : kind ≠ .placeholder) : (g'.node n).kind = kind :=
  (h.kind_same (hk ▸ known)).trans hk

theorem filled (h : g.Extends g') {n k : NodeId} (side : Side)
    (hs : (g.node n).slot side = .node k) : (g'.node n).slot side = .node k := by
  rcases h.slot n side (by rw [hs]; exact Slot.noConfusion) with same | ⟨_, _, old, _, _⟩
  · exact same.trans hs
  · rw [hs] at old; cases old

theorem holds (h : g.Extends g') {c : Value} {n k : NodeId} {side : Side}
    (held : g.Holds c n side k) : g'.Holds c n side k :=
  let ⟨j, slot, found⟩ := held
  ⟨j, h.filled _ slot, h.memo found⟩

theorem settled (h : g.Extends g') {s : Suspension} {k : NodeId} (held : g.Settled s k) :
    g'.Settled s k := by
  cases s with
  | derivative => exact h.holds held
  | compacted n => exact ⟨by rw [h.kind_same held.1]; exact held.1, h.results .compact held.1 held.2⟩
  | term => exact held

theorem trans (h : g.Extends g') (k : g'.Extends g'') : g.Extends g'' where
  size := Nat.le_trans h.size k.size
  bare n known := by
    have same := h.bare n known
    exact (k.bare n (by rwa [Node.kind_of_bare same])).trans same
  slot n side there := by
    rcases h.slot n side there with same | ⟨cell, m, old, new, settled⟩
    · rcases k.slot n side (same ▸ there) with same' | ⟨cell, m, old, new, settled⟩
      · exact .inl (same'.trans same)
      · exact .inr ⟨cell, m, same ▸ old, new, fun s hs => settled s (h.suspension hs)⟩
    · exact .inr ⟨cell, m, old, k.filled _ new, fun s hs => k.settled (settled s hs)⟩
  suspension hs := k.suspension (h.suspension hs)
  memo hd := k.memo (h.memo hd)
  results i n v known stored := by
    exact k.results i (by rwa [h.kind_same known]) (h.results i known stored)

theorem derives (h : g.Extends g') {A : Worth ω} {n : NodeId} {s : List Value} {w : ω}
    (d : Derives A g.node n s w) : Derives A g'.node n s w :=
  d.mono h.bare fun _ _ _ hs => h.filled _ hs

theorem addNode (g : Graph) (node : Node) : g.Extends (g.addNode node) := by
  have evolves := g.addNode_evolves node
  refine ⟨evolves.size, fun n known => evolves.bare n (Graph.lt_of_kind known), fun n side there => ?_,
    fun hs => hs, fun hd => hd, fun i _ _ _ stored => by rwa [Evaluator.of_addNode]⟩
  rw [Graph.node_addNode_of_lt node (Graph.lt_of_slot there)]
  exact .inl rfl

theorem addCell (g : Graph) (s : Suspension) : g.Extends (g.addCell s) :=
  ⟨Nat.le_refl _, fun _ _ => rfl, fun _ _ _ => .inl rfl,
    fun hs => (Graph.suspension_addCell_of_lt s (Graph.lt_of_suspension hs)).trans hs, fun hd => hd,
    fun i _ _ _ stored => by rwa [Evaluator.of_addCell]⟩

/-- A change of marks and results alone. -/
theorem books (nodes : g'.nodes = g.nodes)
    (cells : ∀ cell, g'.suspension? cell = g.suspension? cell)
    (memo : ∀ {n c d}, g.derivatives.find? n c = some d → g'.derivatives.find? n c = some d)
    (results : ∀ i {n v}, (Evaluator.of i g).stored.get? n = some v →
      (Evaluator.of i g').stored.get? n = some v) : g.Extends g' := by
  have node := Graph.node_congr nodes
  exact ⟨Nat.le_of_eq (by rw [nodes]), fun n _ => by rw [node], fun n side _ => .inl (by rw [node]),
    fun hs => (cells _).trans hs, memo, fun i _ _ _ => results i⟩

theorem setForcing (cell : CellId) (mark : Bool) : g.Extends (g.setForcing cell mark) :=
  .books rfl (Graph.suspension_setForcing cell mark) (fun hd => hd)
    fun i _ _ stored => by rwa [Evaluator.of_setForcing]

theorem journal (journal : Option Journal) : g.Extends { g with journal } :=
  .books rfl (fun _ => rfl) (fun found => found)
    fun i _ _ stored => by rwa [Evaluator.of_journal]

theorem start (n : NodeId) (c : Value) :
    g.Extends (Held.derivatives.modify (Memo.start n c) g) :=
  .books rfl (fun _ => rfl) (fun found => found)
    fun i _ _ stored => by rwa [Evaluator.of_derivatives]

/-- A derivative is recorded that was not known. -/
theorem finish {n d : NodeId} {c : Value} (absent : g.derivatives.find? n c = none) :
    g.Extends (Held.derivatives.modify (Memo.finish n c d)
      (Held.derivatives.modify (Memo.stop n c) g)) := by
  refine .books rfl (fun _ => rfl) (fun {k c' d'} found => ?_)
    fun i _ _ stored => by rwa [Evaluator.of_derivatives, Evaluator.of_derivatives]
  refine ((g.find?_recorded n c d k c').trans (if_neg ?_)).trans found
  rintro ⟨rfl, equal⟩
  rw [← Memo.find?_congr equal, absent] at found
  cases found

/-- One evaluator keeps its results. -/
theorem modify {i : Evaluator} (f : Evaluation i.Result → Evaluation i.Result)
    (stored : ∀ m u, (i.of g).stored.get? m = some u → (f (i.of g)).stored.get? m = some u) :
    g.Extends (i.held.modify f g) := by
  refine .books (by simp) (fun _ => by simp [Graph.suspension?]) (fun found => by simpa using found)
    fun j m u known => ?_
  by_cases same : j = i
  · subst same
    rw [Evaluator.of_modify]
    exact stored m u known
  · rwa [Evaluator.of_modify_of_ne f same]

/-- A slot is filled with what its cell gave, or with what it holds anyway. -/
theorem setSlot {n k : NodeId} {side : Side} (slot : (g.node n).slot side = .node k ∨
    ∃ cell s, (g.node n).slot side = .deferred cell ∧ g.suspension? cell = some s ∧ g.Settled s k) :
    g.Extends (g.setSlot n side (.node k)) := by
  have bare := g.bare_setSlot n side (.node k)
  have at_ := g.slot_setSlot_cases n side (.node k)
  have filled {m j : NodeId} {other : Side} (hs : (g.node m).slot other = .node j) :
      ((g.setSlot n side (.node k)).node m).slot other = .node j := by
    rcases at_ m other with same | ⟨rfl, rfl, new⟩
    · exact same.trans hs
    · rcases slot with slot | ⟨_, _, slot, _⟩
      · exact new.trans (slot.symm.trans hs)
      · rw [slot] at hs; cases hs
  have kept {s : Suspension} {k' : NodeId} (held : g.Settled s k') :
      (g.setSlot n side (.node k)).Settled s k' := by
    cases s with
    | derivative c m other => exact held.imp fun _ => And.imp_left filled
    | compacted m => exact ⟨by rw [Node.kind_of_bare (bare m)]; exact held.1, held.2⟩
    | term => exact held
  refine ⟨by simp, fun m _ => bare m, fun m other _ => ?_, fun hs => hs, fun hd => hd,
    fun i _ _ _ stored => by rwa [Evaluator.of_setSlot]⟩
  rcases at_ m other with same | ⟨rfl, rfl, new⟩
  · exact .inl same
  · rcases slot with slot | ⟨cell, s, slot, suspended, settled⟩
    · exact .inl (new.trans slot.symm)
    · refine .inr ⟨cell, k, slot, new, fun s' hs' => ?_⟩
      rw [Option.some.inj (hs'.symm.trans suspended)]
      exact kept settled

/-- A placeholder is completed. There are no results about it. -/
theorem become {n : NodeId} (body : NodeId) (open_ : (g.node n).kind = .placeholder)
    (vacant : ∀ side, (g.node n).slot side = .vacant)
    (memo : ∀ {m c d}, g.derivatives.find? m c = some d → (g.node m).kind ≠ .placeholder) :
    g.Extends (g.become n body) := by
  have other {m : NodeId} (known : (g.node m).kind ≠ .placeholder) : m ≠ n :=
    Graph.ne_of_open open_ known
  refine ⟨by simp, fun m known => by rw [Graph.node_become_of_known body open_ known],
    fun m side there => .inl ?_,
    fun hs => hs, fun found => (Memo.find?_forget_of_ne (other (memo found))).trans found,
    fun i m v known stored => ?_⟩
  · rw [Graph.node_become_of_ne body (by rintro rfl; exact there (vacant side))]
  · rw [Evaluator.of_become]
    exact Evaluation.stored_forget.trans ((if_neg (other known)).trans stored)

end Extends

/-- The slot stands for the derivative of the child of `n` by a symbol equal to `c`. -/
def Promises (P : Value → Prop) (g : Graph) (c : Value) (n : NodeId) (side : Side) : Slot → Prop
  | .vacant => False
  | .node k => g.Holds c n side k
  | .deferred cell => ∃ c', P c' ∧ c'.same c = true ∧
      g.suspension? cell = some (.derivative c' n side)

/-- The node keeps of `a` what gives the empty sentence. -/
inductive Vanishes (g : Graph) (a v : NodeId) : Prop where
  | nothing : (g.node a).kind = .empty ∨ (g.node a).kind = .char → v = .empty → Vanishes g a v
  | itself : (g.node a).kind = .eps → v = a → Vanishes g a v
  | delta : (g.node v).kind = .delta → (g.node v).first = .node a → Vanishes g a v

/-- The first part `v` takes nothing and the second part of `n` takes the symbol. -/
inductive Skips (P : Value → Prop) (g : Graph) (c : Value) (n v k : NodeId) : Prop where
  | nothing : (g.node v).kind = .empty → k = .empty → Skips P g c n v k
  | cat : (g.node k).kind = .cat → (g.node k).first = .node v →
      Promises P g c n .second (g.node k).second → Skips P g c n v k

/-- The first part of `n` takes the symbol and the second part `b` follows. -/
inductive Takes (P : Value → Prop) (g : Graph) (c : Value) (n b k : NodeId) : Prop where
  | nothing : (g.node b).kind = .empty → k = .empty → Takes P g c n b k
  | cat : (g.node k).kind = .cat → Promises P g c n .first (g.node k).first →
      (g.node k).second = .node b → Takes P g c n b k

/-- The node stands for the choice between `a` and `b`. -/
inductive Joins (g : Graph) (a b d : NodeId) : Prop where
  | second : (g.node a).kind = .empty → d = b → Joins g a b d
  | first : (g.node b).kind = .empty → d = a → Joins g a b d
  | alt : (g.node d).kind = .alt → (g.node d).first = .node a → (g.node d).second = .node b →
      Joins g a b d

/-- The node `d` is made the way a derivative of `n` by `c` is made. -/
inductive Derivative (P : Value → Prop) (g : Graph) (c : Value) (n d : NodeId) : Prop where
  | nothing : (g.node n).kind = .empty ∨ (g.node n).kind = .eps ∨ (g.node n).kind = .delta →
      d = .empty → Derivative P g c n d
  | mismatch : (g.node n).kind = .char → (g.node n).symbol.same c = false → d = .empty →
      Derivative P g c n d
  | taken {c' : Value} : (g.node n).kind = .char → (g.node n).symbol.same c = true →
      (g.node d).kind = .eps → (g.node d).witnesses = [c'] → P c' → c'.same c = true →
      Derivative P g c n d
  | alt : (g.node n).kind = .alt → (g.node d).kind = .alt →
      (∀ side, Promises P g c n side ((g.node d).slot side)) → Derivative P g c n d
  | rep : (g.node n).kind = .rep → (g.node d).kind = .cat →
      Promises P g c n .first (g.node d).first → (g.node d).second = .node n →
      Derivative P g c n d
  | red : (g.node n).kind = .red → (g.node d).kind = .red →
      (g.node d).transform = (g.node n).transform →
      Promises P g c n .first (g.node d).first → Derivative P g c n d
  | cat {a b v skip take : NodeId} : (g.node n).kind = .cat → (g.node n).first = .node a →
      (g.node n).second = .node b → Vanishes g a v → Skips P g c n v skip → Takes P g c n b take →
      Joins g skip take d → Derivative P g c n d

section

variable {P : Value → Prop} {g : Graph} {c c' : Value} {n : NodeId} (equal : c.same c' = true)
include equal

theorem Promises.congr {side : Side} {x : Slot} (h : Promises P g c n side x) :
    Promises P g c' n side x := by
  cases x with
  | vacant => exact h
  | node k => exact h.imp fun j hj => ⟨hj.1, (Memo.find?_congr equal).symm.trans hj.2⟩
  | deferred cell =>
    exact h.imp fun _ hk => ⟨hk.1, Value.same_trans hk.2.1 equal, hk.2.2⟩

theorem Skips.congr {v k : NodeId} (h : Skips P g c n v k) : Skips P g c' n v k := by
  cases h with
  | nothing kind same => exact .nothing kind same
  | cat kind slot promised => exact .cat kind slot (promised.congr equal)

theorem Takes.congr {b k : NodeId} (h : Takes P g c n b k) : Takes P g c' n b k := by
  cases h with
  | nothing kind same => exact .nothing kind same
  | cat kind promised slot => exact .cat kind (promised.congr equal) slot

theorem Derivative.congr {d : NodeId} (h : Derivative P g c n d) : Derivative P g c' n d := by
  have symbol (a : Value) : a.same c' = a.same c := by
    rw [Bool.eq_iff_iff]
    exact ⟨fun h => Value.same_trans h (Value.same_symm equal), fun h => Value.same_trans h equal⟩
  cases h with
  | nothing kind same => exact .nothing kind same
  | mismatch kind other same => exact .mismatch kind (by rwa [symbol]) same
  | taken kind same kind' ws hp hc =>
    exact .taken kind (by rwa [symbol]) kind' ws hp (Value.same_trans hc equal)
  | alt kind kind' promised => exact .alt kind kind' fun side => (promised side).congr equal
  | rep kind kind' promised slot => exact .rep kind kind' (promised.congr equal) slot
  | red kind kind' same promised => exact .red kind kind' same (promised.congr equal)
  | cat kind slot slot' vanishes skips takes joins =>
    exact .cat kind slot slot' vanishes (skips.congr equal) (takes.congr equal) joins

end

namespace Extends

variable {P : Value → Prop} {g g' : Graph} (h : g.Extends g') {c : Value} {n : NodeId}
include h

theorem promises {side : Side} (other : Side) {k : NodeId}
    (promised : Promises P g c n side ((g.node k).slot other)) :
    Promises P g' c n side ((g'.node k).slot other) := by
  have there : (g.node k).slot other ≠ .vacant := fun vacant => by rw [vacant] at promised; exact promised
  rcases h.slot k other there with same | ⟨cell, m, old, new, settled⟩
  · rw [same]
    cases slot : (g.node k).slot other with
    | vacant => exact absurd slot there
    | node m =>
      rw [slot] at promised
      exact h.holds promised
    | deferred cell =>
      rw [slot] at promised
      exact promised.imp fun c' hc => ⟨hc.1, hc.2.1, h.suspension hc.2.2⟩
  · rw [old] at promised
    obtain ⟨c', _, same, suspended⟩ := promised
    obtain ⟨j, slot, found⟩ := settled _ suspended
    rw [new]
    exact ⟨j, slot, (Memo.find?_congr same).symm.trans found⟩

theorem vanishes {a v : NodeId} (k : Vanishes g a v) : Vanishes g' a v := by
  cases k with
  | nothing kind same =>
    exact .nothing (kind.imp (h.kind · (by decide)) (h.kind · (by decide))) same
  | itself kind same => exact .itself (h.kind kind (by decide)) same
  | delta kind slot => exact .delta (h.kind kind (by decide)) (h.filled .first slot)

theorem skips {v k : NodeId} (s : Skips P g c n v k) : Skips P g' c n v k := by
  cases s with
  | nothing kind same => exact .nothing (h.kind kind (by decide)) same
  | cat kind slot promised =>
    exact .cat (h.kind kind (by decide)) (h.filled .first slot)
      (h.promises .second promised)

theorem takes {b k : NodeId} (t : Takes P g c n b k) : Takes P g' c n b k := by
  cases t with
  | nothing kind same => exact .nothing (h.kind kind (by decide)) same
  | cat kind promised slot =>
    exact .cat (h.kind kind (by decide)) (h.promises .first promised)
      (h.filled .second slot)

theorem joins {a b d : NodeId} (j : Joins g a b d) : Joins g' a b d := by
  cases j with
  | second kind same => exact .second (h.kind kind (by decide)) same
  | first kind same => exact .first (h.kind kind (by decide)) same
  | alt kind slot slot' =>
    exact .alt (h.kind kind (by decide)) (h.filled .first slot)
      (h.filled .second slot')

theorem derivative {d : NodeId} (k : Derivative P g c n d) : Derivative P g' c n d := by
  have bare {m : NodeId} {kind : Kind} (hk : (g.node m).kind = kind) (known : kind ≠ .placeholder) :=
    h.bare m (hk ▸ known)
  cases k with
  | nothing kind same =>
    exact .nothing (kind.imp (h.kind · (by decide))
      (Or.imp (h.kind · (by decide)) (h.kind · (by decide)))) same
  | mismatch kind other same =>
    refine .mismatch (h.kind kind (by decide)) ?_ same
    rw [Node.symbol_of_bare (bare kind (by decide))]
    exact other
  | taken kind same kind' ws hp hc =>
    refine .taken (h.kind kind (by decide)) ?_ (h.kind kind' (by decide)) ?_ hp hc
    · rw [Node.symbol_of_bare (bare kind (by decide))]; exact same
    · rw [Node.witnesses_of_bare (bare kind' (by decide))]; exact ws
  | alt kind kind' promised =>
    exact .alt (h.kind kind (by decide)) (h.kind kind' (by decide))
      fun side => h.promises _ (promised side)
  | rep kind kind' promised slot =>
    exact .rep (h.kind kind (by decide)) (h.kind kind' (by decide))
      (h.promises .first promised) (h.filled .second slot)
  | red kind kind' same promised =>
    refine .red (h.kind kind (by decide)) (h.kind kind' (by decide)) ?_
      (h.promises .first promised)
    rw [Node.transform_of_bare (bare kind (by decide)),
      Node.transform_of_bare (bare kind' (by decide))]
    exact same
  | cat kind slot slot' vanishes skips takes joins =>
    exact .cat (h.kind kind (by decide)) (h.filled .first slot)
      (h.filled .second slot') (h.vanishes vanishes) (h.skips skips) (h.takes takes)
      (h.joins joins)

end Extends

end Graph

end GrammarGraph
