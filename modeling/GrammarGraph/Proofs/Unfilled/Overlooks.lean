import GrammarGraph.Proofs.Quiet
import GrammarGraph.Proofs.Unfilled

/-! Runs that do not depend on what placeholders will be filled with. What ends without a fault
while placeholders are unfilled ends in the same way, with the same value, once they are: whoever
had looked at one of them would have ended with a fault. -/
namespace GrammarGraph

/-- The graph `g` is `h` with the placeholders in `P` filled, and `look` is what they are filled
with: compound nodes. -/
structure Graph.Completes (P : NodeId → Prop) (look : NodeId → Node) (h g : Graph) : Prop where
  same : ∃ nodes, g = { h with nodes }
  size : g.nodes.size = h.nodes.size
  node : ∀ {n}, ¬ P n → g.node n = h.node n
  unfilled : ∀ {n}, P n → (h.node n).kind = .placeholder
  vacant : ∀ {n}, P n → ∀ side, (h.node n).slot side = .vacant
  filled : ∀ {n}, P n → g.node n = look n
  compound : ∀ {n}, P n → (look n).kind.isAtomic = false

variable {P : NodeId → Prop} {look : NodeId → Node} {h h' g : Graph} {n : NodeId} {α β : Type}

namespace Graph.Completes

variable (c : h.Completes P look g)
include c

theorem lt (here : P n) : n < h.nodes.size := by
  rw [← c.size]
  refine lt_of_kind fun placeholder => ?_
  have compound := c.compound here
  rw [← c.filled here, placeholder] at compound
  cases compound

/-- Only the books change, or the cells. -/
theorem rebook {h₁ g₁ : Graph} (same : g₁ = { h₁ with nodes := g.nodes })
    (nodes : h₁.nodes = h.nodes) : h₁.Completes P look g₁ := by
  have there (n : NodeId) : h₁.node n = h.node n := Graph.node_congr nodes n
  subst same
  exact {
    same := ⟨g.nodes, rfl⟩
    size := c.size.trans (by rw [nodes])
    node := fun other => (c.node other).trans (there _).symm
    unfilled := fun here => by rw [there]; exact c.unfilled here
    vacant := fun here side => by rw [there]; exact c.vacant here side
    filled := c.filled
    compound := c.compound }

theorem modify {i : Evaluator} (f : Evaluation i.Result → Evaluation i.Result) :
    (i.held.modify f h).Completes P look (i.held.modify f g) := by
  refine c.rebook ?_ (Evaluator.nodes_modify f)
  obtain ⟨nodes, rfl⟩ := c.same
  cases i <;> rfl

theorem record (f : Memo NodeId → Memo NodeId) :
    (Held.derivatives.modify f h).Completes P look (Held.derivatives.modify f g) := by
  refine c.rebook ?_ rfl
  obtain ⟨nodes, rfl⟩ := c.same
  rfl

theorem addCell (s : Suspension) : (h.addCell s).Completes P look (g.addCell s) := by
  refine c.rebook ?_ rfl
  obtain ⟨nodes, rfl⟩ := c.same
  rfl

theorem setForcing (cell : CellId) (mark : Bool) :
    (h.setForcing cell mark).Completes P look (g.setForcing cell mark) := by
  refine c.rebook ?_ rfl
  obtain ⟨nodes, rfl⟩ := c.same
  rfl

theorem addNode (node : Node) : (h.addNode node).Completes P look (g.addNode node) := by
  have old {m : NodeId} (here : P m) : (h.addNode node).node m = h.node m :=
    Graph.node_addNode_of_lt node (c.lt here)
  refine ⟨?_, ?_, fun {m} other => ?_, fun here => ?_, fun here side => ?_, fun {m} here => ?_,
    c.compound⟩
  · obtain ⟨filled, rfl⟩ := c.same
    exact ⟨filled.push node, rfl⟩
  · rw [Graph.nodes_addNode, Graph.nodes_addNode, Array.size_push, Array.size_push, c.size]
  · rw [Graph.node_addNode, Graph.node_addNode, c.size, c.node other]
  · rw [old here]; exact c.unfilled here
  · rw [old here]; exact c.vacant here side
  · rw [Graph.node_addNode_of_lt node (c.size ▸ c.lt here)]
    exact c.filled here

theorem setSlot (other : ¬ P n) (side : Side) (y : Slot) :
    (h.setSlot n side y).Completes P look (g.setSlot n side y) := by
  by_cases there : n < h.nodes.size
  · have new (m : NodeId) := Graph.node_setSlot side y there m
    have new' (m : NodeId) := Graph.node_setSlot side y (c.size ▸ there : n < g.nodes.size) m
    have ne {m : NodeId} (here : P m) : m ≠ n := fun same => other (same ▸ here)
    refine ⟨?_, ?_, fun free => ?_, fun here => ?_, fun here side => ?_, fun here => ?_, c.compound⟩
    · obtain ⟨filled, rfl⟩ := c.same
      exact ⟨filled.modify n fun node => node.setSlot side y, rfl⟩
    · rw [Graph.nodes_size_setSlot, Graph.nodes_size_setSlot, c.size]
    · rw [new, new', c.node free, c.node other]
    · rw [new, if_neg (ne here)]; exact c.unfilled here
    · rw [new, if_neg (ne here)]; exact c.vacant here side
    · rw [new', if_neg (ne here)]; exact c.filled here
  · rw [Graph.setSlot_of_le side y (Nat.le_of_not_lt there),
      Graph.setSlot_of_le side y (c.size ▸ Nat.le_of_not_lt there)]
    exact c

theorem of (i : Evaluator) : i.of g = i.of h := by
  obtain ⟨nodes, rfl⟩ := c.same
  cases i <;> rfl

theorem derivatives : g.derivatives = h.derivatives := by
  obtain ⟨nodes, rfl⟩ := c.same
  rfl

theorem cells : g.cells = h.cells := by
  obtain ⟨nodes, rfl⟩ := c.same
  rfl

/-- Placeholders and what they are filled with are no atoms that constructors know. -/
theorem kind (n : NodeId) : (g.node n).kind = (h.node n).kind ∨
    (h.node n).kind = .placeholder ∧ (g.node n).kind.isAtomic = false := by
  by_cases here : P n
  · exact .inr ⟨c.unfilled here, c.filled here ▸ c.compound here⟩
  · exact .inl (by rw [c.node here])

theorem kind_eq_empty (n : NodeId) : (g.node n).kind = .empty ↔ (h.node n).kind = .empty := by
  rcases c.kind n with same | ⟨unfilled, compound⟩
  · rw [same]
  · rw [unfilled]
    exact iff_of_false (fun empty => by rw [empty] at compound; cases compound) Kind.noConfusion

theorem isTrivial (n : NodeId) : (g.node n).isTrivial = (h.node n).isTrivial := by
  by_cases here : P n
  · have compound := c.compound here
    rw [← c.filled here] at compound
    have other : ((g.node n).kind == .eps) = false := beq_eq_false_iff_ne.mpr fun eps => by
      rw [eps] at compound
      cases compound
    rw [Node.isTrivial, Node.isTrivial, c.unfilled here, other]
    rfl
  · rw [c.node here]

theorem kind?_eq_empty (x : Operand) : (x.kind? g == some .empty) = (x.kind? h == some .empty) := by
  cases x with
  | node n =>
    rw [Bool.eq_iff_iff, beq_iff_eq, beq_iff_eq]
    simpa [Operand.kind?, Operand.node?] using c.kind_eq_empty n
  | deferred | other => rfl

theorem catShortcut (x y : Operand) : Grammar.catShortcut g x y = Grammar.catShortcut h x y := by
  unfold Grammar.catShortcut
  rw [c.kind?_eq_empty x, c.kind?_eq_empty y]
  cases x <;> cases y <;> simp only [c.isTrivial]

theorem altShortcut (x y : Operand) : Grammar.altShortcut g x y = Grammar.altShortcut h x y := by
  unfold Grammar.altShortcut
  cases x <;> cases y <;> simp only [beq_iff_eq, c.kind_eq_empty]

theorem deltaShortcut (x : Operand) : Grammar.deltaShortcut g x = Grammar.deltaShortcut h x := by
  cases x with
  | node n =>
    unfold Grammar.deltaShortcut Operand.kind? Operand.node?
    rcases c.kind n with same | ⟨unfilled, compound⟩
    · simp only [Option.map_some, same]
    · simp only [Option.map_some, unfilled]
      generalize (g.node n).kind = kind at compound
      cases kind <;> first | rfl | cases compound
  | deferred | other => rfl

end Graph.Completes

/-- What ends without a fault from `h` does so from every graph that completes `h`, with the same
value, and leaves a graph that completes the one it left. -/
def Overlooks (P : NodeId → Prop) (look : NodeId → Node) (h : Graph) (r : Run α) : Prop :=
  ∀ g v h', h.Completes P look g → r h = some (.ok v, h') →
    ∃ g', r g = some (.ok v, g') ∧ h'.Completes P look g'

namespace Overlooks

variable {r : Run α} {f : α → Run β} {k : β → Run α} {x y : Operand}

theorem never (fails : ∀ g, h.Completes P look g → ∀ v h', r h ≠ some (.ok v, h')) :
    Overlooks P look h r :=
  fun g v h' c ends => absurd ends (fails g c v h')

theorem spent : Overlooks P look h (.spent : Run α) :=
  never fun _ _ _ _ ends => nomatch ends

theorem ofExcept (result : Except Fault α) : Overlooks P look h (.ofExcept result) := by
  rintro g v _ c ⟨⟩
  exact ⟨g, rfl, c⟩

theorem pure (a : α) : Overlooks P look h (pure a) :=
  ofExcept (.ok a)

theorem fault (fault : Fault) : Overlooks P look h (throw fault : Run α) :=
  ofExcept (.error fault)

theorem bind (hr : Overlooks P look h r)
    (hf : ∀ v h', r h = some (.ok v, h') → Overlooks P look h' (f v)) :
    Overlooks P look h (r >>= f) := by
  intro g v h' c ends
  rw [RunOf.bind_run] at ends
  obtain ⟨⟨first, h₁⟩, began, ends⟩ := Option.bind_eq_some_iff.mp ends
  cases first with
  | error fault => cases ends
  | ok a =>
    obtain ⟨g₁, began', c₁⟩ := hr g a h₁ c began
    obtain ⟨g', ends', c'⟩ := hf a h₁ began g₁ v h' c₁ ends
    exact ⟨g', (RunOf.bind_of_ok began').trans ends', c'⟩

/-- Something is looked at that makes no difference. -/
theorem glance {p : Graph → β} (alike : ∀ g, h.Completes P look g → k (p g) = k (p h))
    (rest : Overlooks P look h (k (p h))) : Overlooks P look h (RunOf.read p >>= k) := by
  intro g v h' c ends
  obtain ⟨g', ends', c'⟩ := rest g v h' c ends
  exact ⟨g', by rw [RunOf.read_bind, alike g c]; exact ends', c'⟩

theorem read {p : Graph → β} (same : ∀ g, h.Completes P look g → p g = p h)
    (rest : Overlooks P look h (k (p h))) : Overlooks P look h (RunOf.read p >>= k) :=
  glance (fun g c => congrArg k (same g c)) rest

theorem update {p : Graph → Graph} {k : Unit → Run α}
    (kept : ∀ g, h.Completes P look g → (p h).Completes P look (p g))
    (rest : Overlooks P look (p h) (k ())) : Overlooks P look h (RunOf.update p >>= k) :=
  fun g v h' c ends => rest (p g) v h' (kept g c) ends

/-- A fault is handed over, so that what follows fails as well. -/
theorem outcome {k : Except Fault β → Run α} {r : Run β} (hr : Overlooks P look h r)
    (fails : ∀ fault h₁ v h', k (.error fault) h₁ ≠ some (.ok v, h'))
    (rest : ∀ v h₁, r h = some (.ok v, h₁) → Overlooks P look h₁ (k (.ok v))) :
    Overlooks P look h (r.outcome >>= k) := by
  intro g v h' c ends
  rw [RunOf.bind_run] at ends
  obtain ⟨⟨first, h₁⟩, began, ends⟩ := Option.bind_eq_some_iff.mp ends
  simp only [RunOf.outcome, Option.map_eq_some_iff] at began
  obtain ⟨⟨result, h₂⟩, began, same⟩ := began
  cases same
  cases result with
  | error fault => exact absurd ends (fails fault h₂ v h')
  | ok a =>
    obtain ⟨g₁, began', c₁⟩ := hr g a h₂ c began
    obtain ⟨g', ends', c'⟩ := rest a h₂ began g₁ v h' c₁ ends
    refine ⟨g', ?_, c'⟩
    rw [RunOf.bind_run, RunOf.outcome, began']
    exact ends'

theorem either {a b : Run Bool} (ha : Overlooks P look h a)
    (hb : ∀ h', a h = some (.ok false, h') → Overlooks P look h' b) :
    Overlooks P look h (Run.either a b) := by
  refine bind ha fun answer h' ended => ?_
  cases answer with
  | true => exact pure true
  | false => exact hb h' ended

theorem both {a b : Run Bool} (ha : Overlooks P look h a)
    (hb : ∀ h', a h = some (.ok true, h') → Overlooks P look h' b) :
    Overlooks P look h (Run.both a b) := by
  refine bind ha fun answer h' ended => ?_
  cases answer with
  | true => exact hb h' ended
  | false => exact pure false

/-- The kind of a node decides, and that of a placeholder is a fault. -/
theorem kind {k : Kind → Run α} (fails : ∀ v h', k .placeholder h ≠ some (.ok v, h'))
    (rest : ¬ P n → Overlooks P look h (k (h.node n).kind)) :
    Overlooks P look h (Run.kind n >>= k) := by
  by_cases here : P n
  · refine never fun g c v h' ends => ?_
    have ends : k (h.node n).kind h = some (.ok v, h') := ends
    rw [c.unfilled here] at ends
    exact fails v h' ends
  · exact read (fun g c => by rw [c.node here]) (rest here)

theorem node {k : Node → Run α}
    (fails : (h.node n).kind = .placeholder → ∀ v h', k (h.node n) h ≠ some (.ok v, h'))
    (rest : ¬ P n → Overlooks P look h (k (h.node n))) : Overlooks P look h (Run.node n >>= k) := by
  by_cases here : P n
  · exact never fun g c v h' ends => fails (c.unfilled here) v h' ends
  · exact read (fun g c => c.node here) (rest here)

theorem make (node : Node) : Overlooks P look h (Run.make node) :=
  read (fun _ c => c.size) (update (fun _ c => c.addNode node) (pure _))

theorem slot (x : Operand) : Overlooks P look h x.slot := by
  cases x with
  | node n => exact pure _
  | deferred s =>
    exact bind (read (fun _ c => by rw [c.cells]) (update (fun _ c => c.addCell s) (pure _)))
      fun _ _ _ => pure _
  | other => exact fault _

theorem reuse {shortcut : Graph → Option NodeId} {make : Run NodeId}
    (same : ∀ g, h.Completes P look g → shortcut g = shortcut h) (made : Overlooks P look h make) :
    Overlooks P look h (Grammar.reuse shortcut make) := by
  refine read same ?_
  cases shortcut h with
  | some n => exact pure n
  | none => exact made

theorem pair (kind : Kind) : Overlooks P look h (Grammar.pair kind x y) :=
  bind (slot x) fun _ _ _ => bind (slot y) fun _ _ _ => make _

theorem cat : Overlooks P look h (Grammar.cat x y) :=
  reuse (fun _ c => c.catShortcut x y) (pair .cat)

theorem alt : Overlooks P look h (Grammar.alt x y) :=
  reuse (fun _ c => c.altShortcut x y) (pair .alt)

theorem delta : Overlooks P look h (Grammar.delta x) :=
  reuse (fun _ c => c.deltaShortcut x) (bind (slot x) fun _ _ _ => make _)

theorem rep (s : Suspension) : Overlooks P look h (Grammar.rep (.deferred s)) :=
  reuse (fun _ _ => rfl) (bind (slot _) fun _ _ _ => make _)

theorem reduction (s : Suspension) (t : Transform) :
    Overlooks P look h (Grammar.reduction (.deferred s) t) :=
  reuse (fun _ _ => rfl) (bind (slot _) fun _ _ _ => make _)

theorem eps (ws : List Value) : Overlooks P look h (Grammar.eps ws) := by
  refine bind (ofExcept _) fun us _ _ => ?_
  split
  · exact pure _
  · exact make _

theorem evaluation {i : Evaluator} {body : Run i.Result}
    (onBody : Overlooks P look (i.held.modify (Evaluation.enter n) h) body) :
    Overlooks P look h (Evaluation.demand i.held (i.default n) body n) := by
  unfold Evaluation.demand
  refine read (fun g c => congrArg (Evaluation.standing · n) (c.of i)) ?_
  cases (i.held.get h).standing n with
  | stored v => exact pure v
  | active depth =>
    refine update (fun g c => c.modify _) ?_
    cases i <;> exact pure _
  | provisional entry => exact update (fun g c => c.modify _) (pure _)
  | fresh depth =>
    refine update (fun g c => c.modify _) (outcome onBody (by rintro _ _ _ _ ⟨⟩) ?_)
    intro v h₁ _
    refine read (fun g c => congrArg Evaluation.lowlink (c.of i)) ?_
    refine update (fun g c => c.modify _) (bind (ofExcept _) fun v' h₂ _ => ?_)
    dsimp only
    split
    · exact update (fun g c => c.modify _) (pure _)
    · exact update (fun g c => c.modify _) (pure _)

theorem memo {name : String} {key : Value} {body : Run NodeId}
    (onBody : Overlooks P look (Held.derivatives.modify (Memo.start n key) h) body) :
    Overlooks P look h (Memo.demand .derivatives name body n key) := by
  unfold Memo.demand
  refine bind (ofExcept _) fun key' h₁ hashed => ?_
  cases hashed' : key.hashed with
  | error => rw [hashed'] at hashed; cases hashed
  | ok c =>
    obtain ⟨-, rfl⟩ := Value.hashed_ok.mp hashed'
    rw [hashed'] at hashed
    cases hashed
    refine read (fun g c => congrArg (Memo.progress · n key) c.derivatives) ?_
    cases (Held.derivatives.get h).progress n key with
    | finished result => exact pure result
    | started => exact fault _
    | absent =>
      refine update (fun g c => c.record _) (outcome onBody (by rintro _ _ _ _ ⟨⟩) ?_)
      intro d h₁ _
      refine update (fun g c => c.record _) (bind (ofExcept _) fun d' h₂ _ => ?_)
      exact update (fun g c => c.record _) (pure _)

/-- The child of a node that is filled. -/
theorem child {ask : Ask} {side : Side} (other : ¬ P n)
    (onCompute : ∀ {cell s}, h.suspension? cell = some s →
      Overlooks P look (h.setForcing cell true) (Child.compute ask s)) :
    Overlooks P look h (Child.read ask n side) := by
  unfold Child.read
  refine read (fun g c => by rw [c.node other]) ?_
  cases (h.node n).slot side with
  | vacant => exact pure none
  | node k => exact pure (some k)
  | deferred cell =>
    refine read (fun g c => by rw [c.cells]) ?_
    cases there : h.cells[cell]? with
    | none => exact pure none
    | some content =>
      obtain ⟨s, _ | _⟩ := content
      · have suspended : h.suspension? cell = some s := by simp [Graph.suspension?, there]
        refine bind ?_ fun k h₁ _ => update (fun g c => c.setSlot other _ _) (pure _)
        refine update (fun g c => c.setForcing _ _)
          (outcome (onCompute suspended) (by rintro _ _ _ _ ⟨⟩) fun x h₁ _ => ?_)
        refine update (fun g c => c.setForcing _ _) (bind (ofExcept _) fun x' h₂ _ => ?_)
        cases x' with
        | node k => exact pure k
        | deferred | other => exact fault _
      · exact fault _

end Overlooks

end GrammarGraph
