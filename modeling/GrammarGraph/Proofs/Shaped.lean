import GrammarGraph.Proofs.Canonical.Sessions

/-! The shape of nodes. Constructors put something only into the slots where the kind has children,
and whatever happens later to a slot, it happens to one that is not vacant. So a node is forced as
soon as its children are read. -/
namespace GrammarGraph

/-- Slots are vacant on the sides where the kind has no child, and no term waits that would make a
node as it is. -/
structure Graph.Shaped (g : Graph) : Prop where
  vacant : ∀ n side, side ∉ (g.node n).sides → (g.node n).slot side = .vacant
  suspended : ∀ {cell s}, g.suspension? cell = some s → s.Uses False

namespace Graph.Shaped

variable {g g' : Graph} {n m : NodeId} {side : Side}

theorem initial : ({} : Graph).Shaped where
  vacant n side _ := by
    rcases n with _ | _ | n <;> cases side <;> simp [Graph.node, Node.slot, default]
  suspended known := by simp [Graph.suspension?] at known

theorem congr (h : g.Shaped) (nodes : g'.nodes = g.nodes) (cells : g'.cells = g.cells) :
    g'.Shaped where
  vacant n side out := by
    rw [Graph.node, nodes] at out ⊢
    exact h.vacant n side out
  suspended known := h.suspended (by rwa [Graph.suspension?, cells] at known)

theorem addNode (h : g.Shaped) {node : Node} (canonical : node.Canonical) :
    (g.addNode node).Shaped where
  vacant n side := by
    rw [Graph.node_addNode]
    split
    · exact canonical.vacant side
    · exact h.vacant n side
  suspended := h.suspended

theorem addCell (h : g.Shaped) {s : Suspension} (uses : s.Uses False) : (g.addCell s).Shaped where
  vacant := h.vacant
  suspended known := by
    rw [Graph.suspension_addCell] at known
    split at known
    · cases known
      exact uses
    · exact h.suspended known

theorem setForcing (h : g.Shaped) (cell : CellId) (mark : Bool) : (g.setForcing cell mark).Shaped where
  vacant := h.vacant
  suspended known := h.suspended (by rwa [Graph.suspension_setForcing] at known)

/-- What was read takes the place of what was there. -/
theorem setSlot (h : g.Shaped) {y : Slot} (filled : (g.node n).slot side ≠ .vacant) :
    (g.setSlot n side y).Shaped where
  vacant m other out := by
    rw [g.sides_setSlot] at out
    rcases g.slot_setSlot_cases n side y m other with same | ⟨rfl, rfl, -⟩
    · exact same.trans (h.vacant m other out)
    · exact absurd (h.vacant m other out) filled
  suspended := h.suspended

theorem become (h : g.Shaped) (n m : NodeId) : (g.become n m).Shaped where
  vacant k side := by
    rcases g.node_become_cases n m k with ⟨-, same⟩ | same
    · exact same ▸ h.vacant m side
    · exact same ▸ h.vacant k side
  suspended := h.suspended

/-- Once the children are read, no slot is deferred. -/
theorem isForced (h : g.Shaped) (read : ∀ side ∈ (g.node n).sides, ∃ k, (g.node n).slot side = .node k) :
    (g.node n).isForced = true := by
  have ready (side : Side) : ((g.node n).slot side).isDeferred = false := by
    by_cases member : side ∈ (g.node n).sides
    · obtain ⟨k, slot⟩ := read side member
      rw [slot]
      rfl
    · rw [h.vacant n side member]
      rfl
  rw [Node.isForced, Bool.and_eq_true, Bool.not_eq_true', Bool.not_eq_true']
  exact ⟨ready .first, ready .second⟩

end Graph.Shaped

/-- Nodes keep their shape, and nothing that was there is overwritten. -/
def shaped : Regime Unit where
  Valid _ g := g.Shaped
  Later _ g _ g' := g.Evolves g'
  refl _ := .refl
  trans := .trans

theorem shaped_letrec {body : NodeId → Run Operand} (keeps : ∀ n, shaped.Keeps (body n)) :
    shaped.Keeps (do
      let placeholder ← Run.make { kind := .placeholder }
      let body ← body placeholder
      Grammar.define placeholder body) := by
  intro g valid result g' ends
  obtain ⟨built, g₁, building, ended⟩ := Grammar.letrec_cases ends
  have grown := Graph.addNode_evolves (g := g) { kind := .placeholder }
  have canonical : Node.Canonical { kind := .placeholder } :=
    Node.canonical_of_kind nofun nofun fun side _ => by cases side <;> rfl
  obtain ⟨_, within, valid₁, -⟩ := keeps _ _ (valid.addNode canonical) _ _ building
  have whole := grown.trans within
  rcases ended with rfl | ⟨k, -, -, rfl⟩
  · exact ⟨(), whole, valid₁, fun _ _ => trivial⟩
  · exact ⟨(), whole.become (Nat.le_refl _) k, Graph.Shaped.become valid₁ _ k, fun _ _ => trivial⟩

theorem shaped_constructive :
    Constructive (fun _ r => ∀ ask, shaped.Answers ask → shaped.Keeps (r ask)) False where
  toCompositional := Regime.compositional
    (fun canonical => .make fun g valid => ⟨g.addNode_evolves _, valid.addNode canonical⟩)
    fun {s} plain => .defer fun g valid => ⟨g.addCell_evolves _, valid.addCell <| by
      cases s with
      | term body scope => exact absurd rfl (plain body scope)
      | _ => trivial⟩
  postpone _ uses _ _ _ := .defer fun g valid => ⟨g.addCell_evolves _, valid.addCell uses⟩
  note _ _ _ _ := .update fun g valid => ⟨g.evolves_of_eq rfl rfl, valid.congr rfl rfl⟩
  letrec body ask h := shaped_letrec fun n => body n ask h
  anyNode raw := raw.elim

namespace Regime.Answers

variable {ask : Ask} (h : shaped.Answers ask)
include h

theorem read_shaped (n : NodeId) (side : Side) : shaped.Keeps (Child.read ask n side) := by
  intro g valid
  refine .imp (.child (Q := fun _ _ _ => True) (fun _ => trivial) ?_ valid)
    fun _ _ _ _ _ _ => trivial
  intro cell s slot suspended free result g₁ ends
  have lt := Graph.lt_of_suspension suspended
  obtain ⟨_, within, valid₁, -⟩ := shaped_constructive.compute (Graph.Shaped.suspended valid suspended)
    ask h _ (Graph.Shaped.setForcing valid cell true) _ _ ends
  have unmarked := within.unmarked lt free
  have valid₂ := Graph.Shaped.setForcing valid₁ cell false
  refine ⟨(), unmarked, valid₂, fun _ _ k _ => ⟨unmarked.trans (within.placed lt slot k),
    valid₂.setSlot fun vacant => ?_, trivial⟩⟩
  cases (within.held lt slot).symm.trans vacant

theorem answer_shaped (bound : Nat) : shaped.Answers (Engine.answer bound ask) :=
  h.answer shaped_constructive.toEvaluatorParts
    (fun valid nodes cells _ => ⟨Graph.evolves_of_eq nodes cells, valid.congr nodes cells⟩)
    h.read_shaped bound

end Regime.Answers

/-- Within any bound, nodes keep their shape. -/
theorem Engine.run_shaped : ∀ bound, shaped.Answers (Engine.run bound)
  | 0 => fun _ _ _ => .spent
  | bound + 1 => (run_shaped bound).answer_shaped bound

theorem Regime.Answers.inOrder {ask : Ask} (h : shaped.Answers ask) : InOrder Graph.Shaped ask ask where
  assembled assembled g result g' valid ends := by
    obtain ⟨_, -, valid', -⟩ := assembled _ shaped_constructive ask h g valid result g' ends
    exact ⟨ends, valid', fun _ _ => trivial⟩
  journal _ valid := valid.congr rfl rfl
  name _ _ valid := valid.congr rfl rfl

theorem Session.Crafted.shaped {s : Session} (crafted : s.Crafted) : s.graph.Shaped := by
  induction crafted with
  | start => exact .initial
  | @perform bound _ _ _ _ _ crafts ends ih =>
    exact ((Engine.run_shaped bound).inOrder.operate bound crafts _ _ _ ih ends).2.1

end GrammarGraph
