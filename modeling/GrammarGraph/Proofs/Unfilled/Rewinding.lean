import GrammarGraph.Proofs.Unfilled.Benches

/-! Answers that are given while definitions are not complete stay right when they are: what an
evaluator answered about a node from which open placeholders can be reached, it answers again on the
complete graph, from the books and slots that it found the first time. -/
namespace GrammarGraph

/-- The graph `f` with the books of `g`, and with the nodes of `g` that are not in `done` and the
cells of `g` as they are in `g`. -/
def Graph.rewind (g f : Graph) (done : List NodeId) : Graph :=
  { g with
    nodes := f.nodes.mapIdx fun n node => if n < g.nodes.size ∧ n ∉ done then g.node n else node
    cells := f.cells.mapIdx fun c cell => g.cells[c]?.getD cell }

namespace Graph

variable {g f : Graph} {done : List NodeId} {n : NodeId} {c : CellId}

@[simp] theorem nodes_size_rewind (g f : Graph) (done : List NodeId) :
    (g.rewind f done).nodes.size = f.nodes.size :=
  Array.size_mapIdx

theorem node_rewind (le : g.nodes.size ≤ f.nodes.size) (n : NodeId) :
    (g.rewind f done).node n = if n < g.nodes.size ∧ n ∉ done then g.node n else f.node n := by
  change ((f.nodes.mapIdx _)[n]?).getD default = _
  rw [Array.getElem?_mapIdx]
  cases there : f.nodes[n]? with
  | some content =>
    have same : f.node n = content := by rw [Graph.node, there]; rfl
    rw [same]
    rfl
  | none =>
    have out := Array.getElem?_eq_none_iff.mp there
    rw [if_neg fun old => absurd old.1 (Nat.not_lt_of_le (Nat.le_trans le out)), node_of_le out]
    rfl

theorem cell_rewind (le : g.cells.size ≤ f.cells.size) (c : CellId) :
    (g.rewind f done).cells[c]? = if c < g.cells.size then g.cells[c]? else f.cells[c]? := by
  change (f.cells.mapIdx _)[c]? = _
  rw [Array.getElem?_mapIdx]
  split
  · next old =>
    rw [Array.getElem?_eq_getElem old, Array.getElem?_eq_getElem (Nat.lt_of_lt_of_le old le)]
    rfl
  · next new =>
    rw [Array.getElem?_eq_none (Nat.le_of_not_lt new)]
    exact congrFun Option.map_id_fun _

theorem padded_rewind (nodes : g.nodes.size ≤ f.nodes.size) (cells : g.cells.size ≤ f.cells.size) :
    g.Padded (g.rewind f []) where
  same := ⟨_, _, rfl⟩
  size := Nat.le_trans nodes (Nat.le_of_eq (nodes_size_rewind ..).symm)
  cellsSize := Nat.le_trans cells (Nat.le_of_eq Array.size_mapIdx.symm)
  node lt := by rw [node_rewind nodes, if_pos ⟨lt, List.not_mem_nil⟩]
  cell lt := by rw [cell_rewind cells, if_pos lt]

theorem completes_rewind (le : g.nodes.size ≤ f.nodes.size)
    (unfilled : ∀ n ∈ done, g.Unfilled n)
    (compound : ∀ n ∈ done, (f.node n).kind.isAtomic = false) :
    (g.rewind f []).Completes (· ∈ done) f.node (g.rewind f done) := by
  have old {n : NodeId} (here : n ∈ done) : (g.rewind f []).node n = g.node n := by
    rw [node_rewind le, if_pos ⟨(unfilled n here).lt, List.not_mem_nil⟩]
  exact {
    same := ⟨_, rfl⟩
    size := by rw [nodes_size_rewind, nodes_size_rewind]
    node := fun {n} other => by
      rw [node_rewind le, node_rewind le]
      simp only [other, List.not_mem_nil, not_false_eq_true]
    unfilled := fun here => by rw [old here]; exact (unfilled _ here).kind
    vacant := fun here side => by rw [old here]; exact (unfilled _ here).vacant side
    filled := fun {n} here => by rw [node_rewind le, if_neg fun other => other.2 here]
    compound := fun here => compound _ here }

theorem Sighted.padded (h : g.Sighted) (padded : g.Padded f) : f.Sighted := by
  intro n known
  have kept {m : NodeId} (filled : (g.node m).kind ≠ .placeholder) : f.node m = g.node m :=
    padded.node (lt_of_kind filled)
  obtain ⟨nodes, cells, rfl⟩ := padded.same
  have seen := h n known
  refine ⟨by rw [kept seen.filled]; exact seen.filled, fun kind => ?_⟩
  rw [kept seen.filled] at kind ⊢
  obtain ⟨m, slot, filled⟩ := seen.reduced kind
  exact ⟨m, slot, by rw [kept filled]; exact filled⟩

theorem lit_rewind (nodes : g.nodes.size ≤ f.nodes.size) (cells : g.cells.size ≤ f.cells.size)
    (sighted : g.Sighted) (formed : g.Formed) (formed' : f.Formed) : (g.rewind f []).Lit where
  sighted := sighted.padded (padded_rewind nodes cells)
  termless cell body scope := by
    rw [suspension?, cell_rewind cells]
    split
    · exact formed.term
    · exact formed'.term

end Graph

namespace Bench

variable {b b' : Bench} {q : Placing .plain} {g g' : Graph} {n : NodeId}

/-- The open placeholders of `b` that `b'` has filled. -/
def completed (b b' : Bench) : List NodeId :=
  b.opened.filter fun n => !(b'.graph.node n).kind.isAtomic

/-- The graph of `b'`, in which definitions are complete that were open in `b`, with everything that
the evaluators knew and everything that was in the slots when it was the graph of `b`. -/
def rewound (b b' : Bench) : Graph :=
  b.graph.rewind b'.graph (b.completed b')

/-- What a question to `b` left in `g` is what the same question left in `g'` once definitions were
complete: `q` says which nodes of `g'` are those of `g`. Placeholders that were open are themselves,
and in `g'` they hold what `b'` holds there. -/
structure Echoes (b b' : Bench) (q : Placing .plain) (g g' : Graph) : Prop where
  matching : Matching q.At
  matchingCells : Matching q.AtCell
  inside : ∀ {m m'}, q.At m m' → m < g.nodes.size ∧ m' < g'.nodes.size
  old : ∀ {m}, m < b.graph.nodes.size → q.At m m
  nodes : ∀ {m m'}, q.At m m' → m ∉ b.completed b' → q.Nodes (g.node m) (g'.node m')
  cells : ∀ {c c'}, q.AtCell c c' → Option.Rel q.Cells g.cells[c]? g'.cells[c']?
  completed : ∀ {m}, m ∈ b.completed b' → g'.node m = b'.graph.node m
  /-- What was made in the meantime stays as it is. -/
  later : ∀ {m}, b.graph.nodes.size ≤ m → m < b'.graph.nodes.size → g'.node m = b'.graph.node m
  /-- What is kept about any other node is what is found again. -/
  stored : ∀ (i : Evaluator) {m m'}, q.At m m' → i.atom m = none →
    Option.Rel (q.Results i) ((i.of g).stored.get? m) ((i.of g').stored.get? m')

theorem mem_completed : n ∈ b.completed b' ↔
    n ∈ b.opened ∧ (b'.graph.node n).kind.isAtomic = false := by
  rw [completed, List.mem_filter, Bool.not_eq_true']

/-- What an evaluator answers without a fault while definitions are open, it answers again once
they are complete, from the books and slots of the first time. A node that compaction gives is
made again, and looks as it did. -/
theorem answers_stand (attained : b.Attained) (moves : Relation.ReflTransGen Move b b')
    (i : Evaluator) (bound : Nat) (lt : n < b.graph.nodes.size) {v : i.Result}
    (ends : i.ask (Engine.run bound) n b.graph = some (.ok v, g)) :
    ∃ (q : Placing .plain) (v' : i.Result) (g' : Graph),
      i.ask (Engine.run bound) n (b.rewound b') = some (.ok v', g') ∧
        q.Results i v v' ∧ b.Echoes b' q g g' := by
  have attended := attained.attended
  obtain ⟨attended', nodes, cells⟩ := attended.moves moves
  have padded := Graph.padded_rewind nodes cells
  have unfilled (m : NodeId) (here : m ∈ b.completed b') : b.graph.Unfilled m :=
    attended.opened m (mem_completed.mp here).1
  have completes := Graph.completes_rewind nodes unfilled fun m here => (mem_completed.mp here).2
  have lit := Graph.lit_rewind nodes cells attended.poised.sighted attended.landed.formed
    attended'.landed.formed
  -- On the larger graph, with nothing complete, the question is answered alike.
  have mirrored := Cast.run_mirrored .plain bound
  rw [Cast.run_of_strict True.intro] at mirrored
  have met := mirrored.evaluate (p := .whole b.graph) i ⟨rfl, lt⟩ _ _
    (attended.landed.sketches attended.poised.familiar (Cast.same_faithful _) (b.graph.suits_same _)
      (fun _ => id) padded)
  rw [ends] at met
  generalize answered : i.ask (Engine.run bound) n (b.graph.rewind b'.graph []) = ended at met
  cases met with
  | @ended q _ _ _ g₁ step sketches related =>
    cases related with
    | @value _ v' related =>
      -- From there nothing but placeholders is filled, and nobody looked at one.
      obtain ⟨g', ends', completes'⟩ :=
        ((Engine.run_overlooks _ _ bound).evaluate i n lit) _ v' g₁ completes answered
      have placed {m : NodeId} (old : m < b.graph.nodes.size) : q.At m m :=
        step.le.node ⟨rfl, old⟩
      refine ⟨q, v', g', ends', related, ?_⟩
      exact {
        matching := sketches.matching
        matchingCells := sketches.matchingCells
        inside := fun at_ => completes'.size ▸ sketches.inside at_
        old := placed
        nodes := fun {m m'} at_ other => by
          have free : m' ∉ b.completed b' := fun here =>
            other (sketches.matching.left at_ (placed (unfilled m' here).lt) ▸ here)
          rw [completes'.node free]
          exact sketches.nodes at_
        cells := fun at_ => completes'.cells ▸ sketches.cells at_
        completed := fun here => completes'.filled here
        later := fun {m} new there => by
          have free : m ∉ b.completed b' := fun here =>
            Nat.not_lt_of_le new (unfilled m here).lt
          have still : g₁.node m = (b.graph.rewind b'.graph []).node m :=
            step.node (Nat.lt_of_lt_of_eq there (Graph.nodes_size_rewind ..).symm)
              fun ⟨_, same, old⟩ => Nat.not_lt_of_le new (same ▸ old)
          rw [completes'.node free, still, Graph.node_rewind nodes,
            if_neg fun old => Nat.not_lt_of_le new old.1]
        stored := fun i m m' at_ other => by
          rw [completes'.of i]
          exact ((sketches.books i).entries at_ other).stored }

/-- A reduction of an alternative, as node 5, of which the second side is to be defined. -/
def pending : Bench :=
  let begun : Bench := { grown {} (Graph.addNode { kind := .placeholder } {}) with opened := [2] }
  let one := begun.grown (begun.graph.addNode { kind := .char, symbol := .int 1 })
  let either := one.grown (one.graph.addNode { kind := .alt, first := .node 3, second := .node 2 })
  either.grown
    (either.graph.addNode { kind := .red, first := .node 4, transform := .prepend (.int 0) })

theorem pending_attained : pending.Attained :=
  .tail (.tail (.tail (.tail .refl
    (.step (.begin rfl)))
    (.step (.construct (.char (.int 1)) (fun _ none => nomatch none) rfl)))
    (.step (.construct (.alt [3, 2]) (by simp [grown, Construction.operands]) rfl)))
    (.step (.construct (.red 4 (.prepend (.int 0))) (by simp [grown, Construction.operands]) rfl))

/-- What is there after the reduction was compacted. -/
def compacting : Graph :=
  (Evaluator.compact.ask (Engine.run 9) 5 pending.graph).elim {} Prod.snd

theorem compact_pending :
    Evaluator.compact.ask (Engine.run 9) 5 pending.graph = some (.ok 6, compacting) :=
  rfl

/-- What compaction gave follows a one in the second side. -/
def followed : Bench :=
  let adopted : Bench :=
    { pending with graph := compacting, built := fun k => pending.built k ∨ k = 6 }
  let body := adopted.grown
    (adopted.graph.addNode { kind := .cat, first := .node 3, second := .node 6 })
  { body with graph := body.graph.become 2 7, opened := [] }

theorem followed_moves : Relation.ReflTransGen Move pending followed :=
  .tail (.tail (.tail (.tail .refl
    (.step (.call 9 (.query (.compact 5)) trivial (by decide) rfl)))
    (.adopt 6 (by decide)))
    (.step (.construct (.cat [3, 6]) (by simp [grown, Construction.operands, pending]) rfl)))
    (.step (.complete rfl (show Bench.built _ 7 from .inr (by decide)) rfl))

theorem answers_stand_followed : pending.Attained ∧ Relation.ReflTransGen Move pending followed ∧
    5 < pending.graph.nodes.size ∧
    Evaluator.compact.ask (Engine.run 9) 5 pending.graph = some (.ok 6, compacting) ∧
    ∃ (q : Placing .plain) (v' : NodeId) (g' : Graph),
      Evaluator.compact.ask (Engine.run 9) 5 (pending.rewound followed) = some (.ok v', g') ∧
        q.At 6 v' ∧ pending.Echoes followed q compacting g' :=
  ⟨pending_attained, followed_moves, by decide, compact_pending,
    answers_stand pending_attained followed_moves .compact 9 (by decide) compact_pending⟩

end Bench

end GrammarGraph
