import GrammarGraph.Proofs.Census.Books
import GrammarGraph.Proofs.Formed
import GrammarGraph.Proofs.Outcomes
import GrammarGraph.Proofs.Regime.Keeping

/-! What a run begins it also ends. However a run ends, the same computations are in progress
after it as before it: no frame, no mark of a cell and no started derivative is left over, also if
a fault crossed any number of them. What was recorded before stays recorded, and nothing is
recorded about what is in progress. -/
namespace GrammarGraph

variable {g g' g₁ : Graph} {i : Evaluator} {n : NodeId}

namespace Memo

/-- How a run may leave a memo: the same results are in progress, and none of them is recorded. -/
structure Balanced {ρ : Type} (m m' : Memo ρ) : Prop where
  started : m'.inProgress = m.inProgress
  found : ∀ {n c d}, m.find? n c = some d → m'.find? n c = some d
  unfound : ∀ {n c}, m.isStarted n c = true → m.find? n c = none → m'.find? n c = none

namespace Balanced

variable {ρ : Type} {m m₁ m' : Memo ρ} {n : Nat} {c : Value}

theorem refl (m : Memo ρ) : m.Balanced m :=
  ⟨rfl, id, fun _ => id⟩

theorem trans (h : m.Balanced m₁) (k : m₁.Balanced m') : m.Balanced m' where
  started := k.started.trans h.started
  found known := k.found (h.found known)
  unfound busy none := by
    refine k.unfound ?_ (h.unfound busy none)
    rw [isStarted, h.started]
    exact busy

theorem stop (within : (m.start n c).Balanced m₁) : m.Balanced (m₁.stop n c) where
  started := inProgress_stop within.started
  found known := within.found known
  unfound busy none := by
    refine within.unfound ?_ none
    rw [isStarted_iff] at busy ⊢
    exact busy.imp fun known h => ⟨List.mem_cons_of_mem _ h.1, h.2⟩

theorem finish (within : (m.start n c).Balanced m₁) (none : m.find? n c = none)
    (fresh : m.isStarted n c = false) (d : ρ) : m.Balanced ((m₁.stop n c).finish n c d) where
  started := within.stop.started
  found {k c' d'} known := by
    rw [find?_finish, if_neg fun here => ?_]
    · exact within.stop.found known
    · rw [here.1, ← find?_congr here.2, none] at known
      cases known
  unfound {k c'} busy none' := by
    rw [find?_finish, if_neg fun here => ?_]
    · exact within.stop.unfound busy none'
    · rw [here.1, ← isStarted_congr here.2, fresh] at busy
      cases busy

theorem forget (h : m.Balanced m') (untouched : ∀ {c d}, m.find? n c ≠ some d) :
    m.Balanced (m'.forget n) where
  started := h.started
  found {k c d} known := by
    refine (find?_forget_of_ne fun same => ?_).trans (h.found known)
    exact untouched (same ▸ known)
  unfound busy none := by
    refine Option.eq_none_iff_forall_ne_some.mpr fun d known => ?_
    cases (h.unfound busy none).symm.trans (find?_forget known)

end Balanced

end Memo

/-- What may be recorded: an answer about a node that is there; the empty node is compact. -/
def Evaluator.Permits (g : Graph) (n : NodeId) : (i : Evaluator) → i.Result → Prop
  | .compact, v => n < g.nodes.size ∧
    ((g.node .empty).kind = .empty → n = NodeId.empty → v = NodeId.empty)
  | .forest, _ | .nullable, _ | .emptyLike, _ | .epsLike, _ => n < g.nodes.size

namespace Graph

/-- The books are in order. -/
structure Tidy (g : Graph) : Prop where
  room : NodeId.empty < g.nodes.size
  orderly : ∀ i, (Evaluator.of i g).Orderly
  active : ∀ i, i ≠ .compact → ∀ {n d}, (Evaluator.of i g).active.get? n = some d →
    n < g.nodes.size
  known : ∀ i {n v}, (Evaluator.of i g).Knows n v → i.Permits g n v
  found : ∀ {n c d}, g.derivatives.find? n c = some d → n < g.nodes.size ∧ c.hashable = true ∧
    ((g.node .empty).kind = .empty → n = NodeId.empty → d = NodeId.empty)

/-- How a run may leave a graph, however the run ends. -/
structure Balanced (g g' : Graph) : Prop where
  evolves : g.Evolves g'
  forcing : ∀ cell, g'.isForcing cell = g.isForcing cell
  books : ∀ i, (Evaluator.of i g).Above 0 (Evaluator.of i g')
  derivatives : g.derivatives.Balanced g'.derivatives

theorem Balanced.refl (g : Graph) : g.Balanced g :=
  ⟨.refl g, fun _ => rfl, fun _ => .refl _ _, .refl _⟩

theorem Balanced.trans (h : g.Balanced g₁) (k : g₁.Balanced g') : g.Balanced g' where
  evolves := h.evolves.trans k.evolves
  forcing cell := (k.forcing cell).trans (h.forcing cell)
  books i := (h.books i).trans (k.books i)
  derivatives := h.derivatives.trans k.derivatives

end Graph

open GrammarGraph.Graph (Tidy Balanced)

/-- What is in progress stays so, and the books stay in order. -/
def balanced : Regime Unit where
  Valid _ g := g.Tidy
  Later _ g _ g' := g.Balanced g'
  refl _ g := .refl g
  trans := .trans

theorem Evaluator.Permits.lt {v : i.Result} (h : i.Permits g n v) : n < g.nodes.size := by
  cases i with
  | compact => exact h.1
  | forest | nullable | emptyLike | epsLike => exact h

theorem Evaluator.Permits.mono {v : i.Result} (h : i.Permits g n v)
    (size : g.nodes.size ≤ g'.nodes.size)
    (kind : (g'.node .empty).kind = (g.node .empty).kind) : i.Permits g' n v := by
  cases i with
  | compact => exact ⟨Nat.lt_of_lt_of_le h.1 size, fun empty => h.2 (kind ▸ empty)⟩
  | forest | nullable | emptyLike | epsLike => exact Nat.lt_of_lt_of_le h size

theorem Graph.Tidy.congr (h : g.Tidy) (size : g.nodes.size ≤ g'.nodes.size)
    (kind : (g'.node .empty).kind = (g.node .empty).kind)
    (books : ∀ i, Evaluator.of i g' = Evaluator.of i g) (derivatives : g'.derivatives = g.derivatives) :
    g'.Tidy where
  room := Nat.lt_of_lt_of_le h.room size
  orderly i := books i ▸ h.orderly i
  active i other n d known :=
    Nat.lt_of_lt_of_le (h.active i other (books i ▸ known)) size
  known i n v known := (h.known i (books i ▸ known)).mono size kind
  found known := by
    obtain ⟨lt, hashable, barren⟩ := h.found (derivatives ▸ known)
    exact ⟨Nat.lt_of_lt_of_le lt size, hashable, fun empty => barren (kind ▸ empty)⟩

theorem Graph.Balanced.congr (evolves : g.Evolves g')
    (forcing : ∀ cell, g'.isForcing cell = g.isForcing cell)
    (books : ∀ i, Evaluator.of i g' = Evaluator.of i g) (derivatives : g'.derivatives = g.derivatives) :
    g.Balanced g' where
  evolves := evolves
  forcing := forcing
  books i := books i ▸ .refl 0 _
  derivatives := derivatives ▸ .refl _

namespace Graph.Tidy

variable (h : g.Tidy)
include h

theorem kind_empty (evolves : g.Evolves g') :
    (g'.node .empty).kind = (g.node .empty).kind :=
  evolves.kind h.room

theorem addNode (node : Node) : g.Balanced (g.addNode node) ∧ (g.addNode node).Tidy :=
  have evolves := addNode_evolves node
  ⟨.congr evolves (fun _ => rfl) (fun _ => Evaluator.of_addNode _) rfl,
    h.congr evolves.size (h.kind_empty evolves) (fun _ => Evaluator.of_addNode _) rfl⟩

theorem addCell (s : Suspension) : g.Balanced (g.addCell s) ∧ (g.addCell s).Tidy :=
  have evolves := addCell_evolves s
  ⟨.congr evolves (isForcing_addCell s) (fun _ => Evaluator.of_addCell _) rfl,
    h.congr evolves.size rfl (fun _ => Evaluator.of_addCell _) rfl⟩

theorem setForcing (cell : CellId) (mark : Bool) : (g.setForcing cell mark).Tidy :=
  h.congr (Nat.le_refl _) rfl (fun _ => Evaluator.of_setForcing ..) rfl

theorem setSlot {side : Side} (x : Slot) (evolves : g.Evolves (g.setSlot n side x)) :
    (g.setSlot n side x).Tidy :=
  h.congr evolves.size (h.kind_empty evolves) (fun _ => Evaluator.of_setSlot ..) rfl

theorem journal (journal : Option Journal) :
    g.Balanced { g with journal } ∧ Graph.Tidy { g with journal } :=
  ⟨.congr (evolves_of_eq rfl rfl) (fun _ => rfl) (fun i => by cases i <;> rfl) rfl,
    h.congr (Nat.le_refl _) rfl (fun i => by cases i <;> rfl) rfl⟩

end Graph.Tidy

theorem Memo.find?_forget_self {ρ : Type} {m : Memo ρ} {n : Nat} {c : Value} :
    (m.forget n).find? n c = none := by
  simp [find?, forget, Table.get?_erase]

/-- A node may be overwritten if nothing is known of it for the time being. -/
theorem Graph.Tidy.become (h : g.Tidy) (other : NodeId)
    (settled : n = NodeId.empty → g.compacted.provisional.get? n = none) :
    (g.become n other).Tidy where
  room := by
    rw [nodes_size_become]
    exact h.room
  orderly i := by
    rw [Evaluator.of_become]
    exact (h.orderly i).forget n
  active i other' m d known := by
    rw [Evaluator.of_become] at known
    rw [nodes_size_become]
    exact h.active i other' known
  known i m v known := by
    rw [Evaluator.of_become] at known
    have permits := h.known i (Evaluation.knows_forget known)
    by_cases same : n = NodeId.empty
    · cases i with
      | compact =>
        refine ⟨by rw [nodes_size_become]; exact permits.lt, fun _ empty => ?_⟩
        subst same empty
        rcases known with stored | ⟨entry, provisional, _⟩
        · rw [Evaluation.stored_forget, if_pos rfl] at stored
          cases stored
        · cases (settled rfl).symm.trans provisional
      | forest | nullable | emptyLike | epsLike =>
        exact Nat.lt_of_lt_of_eq permits.lt (nodes_size_become n other).symm
    · refine permits.mono (Nat.le_of_eq (nodes_size_become n other).symm) ?_
      rw [node_become_of_ne other fun empty => same empty.symm]
  found {m c d} known := by
    have known : (g.derivatives.forget n).find? m c = some d := known
    obtain ⟨there, hashable, barren⟩ := h.found (Memo.find?_forget known)
    refine ⟨by rw [nodes_size_become]; exact there, hashable, fun kind empty => ?_⟩
    by_cases same : n = m
    · rw [same, Memo.find?_forget_self] at known
      cases known
    · rw [node_become_of_ne other fun here => same (here.symm.trans empty.symm)] at kind
      exact barren kind empty

/-- A definition is completed that is newer than what the books speak of. -/
theorem Graph.Balanced.become (h : g.Balanced g₁) (tidy : g.Tidy) (le : g.nodes.size ≤ n)
    (other : NodeId) : g.Balanced (g₁.become n other) where
  evolves := h.evolves.become le other
  forcing := h.forcing
  books i := by
    rw [Evaluator.of_become]
    have books := h.books i
    refine ⟨books.active, books.size, books.frames, books.provisional, fun m v known => ?_⟩
    have there := (tidy.known i (.inl known)).lt
    rw [Evaluation.stored_forget, if_neg (Nat.ne_of_lt (Nat.lt_of_lt_of_le there le))]
    exact books.stored m v known
  derivatives := h.derivatives.forget fun known => absurd (tidy.found known).1 (Nat.not_lt_of_le le)

/-- Only what a definition is about is overwritten, and that was not there before. -/
theorem balanced_letrec {body : NodeId → Run Operand} (keeps : ∀ n, balanced.Keeps (body n)) :
    balanced.Keeps (do
      let placeholder ← Run.make { kind := .placeholder }
      let body ← body placeholder
      Grammar.define placeholder body) := by
  intro g tidy result g' ends
  suffices step : g.Balanced g' ∧ g'.Tidy from ⟨(), step.1, step.2, fun _ _ => trivial⟩
  obtain ⟨grown, tidy₀⟩ := tidy.addNode { kind := .placeholder }
  obtain ⟨built, g₁, building, ended⟩ := Grammar.letrec_cases ends
  obtain ⟨_, within, tidy₁, -⟩ := keeps _ _ tidy₀ _ _ building
  have whole := grown.trans within
  rcases ended with rfl | ⟨k, -, -, rfl⟩
  · exact ⟨whole, tidy₁⟩
  · exact ⟨whole.become tidy (Nat.le_refl _) k, tidy₁.become k fun none =>
      absurd tidy.room (none ▸ Nat.lt_irrefl _)⟩

/-- Evaluators and terms end what they begin if their questions are answered so. -/
theorem balanced_constructive :
    Constructive fun _ r => ∀ ask, balanced.Answers ask → balanced.Keeps (r ask) where
  toCompositional := Regime.compositional (fun _ => .make fun _ tidy => tidy.addNode _)
    fun _ => .defer fun _ tidy => tidy.addCell _
  postpone _ _ _ _ _ := .defer fun _ tidy => tidy.addCell _
  note _ _ _ _ := .update fun _ tidy => tidy.journal _
  letrec body ask h := balanced_letrec fun n => body n ask h
  anyNode _ node _ _ _ := .make fun _ tidy => tidy.addNode node

/-- A change in the books of an evaluator is fine if what comes of the books is. -/
theorem Graph.Balanced.around {f f' : Evaluation i.Result → Evaluation i.Result}
    (h : (i.held.modify f g).Balanced g₁) (books : (i.of g).Above 0 (f' (i.of g₁))) :
    g.Balanced (i.held.modify f' g₁) where
  evolves := (Evaluator.evolves_modify f).trans (h.evolves.trans (Evaluator.evolves_modify f'))
  forcing cell := by
    rw [Evaluator.isForcing_modify, h.forcing, Evaluator.isForcing_modify]
  books j := by
    by_cases same : j = i
    · subst same
      rw [Evaluator.of_modify]
      exact books
    · have others := h.books j
      rw [Evaluator.of_modify_of_ne f same] at others
      rw [Evaluator.of_modify_of_ne f' same]
      exact others
  derivatives := by simpa using h.derivatives

theorem Graph.Balanced.modify {f : Evaluation i.Result → Evaluation i.Result}
    (books : (i.of g).Above 0 (f (i.of g))) : g.Balanced (i.held.modify f g) := by
  have same : i.held.modify id g = g := by cases i <;> rfl
  exact .around (f := id) (same.symm ▸ .refl g) books

theorem Graph.Tidy.modify {f : Evaluation i.Result → Evaluation i.Result} (h : g.Tidy)
    (orderly : (f (i.of g)).Orderly)
    (active : ∀ {n d}, (f (i.of g)).active.get? n = some d →
      (i.of g).active.get? n = some d ∨ i = .compact ∨ n < g.nodes.size)
    (known : ∀ {n v}, (f (i.of g)).Knows n v → (i.of g).Knows n v ∨ i.Permits g n v) :
    (i.held.modify f g).Tidy where
  room := by
    rw [Evaluator.nodes_modify]
    exact h.room
  orderly j := by
    by_cases same : j = i
    · subst same
      rw [Evaluator.of_modify]
      exact orderly
    · rw [Evaluator.of_modify_of_ne f same]
      exact h.orderly j
  active j other n d known' := by
    rw [Evaluator.nodes_modify]
    by_cases same : j = i
    · subst same
      rw [Evaluator.of_modify] at known'
      rcases active known' with known | compact | lt
      · exact h.active j other known
      · exact absurd compact other
      · exact lt
    · rw [Evaluator.of_modify_of_ne f same] at known'
      exact h.active j other known'
  known j n v known' := by
    refine Evaluator.Permits.mono (g := g) ?_ (Nat.le_of_eq (by rw [Evaluator.nodes_modify]))
      (by rw [Graph.node_congr (Evaluator.nodes_modify f)])
    by_cases same : j = i
    · subst same
      rw [Evaluator.of_modify] at known'
      exact (known known').elim (h.known j) id
    · rw [Evaluator.of_modify_of_ne f same] at known'
      exact h.known j known'
  found known := by
    rw [Evaluator.derivatives_modify] at known
    rw [Evaluator.nodes_modify, Graph.node_congr (Evaluator.nodes_modify f)]
    exact h.found known

namespace Evaluator

theorem exists_default (i : Evaluator) (n : NodeId) :
    ∃ v, ∀ g, i.default n g = some (.ok v, g) := by
  cases i <;> exact ⟨_, fun _ => rfl⟩

/-- The rules give no answers about nodes that are not there. -/
theorem body_out {ask : Ask} (other : i ≠ .compact) (out : g.nodes.size ≤ n) :
    i.body ask n g = some (.error (.unexpectedKind .placeholder), g) := by
  have kind : (g.node n).kind = .placeholder := by rw [Graph.node_of_le out]; rfl
  cases i with
  | compact => exact absurd rfl other
  | forest =>
    simp only [body, Extraction.forest, Run.node, RunOf.read_bind]
    rw [Graph.node_of_le out]
    rfl
  | nullable =>
    simp only [body, Emptiness.nullable, Run.kind, RunOf.read_bind, kind]
    rfl
  | emptyLike =>
    simp only [body, Emptiness.emptyLike, Run.kind, RunOf.read_bind, kind]
    rfl
  | epsLike =>
    simp only [body, Emptiness.epsLike, Run.kind, RunOf.read_bind, kind]
    rfl

end Evaluator

/-- While a rule is at work, its node is in progress. -/
theorem Evaluation.Fresh.visited {α : Type} {e e' : Evaluation α} (fresh : e.Fresh n)
    (above : (e.enter n).Above 0 e') (before : e.Orderly) (after : e'.Orderly) :
    Visited 0 n e e' where
  above := above
  before := before
  after := after
  upright _ _ _ _ := Nat.zero_le _
  floor := Nat.zero_le _
  unknown := fresh.stored
  idle := fresh.active

theorem Graph.Balanced.visited (within : (i.held.modify (Evaluation.enter n) g).Balanced g₁)
    (fresh : (i.of g).Fresh n) (tidy : g.Tidy) (orderly : (i.of g₁).Orderly) :
    Evaluation.Visited 0 n (i.of g) (i.of g₁) := by
  have books := within.books i
  rw [Evaluator.of_modify] at books
  exact fresh.visited books (tidy.orderly i) orderly

theorem Graph.Tidy.enter (tidy : g.Tidy) (fresh : (i.of g).Fresh n)
    (lt : i = .compact ∨ n < g.nodes.size) : (i.held.modify (Evaluation.enter n) g).Tidy := by
  refine tidy.modify ((tidy.orderly i).enter fresh.stored fresh.provisional) (fun known => ?_) .inl
  rw [Evaluation.active_enter] at known
  split at known
  · next same => exact .inr (same ▸ lt)
  · exact .inl known

theorem Graph.Tidy.close {f : Evaluation i.Result → Evaluation i.Result} (tidy : g₁.Tidy)
    (orderly : (f (i.of g₁)).Orderly)
    (active : ∀ m, (f (i.of g₁)).active.get? m = ((i.of g₁).leave n).active.get? m)
    (known : ∀ {m v}, (f (i.of g₁)).Knows m v → (i.of g₁).Knows m v ∨ i.Permits g₁ m v) :
    (i.held.modify f g₁).Tidy := by
  refine tidy.modify orderly (fun {m d} left => ?_) known
  rw [active, Evaluation.active_leave] at left
  split at left
  · cases left
  · exact .inl left

/-- The questions are answered by runs that end what they begin; about nodes that are not there
it is not answered whether they are like the empty node. -/
structure Ask.Balances (ask : Ask) : Prop where
  keeps : balanced.Answers ask
  emptyLike : ∀ {g n v g'}, g.Tidy → ask (.emptyLike n) g = some (.ok v, g') → n < g.nodes.size

namespace Ask.Balances

variable {ask : Ask} (h : ask.Balances)
include h

/-- Rules give answers about nodes that are there, and leave the empty node as it is. -/
theorem body_permits {v : i.Result} (tidy : g.Tidy) (given : i.body ask n g = some (.ok v, g')) :
    i.Permits g n v := by
  by_cases other : i = .compact
  · subst other
    have lt : n < g.nodes.size := by
      refine Nat.lt_of_not_le fun out => ?_
      have kind : (g.node n).kind = .placeholder := by rw [Graph.node_of_le out]; rfl
      simp only [Evaluator.body, Compaction.compact, Run.kind, RunOf.read_bind, kind] at given
      rw [RunOf.bind_run] at given
      obtain ⟨⟨answer, g₁⟩, asked, given⟩ := Option.bind_eq_some_iff.mp given
      cases answer with
      | error fault => cases given
      | ok v => exact absurd (h.emptyLike tidy asked) (Nat.not_lt_of_le out)
    refine ⟨lt, fun empty same => ?_⟩
    subst same
    simp only [Evaluator.body, Compaction.compact, Run.kind, RunOf.read_bind, empty] at given
    cases given
    rfl
  · have lt : n < g.nodes.size := by
      refine Nat.lt_of_not_le fun out => ?_
      rw [Evaluator.body_out other out] at given
      cases given
    cases i with
    | compact => exact absurd rfl other
    | forest | nullable | emptyLike | epsLike => exact lt

theorem fails {fault : Fault} (tidy : g.Tidy) (fresh : (i.of g).Fresh n)
    (ends : i.body ask n (i.held.modify (Evaluation.enter n) g) = some (.error fault, g₁)) :
    g.Balanced (i.held.modify (Evaluation.leave n) g₁) ∧
      (i.held.modify (Evaluation.leave n) g₁).Tidy := by
  by_cases lt : i = .compact ∨ n < g.nodes.size
  · have entered := tidy.enter fresh lt
    obtain ⟨_, within, tidy₁, -⟩ :=
      balanced_constructive.toCompositional.body i n ask h.keeps _ entered _ _ ends
    have visited := within.visited fresh tidy (tidy₁.orderly i)
    exact ⟨within.around visited.above_left, tidy₁.close visited.orderly_left (fun _ => rfl)
      fun known => .inl (Evaluation.knows_leave known)⟩
  · obtain ⟨other, out⟩ := not_or.mp lt
    rw [Evaluator.body_out other (by simpa using out)] at ends
    cases ends
    have within := Balanced.refl (i.held.modify (Evaluation.enter n) g)
    have entered : (i.of (i.held.modify (Evaluation.enter n) g)).Orderly := by
      rw [Evaluator.of_modify]
      exact (tidy.orderly i).enter fresh.stored fresh.provisional
    have visited := within.visited fresh tidy entered
    rw [Evaluator.of_modify] at visited
    rw [Evaluator.modify_modify]
    refine ⟨.modify visited.above_left, tidy.modify visited.orderly_left (fun known => ?_)
      fun known => .inl ?_⟩
    · rw [visited.active_left] at known
      exact .inl known
    · have known : ((i.of g).enter n).Knows _ _ := Evaluation.knows_leave known
      exact known

/-- A rule that gives a value leaves that value behind. -/
theorem closes {v : i.Result} (tidy : g.Tidy) (fresh : (i.of g).Fresh n)
    (ends : i.body ask n (i.held.modify (Evaluation.enter n) g) = some (.ok v, g₁)) :
    g.Balanced (i.held.modify (Evaluation.close n v (i.of g).frames.size) g₁) ∧
      (i.held.modify (Evaluation.close n v (i.of g).frames.size) g₁).Tidy := by
  have lt : i = .compact ∨ n < g.nodes.size := by
    refine or_iff_not_imp_left.mpr fun other => Nat.lt_of_not_le fun out => ?_
    rw [Evaluator.body_out other (by simpa using out)] at ends
    cases ends
  have entered := tidy.enter fresh lt
  obtain ⟨_, within, tidy₁, -⟩ :=
    balanced_constructive.toCompositional.body i n ask h.keeps _ entered _ _ ends
  have visited := within.visited fresh tidy (tidy₁.orderly i)
  have permits := (h.body_permits entered ends).mono within.evolves.size
    (entered.kind_empty within.evolves)
  refine ⟨within.around (visited.above_close v), tidy₁.close (n := n) (visited.orderly_close v)
    (fun m => ?_) fun known => ?_⟩
  · unfold Evaluation.close
    split <;> rfl
  · exact (Evaluation.Visited.knows_close known).imp_right fun ⟨same, equal⟩ => same ▸ equal ▸ permits

theorem evaluate (i : Evaluator) (n : NodeId) :
    balanced.Keeps (Evaluation.demand i.held (i.default n) (i.body ask n) n) := by
  intro g tidy result g' ends
  suffices step : g.Balanced g' ∧ g'.Tidy from ⟨(), step.1, step.2, fun _ _ => trivial⟩
  have reliedOn (depth : Nat) : g.Balanced (i.held.modify (Evaluation.reliedOn depth) g) ∧
      (i.held.modify (Evaluation.reliedOn depth) g).Tidy :=
    ⟨.modify (.reliedOn _ (.inr rfl) depth),
      tidy.modify ((tidy.orderly i).reliedOn depth) .inl .inl⟩
  cases Evaluation.demanded ends with
  | stored => exact ⟨.refl g, tidy⟩
  | active _ _ default =>
    obtain ⟨v, gives⟩ := i.exists_default n
    cases (gives _).symm.trans default
    exact reliedOn _
  | provisional => exact reliedOn _
  | failed fresh ended => exact h.fails tidy fresh ended
  | @postponed v g₁ fresh ended low =>
    have same : i.held.modify (Evaluation.postpone n v (i.of g₁).lowlink)
        (i.held.modify (Evaluation.leave n) g₁) =
        i.held.modify (Evaluation.close n v (i.of g).frames.size) g₁ := by
      rw [Evaluator.modify_modify]
      exact Evaluator.modify_congr (if_pos low).symm
    exact same ▸ h.closes tidy fresh ended
  | @computed v g₁ fresh ended high =>
    have same : i.held.modify (Evaluation.store n v) (i.held.modify (Evaluation.leave n) g₁) =
        i.held.modify (Evaluation.close n v (i.of g).frames.size) g₁ := by
      rw [Evaluator.modify_modify]
      exact Evaluator.modify_congr (if_neg high).symm
    exact same ▸ h.closes tidy fresh ended

end Ask.Balances

/-- Only what is there has a derivative, and the empty node has none but itself. -/
theorem Derivative.derive_permits {ask : Ask} {c : Value} {d : NodeId}
    (given : derive ask c n g = some (.ok d, g')) : n < g.nodes.size ∧
      ((g.node .empty).kind = .empty → n = NodeId.empty → d = NodeId.empty) := by
  refine ⟨Nat.lt_of_not_le fun out => ?_, fun empty same => ?_⟩
  · simp only [derive, Run.node, RunOf.read_bind, Graph.node_of_le out] at given
    cases given
  · subst same
    simp only [derive, Run.node, RunOf.read_bind, empty] at given
    cases given
    rfl

theorem Graph.Tidy.derivatives {f : Memo NodeId → Memo NodeId} (tidy : g.Tidy)
    (found : ∀ {n c d}, (f g.derivatives).find? n c = some d → g.derivatives.find? n c = some d ∨
      n < g.nodes.size ∧ c.hashable = true ∧
        ((g.node .empty).kind = .empty → n = NodeId.empty → d = NodeId.empty)) :
    (Held.derivatives.modify f g).Tidy where
  room := tidy.room
  orderly i := by
    rw [Evaluator.of_derivatives]
    exact tidy.orderly i
  active i other n d known := by
    rw [Evaluator.of_derivatives] at known
    exact tidy.active i other known
  known i n v known := by
    rw [Evaluator.of_derivatives] at known
    exact (tidy.known i known).mono (Nat.le_refl _) rfl
  found known := (found known).elim tidy.found id

namespace Graph.Balanced

variable {c : Value} (within : (Held.derivatives.modify (Memo.start n c) g).Balanced g₁)
include within

/-- The derivative that was started is stopped. -/
theorem stop : g.Balanced (Held.derivatives.modify (Memo.stop n c) g₁) where
  evolves := by
    have begun : g.Evolves (Held.derivatives.modify (Memo.start n c) g) :=
      Graph.evolves_of_eq rfl rfl
    exact begun.trans (within.evolves.trans (Graph.evolves_of_eq rfl rfl))
  forcing := within.forcing
  books i := by
    have books := within.books i
    rw [Evaluator.of_derivatives] at books ⊢
    exact books
  derivatives := within.derivatives.stop

/-- The derivative that was started is recorded. -/
theorem finish (none : g.derivatives.find? n c = none) (fresh : g.derivatives.isStarted n c = false)
    (d : NodeId) : g.Balanced (Held.derivatives.modify (Memo.finish n c d)
      (Held.derivatives.modify (Memo.stop n c) g₁)) where
  evolves := within.stop.evolves.trans (Graph.evolves_of_eq rfl rfl)
  forcing := within.stop.forcing
  books i := by
    rw [Evaluator.of_derivatives]
    exact within.stop.books i
  derivatives := within.derivatives.finish none fresh d

end Graph.Balanced

/-- The cell that was marked for its computation is unmarked. -/
theorem Graph.Balanced.unmark {cell : CellId} (within : (g.setForcing cell true).Balanced g₁)
    (lt : cell < g.cells.size) (free : g.isForcing cell = false) :
    g.Balanced (g₁.setForcing cell false) where
  evolves := within.evolves.unmarked lt free
  forcing c := by
    have lt₁ : cell < g₁.cells.size := Nat.lt_of_lt_of_le (by simpa using lt) within.evolves.cells
    rw [isForcing_setForcing _ lt₁]
    split
    · next same => rw [same, free]
    · next other => rw [within.forcing, isForcing_setForcing _ lt, if_neg other]
  books i := by
    have books := within.books i
    rw [Evaluator.of_setForcing] at books ⊢
    exact books
  derivatives := within.derivatives

namespace Ask.Balances

variable {ask : Ask} (h : ask.Balances)
include h

theorem derive (c : Value) (n : NodeId) : balanced.Keeps
    (Memo.demand .derivatives "derive" (Derivative.derive ask c n) n c) := by
  intro g tidy result g' ends
  suffices step : g.Balanced g' ∧ g'.Tidy from ⟨(), step.1, step.2, fun _ _ => trivial⟩
  have body := balanced_constructive.toCompositional.derive c n ask h.keeps
  have begun : (Held.derivatives.modify (Memo.start n c) g).Tidy := tidy.derivatives .inl
  cases Memo.demanded ends with
  | unhashable | finished | started => exact ⟨.refl g, tidy⟩
  | failed hashable none fresh ended =>
    obtain ⟨_, within, tidy₁, -⟩ := body _ begun _ _ ended
    exact ⟨within.stop, tidy₁.derivatives .inl⟩
  | @computed d g₁ hashable none fresh ended =>
    obtain ⟨_, within, tidy₁, -⟩ := body _ begun _ _ ended
    obtain ⟨lt, barren⟩ := Derivative.derive_permits ended
    have stopped : (Held.derivatives.modify (Memo.stop n c) g₁).Tidy := tidy₁.derivatives .inl
    refine ⟨within.finish none fresh d, stopped.derivatives fun {m c' d'} known => ?_⟩
    rw [Memo.find?_finish] at known
    split at known
    · next here =>
      cases known
      rw [here.1]
      refine .inr ⟨Nat.lt_of_lt_of_le lt within.evolves.size,
        Value.hashable_eq_of_same here.2 ▸ hashable, fun empty => barren ?_⟩
      exact (begun.kind_empty within.evolves).symm.trans empty
    · exact .inl known

theorem read (n : NodeId) (side : Side) : balanced.Keeps (Child.read ask n side) := by
  intro g tidy
  refine .imp (.child (Q := fun _ _ _ => True) (fun _ => trivial) ?_ tidy) fun _ _ _ _ _ _ => trivial
  intro cell s slot suspended free result g₁ ends
  have lt := Graph.lt_of_suspension suspended
  obtain ⟨_, within, tidy₁, -⟩ :=
    balanced_constructive.compute s.uses_true ask h.keeps _ (tidy.setForcing cell true) _ _ ends
  have unmarked := within.unmark lt free
  have tidy₂ := tidy₁.setForcing cell false
  refine ⟨(), unmarked, tidy₂, fun _ _ k _ => ⟨unmarked.trans ?_, tidy₂.setSlot _ ?_, trivial⟩⟩
  · exact .congr (within.evolves.placed lt slot k) (fun _ => rfl) (fun _ => Evaluator.of_setSlot ..) rfl
  · exact (within.evolves.placed lt slot k)

theorem answer (bound : Nat) : balanced.Answers (Engine.answer bound ask)
  | .child n side => h.read n side
  | .nullable n => h.evaluate .nullable n
  | .forest n => h.evaluate .forest n
  | .emptyLike n => h.evaluate .emptyLike n
  | .epsLike n => h.evaluate .epsLike n
  | .compact n => h.evaluate .compact n
  | .derive c n => h.derive c n
  | .nodeCount n => balanced_constructive.toCompositional.nodeCount bound n ask h.keeps

end Ask.Balances

/-- Within any bound, queries end what they begin. -/
theorem Engine.run_balances : ∀ bound, (Engine.run bound).Balances
  | 0 => ⟨fun _ _ _ => .spent, fun _ ends => nomatch ends⟩
  | bound + 1 => by
    refine ⟨(run_balances bound).answer bound, fun {g n v g'} tidy ends => ?_⟩
    have known {v : Bool} (known : g.emptyLike.Knows n v) := (tidy.known .emptyLike known).lt
    have ruled {v : Bool} {g₁ : Graph} (ended : Emptiness.emptyLike (Engine.run bound) n
        (Held.emptyLike.modify (Evaluation.enter n) g) = some (.ok v, g₁)) : n < g.nodes.size := by
      refine Nat.lt_of_not_le fun out => ?_
      have none : Emptiness.emptyLike (Engine.run bound) n
          (Held.emptyLike.modify (Evaluation.enter n) g) = _ :=
        Evaluator.body_out (i := .emptyLike) (by decide) out
      cases none.symm.trans ended
    have ends : Evaluation.demand .emptyLike (pure false)
        (Emptiness.emptyLike (Engine.run bound) n) n g = some (.ok v, g') := ends
    cases Evaluation.demanded ends with
    | stored stored => exact known (.inl stored)
    | active _ active => exact tidy.active .emptyLike (by decide) active
    | provisional _ _ provisional => exact known (.inr ⟨_, provisional, rfl⟩)
    | postponed _ ended _ => exact ruled ended
    | computed _ ended _ => exact ruled ended

end GrammarGraph
