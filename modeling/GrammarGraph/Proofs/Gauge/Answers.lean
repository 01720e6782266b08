import GrammarGraph.Proofs.Gauge.Turns

/-! Every question is answered. One step takes the answers of a level from those below it:
the books are opened, the rule of the question runs in a turn of its own, and the books are
closed again. The answers of all levels follow by induction. -/
namespace GrammarGraph

namespace Graph

theorem suspension_of_lt {g : Graph} {cell : CellId} (lt : cell < g.cells.size) :
    ∃ s, g.suspension? cell = some s :=
  ⟨g.cells[cell].suspension, by simp [suspension?, Array.getElem?_eq_getElem lt]⟩

end Graph

namespace Gauge

variable {σ : Type} {S : Sense σ} {x x₁ : Gauge σ} {g g₀ g₁ g₂ : Graph} {v : Nat} {c : Value}
  {n : NodeId} {side : Side}

/-- Books are opened before a computation and closed after it. -/
theorem Later.around (later : Later x g₀ x₁ g₁) (nodes : g₀.nodes = g.nodes)
    (cells : g₀.cells.size = g.cells.size) (closed : g₂.nodes = g₁.nodes)
    (evolves : g.Evolves g₂) (forcing : ∀ cell, g₂.isForcing cell = g.isForcing cell)
    (started : g₂.derivatives.inProgress = g.derivatives.inProgress)
    (active : ∀ i n, (Evaluator.of i g₂).active.get? n = (Evaluator.of i g).active.get? n)
    (frames : ∀ i, (Evaluator.of i g₂).frames = (Evaluator.of i g).frames) :
    Later x g x₁ g₂ := by
  have size : g₀.nodes.size = g.nodes.size := by rw [nodes]
  refine ⟨evolves, fun y covered => later.agree y ?_, fun n lt side => ?_, forcing, started, active,
    frames⟩
  · exact Graph.Covers.congr size cells covered
  · rw [Graph.node_congr closed, ← Graph.node_congr nodes]
    exact later.within n (size ▸ lt) side

/-- The rules of the engine give what fits, in every turn in which all that lies lower is
answered. -/
class Rules (S : Sense σ) : Prop where
  body : ∀ {v x g n}, Turn S v x g n → Answers S v → ∀ i : Evaluator,
    8 * (x (.node n)).rank + i.index = v →
    (weighing S).Ends x g (fun ask => i.body ask n) fun x' g' r => x'.Fits S g' (x (.node n)) i r
  derive : ∀ {v x g n c}, Turn S v x g n → Answers S v → S.takes c →
    (weighing S).Ends x g (fun ask => Derivative.derive ask c n) fun x' g' d =>
      x'.Stands g' ((x (.node n)).after S c) d

theorem Exact.enter (h : Exact S x g) (i : Evaluator) (n : NodeId) :
    Exact S x (i.held.modify (Evaluation.enter n) g) := by
  have known (j : Evaluator) :
      (j.of (i.held.modify (Evaluation.enter n) g)).stored = (j.of g).stored ∧
      (j.of (i.held.modify (Evaluation.enter n) g)).provisional = (j.of g).provisional := by
    by_cases same : j = i
    · subst same
      rw [Evaluator.of_modify]
      exact ⟨rfl, rfl⟩
    · rw [Evaluator.of_modify_of_ne _ same]
      exact ⟨rfl, rfl⟩
  refine h.books (by simp) (fun _ => by simp [Graph.suspension?]) (by simp)
    (fun hd => h.derivatives (by simpa using hd)) (fun j _ _ found => ?_) fun j m => ?_
  · rw [(known j).1] at found
    exact h.stored j found
  · rw [(known j).2]
    exact h.provisional j m

theorem Busy.enter (busy : Busy x g (v + 1)) (i : Evaluator) (lt : n < g.nodes.size)
    (level : 8 * (x (.node n)).rank + i.index = v) :
    Busy x (i.held.modify (Evaluation.enter n) g) v := by
  have busy' := busy.mono (Nat.le_succ v)
  refine ⟨fun held => busy'.forcing ?_, fun member => ?_, fun j k d found => ?_⟩
  · simpa [Graph.isForcing] using held
  · rw [Evaluator.derivatives_modify] at member
    rw [Evaluator.nodes_modify]
    exact busy'.started member
  · rw [Evaluator.nodes_modify]
    by_cases same : j = i
    · subst same
      rw [Evaluator.of_modify, Evaluation.active_enter] at found
      split at found
      · next this =>
        subst this
        exact ⟨lt, Nat.le_of_eq level.symm⟩
      · exact busy'.active j found
    · rw [Evaluator.of_modify_of_ne _ same] at found
      exact busy'.active j found

/-- A result is recorded when the books of its evaluator are closed. -/
theorem Exact.conclude (h : Exact S x g) (i : Evaluator) (lt : n < g.nodes.size) {r : i.Result}
    (fits : x.Fits S g (x (.node n)) i r) {frames : Array Frame}
    (innermost : (i.of g).frames = frames.push ⟨frames.size, []⟩) :
    Exact S x (i.held.modify (Evaluation.store n r) (i.held.modify (Evaluation.leave n) g)) := by
  refine h.books (by simp) (fun _ => by simp [Graph.suspension?]) (by simp)
    (fun hd => h.derivatives (by simpa using hd)) (fun j k r' found => ?_) fun j k => ?_
  · by_cases same : j = i
    · subst same
      rw [Evaluator.of_modify, Evaluator.of_modify, Evaluation.stored_store] at found
      split at found
      · next this =>
        cases found
        subst this
        exact ⟨lt, fits⟩
      · exact h.stored j found
    · rw [Evaluator.of_modify_of_ne _ same, Evaluator.of_modify_of_ne _ same] at found
      exact h.stored j found
  · by_cases same : j = i
    · subst same
      rw [Evaluator.of_modify, Evaluator.of_modify]
      change (Evaluation.leave n _).provisional.get? k = none
      rw [Evaluation.provisional_leave innermost]
      exact h.provisional j k
    · rw [Evaluator.of_modify_of_ne _ same, Evaluator.of_modify_of_ne _ same]
      exact h.provisional j k

theorem Later.conclude {i : Evaluator} {r : i.Result}
    (later : Later x (i.held.modify (Evaluation.enter n) g) x₁ g₁)
    (inactive : (i.of g).active.get? n = none) :
    Later x g x₁ (i.held.modify (Evaluation.store n r) (i.held.modify (Evaluation.leave n) g₁)) := by
  have evolves : g.Evolves
      (i.held.modify (Evaluation.store n r) (i.held.modify (Evaluation.leave n) g₁)) :=
    (g.evolves_of_eq (by simp) (by simp)).trans
      (later.evolves.trans (g₁.evolves_of_eq (by simp) (by simp)))
  refine later.around (by simp) (by simp) (by simp) evolves (fun cell => ?_) ?_ (fun j k => ?_)
    fun j => ?_
  · have same := later.forcing cell
    simpa [Graph.isForcing] using same
  · simpa using later.started
  · have same := later.active j k
    by_cases this : j = i
    · subst this
      simp only [Evaluator.of_modify] at same ⊢
      change (Evaluation.leave n _).active.get? k = _
      rw [Evaluation.active_leave]
      rw [Evaluation.active_enter] at same
      split
      · next this => rw [this, inactive]
      · next other => rw [same, if_neg other]
    · simpa only [Evaluator.of_modify_of_ne _ this] using same
  · have same := later.frames j
    by_cases this : j = i
    · subst this
      simp only [Evaluator.of_modify, Evaluation.frames_enter] at same ⊢
      rw [Evaluation.frames_store, Evaluation.frames_leave, same, Array.pop_push]
    · simpa only [Evaluator.of_modify_of_ne _ this] using same

theorem evaluate_step [Rules S] (lower : Answers S v) (i : Evaluator) (h : Exact S x g)
    (busy : Busy x g (v + 1)) (lt : n < g.nodes.size)
    (level : 8 * (x (.node n)).rank + i.index = v) :
    (weighing S).Ends x g (fun ask => i.ask ask n) fun x' g' r =>
      x'.Fits S g' (x (.node n)) i r := by
  refine .evaluator ?_
  cases stored : (i.of g).stored.get? n with
  | some r =>
    exact ⟨r, g, ⟨0, fun _ _ => Evaluation.demand_stored stored⟩, x, .refl x g, h,
      (h.stored i stored).2⟩
  | none =>
    have inactive : (i.of g).active.get? n = none := by
      cases active : (i.of g).active.get? n with
      | none => rfl
      | some d => exact absurd (busy.active i active).2 (by omega)
    have above : 8 * (x (.node n)).rank < v := by
      rw [← level]
      cases i <;> exact Nat.lt_add_of_pos_right (by decide)
    -- the graph while the evaluation of the node is in progress
    have turn : Turn S v x (i.held.modify (Evaluation.enter n) g) n :=
      ⟨h.enter i n, busy.enter i lt level, by simpa using lt, above⟩
    obtain ⟨r, g₁, ⟨least, gives⟩, x₁, later, h₁, fits⟩ := Rules.body turn lower i level
    have frames : (i.of g₁).frames = (i.of g).frames.push ⟨(i.of g).frames.size, []⟩ := by
      rw [later.frames, Evaluator.of_modify, Evaluation.frames_enter]
    have lt₁ : n < g₁.nodes.size := later.lt turn.lt
    have fits₁ : x₁.Fits S g₁ (x₁ (.node n)) i r := by
      rw [later.node turn.lt]
      exact fits
    refine ⟨r, _, ⟨least, fun bound le => Evaluation.demand_fresh stored inactive
      (h.provisional i n) (gives bound le) (Evaluation.lowlink_of_frames frames)⟩, x₁, ?_,
      h₁.conclude i lt₁ fits₁ frames, ?_⟩
    · exact later.conclude inactive
    · exact fits.congr (by simp)

theorem Exact.mark (h : Exact S x g) (cell : CellId) (mark : Bool) :
    Exact S x (g.setForcing cell mark) :=
  h.books rfl (Graph.suspension_setForcing cell mark) (Graph.cells_size_setForcing cell mark)
    h.derivatives (fun i _ _ found => h.stored i (by simpa using found))
    fun i n => by simpa using h.provisional i n

theorem Busy.mark (busy : Busy x g (v + 1)) {cell : CellId} (clt : cell < g.cells.size)
    (level : 8 * (x (.deferred cell)).rank + 7 = v) : Busy x (g.setForcing cell true) v := by
  have busy' := busy.mono (Nat.le_succ v)
  refine ⟨fun {other} held => ?_, busy'.started, fun i _ _ found => ?_⟩
  · rw [Graph.isForcing_setForcing _ clt] at held
    split at held
    · next same =>
      subst same
      exact Nat.le_of_eq level.symm
    · exact busy'.forcing held
  · exact busy'.active i (by simpa using found)

/-- A cell computes what lies within its weight. -/
theorem compute_ends (lower : Answers S v) (h : Exact S x g) (busy : Busy x g v) {cell : CellId}
    {s : Suspension} (suspended : g.suspension? cell = some s)
    (level : 8 * (x (.deferred cell)).rank + 7 = v) :
    (weighing S).Ends x g (fun ask => Child.compute ask s) fun x' g' operand =>
      ∃ k, operand = .node k ∧ x'.Stands g' (x (.deferred cell)) k := by
  have bears := h.cells suspended
  cases s with
  | term => exact bears.elim
  | compacted m =>
    obtain ⟨lt, within⟩ := bears
    have rank : (x (.node m)).rank ≤ _ := within.rank
    have below : 8 * (x (.node m)).rank + Evaluator.index .compact < v := by
      simp only [Evaluator.index]
      omega
    refine .bind (lower.evaluate .compact h busy lt below) fun x₁ g₁ k _ h₁ fits => ?_
    exact .pure h₁ ⟨k, rfl, Stands.mono fits within⟩
  | derivative c m side =>
    obtain ⟨member, takes, within⟩ := bears
    have lt := Graph.lt_of_mem_sides member
    have rank := within.rank
    simp only [Weight.after] at rank
    have below : 8 * (x ((g.node m).slot side)).rank + 7 < v := by omega
    refine .bind (Q := fun x' g' k => x'.Stands g' (x ((g.node m).slot side)) k) ?_
      fun x₁ g₁ k later₁ h₁ stands => ?_
    · refine .bind (lower.child h busy lt member below) ?_
      rintro x₁ g₁ _ - h₁ ⟨k, rfl, stands⟩
      exact .pure h₁ stands
    · have rank' := stands.within.rank
      refine .bind (lower.derive h₁ (later₁.busy busy) stands.lt takes (by omega))
        fun x₂ g₂ d _ h₂ derived => ?_
      exact .pure h₂ ⟨d, rfl, derived.mono ((stands.within.after c).trans within)⟩

/-- The node that was computed takes the place of its cell. -/
theorem Exact.place (h : Exact S x g) {cell : CellId} {k : NodeId}
    (slot : (g.node n).slot side = .deferred cell) (free : g.isForcing cell = false)
    (stands : x.Stands g (x (.deferred cell)) k) :
    Later x g x (g.setSlot n side (.node k)) ∧ Exact S x (g.setSlot n side (.node k)) := by
  have evolves := Graph.setSlot_evolves (k := k) slot free
  have later : Later x g x (g.setSlot n side (.node k)) := by
    refine ⟨evolves, fun _ _ => rfl, fun m _ other => ?_, fun _ => rfl, rfl, fun i _ => by simp,
      fun i => by simp⟩
    rcases g.slot_setSlot_cases n side (.node k) m other with same | ⟨rfl, rfl, new⟩
    · rw [same]
      exact .refl _
    · rw [new, slot]
      exact stands.within
  have formed : (g.setSlot n side (.node k)).Formed := h.formed.setSlot stands.lt
  refine ⟨later, h.grow later formed h.proper (fun m le mlt => ?_) (fun le hs => ?_) rfl
    fun _ => Evaluator.of_setSlot n side _⟩
  · rw [Graph.nodes_size_setSlot] at mlt
    exact absurd mlt (Nat.not_lt_of_le le)
  · exact absurd (Graph.lt_of_suspension (g := g) hs) (Nat.not_lt_of_le le)

theorem child_step (lower : Answers S v) (h : Exact S x g) (busy : Busy x g (v + 1))
    (lt : n < g.nodes.size) (member : side ∈ (g.node n).sides)
    (level : 8 * (x ((g.node n).slot side)).rank + 7 = v) :
    (weighing S).Ends x g (fun ask => ask.child? n side) fun x' g' child =>
      ∃ k, child = some k ∧ x'.Stands g' (x ((g.node n).slot side)) k := by
  refine .answer ?_
  cases slot : (g.node n).slot side with
  | vacant => exact absurd slot ((h.nodes n lt).slots side member).1
  | node k =>
    exact ⟨some k, g, ⟨0, fun _ _ => Child.read_node slot⟩, x, .refl x g, h, k, rfl,
      h.formed.node_lt slot, .refl _⟩
  | deferred cell =>
    rw [slot] at level
    have clt := h.formed.cell_lt slot
    obtain ⟨s, suspended⟩ := Graph.suspension_of_lt clt
    have free : g.isForcing cell = false := by
      cases held : g.isForcing cell with
      | false => rfl
      | true => exact absurd (busy.forcing held) (by omega)
    obtain ⟨_, g₁, ⟨least, gives⟩, x₁, later, h₁, k, rfl, stands⟩ :=
      compute_ends lower (h.mark cell true) (busy.mark clt level)
        (s := s) (by rw [Graph.suspension_setForcing, suspended]) level
    -- the graph when the cell is no longer marked
    have clt₁ : cell < g₁.cells.size :=
      Nat.lt_of_lt_of_le (by rwa [Graph.cells_size_setForcing]) later.evolves.cells
    have unmarked : Later x g x₁ (g₁.setForcing cell false) := by
      refine later.around rfl (Graph.cells_size_setForcing cell true) rfl
        (later.evolves.unmarked clt free) (fun c => ?_) later.started
        (fun i k => by simpa using later.active i k) fun i => by simpa using later.frames i
      rw [Graph.isForcing_setForcing _ clt₁, later.forcing, Graph.isForcing_setForcing _ clt]
      split
      · next same => rw [same, free]
      · rfl
    have held := later.evolves.held clt slot
    have within : x₁ (.deferred cell) = x (.deferred cell) := unmarked.cell clt
    have free₁ : (g₁.setForcing cell false).isForcing cell = false := by
      rw [Graph.isForcing_setForcing _ clt₁, if_pos rfl]
    have stands₁ : x₁.Stands (g₁.setForcing cell false) (x₁ (.deferred cell)) k :=
      within ▸ stands.congr rfl
    obtain ⟨placed, exact₂⟩ := (h₁.mark cell false).place held free₁ stands₁
    refine ⟨some k, _, ⟨least, fun bound le => Child.read_deferred slot suspended free
      (gives bound le)⟩, x₁, unmarked.trans placed, exact₂, k, rfl, placed.stands (stands.congr rfl)⟩

/-- The graph while the derivative is in progress. -/
theorem Exact.start (h : Exact S x g) (n : NodeId) (c : Value) :
    Exact S x (Held.derivatives.modify (Memo.start n c) g) :=
  h.books rfl (fun _ => rfl) rfl h.derivatives
    (fun i _ _ found => h.stored i (by simpa using found))
    fun i n => by simpa using h.provisional i n

theorem Busy.start (busy : Busy x g (v + 1)) (lt : n < g.nodes.size)
    (level : 8 * (x (.node n)).rank + 1 = v) :
    Busy x (Held.derivatives.modify (Memo.start n c) g) v := by
  have busy' := busy.mono (Nat.le_succ v)
  refine ⟨busy'.forcing, fun {k c'} member => ?_, fun i _ _ found => ?_⟩
  · rcases List.mem_cons.mp member with same | member
    · cases same
      exact ⟨lt, Nat.le_of_eq level.symm⟩
    · exact busy'.started member
  · exact busy'.active i (by simpa using found)

theorem Exact.finish (h : Exact S x g) (takes : S.takes c) (lt : n < g.nodes.size) {d : NodeId}
    (stands : x.Stands g ((x (.node n)).after S c) d) :
    Exact S x (Held.derivatives.modify (Memo.finish n c d)
      (Held.derivatives.modify (Memo.stop n c) g)) := by
  refine h.books rfl (fun _ => rfl) rfl (fun {k c' d'} found takes' => ?_)
    (fun i _ _ found => h.stored i (by simpa using found))
    fun i k => by simpa using h.provisional i k
  rw [g.find?_recorded] at found
  split at found
  · next hit =>
    obtain ⟨rfl, equal⟩ := hit
    cases found
    exact ⟨lt, stands.mono ⟨S.after_congr takes takes' equal (h.proper _), Nat.le_refl _⟩⟩
  · exact h.derivatives found takes'

theorem Later.finish {d : NodeId}
    (later : Later x (Held.derivatives.modify (Memo.start n c) g) x₁ g₁) :
    Later x g x₁ (Held.derivatives.modify (Memo.finish n c d)
      (Held.derivatives.modify (Memo.stop n c) g₁)) := by
  have opens : g.Evolves (Held.derivatives.modify (Memo.start n c) g) := g.evolves_of_eq rfl rfl
  have closes : g₁.Evolves (Held.derivatives.modify (Memo.finish n c d)
      (Held.derivatives.modify (Memo.stop n c) g₁)) := g₁.evolves_of_eq rfl rfl
  refine later.around rfl rfl rfl (opens.trans (later.evolves.trans closes)) later.forcing
    (Memo.inProgress_stop later.started) (fun i k => ?_) fun i => ?_
  · simpa using later.active i k
  · simpa using later.frames i

theorem derive_step [Rules S] (lower : Answers S v) (h : Exact S x g)
    (busy : Busy x g (v + 1)) (lt : n < g.nodes.size) (takes : S.takes c)
    (level : 8 * (x (.node n)).rank + 1 = v) :
    (weighing S).Ends x g (fun ask => ask.derive c n) fun x' g' d =>
      x'.Stands g' ((x (.node n)).after S c) d := by
  have hashable := S.hashable_takes takes
  refine .answer ?_
  cases found : g.derivatives.find? n c with
  | some d =>
    exact ⟨d, g, ⟨0, fun _ _ => Memo.demand_finished hashable found⟩, x, .refl x g, h,
      (h.derivatives found takes).2⟩
  | none =>
    have fresh : g.derivatives.isStarted n c = false :=
      Memo.isStarted_eq_false fun _ member => absurd (busy.started member).2 (by omega)
    have turn : Turn S v x (Held.derivatives.modify (Memo.start n c) g) n :=
      ⟨h.start n c, busy.start lt level, lt, by omega⟩
    obtain ⟨d, g₁, ⟨least, gives⟩, x₁, later, h₁, stands⟩ := Rules.derive turn lower takes
    have stands₁ : x₁.Stands g₁ ((x₁ (.node n)).after S c) d := by
      rw [later.node turn.lt]
      exact stands
    exact ⟨d, _, ⟨least, fun bound le => Memo.demand_absent hashable found fresh (gives bound le)⟩,
      x₁, later.finish, h₁.finish takes (later.lt turn.lt) stands₁, stands.congr rfl⟩

/-- Every level answers all that lies below it. -/
theorem answers [Rules S] (v : Nat) : Answers S v := by
  induction v with
  | zero => exact ⟨fun _ _ _ _ below => absurd below (Nat.not_lt_zero _),
      fun _ _ _ _ below => absurd below (Nat.not_lt_zero _),
      fun _ {_ _ _} _ _ _ below => absurd below (Nat.not_lt_zero _)⟩
  | succ v lower =>
    refine ⟨fun h busy lt member below => ?_, fun h busy lt takes below => ?_,
      fun i {x g n} h busy lt below => ?_⟩
    · rcases Nat.lt_or_eq_of_le (Nat.le_of_lt_succ below) with below | level
      · exact lower.child h (busy.mono (Nat.le_succ v)) lt member below
      · exact child_step lower h busy lt member level
    · rcases Nat.lt_or_eq_of_le (Nat.le_of_lt_succ below) with below | level
      · exact lower.derive h (busy.mono (Nat.le_succ v)) lt takes below
      · exact derive_step lower h busy lt takes level
    · rcases Nat.lt_or_eq_of_le (Nat.le_of_lt_succ below) with below | level
      · exact lower.evaluate i h (busy.mono (Nat.le_succ v)) lt below
      · exact evaluate_step lower i h busy lt level

end Gauge

end GrammarGraph
