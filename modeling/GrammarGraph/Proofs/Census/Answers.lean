import GrammarGraph.Proofs.Census.Visits
import GrammarGraph.Proofs.Gauge.Answers

/-! Every question is answered. A child is computed with all that lies below it answered, and so is
a derivative; the answers of all turns follow by induction. -/
namespace GrammarGraph.Census

variable {C : Finset Value} {roots : Finset NodeId} {x x₁ : Census} {g g₁ : Graph} {n k : NodeId}
  {t : Nat} {c : Value} {side : Side}

theorem Busy.mark (busy : Busy x g t) {cell : CellId} {s : Suspension}
    (suspended : g.suspension? cell = some s) (turn : t = 8 * x.level s.source + 7) :
    Busy x (g.setForcing cell true) t := by
  have clt := Graph.lt_of_suspension suspended
  refine ⟨fun {other s'} held suspended' => ?_, busy.started, fun i _ _ known => ?_,
    fun i _ _ known => ?_⟩
  · rw [Graph.isForcing_setForcing _ clt] at held
    rw [Graph.suspension_setForcing] at suspended'
    split at held
    · next same =>
      subst same
      cases suspended.symm.trans suspended'
      exact Nat.le_of_eq turn
    · exact busy.forcing held suspended'
  · exact busy.active i (by simpa using known)
  · exact busy.provisional i (by simpa using known)

/-- A cell computes a node that lies at most one level above what it is about. -/
theorem compute_ends (lower : Answers C roots t) (h : Valid C roots none x g) (busy : Busy x g t)
    {s : Suspension} (asked : s.Asked C g) (turn : t = 8 * x.level s.source + 7) :
    (counting C roots none nothing).Ends x g (fun ask => Child.compute ask s) fun x' g' operand =>
      ∃ k, operand = .node k ∧ k < g'.nodes.size ∧ x'.level k ≤ x.level s.source + 1 ∧
        g'.Settled s k := by
  cases s with
  | term => exact asked.elim
  | compacted m =>
    have index : 8 * x.level m + Evaluator.index .compact < t := by
      rw [turn]
      exact Nat.lt_succ_self _
    refine .bind (lower.evaluate .compact h busy asked index) ?_
    rintro x₁ g₁ k later₁ h₁ ⟨⟨lt, level⟩, stored⟩
    exact .pure h₁ ⟨k, rfl, lt, level, h₁.complete m (Later.lt later₁ asked), stored⟩
  | derivative c m side =>
    have mlt := asked.lt
    obtain ⟨member, hashable, counts⟩ := asked
    have turn : t = 8 * x.level m + 7 := turn
    refine .bind (Q := fun x' g' k => k < g'.nodes.size ∧ x'.level k ≤ x.level m ∧
      (g'.node m).slot side = .node k) ?_ ?_
    · refine .bind (.gives (lower.child h busy mlt member (by omega))) ?_
      rintro x₁ g₁ _ later₁ h₁ ⟨gives, k, rfl, klt, low⟩
      exact .pure h₁ ⟨klt, low, gives.slot (Later.lt later₁ mlt)⟩
    · rintro x₁ g₁ k later₁ h₁ ⟨klt, low, slot⟩
      refine .bind (.gives (lower.derive h₁ (later₁.busy h h₁ (fun _ is => nomatch is) busy) klt
        hashable counts (by omega))) ?_
      rintro x₂ g₂ d later₂ h₂ ⟨gives, dlt, dlow⟩
      exact .pure h₂ ⟨d, rfl, dlt, Nat.le_trans dlow (Nat.succ_le_succ low), k,
        (Later.extends_ later₂).filled side slot, gives.derived⟩

theorem complete_congr (h : g.Complete) (nodes : g₁.nodes = g.nodes) : g₁.Complete := by
  intro k lt
  rw [Graph.node_congr nodes]
  exact h k (by rwa [nodes] at lt)

/-- The mark of a cell is taken away, and the node that was computed takes its place. -/
theorem place {cell : CellId} {s : Suspension}
    (slot : (g.node n).slot side = .deferred cell) (suspended : g.suspension? cell = some s)
    (free : g.isForcing cell = false)
    (later : Later none nothing x (g.setForcing cell true) x₁ g₁)
    (valid : Valid C roots none x₁ g₁) (klt : k < g₁.nodes.size) (settled : g₁.Settled s k)
    (low : x₁.level k ≤ x.level n) :
    Later none nothing x g x₁ ((g₁.setForcing cell false).setSlot n side (.node k)) ∧
      Valid C roots none x₁ ((g₁.setForcing cell false).setSlot n side (.node k)) := by
  have clt := Graph.lt_of_suspension suspended
  have clt₁ : cell < g₁.cells.size :=
    Nat.lt_of_lt_of_le (by rwa [Graph.cells_size_setForcing]) later.evolves.cells
  have nlt : n < g.nodes.size := Graph.lt_of_slot fun vacant => by rw [slot] at vacant; cases vacant
  have held : ((g₁.setForcing cell false).node n).slot side = .deferred cell :=
    later.evolves.held clt slot
  have free₁ : (g₁.setForcing cell false).isForcing cell = false := by
    rw [Graph.isForcing_setForcing _ clt₁, if_pos rfl]
  have unmarked : Later none nothing x g x₁ (g₁.setForcing cell false) := by
    refine ⟨later.evolves.unmarked clt free,
      (Graph.Extends.setForcing cell true).trans (later.extends_.trans (.setForcing cell false)),
      later.level, later.origin, fun c => ?_,
      later.started, later.pending, fun i => ?_, later.fresh⟩
    · rw [Graph.isForcing_setForcing _ clt₁, later.forcing, Graph.isForcing_setForcing _ clt]
      split
      · next same => rw [same, free]
      · rfl
    · simpa only [Evaluator.of_setForcing] using later.books i
  have suspended₁ : (g₁.setForcing cell false).suspension? cell = some s :=
    unmarked.extends_.suspension suspended
  have settled₁ := (Graph.Extends.setForcing (g := g₁) cell false).settled settled
  have placed : Later none nothing x₁ (g₁.setForcing cell false) x₁
      ((g₁.setForcing cell false).setSlot n side (.node k)) := by
    refine .of_same (Graph.setSlot_evolves held free₁)
      (.setSlot (.inr ⟨cell, s, held, suspended₁, settled₁⟩)) (fun _ _ => rfl) (fun _ _ => rfl)
      (fun _ => rfl) rfl (fun _ => Evaluator.of_setSlot n side _) fun m le lt => ?_
    rw [Graph.nodes_size_setSlot] at lt
    exact absurd lt (Nat.not_lt_of_le le)
  have counted := (valid.counted.mark cell false).setSlot held free₁ suspended₁ settled₁ klt
    (low.trans_eq (later.level n nlt).symm)
  refine ⟨unmarked.trans placed, counted, fun m mlt => ?_, fun _ is => nomatch is⟩
  rw [Graph.nodes_size_setSlot] at mlt
  rw [placed.kind mlt]
  exact valid.complete m mlt

theorem child_step (lower : ∀ v < t, Answers C roots v) (h : Valid C roots none x g)
    (busy : Busy x g t) (member : side ∈ (g.node n).sides) (turn : 8 * x.level n ≤ t) :
    (counting C roots none nothing).Ends x g (fun ask => ask.child? n side) fun x' g' child =>
      ∃ k, child = some k ∧ k < g'.nodes.size ∧ x'.level k ≤ x.level n := by
  refine .answer ?_
  have below := (h.counted.describes n).below side
  cases slot : (g.node n).slot side with
  | vacant => exact absurd slot ((h.counted.describes n).slots side member)
  | node k =>
    rw [slot] at below
    exact ⟨some k, g, ⟨0, fun _ _ => Child.read_node slot⟩, x, .refl _ _ x g, h, k, rfl, below⟩
  | deferred cell =>
    rw [slot] at below
    obtain ⟨s, suspended, level⟩ := below
    have free : g.isForcing cell = false := by
      cases held : g.isForcing cell with
      | false => rfl
      | true => exact absurd (busy.forcing held suspended) (by omega)
    -- The cell has a turn of its own.
    have earlier : 8 * x.level s.source + 7 < t := by omega
    have marked : Valid C roots none x (g.setForcing cell true) :=
      ⟨h.counted.mark cell true, complete_congr h.complete rfl, fun _ is => nomatch is⟩
    have suspended' : (g.setForcing cell true).suspension? cell = some s := by
      rwa [Graph.suspension_setForcing]
    obtain ⟨_, g₁, ⟨least, gives⟩, x₁, later, h₁, k, rfl, klt, low, settled⟩ :=
      compute_ends (lower _ earlier) marked
        ((busy.mono (Nat.le_of_lt earlier)).mark suspended rfl)
        (marked.counted.asked suspended') rfl
    obtain ⟨later', valid⟩ := place slot suspended free later h₁ klt settled (low.trans level)
    refine ⟨some k, _, ⟨least, fun bound le => Child.read_deferred slot suspended free
      (gives bound le)⟩, x₁, later', valid, k, rfl, ?_, low.trans level⟩
    rw [Graph.nodes_size_setSlot]
    exact klt

/-- The graph while the derivative is in progress. -/
theorem Valid.start (h : Valid C roots none x g) (n : NodeId) (c : Value) :
    Valid C roots none x (Held.derivatives.modify (Memo.start n c) g) := by
  refine ⟨h.counted.books rfl (fun _ => rfl) rfl (fun k _ status => ?_) h.counted.derivatives
    (fun i _ _ known => h.counted.results i (by simpa using known)) (.start n c)
    (fun i => by simpa using h.counted.orderly i), complete_congr h.complete rfl,
    fun _ is => nomatch is⟩
  cases origin : x.origin k with
  | derived c' m part =>
    rw [origin] at status
    exact status.imp_right Memo.isStarted_start
  | _ =>
    rw [origin] at status
    exact status

theorem Busy.start (busy : Busy x g t) (lt : n < g.nodes.size) (turn : t = 8 * x.level n + 1) :
    Busy x (Held.derivatives.modify (Memo.start n c) g) t := by
  refine ⟨busy.forcing, fun {k c'} member => ?_, fun i _ _ known => ?_, fun i _ _ known => ?_⟩
  · rcases List.mem_cons.mp member with same | member
    · cases same
      exact ⟨lt, Nat.le_of_eq turn⟩
    · exact busy.started member
  · exact busy.active i (by simpa using known)
  · exact busy.provisional i (by simpa using known)

/-- Nothing was made for a derivative that is neither known nor in progress. -/
theorem vacant_derived (h : Counted C roots x g) (absent : g.derivatives.find? n c = none)
    (fresh : g.derivatives.isStarted n c = false) (part : Nat) :
    x.Vacant g (.derived c.numeric n part) := by
  intro k lt origin
  obtain ⟨-, -, -, status⟩ := h.made k lt n (by rw [origin]; rfl)
  rw [origin] at status
  have same := Value.same_numeric c
  rcases status with ⟨d, done⟩ | engaged
  · rw [← Memo.find?_congr same, absent] at done
    cases done
  · rw [Graph.Engaged, ← Memo.isStarted_congr same, fresh] at engaged
    cases engaged

theorem Valid.finish (h : Valid C roots none x g) (lt : n < g.nodes.size) {d : NodeId}
    (dlt : d < g.nodes.size) (low : x.level d ≤ x.level n + 1)
    (derivative : g.Derivative (fun _ => True) c n d) (absent : g.derivatives.find? n c = none)
    {rest : List (Nat × Value)} (latest : g.derivatives.inProgress = (n, c) :: rest) :
    Valid C roots none x (Held.derivatives.modify (Memo.finish n c d)
      (Held.derivatives.modify (Memo.stop n c) g)) := by
  have find := g.find?_recorded n c d
  have left : (Held.derivatives.modify (Memo.finish n c d)
      (Held.derivatives.modify (Memo.stop n c) g)).derivatives.inProgress = rest :=
    Memo.inProgress_stop latest
  refine ⟨h.counted.books rfl (fun _ => rfl) rfl (fun k _ status => ?_) (fun {k c' d'} found => ?_)
    (fun i _ _ known => h.counted.results i (by simpa using known)) (.finish absent)
    (fun i => by simpa using h.counted.orderly i), complete_congr h.complete rfl,
    fun _ is => nomatch is⟩
  · cases origin : x.origin k with
    | derived c' m part =>
      rw [origin] at status
      by_cases hit : m = n ∧ c.same c' = true
      · exact .inl ⟨d, (find m c').trans (if_pos hit)⟩
      · rcases status with ⟨d', known⟩ | engaged
        · exact .inl ⟨d', ((find m c').trans (if_neg hit)).trans known⟩
        · obtain ⟨known, member, same⟩ := Memo.isStarted_iff.mp engaged
          rw [latest] at member
          rcases List.mem_cons.mp member with this | member
          · cases this
            exact absurd ⟨rfl, same⟩ hit
          · exact .inr (Memo.isStarted_iff.mpr ⟨known, left ▸ member, same⟩)
    | _ =>
      rw [origin] at status
      exact status
  · rw [find] at found
    split at found
    · next hit =>
      obtain ⟨rfl, same⟩ := hit
      cases found
      exact ⟨h.complete k lt, dlt, low, derivative.congr same⟩
    · exact h.counted.derivatives found

theorem derive_step (lower : Answers C roots t) (h : Valid C roots none x g)
    (busy : Busy x g (t + 1)) (lt : n < g.nodes.size) (hashable : c.hashable = true)
    (counts : c.numeric ∈ C) (turn : t = 8 * x.level n + 1) :
    (counting C roots none nothing).Ends x g (fun ask => ask.derive c n) fun x' g' d =>
      d < g'.nodes.size ∧ x'.level d ≤ x.level n + 1 := by
  refine .answer ?_
  cases found : g.derivatives.find? n c with
  | some d =>
    exact ⟨d, g, ⟨0, fun _ _ => Memo.demand_finished hashable found⟩, x, .refl _ _ x g, h,
      (h.counted.derivatives found).2.imp_right And.left⟩
  | none =>
    have fresh : g.derivatives.isStarted n c = false :=
      Memo.isStarted_eq_false fun _ member => absurd (busy.started member).2 (by omega)
    have same := Value.same_numeric c
    have starts : Deriving C roots t c 0 x (Held.derivatives.modify (Memo.start n c) g) n := by
      refine ⟨⟨h.start n c, (busy.mono (Nat.le_succ t)).start lt turn, lt, by omega,
        fun _ is => nomatch is⟩, lower, hashable, counts, ?_, fun p _ k klt =>
          vacant_derived h.counted found fresh p k klt⟩
      exact Memo.isStarted_iff.mpr ⟨c, List.mem_cons_self, same⟩
    obtain ⟨d, g₁, ⟨least, gives⟩, x₁, later, valid, dlt, low, derivative⟩ := derive starts
    have level : x₁.level n = x.level n := later.level n lt
    have latest : g₁.derivatives.inProgress = (n, c) :: g.derivatives.inProgress := later.started
    have absent : g₁.derivatives.find? n c = none :=
      (later.pending Memo.isStarted_start_self).trans found
    refine ⟨d, _, ⟨least, fun bound le => Memo.demand_absent hashable found fresh (gives bound le)⟩,
      x₁, ?_, valid.finish (later.lt lt) dlt (level.symm ▸ low) derivative absent latest, dlt, low⟩
    have opens : g.Evolves (Held.derivatives.modify (Memo.start n c) g) := g.evolves_of_eq rfl rfl
    have closes : g₁.Evolves (Held.derivatives.modify (Memo.finish n c d)
        (Held.derivatives.modify (Memo.stop n c) g₁)) := g₁.evolves_of_eq rfl rfl
    refine ⟨opens.trans (later.evolves.trans closes),
      (Graph.Extends.start n c).trans (later.extends_.trans (.finish absent)), later.level,
      later.origin, later.forcing, Memo.inProgress_stop latest, fun {k c'} started => ?_,
      fun i => ?_, fun k le klt engaged => ?_⟩
    · exact ((g₁.find?_recorded ..).trans (if_neg (Memo.ne_of_isStarted started fresh))).trans
        (later.pending (Memo.isStarted_start started))
    · simpa only [Evaluator.of_derivatives] using later.books i
    · have engaged₀ : (Held.derivatives.modify (Memo.start n c) g).Engaged (x₁.origin k) := by
        cases origin : x₁.origin k with
        | derived c' m part =>
          rw [origin] at engaged
          exact Memo.isStarted_start engaged
        | _ =>
          rw [origin] at engaged
          exact engaged
      obtain ⟨part, origin⟩ := later.fresh k le klt engaged₀
      rw [origin, Graph.Engaged, ← Memo.isStarted_congr same, fresh] at engaged
      cases engaged

theorem answers (C : Finset Value) (roots : Finset NodeId) (t : Nat) : Answers C roots t := by
  induction t using Nat.strongRecOn with
  | ind t lower =>
    refine ⟨fun h busy _ member turn => child_step lower h busy member turn,
      fun {x g n c} h busy lt hashable counts turn => ?_, fun i {x g n} h busy lt turn => ?_⟩
    · exact derive_step (lower _ turn) h (busy.mono turn) lt hashable counts rfl
    · exact evaluate_step i (lower _ turn) h (busy.mono turn) lt rfl

end GrammarGraph.Census
