import GrammarGraph.Proofs.Evaluator

/-! The books of an evaluation while nodes are visited depth first. The nodes in progress have
frames, and a provisional value is listed with the frame that it ends with. A visit that starts
at depth `f` leans on no frame below `f`; so nothing that it postponed outlives it, and its first
node is stored. -/
namespace GrammarGraph

namespace Evaluation

variable {α : Type} {e e' e'' : Evaluation α} {n m depth f : Nat} {v : α}

/-- Nodes in progress have frames, and what is provisional ends with the frame that it leans on. -/
structure Orderly (e : Evaluation α) : Prop where
  active : ∀ {n d}, e.active.get? n = some d → d < e.frames.size
  apart : ∀ {n d}, e.active.get? n = some d →
    e.stored.get? n = none ∧ e.provisional.get? n = none
  listed : ∀ {n p}, e.provisional.get? n = some p →
    ∃ frame, e.frames[p.lowlink]? = some frame ∧ n ∈ frame.pending
  pending : ∀ {d frame n}, e.frames[d]? = some frame → n ∈ frame.pending →
    ∃ p, e.provisional.get? n = some p ∧ p.lowlink = d

/-- No frame from `f` on leaned on one below `f`. -/
def Upright (f : Nat) (e : Evaluation α) : Prop :=
  ∀ d frame, f ≤ d → e.frames[d]? = some frame → f ≤ frame.lowlink

/-- What may have happened above the frames below `f`: nodes were visited and left, and values
were recorded. -/
structure Above (f : Nat) (e e' : Evaluation α) : Prop where
  active : ∀ n, e'.active.get? n = e.active.get? n
  size : e'.frames.size = e.frames.size
  frames : ∀ d < f, e'.frames[d]? = e.frames[d]?
  provisional : ∀ n (p : Provisional α), p.lowlink < f →
    (e'.provisional.get? n = some p ↔ e.provisional.get? n = some p)
  stored : ∀ n v, e.stored.get? n = some v → e'.stored.get? n = some v

theorem Above.refl (f : Nat) (e : Evaluation α) : Above f e e :=
  ⟨fun _ => rfl, rfl, fun _ _ => rfl, fun _ _ _ => .rfl, fun _ _ => id⟩

theorem Above.trans (h : Above f e e') (k : Above f e' e'') : Above f e e'' where
  active n := (k.active n).trans (h.active n)
  size := k.size.trans h.size
  frames d lt := (k.frames d lt).trans (h.frames d lt)
  provisional n p lt := (k.provisional n p lt).trans (h.provisional n p lt)
  stored n v known := k.stored n v (h.stored n v known)

theorem Above.mono (h : Above f e e') {f' : Nat} (le : f' ≤ f) : Above f' e e' :=
  { h with
    frames := fun d lt => h.frames d (Nat.lt_of_lt_of_le lt le)
    provisional := fun n p lt => h.provisional n p (Nat.lt_of_lt_of_le lt le) }

/-- A visit above all frames leaves the frames as they were. -/
theorem Above.frames_eq (h : Above e.frames.size e e') : e'.frames = e.frames := by
  refine Array.ext_getElem? fun d => ?_
  rcases Nat.lt_or_ge d e.frames.size with lt | le
  · exact h.frames d lt
  · rw [Array.getElem?_eq_none le, Array.getElem?_eq_none (h.size ▸ le)]

theorem Orderly.lowlink_lt (h : Orderly e) {p : Provisional α}
    (known : e.provisional.get? n = some p) : p.lowlink < e.frames.size := by
  obtain ⟨frame, there, _⟩ := h.listed known
  exact (Array.getElem?_eq_some_iff.mp there).1

theorem Above.provisional_eq (h : Above e.frames.size e e') (orderly : Orderly e)
    (orderly' : Orderly e') (n : Nat) : e'.provisional.get? n = e.provisional.get? n := by
  cases new : e'.provisional.get? n with
  | some p =>
    exact ((h.provisional n p (h.size ▸ orderly'.lowlink_lt new)).mp new).symm
  | none =>
    cases old : e.provisional.get? n with
    | none => rfl
    | some p =>
      rw [(h.provisional n p (orderly.lowlink_lt old)).mpr old] at new
      cases new

theorem getElem?_frames_reliedOn (d : Nat) : (e.reliedOn depth).frames[d]? =
    if e.frames.size - 1 = d then
      e.frames[d]?.map fun frame => { frame with lowlink := min frame.lowlink depth }
    else e.frames[d]? :=
  Array.getElem?_modify

@[simp] theorem size_frames_reliedOn : (e.reliedOn depth).frames.size = e.frames.size :=
  Array.size_modify

/-- A frame that is there after a node leaned on `depth` was there before. -/
theorem frame_of_reliedOn {d : Nat} {frame : Frame} (h : (e.reliedOn depth).frames[d]? = some frame) :
    ∃ old, e.frames[d]? = some old ∧ frame.pending = old.pending ∧
      min old.lowlink depth ≤ frame.lowlink := by
  rw [getElem?_frames_reliedOn] at h
  split at h
  · obtain ⟨old, there, rfl⟩ := Option.map_eq_some_iff.mp h
    exact ⟨old, there, rfl, Nat.le_refl _⟩
  · exact ⟨frame, h, rfl, Nat.min_le_left ..⟩

theorem frame_reliedOn (depth : Nat) {d : Nat} {old : Frame} (h : e.frames[d]? = some old) :
    ∃ frame, (e.reliedOn depth).frames[d]? = some frame ∧ frame.pending = old.pending := by
  rw [getElem?_frames_reliedOn, h]
  split
  · exact ⟨_, rfl, rfl⟩
  · exact ⟨_, rfl, rfl⟩

theorem Orderly.reliedOn (h : Orderly e) (depth : Nat) : Orderly (e.reliedOn depth) where
  active known := by
    rw [size_frames_reliedOn]
    exact h.active known
  apart := h.apart
  listed known := by
    obtain ⟨old, there, member⟩ := h.listed known
    obtain ⟨frame, there', same⟩ := frame_reliedOn depth there
    exact ⟨frame, there', same ▸ member⟩
  pending there member := by
    obtain ⟨old, there, same, _⟩ := frame_of_reliedOn there
    exact h.pending there (same ▸ member)

theorem Upright.reliedOn (h : Upright f e) (le : f ≤ depth) : Upright f (e.reliedOn depth) := by
  intro d frame above there
  obtain ⟨old, there, _, lowlink⟩ := frame_of_reliedOn there
  exact Nat.le_trans (Nat.le_min.mpr ⟨h d old above there, le⟩) lowlink

/-- Leaning on `depth` concerns the innermost frame only. -/
theorem Above.reliedOn (e : Evaluation α) (lt : f < e.frames.size ∨ f = 0) (depth : Nat) :
    Above f e (e.reliedOn depth) where
  active _ := rfl
  size := size_frames_reliedOn
  frames d below := by
    rw [getElem?_frames_reliedOn, if_neg (by omega)]
  provisional _ _ _ := .rfl
  stored _ _ := id

theorem Orderly.enter (h : Orderly e) (unknown : e.stored.get? n = none)
    (fresh : e.provisional.get? n = none) : Orderly (e.enter n) where
  active {m d} known := by
    rw [frames_enter, Array.size_push]
    rw [active_enter] at known
    split at known
    · cases known; exact Nat.lt_succ_self _
    · exact Nat.lt_succ_of_lt (h.active known)
  apart {m d} known := by
    rw [active_enter] at known
    split at known
    · next same => rw [same]; exact ⟨unknown, fresh⟩
    · exact h.apart known
  listed known := by
    obtain ⟨frame, there, member⟩ := h.listed known
    refine ⟨frame, ?_, member⟩
    rw [frames_enter, Array.getElem?_push, if_neg (Nat.ne_of_lt (Array.getElem?_eq_some_iff.mp there).1)]
    exact there
  pending {d frame m} there member := by
    rw [frames_enter, Array.getElem?_push] at there
    split at there
    · cases there; cases member
    · exact h.pending there member

theorem Upright.enter (h : Upright f e) (le : f ≤ e.frames.size) : Upright f (e.enter n) := by
  intro d frame above there
  rw [frames_enter, Array.getElem?_push] at there
  split at there
  · cases there; exact le
  · exact h d frame above there

/-- The frame of the innermost node. -/
theorem exists_innermost {s : Nat} (size : e.frames.size = s + 1) :
    ∃ frame, e.frames[s]? = some frame ∧ e.lowlink = frame.lowlink ∧ e.pending = frame.pending := by
  have there : e.frames[s]? = some e.frames[s] := Array.getElem?_eq_getElem (by omega)
  have last : e.frames.back? = some e.frames[s] := by
    rw [Array.back?_eq_getElem?, show e.frames.size - 1 = s by omega]
    exact there
  exact ⟨_, there, by rw [lowlink, last]; rfl, by rw [pending, last]; rfl⟩

theorem lowlink_congr (frames : e'.frames = e.frames) : e'.lowlink = e.lowlink := by
  rw [lowlink, frames, lowlink]

theorem Upright.le_lowlink (h : Upright f e) {s : Nat} (size : e.frames.size = s + 1)
    (le : f ≤ s) : f ≤ e.lowlink := by
  obtain ⟨frame, there, lowlink, _⟩ := exists_innermost size
  rw [lowlink]
  exact h s frame le there

theorem getElem?_frames_leave {s d : Nat} (size : e.frames.size = s + 1) :
    (e.leave n).frames[d]? = if d = s then none else e.frames[d]? := by
  rw [frames_leave, Array.getElem?_pop, size]
  by_cases last : d = s
  · simp [last]
  · rw [if_neg last]
    rcases Nat.lt_or_ge d s with lt | le
    · rw [if_pos (by omega)]
    · rw [if_neg (by omega), Array.getElem?_eq_none (by omega)]

theorem size_frames_leave {s : Nat} (size : e.frames.size = s + 1) :
    (e.leave n).frames.size = s := by
  rw [frames_leave, Array.size_pop, size]
  rfl

theorem get?_foldl_erase (ns : List Nat) (t : Table α) (m : Nat) :
    (ns.foldl Table.erase t).get? m = if m ∈ ns then none else t.get? m := by
  induction ns generalizing t with
  | nil => simp
  | cons k ns ih =>
    rw [List.foldl_cons, ih, Table.get?_erase]
    by_cases here : m = k <;> by_cases later : m ∈ ns <;> simp [here, later]

/-- What leaned on the innermost frame goes, and nothing else does. -/
theorem Orderly.provisional_leave_iff (h : Orderly e) {s : Nat} (size : e.frames.size = s + 1)
    {p : Provisional α} : (e.leave n).provisional.get? m = some p ↔
      e.provisional.get? m = some p ∧ p.lowlink ≠ s := by
  obtain ⟨frame, there, _, pending⟩ := exists_innermost size
  change (e.pending.foldl Table.erase e.provisional).get? m = some p ↔ _
  rw [get?_foldl_erase, pending]
  by_cases member : m ∈ frame.pending
  · obtain ⟨q, known, lowlink⟩ := h.pending there member
    rw [if_pos member, known]
    refine ⟨fun none => (nomatch none), fun ⟨same, other⟩ => ?_⟩
    cases same
    exact absurd lowlink other
  · rw [if_neg member]
    refine ⟨fun known => ⟨known, fun lowlink => member ?_⟩, And.left⟩
    obtain ⟨frame', there', member'⟩ := h.listed known
    rw [lowlink] at there'
    cases there.symm.trans there'
    exact member'

theorem Orderly.leave (h : Orderly e) {s : Nat} (size : e.frames.size = s + 1)
    (innermost : ∀ m d, e.active.get? m = some d → m = n ∨ d < s) : Orderly (e.leave n) where
  active {m d} known := by
    rw [active_leave] at known
    rw [size_frames_leave size]
    split at known
    · cases known
    · next other => exact (innermost m d known).resolve_left other
  apart {m d} known := by
    rw [active_leave] at known
    split at known
    · cases known
    · refine ⟨(h.apart known).1, ?_⟩
      cases left : (e.leave n).provisional.get? m with
      | none => rfl
      | some p =>
        have := (h.provisional_leave_iff size).mp left
        rw [(h.apart known).2] at this
        cases this.1
  listed {m p} known := by
    obtain ⟨known, other⟩ := (h.provisional_leave_iff size).mp known
    obtain ⟨frame, there, member⟩ := h.listed known
    exact ⟨frame, by rw [getElem?_frames_leave size, if_neg other]; exact there, member⟩
  pending {d frame m} there member := by
    rw [getElem?_frames_leave size] at there
    split at there
    · cases there
    · next other =>
      obtain ⟨p, known, lowlink⟩ := h.pending there member
      exact ⟨p, (h.provisional_leave_iff size).mpr ⟨known, lowlink ▸ other⟩, lowlink⟩

theorem Upright.leave (h : Upright f e) {s : Nat} (size : e.frames.size = s + 1) :
    Upright f (e.leave n) := by
  intro d frame above there
  rw [getElem?_frames_leave size] at there
  split at there
  · cases there
  · exact h d frame above there

theorem Orderly.store (h : Orderly e) (idle : e.active.get? n = none) : Orderly (e.store n v) where
  active := h.active
  apart {m d} known := by
    rw [stored_store, if_neg fun same => ?_]
    · exact h.apart known
    · rw [same] at known
      cases idle.symm.trans known
  listed := h.listed
  pending := h.pending

theorem Orderly.forget (h : Orderly e) (n : Nat) : Orderly (e.forget n) where
  active := h.active
  apart known := by
    refine ⟨?_, (h.apart known).2⟩
    rw [stored_forget, (h.apart known).1, ite_self]
  listed := h.listed
  pending := h.pending

/-- The evaluation with a provisional value, before the innermost frame takes note of it. -/
def put (n : Nat) (v : α) (l : Nat) (e : Evaluation α) : Evaluation α :=
  { e with
    provisional := e.provisional.insert n ⟨v, l⟩
    frames := e.frames.modify l fun frame => { frame with pending := n :: frame.pending } }

theorem postpone_eq (l : Nat) : e.postpone n v l = (e.put n v l).reliedOn l := rfl

theorem getElem?_frames_put {l : Nat} (d : Nat) : (e.put n v l).frames[d]? =
    if l = d then e.frames[d]?.map fun frame => { frame with pending := n :: frame.pending }
    else e.frames[d]? :=
  Array.getElem?_modify

theorem get?_provisional_put {l : Nat} : (e.put n v l).provisional.get? m =
    if m = n then some ⟨v, l⟩ else e.provisional.get? m :=
  Table.get?_insert _ _ _ _

theorem Orderly.postpone (h : Orderly e) {l : Nat} (lt : l < e.frames.size)
    (idle : e.active.get? n = none) (fresh : e.provisional.get? n = none) :
    Orderly (e.postpone n v l) := by
  rw [postpone_eq]
  refine .reliedOn ⟨fun known => ?_, fun {m d} known => ?_, fun {m p} known => ?_,
    fun {d frame m} there member => ?_⟩ l
  · exact Nat.lt_of_lt_of_eq (h.active known) Array.size_modify.symm
  · refine ⟨(h.apart known).1, ?_⟩
    rw [get?_provisional_put, if_neg fun same => ?_]
    · exact (h.apart known).2
    · rw [same] at known
      rw [show e.active.get? n = some d from known] at idle
      cases idle
  · rw [get?_provisional_put] at known
    split at known
    · next same =>
      cases known
      refine ⟨{ e.frames[l] with pending := n :: e.frames[l].pending }, ?_, ?_⟩
      · rw [getElem?_frames_put, if_pos rfl, Array.getElem?_eq_getElem lt]
        rfl
      · rw [same]
        exact List.mem_cons_self
    · obtain ⟨frame, there, member⟩ := h.listed known
      rw [getElem?_frames_put, there]
      split
      · exact ⟨_, rfl, List.mem_cons_of_mem n member⟩
      · exact ⟨_, rfl, member⟩
  · have listed {frame : Frame} (there : e.frames[d]? = some frame) (member : m ∈ frame.pending) :
        ∃ p, (e.put n v l).provisional.get? m = some p ∧ p.lowlink = d := by
      obtain ⟨p, known, lowlink⟩ := h.pending there member
      refine ⟨p, ?_, lowlink⟩
      rw [get?_provisional_put, if_neg fun same => ?_]
      · exact known
      · rw [same, fresh] at known
        cases known
    rw [getElem?_frames_put] at there
    split at there
    · next same =>
      obtain ⟨old, held, rfl⟩ := Option.map_eq_some_iff.mp there
      rcases List.mem_cons.mp member with rfl | member
      · exact ⟨_, by rw [get?_provisional_put, if_pos rfl], same⟩
      · exact listed held member
    · exact listed there member

theorem Upright.postpone (h : Upright f e) {l : Nat} (le : f ≤ l) :
    Upright f (e.postpone n v l) := by
  rw [postpone_eq]
  refine Upright.reliedOn (fun d frame above there => ?_) le
  rw [getElem?_frames_put] at there
  split at there
  · obtain ⟨old, held, rfl⟩ := Option.map_eq_some_iff.mp there
    exact h d old above held
  · exact h d frame above there

theorem Above.postpone (e : Evaluation α) {l : Nat} (le : f ≤ l) (lt : l < e.frames.size)
    (fresh : e.provisional.get? n = none) : Above f e (e.postpone n v l) := by
  rw [postpone_eq]
  have put : Above f e (e.put n v l) := by
    refine ⟨fun _ => rfl, Array.size_modify, fun d below => ?_, fun m p below => ?_, fun _ _ => id⟩
    · rw [getElem?_frames_put, if_neg (by omega)]
    · rw [get?_provisional_put]
      split
      · next same =>
        rw [same, fresh]
        refine ⟨fun known => ?_, fun none => (nomatch none)⟩
        cases known
        exact absurd below (Nat.not_lt_of_le le)
      · exact .rfl
  exact put.trans (.reliedOn _
    (.inl (Nat.lt_of_lt_of_eq (Nat.lt_of_le_of_lt le lt) Array.size_modify.symm)) l)

/-- The node is left, and its value is recorded for as long as it may be. -/
def close (n : Nat) (v : α) (depth : Nat) (e : Evaluation α) : Evaluation α :=
  if e.lowlink < depth then (e.leave n).postpone n v e.lowlink else (e.leave n).store n v

/-- A node was entered that nothing was known about, and what its visit asked for was visited. -/
structure Visited (f : Nat) (n : Nat) (e e' : Evaluation α) : Prop where
  above : Above f (e.enter n) e'
  before : Orderly e
  after : Orderly e'
  upright : Upright f e'
  floor : f ≤ e.frames.size
  unknown : e.stored.get? n = none
  idle : e.active.get? n = none

namespace Visited

variable (h : Visited f n e e')
include h

theorem size : e'.frames.size = e.frames.size + 1 := by
  rw [h.above.size, frames_enter, Array.size_push]

/-- The node itself is still in progress. -/
theorem here : e'.active.get? n = some e.frames.size := by
  rw [h.above.active, active_enter, if_pos rfl]

theorem active_left : (e'.leave n).active.get? m = e.active.get? m := by
  rw [active_leave]
  split
  · next same => rw [same, h.idle]
  · next other => rw [h.above.active, active_enter, if_neg other]

theorem orderly_left : Orderly (e'.leave n) := by
  refine h.after.leave h.size fun m d known => ?_
  rw [h.above.active, active_enter] at known
  split at known
  · next same => exact .inl same
  · exact .inr (h.before.active known)

theorem above_left : Above f e (e'.leave n) where
  active _ := h.active_left
  size := size_frames_leave h.size
  frames d lt := by
    have floor := h.floor
    rw [getElem?_frames_leave h.size, if_neg (by omega), h.above.frames d lt, frames_enter,
      Array.getElem?_push, if_neg (by omega)]
  provisional m p lt := by
    have floor := h.floor
    rw [h.after.provisional_leave_iff h.size, h.above.provisional m p lt]
    exact and_iff_left (by omega)
  stored := h.above.stored

theorem unknown_left : (e'.leave n).stored.get? n = none ∧ (e'.leave n).provisional.get? n = none := by
  refine ⟨(h.after.apart h.here).1, ?_⟩
  cases left : (e'.leave n).provisional.get? n with
  | none => rfl
  | some p =>
    have known := ((h.after.provisional_leave_iff h.size).mp left).1
    rw [(h.after.apart h.here).2] at known
    cases known

theorem idle_left : (e'.leave n).active.get? n = none :=
  h.active_left.trans h.idle

theorem le_lowlink : f ≤ e'.lowlink :=
  h.upright.le_lowlink h.size h.floor

theorem above_close (v : α) : Above f e (e'.close n v e.frames.size) := by
  unfold close
  split
  · next lt =>
    refine h.above_left.trans (.postpone _ h.le_lowlink ?_ h.unknown_left.2)
    rw [size_frames_leave h.size]
    exact lt
  · refine h.above_left.trans ⟨fun _ => rfl, rfl, fun _ _ => rfl, fun _ _ _ => .rfl,
      fun m u known => ?_⟩
    rw [stored_store, if_neg fun same => ?_]
    · exact known
    · rw [same, h.unknown_left.1] at known
      cases known

theorem orderly_close (v : α) : Orderly (e'.close n v e.frames.size) := by
  unfold close
  split
  · next lt =>
    refine h.orderly_left.postpone ?_ h.idle_left h.unknown_left.2
    rw [size_frames_leave h.size]
    exact lt
  · exact h.orderly_left.store h.idle_left

theorem upright_close (v : α) : Upright f (e'.close n v e.frames.size) := by
  unfold close
  split
  · exact Upright.postpone (h.upright.leave h.size) h.le_lowlink
  · exact h.upright.leave (n := n) h.size

omit h in
theorem knows_close {u : α} (known : (e'.close n v depth).Knows m u) :
    e'.Knows m u ∨ m = n ∧ u = v := by
  unfold close at known
  split at known
  · exact (knows_postpone known).imp_left knows_leave
  · exact (knows_store known).imp_left knows_leave

omit h in
theorem stored_close {u : α} (known : (e'.close n v depth).stored.get? m = some u) :
    e'.stored.get? m = some u ∨ m = n ∧ u = v := by
  unfold close at known
  split at known
  · exact .inl known
  · rw [stored_store] at known
    split at known
    · next same => exact .inr ⟨same, (Option.some.inj known).symm⟩
    · exact .inl known

/-- What was known when the node is left stays known. -/
theorem stored_of_stored {u : α} (known : e'.stored.get? m = some u) :
    (e'.close n v depth).stored.get? m = some u := by
  unfold close
  split
  · exact known
  · rw [stored_store, if_neg fun same => ?_]
    · exact known
    · rw [same, (h.after.apart h.here).1] at known
      cases known

omit h in
/-- The value is stored if nothing further up was leaned on. -/
theorem stored_self (upright : depth ≤ e'.lowlink) :
    (e'.close n v depth).stored.get? n = some v := by
  rw [close, if_neg (Nat.not_lt_of_le upright), stored_store, if_pos rfl]

/-- What is provisional when the node is left was so before, or is the value of the node. -/
theorem provisional_close {p : Provisional α}
    (known : (e'.close n v e.frames.size).provisional.get? m = some p) :
    e'.provisional.get? m = some p ∨ m = n ∧ f ≤ p.lowlink := by
  unfold close at known
  split at known
  · rw [postpone_eq] at known
    have known : (put n v e'.lowlink (e'.leave n)).provisional.get? m = some p := known
    rw [get?_provisional_put] at known
    split at known
    · next same =>
      cases known
      exact .inr ⟨same, h.le_lowlink⟩
    · exact .inl ((h.after.provisional_leave_iff h.size).mp known).1
  · have known : (e'.leave n).provisional.get? m = some p := known
    exact .inl ((h.after.provisional_leave_iff h.size).mp known).1

end Visited

section

variable {σ : Type} {held : Held σ (Evaluation α)} {default body : RunOf σ α} {s s' : σ}

theorem demand_active (stored : (held.get s).stored.get? n = none)
    (active : (held.get s).active.get? n = some depth) :
    demand held default body n s = default (held.modify (reliedOn depth) s) := by
  unfold demand
  rw [RunOf.read_bind]
  simp only [standing, stored, active]
  rfl

theorem demand_provisional {p : Provisional α} (stored : (held.get s).stored.get? n = none)
    (active : (held.get s).active.get? n = none)
    (provisional : (held.get s).provisional.get? n = some p) :
    demand held default body n s = some (.ok p.value, held.modify (reliedOn p.lowlink) s) := by
  unfold demand
  rw [RunOf.read_bind]
  simp only [standing, stored, active, provisional]
  rfl

theorem demand_visited (stored : (held.get s).stored.get? n = none)
    (active : (held.get s).active.get? n = none)
    (provisional : (held.get s).provisional.get? n = none)
    (computed : body (held.modify (enter n) s) = some (.ok v, s')) :
    demand held default body n s = some (.ok v,
      if (held.get s').lowlink < (held.get s).frames.size then
        held.modify (postpone n v (held.get s').lowlink) (held.modify (leave n) s')
      else held.modify (store n v) (held.modify (leave n) s')) := by
  unfold demand
  rw [RunOf.read_bind]
  simp only [standing, stored, active, provisional]
  rw [RunOf.update_bind, RunOf.bind_run]
  simp only [RunOf.outcome, computed, Option.map_some, Option.bind_some]
  rw [RunOf.read_bind, RunOf.update_bind, RunOf.ok_bind]
  split
  · rfl
  · rfl

end

end Evaluation

namespace Evaluator

variable {i : Evaluator} {g g' : Graph}

/-- Only what becomes of the evaluation as it is matters. -/
theorem modify_congr {f f' : Evaluation i.Result → Evaluation i.Result}
    (same : f (i.of g) = f' (i.of g)) : i.held.modify f g = i.held.modify f' g := by
  have constant (f : Evaluation i.Result → Evaluation i.Result) :
      i.held.modify f g = i.held.modify (fun _ => f (i.of g)) g := by
    cases i <;> rfl
  rw [constant f, same, ← constant f']

theorem modify_modify (f f' : Evaluation i.Result → Evaluation i.Result) :
    i.held.modify f (i.held.modify f' g) = i.held.modify (fun e => f (f' e)) g := by
  cases i <;> rfl

theorem demand_visited {default body : Run i.Result} {n : NodeId} {v : i.Result}
    (stored : (i.of g).stored.get? n = none) (active : (i.of g).active.get? n = none)
    (provisional : (i.of g).provisional.get? n = none)
    (computed : body (i.held.modify (Evaluation.enter n) g) = some (.ok v, g')) :
    Evaluation.demand i.held default body n g =
      some (.ok v, i.held.modify (Evaluation.close n v (i.of g).frames.size) g') := by
  rw [Evaluation.demand_visited stored active provisional computed]
  split
  · next low =>
    rw [modify_modify]
    refine congrArg some (congrArg (Prod.mk _) (modify_congr ?_))
    exact (if_pos low).symm
  · next high =>
    rw [modify_modify]
    refine congrArg some (congrArg (Prod.mk _) (modify_congr ?_))
    exact (if_neg high).symm

end Evaluator

end GrammarGraph
