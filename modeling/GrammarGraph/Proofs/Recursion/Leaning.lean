import GrammarGraph.Proofs.Balance.Sessions
import GrammarGraph.Proofs.Recursion

/-! What an evaluation leans on. A node that is asked for while it is in progress, or while its
value is provisional, leaves its depth in the innermost frame. Frames hand on to the frame below
what is shallower than themselves, so the lowlink of a frame bounds from below whatever was asked
for in it, at any distance. -/
namespace GrammarGraph

namespace Evaluation

variable {α : Type} {e e' e'' e₁ : Evaluation α} {n m d f : Nat} {v : α}

/-- The books are in order, no value is both provisional and stored, and every frame is that of
a node in progress. -/
structure Consistent (e : Evaluation α) : Prop extends Orderly e where
  unstored : ∀ {n p}, e.provisional.get? n = some p → e.stored.get? n = none
  occupied : ∀ d < e.frames.size, ∃ n, e.active.get? n = some d

theorem Resting.consistent (h : e.Resting) : e.Consistent where
  toOrderly := h.orderly
  unstored known := by simp [h.provisional] at known
  occupied d lt := by simp [h.frames] at lt

/-- The lowlink of the frame at depth `d`. -/
def low (e : Evaluation α) (d : Nat) : Nat :=
  e.frames[d]?.elim 0 Frame.lowlink

/-- What is asked for next leans on the node at depth `d` if it is `m`. -/
def Leans (e : Evaluation α) (m d : Nat) : Prop :=
  e.active.get? m = some d ∨ ∃ p, e.provisional.get? m = some p ∧ p.lowlink = d

/-- What a body may do to the books: only the innermost frame leans, and nothing expires. -/
structure Grows (e e' : Evaluation α) : Prop extends Above 0 e e' where
  lasts : ∀ n p, e.provisional.get? n = some p → e'.provisional.get? n = some p
  steady : ∀ d, d + 1 ≠ e.frames.size → e'.low d = e.low d
  falls : ∀ d, e'.low d ≤ e.low d

theorem Grows.refl (e : Evaluation α) : Grows e e :=
  ⟨.refl 0 e, fun _ _ => id, fun _ _ => rfl, fun _ => Nat.le_refl _⟩

theorem Grows.trans (h : Grows e e') (k : Grows e' e'') : Grows e e'' where
  toAbove := h.toAbove.trans k.toAbove
  lasts n p known := k.lasts n p (h.lasts n p known)
  steady d apart := (k.steady d (h.size ▸ apart)).trans (h.steady d apart)
  falls d := Nat.le_trans (k.falls d) (h.falls d)

theorem Leans.grows (h : e.Leans m d) (grows : e.Grows e') : e'.Leans m d := by
  rcases h with busy | ⟨p, known, low⟩
  · exact .inl ((grows.active m).trans busy)
  · exact .inr ⟨p, grows.lasts m p known, low⟩

theorem Leans.lt (h : e.Leans m d) (consistent : e.Consistent) : d < e.frames.size := by
  rcases h with busy | ⟨p, known, rfl⟩
  · exact consistent.active busy
  · exact consistent.lowlink_lt known

theorem Leans.unstored (h : e.Leans m d) (consistent : e.Consistent) :
    e.stored.get? m = none := by
  rcases h with busy | ⟨p, known, _⟩
  · exact (consistent.apart busy).1
  · exact consistent.unstored known

theorem Fresh.not_leans (h : e.Fresh n) : ¬ e.Leans n d := by
  simp [Leans, h.active, h.provisional]

theorem lowlink_eq_low (e : Evaluation α) : e.lowlink = e.low (e.frames.size - 1) := by
  simp [lowlink, low, Array.back?_eq_getElem?]

@[simp] theorem low_reliedOn (depth : Nat) : (e.reliedOn depth).low d =
    if e.frames.size - 1 = d then min (e.low d) depth else e.low d := by
  simp only [low, getElem?_frames_reliedOn]
  split <;> cases e.frames[d]? <;> simp

@[simp] theorem low_enter : (e.enter n).low d = if d = e.frames.size then d else e.low d := by
  simp only [low, frames_enter, Array.getElem?_push]
  split <;> simp_all

theorem low_leave (size : e.frames.size = f + 1) :
    (e.leave n).low d = if d = f then 0 else e.low d := by
  simp only [low, getElem?_frames_leave size]
  split <;> rfl

@[simp] theorem low_put (l : Nat) : (e.put n v l).low d = e.low d := by
  simp only [low, getElem?_frames_put]
  split <;> cases e.frames[d]? <;> simp

@[simp] theorem size_frames_put (l : Nat) : (e.put n v l).frames.size = e.frames.size :=
  Array.size_modify

theorem lowlink_enter : (e.enter n).lowlink = e.frames.size := by
  simp [lowlink_eq_low]

theorem Consistent.reliedOn (h : e.Consistent) (depth : Nat) : (e.reliedOn depth).Consistent where
  toOrderly := h.toOrderly.reliedOn depth
  unstored := h.unstored
  occupied d lt := by
    rw [size_frames_reliedOn] at lt
    exact h.occupied d lt

theorem Grows.reliedOn (e : Evaluation α) (depth : Nat) : e.Grows (e.reliedOn depth) where
  toAbove := .reliedOn e (.inr rfl) depth
  lasts _ _ := id
  steady d apart := by
    by_cases last : e.frames.size - 1 = d
    · have none : e.frames[d]? = none := Array.getElem?_eq_none (by omega)
      simp [low, getElem?_frames_reliedOn, none]
    · simp [last]
  falls d := by
    rw [low_reliedOn]
    split <;> omega

theorem Consistent.enter (h : e.Consistent) (fresh : e.Fresh n) : (e.enter n).Consistent where
  toOrderly := h.toOrderly.enter fresh.stored fresh.provisional
  unstored := h.unstored
  occupied d lt := by
    rw [frames_enter, Array.size_push] at lt
    by_cases last : d = e.frames.size
    · exact ⟨n, by simp [active_enter, last]⟩
    · obtain ⟨a, busy⟩ := h.occupied d (by omega)
      refine ⟨a, ?_⟩
      rw [active_enter, if_neg fun same => ?_]
      · exact busy
      · rw [same, fresh.active] at busy
        cases busy

theorem Leans.enter (h : e.Leans m d) (fresh : e.Fresh n) : (e.enter n).Leans m d := by
  have other : m ≠ n := fun same => fresh.not_leans (same ▸ h)
  refine h.imp_left fun busy => ?_
  rw [active_enter, if_neg other]
  exact busy

section

variable (fresh : e.Fresh n) (before : e.Consistent) (grows : (e.enter n).Grows e₁)
  (after : e₁.Consistent)
include fresh before grows after

private theorem Fresh.visit : Visited 0 n e e₁ :=
  fresh.visited grows.toAbove before.toOrderly after.toOrderly

theorem Consistent.left : (e₁.leave n).Consistent where
  toOrderly := (fresh.visit before grows after).orderly_left
  unstored known := after.unstored
    ((after.provisional_leave_iff (fresh.visit before grows after).size).mp known).1
  occupied d lt := by
    have visit := fresh.visit before grows after
    rw [size_frames_leave visit.size] at lt
    obtain ⟨a, busy⟩ := before.occupied d lt
    exact ⟨a, visit.active_left.trans busy⟩

theorem Grows.left : e.Grows (e₁.leave n) := by
  have visit := fresh.visit before grows after
  have same (d : Nat) : (e₁.leave n).low d = e.low d := by
    rw [low_leave visit.size]
    by_cases last : d = e.frames.size
    · simp [last, low]
    · rw [if_neg last, grows.steady d (by simpa using last), low_enter, if_neg last]
  refine ⟨visit.above_left, fun m p known => ?_, fun d _ => same d, fun d => Nat.le_of_eq (same d)⟩
  rw [after.provisional_leave_iff visit.size]
  exact ⟨grows.lasts m p known, Nat.ne_of_lt (before.lowlink_lt known)⟩

theorem Consistent.close (v : α) : (e₁.close n v e.frames.size).Consistent := by
  have visit := fresh.visit before grows after
  have left := before.left fresh grows after
  have orderly := visit.orderly_close v
  unfold Evaluation.close at orderly ⊢
  by_cases low : e₁.lowlink < e.frames.size
  · rw [if_pos low] at orderly ⊢
    refine ⟨orderly, fun {m p} known => ?_, fun d lt => ?_⟩
    · have known : ((e₁.leave n).put n v e₁.lowlink).provisional.get? m = some p := known
      rw [get?_provisional_put] at known
      split at known
      · next same => exact same ▸ visit.unknown_left.1
      · exact left.unstored known
    · rw [postpone_eq, size_frames_reliedOn, size_frames_put] at lt
      exact left.occupied d lt
  · rw [if_neg low] at orderly ⊢
    refine ⟨orderly, fun {m p} known => ?_, left.occupied⟩
    rw [stored_store, if_neg fun same => ?_]
    · exact left.unstored known
    · rw [same] at known
      cases visit.unknown_left.2.symm.trans known

theorem Grows.close (v : α) : e.Grows (e₁.close n v e.frames.size) := by
  have visit := fresh.visit before grows after
  have left := grows.left fresh before after
  unfold Evaluation.close
  by_cases low : e₁.lowlink < e.frames.size
  · rw [if_pos low, postpone_eq]
    refine left.trans (.trans ⟨?_, fun m p known => ?_, fun _ _ => low_put _, fun _ => ?_⟩
      (.reliedOn _ _))
    · refine ⟨fun _ => rfl, size_frames_put _, fun d lt => absurd lt d.not_lt_zero,
        fun m p lt => absurd lt (Nat.not_lt_zero _), fun _ _ => id⟩
    · rw [get?_provisional_put, if_neg fun same => ?_]
      · exact known
      · rw [same] at known
        cases visit.unknown_left.2.symm.trans known
    · exact Nat.le_of_eq (low_put _)
  · have above := visit.above_close v
    rw [Evaluation.close, if_neg low] at above
    rw [if_neg low]
    exact ⟨above, left.lasts, left.steady, left.falls⟩

end

/-- Nothing is stored of a node before it is left. -/
theorem Grows.unstored (grows : (e.enter n).Grows e₁) (after : e₁.Consistent) :
    e₁.stored.get? n = none := by
  have here : e₁.active.get? n = some e.frames.size := by
    simp [grows.active, active_enter]
  exact (after.apart here).1

/-- What a node leaned on further up, the node below it leans on as well. -/
theorem lowlink_close_le (lt : e₁.lowlink < e.frames.size) (v : α) :
    (e₁.close n v e.frames.size).lowlink ≤ e₁.lowlink := by
  rw [Evaluation.close, if_pos lt, postpone_eq, lowlink_eq_low, low_reliedOn, size_frames_reliedOn,
    if_pos rfl]
  omega

/-- What is stored for a node that is left is its value, and it leaned on no frame below. -/
theorem of_stored_conclude {result : Except Fault α} {depth : Nat}
    (unstored : e.stored.get? n = none)
    (stored : (e.conclude n depth result).stored.get? n = some v) :
    result = .ok v ∧ depth ≤ e.lowlink := by
  cases result with
  | error fault => cases unstored.symm.trans stored
  | ok u =>
    rw [conclude, Evaluation.close] at stored
    by_cases low : e.lowlink < depth
    · rw [if_pos low] at stored
      cases unstored.symm.trans stored
    · rw [if_neg low, stored_store, if_pos rfl] at stored
      cases stored
      exact ⟨rfl, Nat.le_of_not_lt low⟩

theorem Grows.lowlink_le (h : e.Grows e') : e'.lowlink ≤ e.lowlink := by
  rw [lowlink_eq_low, lowlink_eq_low, h.size]
  exact h.falls _

end Evaluation

namespace Recursion

open Evaluation (Consistent Leans)

variable {α : Type} {R : Recursion α} {k n m d : Nat} {e e' e₁ : Evaluation α} {b : Body α}
  {result : Except Fault α} {as bs : List Nat} {P : Nat → Prop} {c c' : Course α} {v : α}

theorem Replies.grows (h : R.Replies e n result e') : e.Grows e' := by
  cases h with
  | stored _ => exact .refl e
  | active _ _ _ => exact .reliedOn e _
  | provisional _ _ _ => exact .reliedOn e _

theorem Replies.consistent (h : R.Replies e n result e') (consistent : e.Consistent) :
    e'.Consistent := by
  cases h with
  | stored _ => exact consistent
  | active _ _ _ => exact consistent.reliedOn _
  | provisional _ _ _ => exact consistent.reliedOn _

/-- An answer that leans on an unfinished node leaves its depth behind. -/
theorem Replies.lowlink_le (h : R.Replies e n result e') (leans : e.Leans n d)
    (consistent : e.Consistent) : e'.lowlink ≤ d := by
  have low (depth : Nat) : (e.reliedOn depth).lowlink ≤ depth := by
    rw [Evaluation.lowlink_eq_low, Evaluation.low_reliedOn, Evaluation.size_frames_reliedOn,
      if_pos rfl]
    omega
  cases h with
  | stored known => cases (leans.unstored consistent).symm.trans known
  | active _ busy _ =>
    rcases leans with busy' | ⟨p, known, _⟩
    · cases busy.symm.trans busy'
      exact low d
    · cases (consistent.apart busy).2.symm.trans known
  | provisional _ idle known =>
    rcases leans with busy | ⟨p, known', rfl⟩
    · cases idle.symm.trans busy
    · cases known.symm.trans known'
      exact low _

/-- Whatever a body does, the books stay in order, and they only grow. -/
theorem Runs.consistent_grows (h : R.Runs k e b result e' as bs) (consistent : e.Consistent) :
    e'.Consistent ∧ e.Grows e' := by
  induction h with
  | ends _ => exact ⟨consistent, .refl _⟩
  | replied reply _ ih =>
    obtain ⟨after, grows⟩ := ih (reply.consistent consistent)
    exact ⟨after, reply.grows.trans grows⟩
  | refused reply => exact ⟨reply.consistent consistent, reply.grows⟩
  | computed fresh _ _ inner outer =>
    obtain ⟨after, grows⟩ := inner (consistent.enter fresh)
    obtain ⟨last, more⟩ := outer (consistent.close fresh grows after _)
    exact ⟨last, (grows.close fresh consistent after _).trans more⟩
  | failed fresh _ inner =>
    obtain ⟨after, grows⟩ := inner (consistent.enter fresh)
    exact ⟨consistent.left fresh grows after, grows.left fresh consistent after⟩

theorem Runs.consistent (h : R.Runs k e b result e' as bs) (consistent : e.Consistent) :
    e'.Consistent :=
  (h.consistent_grows consistent).1

theorem Runs.grows (h : R.Runs k e b result e' as bs) (consistent : e.Consistent) : e.Grows e' :=
  (h.consistent_grows consistent).2

/-- A node that was entered is left with its value: the books are in order again, and they grew. -/
theorem Runs.closed (visit : R.Runs k (e.enter n) (R.body n) (.ok v) e₁ as bs) (fresh : e.Fresh n)
    (consistent : e.Consistent) :
    (e₁.close n v e.frames.size).Consistent ∧ e.Grows (e₁.close n v e.frames.size) := by
  have entered := consistent.enter fresh
  have after := visit.consistent entered
  have grows := visit.grows entered
  exact ⟨consistent.close fresh grows after v, grows.close fresh consistent after v⟩

/-- The lowlink of the innermost frame bounds whatever was leaned on in it, or further down. -/
theorem Runs.lowlink_le (h : R.Runs k e b (.ok v) e' as bs) (consistent : e.Consistent)
    (member : m ∈ as) (leans : e.Leans m d) : e'.lowlink ≤ d := by
  induction h using Runs.ok_induction with
  | ends _ => cases member
  | replied reply rest ih =>
    have after := reply.consistent consistent
    rcases List.mem_cons.mp member with rfl | member
    · exact Nat.le_trans (rest.grows after).lowlink_le (reply.lowlink_le leans consistent)
    · exact ih after member (leans.grows reply.grows)
  | computed fresh visit rest inner outer =>
    have entered := consistent.enter fresh
    obtain ⟨closed, closing⟩ := visit.closed fresh consistent
    rcases List.mem_cons.mp member with rfl | member
    · exact absurd leans fresh.not_leans
    rcases List.mem_append.mp member with member | member
    · have low := inner entered member (leans.enter fresh)
      refine Nat.le_trans (rest.grows closed).lowlink_le (Nat.le_trans ?_ low)
      exact Evaluation.lowlink_close_le (Nat.lt_of_le_of_lt low (leans.lt consistent)) _
    · exact outer closed member (leans.grows closing)

theorem Between.resting (h : R.Between P c) : c.evaluation.Resting := by
  induction h with
  | start => exact .initial
  | called _ _ called ih =>
    obtain ⟨as, bs, runs, -, -⟩ := runs_of_call called
    exact (runs.grows ih.consistent).toAbove.resting ih (runs.consistent ih.consistent).toOrderly

theorem Underway.consistent (h : R.Underway P c b) : c.evaluation.Consistent := by
  induction h with
  | outermost between _ => exact between.resting.consistent
  | entered _ fresh ih => exact ih.enter fresh
  | answered _ called ih =>
    obtain ⟨as, bs, runs, -, -⟩ := runs_of_call called
    exact runs.consistent ih

/-- What is asked for from outside is stored afterwards. -/
theorem Runs.stored_of_resting (h : R.Runs k e (.asks n .done) (.ok v) e' as bs)
    (rest : e.Resting) : e'.stored.get? n = some v := by
  cases h with
  | replied reply ends =>
    cases ends
    cases reply with
    | stored known => exact known
    | active _ busy _ => cases (rest.active n).symm.trans busy
    | provisional _ _ known => cases (rest.provisional n).symm.trans known
  | computed _ _ ends =>
    cases ends
    exact Evaluation.Visited.stored_self (by simp [rest.frames])

/-- A value that leaned on unfinished nodes is provisional, and ends with the outermost of them
or earlier. -/
theorem Underway.provisional_of_leans {next : α → Body α} (h : R.Underway P c (.asks n next))
    (fresh : c.evaluation.Fresh n) (called : R.call k n c = some (.ok v, c'))
    (asked : c'.asked = c.asked ++ n :: as) (member : m ∈ as) (leans : c.evaluation.Leans m d) :
    ∃ p, c'.evaluation.provisional.get? n = some p ∧ p.value = v ∧ p.lowlink ≤ d := by
  have entered := h.consistent.enter fresh
  obtain ⟨as', bs, runs, asked', -⟩ := runs_of_call called
  obtain ⟨k, e₁, as', bs, rfl, visit, ended, rfl, rfl⟩ := runs.of_fresh fresh
  have low : e₁.lowlink ≤ d := by
    obtain rfl : as = as' := by simpa using asked.symm.trans asked'
    exact visit.lowlink_le entered member (leans.enter fresh)
  have lt := leans.lt h.consistent
  refine ⟨⟨v, e₁.lowlink⟩, ?_, rfl, low⟩
  rw [ended, Evaluation.conclude, Evaluation.close, if_pos (by omega), Evaluation.postpone_eq]
  change (Evaluation.put n v _ _).provisional.get? n = _
  rw [Evaluation.get?_provisional_put, if_pos rfl]

/-- A provisional value lasts only while the outermost node that it leaned on is in progress. -/
theorem Underway.provisional_active (h : R.Underway P c b) {p : Provisional α}
    (known : c.evaluation.provisional.get? n = some p) :
    ∃ a, c.evaluation.active.get? a = some p.lowlink :=
  h.consistent.occupied _ (h.consistent.lowlink_lt known)

/-- A node further in may be finished long before. Here `2` leans on `0` and on `1`, and `0` asks
for it after `1` is finished: it is not computed again. -/
example :
    let children : Nat → List Nat := fun n => [[1, 2], [2, 3], [1, 0], []].getD n []
    ((sizes children).call 5 0 {}).map (fun ended => (ended.1, ended.2.asked, ended.2.begun)) =
      some (.ok 5, [0, 1, 2, 1, 0, 3, 2], [0, 1, 2, 3]) := by
  rfl

end Recursion

end GrammarGraph
