import GrammarGraph.Proofs.Recursion.Leaning

/-! What is stored does not depend on what is in progress. A frame whose value is stored leaned
on nothing below itself, so that its run is also one without the frames below it: depths and
lowlinks count from that frame, and what the frames below hold is never looked at. -/
namespace GrammarGraph

namespace Evaluation

variable {α : Type} {e t e₁ t₁ : Evaluation α} {f n m : Nat} {v : α}

/-- `t` is `e` without its lowest `f` frames. -/
structure Cut (f : Nat) (e t : Evaluation α) : Prop where
  stored : ∀ n, t.stored.get? n = e.stored.get? n
  active : ∀ n d, t.active.get? n = some d ↔ e.active.get? n = some (f + d)
  provisional : ∀ n v l, t.provisional.get? n = some ⟨v, l⟩ ↔ e.provisional.get? n = some ⟨v, f + l⟩
  size : e.frames.size = f + t.frames.size
  low : ∀ d < t.frames.size, e.low (f + d) = f + t.low d

/-- An evaluation of which only the stored values are left. -/
theorem Cut.bare (h : e.Consistent) : Cut e.frames.size e { stored := e.stored } where
  stored _ := rfl
  active n d := by
    refine ⟨fun busy => by simp at busy, fun busy => ?_⟩
    have := h.active busy
    omega
  provisional n v l := by
    refine ⟨fun known => by simp at known, fun known => ?_⟩
    have := h.lowlink_lt known
    simp only at this
    omega
  size := rfl
  low d lt := absurd lt d.not_lt_zero

namespace Cut

variable (h : Cut f e t)
include h

theorem fresh (fresh : e.Fresh n) : t.Fresh n where
  stored := (h.stored n).trans fresh.stored
  active := by
    refine Option.eq_none_iff_forall_ne_some.mpr fun d busy => ?_
    rw [h.active, fresh.active] at busy
    cases busy
  provisional := by
    refine Option.eq_none_iff_forall_ne_some.mpr fun p known => ?_
    rw [h.provisional n p.value p.lowlink, fresh.provisional] at known
    cases known

theorem lowlink (above : f < e.frames.size) : e.lowlink = f + t.lowlink := by
  have size := h.size
  rw [lowlink_eq_low, lowlink_eq_low, ← h.low _ (by omega)]
  congr 1
  omega

theorem reliedOn (above : f < e.frames.size) (d : Nat) :
    Cut f (e.reliedOn (f + d)) (t.reliedOn d) where
  stored := h.stored
  active := h.active
  provisional := h.provisional
  size := by simpa using h.size
  low d' lt := by
    have size := h.size
    rw [size_frames_reliedOn] at lt
    rw [low_reliedOn, low_reliedOn, h.low d' lt]
    by_cases last : t.frames.size - 1 = d'
    · rw [if_pos (by omega), if_pos last]
      omega
    · rw [if_neg (by omega), if_neg last]

theorem enter (n : Nat) : Cut f (e.enter n) (t.enter n) where
  stored := h.stored
  active m d := by
    rw [active_enter, active_enter, h.size]
    by_cases same : m = n
    · simp [same]
    · simpa [same] using h.active m d
  provisional := h.provisional
  size := by simp [h.size]; omega
  low d lt := by
    rw [low_enter, low_enter, h.size]
    by_cases last : d = t.frames.size
    · simp [last]
    · rw [if_neg (by omega), if_neg last]
      simp only [frames_enter, Array.size_push] at lt
      exact h.low d (by omega)

theorem leave (n : Nat) (above : f < e.frames.size) (orderly : e.Orderly) (orderly' : t.Orderly) :
    Cut f (e.leave n) (t.leave n) := by
  have size := h.size
  have outer : e.frames.size = f + (t.frames.size - 1) + 1 := by omega
  have inner : t.frames.size = t.frames.size - 1 + 1 := by omega
  refine ⟨h.stored, fun m d => ?_, fun m v l => ?_, ?_, fun d lt => ?_⟩
  · rw [active_leave, active_leave]
    by_cases same : m = n
    · simp [same]
    · simpa [same] using h.active m d
  · rw [orderly.provisional_leave_iff outer, orderly'.provisional_leave_iff inner, h.provisional]
    exact and_congr_right fun _ => by simp only; omega
  · rw [size_frames_leave outer, size_frames_leave inner]
  · rw [size_frames_leave inner] at lt
    rw [low_leave outer, low_leave inner, if_neg (by omega), if_neg (by omega),
      h.low d (by omega)]

theorem store (n : Nat) (v : α) : Cut f (e.store n v) (t.store n v) where
  stored m := by
    rw [stored_store, stored_store, h.stored]
  active := h.active
  provisional := h.provisional
  size := h.size
  low := h.low

theorem put (n : Nat) (v : α) (l : Nat) : Cut f (e.put n v (f + l)) (t.put n v l) where
  stored := h.stored
  active := h.active
  provisional m u l' := by
    rw [get?_provisional_put, get?_provisional_put]
    by_cases same : m = n
    · simp [same]
    · simpa [same] using h.provisional m u l'
  size := by
    rw [size_frames_put, size_frames_put]
    exact h.size
  low d lt := by
    rw [size_frames_put] at lt
    rw [low_put, low_put, h.low d lt]

/-- The innermost node is left, and there is a frame for its value to wait for, or it is stored. -/
theorem close (n : Nat) (v : α) (orderly : e.Orderly) (orderly' : t.Orderly) {depth : Nat}
    (inside : e.frames.size = f + depth + 1) :
    Cut f (e.close n v (f + depth)) (t.close n v depth) := by
  have left := h.leave n (by omega) orderly orderly'
  have size : (e.leave n).frames.size = f + depth := size_frames_leave inside
  have lowlink := h.lowlink (by omega)
  unfold Evaluation.close
  by_cases low : t.lowlink < depth
  · rw [if_pos low, if_pos (by omega), postpone_eq, postpone_eq, lowlink]
    refine (left.put n v t.lowlink).reliedOn ?_ t.lowlink
    rw [size_frames_put]
    omega
  · rw [if_neg low, if_neg (by omega)]
    exact left.store n v

end Cut

end Evaluation

namespace Recursion

open Evaluation (Cut Consistent)

variable {α : Type} {R : Recursion α} {P : Nat → Prop} {k n f : Nat} {e t e' : Evaluation α}
  {b : Body α} {v : α} {result : Except Fault α} {as bs : List Nat} {c c' : Course α}

theorem Replies.cut (h : R.Replies e n result e') (cut : Cut f e t) (above : f < e.frames.size)
    (low : f ≤ e'.lowlink) : ∃ t', R.Replies t n result t' ∧ Cut f e' t' := by
  have deep {d : Nat} (low : f ≤ (e.reliedOn d).lowlink) : d = f + (d - f) := by
    rw [Evaluation.lowlink_eq_low, Evaluation.low_reliedOn, Evaluation.size_frames_reliedOn,
      if_pos rfl] at low
    omega
  cases h with
  | stored known => exact ⟨t, .stored ((cut.stored n).trans known), cut⟩
  | @active d _ unknown busy given =>
    rw [deep low] at busy ⊢
    exact ⟨_, .active ((cut.stored n).trans unknown) ((cut.active n _).mpr busy) given,
      cut.reliedOn above _⟩
  | @provisional p unknown idle known =>
    have idle' : t.active.get? n = none := by
      refine Option.eq_none_iff_forall_ne_some.mpr fun d busy => ?_
      rw [cut.active, idle] at busy
      cases busy
    rw [deep low]
    refine ⟨_, .provisional (p := ⟨p.value, p.lowlink - f⟩) ((cut.stored n).trans unknown) idle'
      ((cut.provisional n _ _).mpr ?_), cut.reliedOn above _⟩
    rw [known, ← deep low]

/-- What leans on no frame below `f` runs alike without these frames. -/
theorem Runs.cut (h : R.Runs k e b (.ok v) e' as bs) (consistent : e.Consistent)
    (consistent' : t.Consistent) (cut : Cut f e t) (above : f < e.frames.size)
    (low : f ≤ e'.lowlink) :
    ∃ t', R.Runs k t b (.ok v) t' as bs ∧ Cut f e' t' := by
  induction h using Runs.ok_induction generalizing t with
  | ends _ => exact ⟨t, .ends _, cut⟩
  | replied reply rest ih =>
    have after := reply.consistent consistent
    have low₁ := Nat.le_trans low (rest.grows after).lowlink_le
    obtain ⟨t₁, reply', cut₁⟩ := reply.cut cut above low₁
    obtain ⟨t', rest', cut'⟩ := ih after (reply'.consistent consistent') cut₁
      (reply.grows.size ▸ above) low
    exact ⟨t', .replied reply' rest', cut'⟩
  | @computed k n e e₁ e' next u v as₁ as bs₁ bs fresh visit rest inner outer =>
    have fresh' := cut.fresh fresh
    have entered := consistent.enter fresh
    have entered' := consistent'.enter fresh'
    have after := visit.consistent entered
    obtain ⟨closed, closing⟩ := visit.closed fresh consistent
    have size : e₁.frames.size = e.frames.size + 1 := by simp [(visit.grows entered).size]
    have low₁ : f ≤ (e₁.close n u e.frames.size).lowlink :=
      Nat.le_trans low (rest.grows closed).lowlink_le
    -- whatever the node leaned on below `f`, the frame under it would lean on, too
    have inside : f ≤ e₁.lowlink := by
      by_cases lt : e₁.lowlink < e.frames.size
      · exact Nat.le_trans low₁ (Evaluation.lowlink_close_le lt u)
      · omega
    obtain ⟨t₁, visit', cut₁⟩ := inner entered entered' (cut.enter n) (by simp; omega) inside
    have after' := visit'.consistent entered'
    have frame : e₁.frames.size = f + t.frames.size + 1 := by rw [size, cut.size]
    have cut₂ := cut₁.close n u after.toOrderly after'.toOrderly frame
    rw [← cut.size] at cut₂
    obtain ⟨t', rest', cut'⟩ := outer closed (visit'.closed fresh' consistent').1 cut₂
      (by rw [closing.size]; exact above) low
    exact ⟨t', .computed fresh' visit' rest', cut'⟩

end Recursion

end GrammarGraph
