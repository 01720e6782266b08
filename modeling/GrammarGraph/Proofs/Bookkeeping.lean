import GrammarGraph.Proofs.Balance.Sessions
import Mathlib.Data.List.Nodup

/-! The books of an evaluation at every moment at which they are used. A computation is given as a
script, so that each request for a value can be told from what happens around it, however deep it
is and whatever becomes of it. The books then account for exactly the nodes that are in progress,
and no entry is ever missing that is looked up or taken out. -/
namespace GrammarGraph

/-- What is put in a part is what is then found there. -/
structure Held.Lawful {σ τ : Type} (held : Held σ τ) : Prop where
  get_modify : ∀ (f : τ → τ) (s : σ), held.get (held.modify f s) = f (held.get s)
  modify_get : ∀ (f : τ → τ) (s : σ), held.modify (fun _ => f (held.get s)) s = held.modify f s

namespace Evaluation

variable {σ α β γ : Type} {e e' : Evaluation α} {nodes : List Nat} {n m d depth : Nat} {v : α}

/-- The nodes whose values end with some frame. -/
def pendings (e : Evaluation α) : List Nat :=
  e.frames.toList.flatMap Frame.pending

/-- The books account for these nodes in progress, the outermost first. -/
structure Accounts (nodes : List Nat) (e : Evaluation α) : Prop where
  size : e.frames.size = nodes.length
  active : ∀ n d, e.active.get? n = some d ↔ nodes[d]? = some n
  lowlink : ∀ (d : Nat) (frame : Frame), e.frames[d]? = some frame → frame.lowlink ≤ d
  once : e.pendings.Nodup
  keys : ∀ n, (e.provisional.get? n).isSome ↔ n ∈ e.pendings
  apart : ∀ n, (e.active.get? n).isSome → e.provisional.get? n = none
  recorded : ∀ n p, e.provisional.get? n = some p →
    ∃ frame : Frame, e.frames[p.lowlink]? = some frame ∧ n ∈ frame.pending

/-- The books are in order, with one frame for each of these nodes. -/
structure Kept (nodes : List Nat) (e : Evaluation α) : Prop extends Orderly e where
  size : e.frames.size = nodes.length
  places : ∀ n d, e.active.get? n = some d ↔ nodes[d]? = some n
  lowlink : ∀ {d : Nat} {frame : Frame}, e.frames[d]? = some frame → frame.lowlink ≤ d
  once : ∀ {d : Nat} {frame : Frame}, e.frames[d]? = some frame → frame.pending.Nodup

theorem mem_pendings : n ∈ e.pendings ↔
    ∃ (d : Nat) (frame : Frame), e.frames[d]? = some frame ∧ n ∈ frame.pending := by
  rw [pendings, List.mem_flatMap]
  simp only [List.mem_iff_getElem? (l := e.frames.toList), Array.getElem?_toList]
  exact ⟨fun ⟨frame, ⟨d, there⟩, member⟩ => ⟨d, frame, there, member⟩,
    fun ⟨d, frame, there, member⟩ => ⟨frame, ⟨d, there⟩, member⟩⟩

theorem getElem?_concat_iff :
    (nodes ++ [n])[d]? = some m ↔ nodes[d]? = some m ∨ d = nodes.length ∧ m = n := by
  rw [List.getElem?_append]
  split
  · next lt => simp [Nat.ne_of_lt lt]
  · next le =>
    have last : d - nodes.length = 0 ↔ d = nodes.length := by omega
    simp [List.getElem?_eq_none (Nat.le_of_not_lt le), last, List.getElem?_singleton, eq_comm]

theorem frame_of_reliedOn_le {frame : Frame} (there : (e.reliedOn depth).frames[d]? = some frame) :
    ∃ old, e.frames[d]? = some old ∧ frame.pending = old.pending ∧ frame.lowlink ≤ old.lowlink := by
  rw [getElem?_frames_reliedOn] at there
  split at there
  · obtain ⟨old, held, rfl⟩ := Option.map_eq_some_iff.mp there
    exact ⟨old, held, rfl, Nat.min_le_left ..⟩
  · exact ⟨frame, there, rfl, Nat.le_refl _⟩

theorem frame_of_put {l : Nat} {frame : Frame} (there : (e.put n v l).frames[d]? = some frame) :
    ∃ old, e.frames[d]? = some old ∧ frame.lowlink = old.lowlink ∧
      (frame.pending = old.pending ∨ frame.pending = n :: old.pending) := by
  rw [getElem?_frames_put] at there
  split at there
  · obtain ⟨old, held, rfl⟩ := Option.map_eq_some_iff.mp there
    exact ⟨old, held, rfl, .inr rfl⟩
  · exact ⟨frame, there, rfl, .inl rfl⟩

namespace Kept

theorem pendings_nodup (h : Kept nodes e) : e.pendings.Nodup := by
  refine List.nodup_flatMap.mpr ⟨fun frame member => ?_, List.pairwise_iff_getElem.mpr ?_⟩
  · obtain ⟨d, there⟩ := List.mem_iff_getElem?.mp member
    exact h.once (by rwa [Array.getElem?_toList] at there)
  · intro i j hi hj lt n mine other
    have at_ {d : Nat} (hd : d < e.frames.toList.length) (member : n ∈ e.frames.toList[d].pending) :
        ∃ p, e.provisional.get? n = some p ∧ p.lowlink = d :=
      h.pending (by rw [← Array.getElem?_toList, List.getElem?_eq_getElem hd]) member
    obtain ⟨p, known, rfl⟩ := at_ hi mine
    obtain ⟨q, known', rfl⟩ := at_ hj other
    cases known.symm.trans known'
    exact Nat.lt_irrefl _ lt

theorem accounts (h : Kept nodes e) : Accounts nodes e where
  size := h.size
  active := h.places
  lowlink _ _ := h.lowlink
  once := h.pendings_nodup
  keys n := by
    rw [mem_pendings, Option.isSome_iff_exists]
    constructor
    · rintro ⟨p, known⟩
      obtain ⟨frame, there, member⟩ := h.listed known
      exact ⟨_, frame, there, member⟩
    · rintro ⟨d, frame, there, member⟩
      obtain ⟨p, known, -⟩ := h.pending there member
      exact ⟨p, known⟩
  apart n busy := by
    obtain ⟨d, busy⟩ := Option.isSome_iff_exists.mp busy
    exact (h.apart busy).2
  recorded _ _ := h.listed

theorem of_resting (rest : e.Resting) : Kept [] e where
  toOrderly := rest.orderly
  size := by rw [rest.frames]; rfl
  places n d := by simp [rest.active]
  lowlink there := by simp [rest.frames] at there
  once there := by simp [rest.frames] at there

theorem resting (h : Kept [] e) : e.Resting where
  active n := Option.eq_none_iff_forall_ne_some.mpr fun d busy => by
    cases (h.places n d).mp busy
  frames := Array.eq_empty_of_size_eq_zero h.size
  provisional n := Option.eq_none_iff_forall_ne_some.mpr fun p known =>
    absurd (h.size ▸ h.lowlink_lt known) (Nat.not_lt_zero _)

theorem reliedOn (h : Kept nodes e) (depth : Nat) : Kept nodes (e.reliedOn depth) where
  toOrderly := h.toOrderly.reliedOn depth
  size := size_frames_reliedOn.trans h.size
  places := h.places
  lowlink there := by
    obtain ⟨old, held, -, le⟩ := frame_of_reliedOn_le there
    exact Nat.le_trans le (h.lowlink held)
  once there := by
    obtain ⟨old, held, same, -⟩ := frame_of_reliedOn_le there
    exact same ▸ h.once held

theorem enter (h : Kept nodes e) (fresh : e.Fresh n) : Kept (nodes ++ [n]) (e.enter n) where
  toOrderly := h.toOrderly.enter fresh.stored fresh.provisional
  size := by rw [frames_enter, Array.size_push, h.size, List.length_append]; rfl
  places m d := by
    rw [active_enter, h.size, getElem?_concat_iff, ← h.places]
    split
    · next same => simp [same, fresh.active, eq_comm]
    · next other => simp [other]
  lowlink {d frame} there := by
    rw [frames_enter, Array.getElem?_push] at there
    split at there
    · next here => cases there; exact Nat.le_of_eq here.symm
    · exact h.lowlink there
  once {d frame} there := by
    rw [frames_enter, Array.getElem?_push] at there
    split at there
    · cases there; exact .nil
    · exact h.once there

theorem size_concat (h : Kept (nodes ++ [n]) e) : e.frames.size = nodes.length + 1 := by
  rw [h.size, List.length_append]
  rfl

theorem here (h : Kept (nodes ++ [n]) e) : e.active.get? n = some nodes.length :=
  (h.places n _).mpr (getElem?_concat_iff.mpr (.inr ⟨rfl, rfl⟩))

theorem leave (h : Kept (nodes ++ [n]) e) : Kept nodes (e.leave n) where
  toOrderly := by
    refine h.toOrderly.leave h.size_concat fun m d busy => ?_
    rcases getElem?_concat_iff.mp ((h.places m d).mp busy) with below | ⟨-, same⟩
    · exact .inr (List.getElem?_eq_some_iff.mp below).1
    · exact .inl same
  size := size_frames_leave h.size_concat
  places m d := by
    rw [active_leave]
    split
    · next same =>
      refine ⟨fun none => (nomatch none), fun below => ?_⟩
      have twice := (h.places n d).mpr (getElem?_concat_iff.mpr (.inl (same ▸ below)))
      cases h.here.symm.trans twice
      exact absurd (List.getElem?_eq_some_iff.mp below).1 (Nat.lt_irrefl _)
    · next other => simp [h.places, getElem?_concat_iff, other]
  lowlink there := by
    rw [getElem?_frames_leave h.size_concat] at there
    split at there
    · cases there
    · exact h.lowlink there
  once there := by
    rw [getElem?_frames_leave h.size_concat] at there
    split at there
    · cases there
    · exact h.once there

theorem leave_fresh (h : Kept (nodes ++ [n]) e) : (e.leave n).Fresh n where
  stored := (h.apart h.here).1
  active := by rw [active_leave, if_pos rfl]
  provisional := Option.eq_none_iff_forall_ne_some.mpr fun p known => by
    have known := ((h.provisional_leave_iff h.size_concat).mp known).1
    cases (h.apart h.here).2.symm.trans known

theorem postpone (h : Kept nodes e) {l : Nat} (lt : l < nodes.length) (fresh : e.Fresh n) :
    Kept nodes (e.postpone n v l) where
  toOrderly := h.toOrderly.postpone (h.size ▸ lt) fresh.active fresh.provisional
  size := size_frames_reliedOn.trans ((Array.size_modify).trans h.size)
  places := h.places
  lowlink there := by
    obtain ⟨between, there, -, le⟩ := frame_of_reliedOn_le (e := e.put n v l) there
    obtain ⟨old, held, same, -⟩ := frame_of_put there
    exact Nat.le_trans le (same ▸ h.lowlink held)
  once there := by
    obtain ⟨between, there, same, -⟩ := frame_of_reliedOn_le (e := e.put n v l) there
    obtain ⟨old, held, -, kept | grown⟩ := frame_of_put there
    · exact same ▸ kept ▸ h.once held
    · refine same ▸ grown ▸ List.nodup_cons.mpr ⟨fun member => ?_, h.once held⟩
      obtain ⟨p, known, -⟩ := h.pending held member
      cases fresh.provisional.symm.trans known

theorem store (h : Kept nodes e) (idle : e.active.get? n = none) : Kept nodes (e.store n v) where
  toOrderly := h.toOrderly.store idle
  size := h.size
  places := h.places
  lowlink := h.lowlink
  once := h.once

end Kept

/-- A change that only loses values for good. -/
structure Spares (e e' : Evaluation α) : Prop where
  active : e'.active = e.active
  frames : e'.frames = e.frames
  provisional : e'.provisional = e.provisional
  stored : ∀ n v, e'.stored.get? n = some v → e.stored.get? n = some v

theorem Spares.refl (e : Evaluation α) : Spares e e :=
  ⟨rfl, rfl, rfl, fun _ _ => id⟩

theorem Kept.spares (h : Kept nodes e) (spares : Spares e e') : Kept nodes e' := by
  obtain ⟨stored', active', frames', provisional'⟩ := e'
  obtain ⟨rfl, rfl, rfl, stored⟩ := spares
  refine { h with apart := fun busy => ⟨?_, (h.apart busy).2⟩ }
  refine Option.eq_none_iff_forall_ne_some.mpr fun v known => ?_
  cases (h.apart busy).1.symm.trans (stored _ v known)

/-- What is not there that should be. -/
inductive Lack where
  | active (n : Nat)
  | provisional (n : Nat)
  | frame (depth : Nat)
  | innermost

/-- As `reliedOn`, where there must be a frame. -/
def reliedOn? (depth : Nat) (e : Evaluation α) : Except Lack (Evaluation α) :=
  if e.frames.isEmpty then throw .innermost else pure (e.reliedOn depth)

/-- Takes entries out one after the other, each of which must be there. -/
def expire? : List Nat → Table (Provisional α) → Except Lack (Table (Provisional α))
  | [], entries => pure entries
  | n :: rest, entries =>
    if entries.has n then expire? rest (entries.erase n) else throw (.provisional n)

/-- As `leave`, where the node must be in progress, have a frame, and all that ends with this frame
must be there. -/
def leave? (n : Nat) (e : Evaluation α) : Except Lack (Evaluation α) :=
  match e.active.has n, e.frames.back? with
  | false, _ => throw (.active n)
  | true, none => throw .innermost
  | true, some frame => do
    let provisional ← expire? frame.pending e.provisional
    pure { e with active := e.active.erase n, provisional, frames := e.frames.pop }

/-- As `postpone`, where there must be a frame that the value ends with. -/
def postpone? (n : Nat) (value : α) (lowlink : Nat) (e : Evaluation α) :
    Except Lack (Evaluation α) :=
  if lowlink < e.frames.size then reliedOn? lowlink (e.put n value lowlink)
  else throw (.frame lowlink)

theorem expire?_eq {ns : List Nat} (nodup : ns.Nodup) :
    ∀ {entries : Table (Provisional α)}, (∀ n ∈ ns, entries.has n) →
      expire? ns entries = .ok (ns.foldl Table.erase entries) := by
  induction ns with
  | nil => exact fun _ => rfl
  | cons n ns ih =>
    intro entries known
    obtain ⟨first, rest⟩ := List.nodup_cons.mp nodup
    rw [expire?, if_pos (known n List.mem_cons_self), ih rest fun m member => ?_]
    · rfl
    · have other : m ≠ n := fun same => first (same ▸ member)
      rw [Table.has, Table.get?_erase, if_neg other]
      exact known m (List.mem_cons_of_mem n member)

namespace Kept

theorem reliedOn?_eq (h : Kept nodes e) (inside : nodes ≠ []) (depth : Nat) :
    e.reliedOn? depth = .ok (e.reliedOn depth) := by
  have some_ : ¬ e.frames.isEmpty := by
    rw [Array.isEmpty_iff_size_eq_zero, h.size]
    simpa using inside
  rw [reliedOn?, if_neg some_]
  rfl

theorem leave?_eq (h : Kept (nodes ++ [n]) e) : e.leave? n = .ok (e.leave n) := by
  have busy : e.active.has n = true := by rw [Table.has, h.here]; rfl
  obtain ⟨frame, there⟩ : ∃ frame, e.frames[nodes.length]? = some frame :=
    ⟨_, Array.getElem?_eq_getElem (by rw [h.size_concat]; exact Nat.lt_succ_self _)⟩
  have last : e.frames.back? = some frame := by
    rw [Array.back?_eq_getElem?, h.size_concat]
    exact there
  have expired : expire? frame.pending e.provisional = .ok _ :=
    expire?_eq (h.once there) fun m member => by
      obtain ⟨p, known, -⟩ := h.pending there member
      rw [Table.has, known]
      rfl
  rw [leave?, busy, last]
  simp only [expired]
  rw [Evaluation.leave, Evaluation.pending, last]
  rfl

theorem postpone?_eq (h : Kept nodes e) {l : Nat} (lt : l < nodes.length) :
    e.postpone? n v l = .ok (e.postpone n v l) := by
  have some_ : ¬ (e.put n v l).frames.isEmpty := by
    rw [Array.isEmpty_iff_size_eq_zero, put, Array.size_modify, h.size]
    omega
  rw [postpone?, if_pos (h.size ▸ lt), reliedOn?, if_neg some_]
  rfl

end Kept

def attempt (held : Held σ (Evaluation α)) (missing : Lack → Fault)
    (change : Evaluation α → Except Lack (Evaluation α)) : RunOf σ Unit :=
  fun s => match change (held.get s) with
    | .ok e => some (.ok (), held.modify (fun _ => e) s)
    | .error lack => some (.error (missing lack), s)

/-- As `demand`, with a fault when something is missing in the books. -/
def strictDemand (held : Held σ (Evaluation α)) (missing : Lack → Fault) (default body : RunOf σ α)
    (n : Nat) : RunOf σ α := do
  match ← .read fun s => (held.get s).standing n with
  | .stored value => pure value
  | .active depth =>
    attempt held missing (reliedOn? depth)
    default
  | .provisional entry =>
    attempt held missing (reliedOn? entry.lowlink)
    pure entry.value
  | .fresh depth =>
    .update (held.modify (enter n))
    let result ← body.outcome
    let lowlink ← .read fun s => (held.get s).lowlink
    attempt held missing (leave? n)
    let value ← RunOf.ofExcept result
    if lowlink < depth then
      attempt held missing (postpone? n value lowlink)
    else
      .update (held.modify (store n value))
    pure value

/-- A computation on a state that holds the books of a function. Whatever else it does, it leaves
the books alone, but may lose values that are stored; it may go on after a fault. For a value it
asks as functions of nodes are asked: with what to do in a cycle and what to do otherwise, which
may well ask in turn. -/
inductive Script (held : Held σ (Evaluation α)) : Type → Type 1 where
  | given {β : Type} (result : Except Fault β) : Script held β
  | act {β : Type} (r : RunOf σ β)
      (spares : ∀ s result s', r s = some (result, s') → Spares (held.get s) (held.get s')) :
      Script held β
  | bind {β γ : Type} (first : Script held β) (next : β → Script held γ) : Script held γ
  | outcome {β : Type} (first : Script held β) : Script held (Except Fault β)
  | ask (n : Nat) (default body : Script held α) : Script held α

/-- A request for the value of a node, while others are in progress. -/
structure Request (held : Held σ (Evaluation α)) where
  within : List Nat
  state : σ
  node : Nat
  default : Script held α
  body : Script held α

variable {held : Held σ (Evaluation α)}

namespace Script

def run : {β : Type} → Script held β → RunOf σ β
  | _, given result => .ofExcept result
  | _, act r _ => r
  | _, bind first next => first.run >>= fun b => (next b).run
  | _, outcome first => first.run.outcome
  | _, ask n default body => demand held default.run body.run n

/-- A request that is made in the course of the run from this state, while these nodes are in
progress. -/
def Makes : {β : Type} → Script held β → List Nat → σ → Request held → Prop
  | _, given _, _, _, _ => False
  | _, act _ _, _, _, _ => False
  | _, bind first next, within, s, request => first.Makes within s request ∨
    ∃ b s', first.run s = some (.ok b, s') ∧ (next b).Makes within s' request
  | _, outcome first, within, s, request => first.Makes within s request
  | _, ask n default body, within, s, request => request = ⟨within, s, n, default, body⟩ ∨
    match (held.get s).standing n with
    | .active depth => default.Makes within (held.modify (reliedOn depth) s) request
    | .fresh _ => body.Makes (within ++ [n]) (held.modify (enter n) s) request
    | _ => False

end Script

namespace Request

def answer (r : Request held) : Option (Except Fault α × σ) :=
  demand held r.default.run r.body.run r.node r.state

/-- The books account for what is in progress when a value is asked for, when the node is entered
and when there is an answer or a fault, and nothing is missing in between. -/
structure Upheld (r : Request held) : Prop where
  asked : (held.get r.state).Accounts r.within
  entered : ∀ depth, (held.get r.state).standing r.node = .fresh depth →
    (held.get (held.modify (enter r.node) r.state)).Accounts (r.within ++ [r.node])
  answered : ∀ result s, r.answer = some (result, s) → (held.get s).Accounts r.within
  strict : ∀ missing, strictDemand held missing r.default.run r.body.run r.node r.state = r.answer

end Request

theorem of_standing (e : Evaluation α) (n : Nat) :
    match e.standing n with
    | .stored _ => True
    | .active depth => e.active.get? n = some depth
    | .provisional entry => e.provisional.get? n = some entry
    | .fresh depth => e.Fresh n ∧ depth = e.frames.size := by
  unfold standing
  cases stored : e.stored.get? n with
  | some v => trivial
  | none => cases active : e.active.get? n with
    | some depth => rfl
    | none => cases provisional : e.provisional.get? n with
      | some entry => rfl
      | none => exact ⟨⟨stored, active, provisional⟩, rfl⟩

/-- However the run ends, the same nodes are in progress after it. -/
def Keeps (held : Held σ (Evaluation α)) (nodes : List Nat) (r : RunOf σ β) : Prop :=
  ∀ s result s', Kept nodes (held.get s) → r s = some (result, s') → Kept nodes (held.get s')

namespace Keeps

theorem ofExcept (result : Except Fault β) : Keeps held nodes (RunOf.ofExcept result) := by
  rintro s _ _ kept ⟨⟩
  exact kept

theorem bind {r : RunOf σ β} {f : β → RunOf σ γ} (hr : Keeps held nodes r)
    (hf : ∀ b, Keeps held nodes (f b)) : Keeps held nodes (r >>= f) := by
  intro s result s' kept ends
  rw [RunOf.bind_run] at ends
  obtain ⟨⟨first, s₁⟩, began, ends⟩ := Option.bind_eq_some_iff.mp ends
  have kept₁ := hr s first s₁ kept began
  cases first with
  | error fault =>
    cases ends
    exact kept₁
  | ok b => exact hf b s₁ result s' kept₁ ends

theorem outcome {r : RunOf σ β} (h : Keeps held nodes r) : Keeps held nodes r.outcome := by
  intro s result s' kept ends
  obtain ⟨⟨ended, _⟩, ran, same⟩ := Option.map_eq_some_iff.mp ends
  cases same
  exact h _ _ _ kept ran

/-- A node is entered and left again, whatever becomes of its value. -/
theorem demand (lawful : held.Lawful) {default body : RunOf σ α} (hd : Keeps held nodes default)
    (hb : Keeps held (nodes ++ [n]) body) : Keeps held nodes (demand held default body n) := by
  intro s result s' kept ends
  have reliedOn (depth : Nat) : Kept nodes (held.get (held.modify (Evaluation.reliedOn depth) s)) :=
    lawful.get_modify _ s ▸ kept.reliedOn depth
  have body_kept {ended : Except Fault α} {s₁ : σ} (fresh : (held.get s).Fresh n)
      (ran : body (held.modify (enter n) s) = some (ended, s₁)) :
      Kept (nodes ++ [n]) (held.get s₁) :=
    hb _ _ _ (lawful.get_modify _ s ▸ kept.enter fresh) ran
  cases demanded ends with
  | stored => exact kept
  | active _ _ ended => exact hd _ _ _ (reliedOn _) ended
  | provisional => exact reliedOn _
  | failed fresh ran =>
    rw [lawful.get_modify]
    exact (body_kept fresh ran).leave
  | postponed fresh ran low =>
    have within := body_kept fresh ran
    rw [lawful.get_modify, lawful.get_modify]
    exact within.leave.postpone (kept.size ▸ low) within.leave_fresh
  | computed fresh ran high =>
    have within := body_kept fresh ran
    rw [lawful.get_modify, lawful.get_modify]
    exact within.leave.store within.leave_fresh.active

end Keeps

theorem attempt_bind (lawful : held.Lawful) {missing : Lack → Fault} {s : σ}
    {change : Evaluation α → Except Lack (Evaluation α)} {f : Evaluation α → Evaluation α}
    (there : change (held.get s) = .ok (f (held.get s))) (k : Unit → RunOf σ β) :
    (attempt held missing change >>= k) s = k () (held.modify f s) := by
  rw [RunOf.bind_run, attempt, there, ← lawful.modify_get f s]
  rfl

/-- Nothing is missing in books that account for what is in progress. -/
theorem strictDemand_eq (lawful : held.Lawful) {default body : RunOf σ α} {s : σ}
    (kept : Kept nodes (held.get s)) (hb : Keeps held (nodes ++ [n]) body)
    (missing : Lack → Fault) :
    strictDemand held missing default body n s = Evaluation.demand held default body n s := by
  have stands := (held.get s).of_standing n
  unfold strictDemand Evaluation.demand
  rw [RunOf.read_bind, RunOf.read_bind]
  cases standing : (held.get s).standing n with
  | stored v => rfl
  | active depth =>
    rw [standing] at stands
    have inside : nodes ≠ [] := fun none => by
      have here := (kept.places n depth).mp stands
      rw [none] at here
      cases here
    exact attempt_bind lawful (kept.reliedOn?_eq inside depth) _
  | provisional entry =>
    rw [standing] at stands
    have inside : nodes ≠ [] := fun none => by
      have lt := kept.lowlink_lt stands
      rw [kept.size, none] at lt
      exact absurd lt (Nat.not_lt_zero _)
    exact attempt_bind lawful (kept.reliedOn?_eq inside entry.lowlink) _
  | fresh depth =>
    rw [standing] at stands
    obtain ⟨fresh, rfl⟩ := stands
    simp only [RunOf.update_bind, RunOf.outcome_bind]
    refine Option.bind_congr fun ⟨result, s₁⟩ ran => ?_
    have within := hb _ _ _ (lawful.get_modify _ s ▸ kept.enter fresh) ran
    simp only [RunOf.read_bind, RunOf.update_bind]
    rw [attempt_bind lawful within.leave?_eq]
    cases result with
    | error fault => rfl
    | ok v =>
      rw [RunOf.ok_bind, RunOf.ok_bind]
      split
      · next low =>
        have left : Kept nodes (held.get (held.modify (leave n) s₁)) :=
          lawful.get_modify _ s₁ ▸ within.leave
        exact attempt_bind lawful (left.postpone?_eq (kept.size ▸ low)) _
      · rfl

theorem Script.upheld (lawful : held.Lawful) {β : Type} (script : Script held β) :
    ∀ within, Keeps held within script.run ∧
      ∀ s request, Kept within (held.get s) → script.Makes within s request → request.Upheld := by
  induction script with
  | given result => exact fun within => ⟨.ofExcept result, fun _ _ _ none => none.elim⟩
  | act r spares =>
    exact fun within => ⟨fun s result s' kept ends => kept.spares (spares s result s' ends),
      fun _ _ _ none => none.elim⟩
  | bind first next ihf ihn =>
    intro within
    refine ⟨.bind (ihf within).1 fun b => (ihn b within).1, fun s request kept made => ?_⟩
    rcases made with early | ⟨b, s', ran, late⟩
    · exact (ihf within).2 s request kept early
    · exact (ihn b within).2 s' request ((ihf within).1 _ _ _ kept ran) late
  | outcome first ih => exact fun within => ⟨.outcome (ih within).1, (ih within).2⟩
  | ask n default body ihd ihb =>
    intro within
    have keeps := Keeps.demand lawful (ihd within).1 (ihb (within ++ [n])).1
    refine ⟨keeps, fun s request kept made => ?_⟩
    have stands := (held.get s).of_standing n
    rcases made with rfl | deeper
    · refine ⟨kept.accounts, fun depth fresh => ?_,
        fun result s' ends => (keeps _ _ _ kept ends).accounts,
        strictDemand_eq lawful kept (ihb (within ++ [n])).1⟩
      rw [fresh] at stands
      exact lawful.get_modify _ s ▸ (kept.enter stands.1).accounts
    · cases standing : (held.get s).standing n with
      | stored | provisional =>
        rw [standing] at deeper
        exact deeper.elim
      | active depth =>
        rw [standing] at deeper
        exact (ihd within).2 _ request (lawful.get_modify _ s ▸ kept.reliedOn depth) deeper
      | fresh depth =>
        rw [standing] at deeper stands
        exact (ihb (within ++ [n])).2 _ request (lawful.get_modify _ s ▸ kept.enter stands.1) deeper

namespace Script

/-- Whatever is computed, and however deep a value is asked for: when it is asked for, when its node
is entered and when there is an answer or a fault, the books account for the nodes in progress, and
nothing that is looked up or taken out in between is missing. In the end nothing is in progress, so
that the same holds of the next computation. -/
theorem requests_upheld (lawful : held.Lawful) {β : Type} (script : Script held β) {s : σ}
    (rest : (held.get s).Resting) :
    (∀ request, script.Makes [] s request → request.Upheld) ∧
      ∀ result s', script.run s = some (result, s') → (held.get s').Resting := by
  obtain ⟨keeps, upheld⟩ := script.upheld lawful []
  exact ⟨fun request => upheld s request (.of_resting rest),
    fun result s' ends => (keeps s result s' (.of_resting rest) ends).resting⟩

/-- Node 1 asks for node 0 in a cycle, and its value is used for the time being until node 0
fails. -/
def entangled : Script Held.nullable Bool :=
  let one := ask 1 (given (.ok false)) (ask 0 (given (.ok false)) (given (.ok true)))
  ask 0 (given (.ok false)) (bind one fun _ => bind one fun _ => given (.error .step))

theorem requests_upheld_entangled :
    Held.nullable.Lawful ∧ (Held.nullable.get {}).Resting ∧
      (∀ request, entangled.Makes [] {} request → request.Upheld) ∧
      (∃ request, entangled.Makes [] {} request ∧ request.within = [0, 1] ∧ request.node = 0) ∧
      ∃ g, entangled.run {} = some (.error .step, g) ∧ (Held.nullable.get g).Resting := by
  have lawful : Held.nullable.Lawful := ⟨fun _ _ => rfl, fun _ _ => rfl⟩
  have rest : (Held.nullable.get {}).Resting := .initial
  have fails : ∃ g, entangled.run {} = some (.error .step, g) := ⟨_, rfl⟩
  have all := requests_upheld lawful entangled rest
  have again : ∃ request, entangled.Makes [] {} request ∧ request.within = [0, 1] ∧
      request.node = 0 := ⟨_, .inr (.inl (.inr (.inl rfl))), rfl, rfl⟩
  obtain ⟨g, ends⟩ := fails
  exact ⟨lawful, rest, all.1, again, g, ends, all.2 _ _ ends⟩

end Script

end Evaluation

end GrammarGraph
