import GrammarGraph.Proofs.Census.Books
import GrammarGraph.Proofs.Outcomes

/-! Books that agree on matched numbers. The books of a sketch are those of a larger graph as
far as they speak of nodes of the sketch: each node and its match are known, in progress or
unheard of together. Only atoms, which are the same everywhere, may be known in one and not in the
other. -/
namespace GrammarGraph

/-- Of two options that are related either both are there or neither is. -/
theorem rel_cases {α β : Type} {R : α → β → Prop} {a : Option α} {b : Option β}
    (h : Option.Rel R a b) : a = none ∧ b = none ∨ ∃ x y, a = some x ∧ b = some y ∧ R x y := by
  cases h with
  | none => exact .inl ⟨rfl, rfl⟩
  | some related => exact .inr ⟨_, _, rfl, rfl, related⟩

theorem rel_imp {α β : Type} {R R' : α → β → Prop} {a : Option α} {b : Option β}
    (h : Option.Rel R a b) (imp : ∀ {x y}, R x y → R' x y) : Option.Rel R' a b := by
  cases h with
  | none => exact .none
  | some related => exact .some (imp related)

theorem rel_modify {α β : Type} {R : α → β → Prop} {a : Option α} {b : Option β} {f : α → α}
    {f' : β → β} {P : Prop} [Decidable P] (h : Option.Rel R a b)
    (imp : ∀ {x y}, R x y → R (f x) (f' y)) :
    Option.Rel R (if P then a.map f else a) (if P then b.map f' else b) := by
  split
  · cases h with
    | none => exact .none
    | some related => exact .some (imp related)
  · exact h

/-- Numbers are matched one to one. -/
structure Matching (At : Nat → Nat → Prop) : Prop where
  right : ∀ {n n' m'}, At n n' → At n m' → m' = n'
  left : ∀ {n n' m}, At n n' → At m n' → m = n

theorem Matching.eq_iff {At : Nat → Nat → Prop} (matching : Matching At) {n n' m m' : Nat}
    (hn : At n n') (hm : At m m') : m' = n' ↔ m = n :=
  ⟨fun same => matching.left hn (same ▸ hm), fun same => matching.right hn (same ▸ hm)⟩

theorem Matching.mem_iff {At : Nat → Nat → Prop} (matching : Matching At) {ns ns' : List Nat}
    (all : List.Forall₂ At ns ns') {m m' : Nat} (hm : At m m') : m' ∈ ns' ↔ m ∈ ns := by
  induction all with
  | nil => simp
  | cons first _ ih =>
    rw [List.mem_cons, List.mem_cons]
    exact or_congr (matching.eq_iff first hm) ih

structure Frame.Agrees (At : Nat → Nat → Prop) (f f' : Frame) : Prop where
  lowlink : f'.lowlink = f.lowlink
  pending : List.Forall₂ At f.pending f'.pending

structure Provisional.Agrees {α : Type} (V : α → α → Prop) (p p' : Provisional α) : Prop where
  value : V p.value p'.value
  lowlink : p'.lowlink = p.lowlink

namespace Evaluation

variable {α : Type} {At At' : Nat → Nat → Prop} {V V' : α → α → Prop} {atom : Nat → Option α}
  {e e' : Evaluation α} {n n' m : Nat} {v v' u : α}

/-- The value is stored, or nothing is known about the node yet. -/
def Settles (e : Evaluation α) (n : Nat) (v : α) : Prop :=
  e.Fresh n ∨ e.stored.get? n = some v

namespace Settles

variable (h : e.Settles m u)
include h

theorem reliedOn (depth : Nat) : (e.reliedOn depth).Settles m u :=
  h.imp_left fun fresh => ⟨fresh.stored, fresh.active, fresh.provisional⟩

theorem leave (n : Nat) : (e.leave n).Settles m u := by
  refine h.imp_left fun fresh => ⟨fresh.stored, ?_, ?_⟩
  · rw [active_leave, fresh.active, ite_self]
  · change (e.pending.foldl Table.erase e.provisional).get? m = none
    rw [get?_foldl_erase, fresh.provisional, ite_self]

variable (ne : m ≠ n)
include ne

theorem enter : (e.enter n).Settles m u :=
  h.imp_left fun fresh =>
    ⟨fresh.stored, by rw [active_enter, if_neg ne, fresh.active], fresh.provisional⟩

theorem store (v : α) : (e.store n v).Settles m u := by
  refine h.imp (fun fresh => ⟨?_, fresh.active, fresh.provisional⟩) fun stored => ?_
  · rw [stored_store, if_neg ne, fresh.stored]
  · rw [stored_store, if_neg ne, stored]

theorem put (v : α) (l : Nat) : (e.put n v l).Settles m u :=
  h.imp_left fun fresh =>
    ⟨fresh.stored, fresh.active, by rw [get?_provisional_put, if_neg ne, fresh.provisional]⟩

theorem forget : (e.forget n).Settles m u := by
  have stored : (e.forget n).stored.get? m = e.stored.get? m := by
    change (e.stored.erase n).get? m = _
    rw [Table.get?_erase, if_neg ne]
  refine h.imp (fun fresh => ⟨?_, fresh.active, fresh.provisional⟩) fun known => ?_
  · rw [stored, fresh.stored]
  · rw [stored, known]

end Settles

/-- The value of `n` is found out at once. -/
def learn (n : Nat) (v : α) (e : Evaluation α) : Evaluation α :=
  ((e.enter n).leave n).store n v

section Learn

@[simp] theorem frames_learn : (e.learn n v).frames = e.frames := by simp [learn]

theorem stored_learn : (e.learn n v).stored.get? m = if m = n then some v else e.stored.get? m := by
  rw [learn, stored_store]
  rfl

theorem active_learn (ne : m ≠ n) : (e.learn n v).active.get? m = e.active.get? m := by
  change ((e.enter n).leave n).active.get? m = _
  rw [active_leave, if_neg ne, active_enter, if_neg ne]

@[simp] theorem provisional_learn : (e.learn n v).provisional = e.provisional :=
  provisional_leave (n := n) (frames_enter (e := e))

theorem Settles.learn (h : e.Settles m u) (ne : m ≠ n) (v : α) : (e.learn n v).Settles m u := by
  refine h.imp (fun fresh => ⟨?_, ?_, ?_⟩) fun known => ?_
  · rw [stored_learn, if_neg ne, fresh.stored]
  · rw [active_learn ne, fresh.active]
  · rw [provisional_learn, fresh.provisional]
  · rw [stored_learn, if_neg ne, known]

end Learn

/-- What is known about `n` and its match `n'`. -/
structure Entry (V : α → α → Prop) (e e' : Evaluation α) (n n' : Nat) : Prop where
  stored : Option.Rel V (e.stored.get? n) (e'.stored.get? n')
  active : e'.active.get? n' = e.active.get? n
  provisional : Option.Rel (Provisional.Agrees V) (e.provisional.get? n) (e'.provisional.get? n')

theorem Fresh.entry (h : e.Fresh n) (h' : e'.Fresh n') : Entry V e e' n n' := by
  refine ⟨?_, by rw [h.active, h'.active], ?_⟩
  · rw [h.stored, h'.stored]
    exact .none
  · rw [h.provisional, h'.provisional]
    exact .none

structure Agrees (At : Nat → Nat → Prop) (V : α → α → Prop) (atom : Nat → Option α)
    (e e' : Evaluation α) : Prop where
  matching : Matching At
  atoms : ∀ {n n' v}, At n n' → atom n = some v → e.Settles n v ∧ e'.Settles n' v
  entries : ∀ {n n'}, At n n' → atom n = none → Entry V e e' n n'
  size : e'.frames.size = e.frames.size
  frames : ∀ d : Nat, Option.Rel (Frame.Agrees At) e.frames[d]? e'.frames[d]?

theorem Fresh.initial (n : Nat) : ({} : Evaluation α).Fresh n :=
  ⟨Table.get?_empty n, Table.get?_empty n, Table.get?_empty n⟩

theorem Agrees.initial (matching : Matching At) : Agrees At V atom {} {} :=
  ⟨matching, fun _ _ => ⟨.inl (.initial _), .inl (.initial _)⟩,
    fun _ _ => (Fresh.initial _).entry (.initial _), rfl, fun _ => .none⟩

/-- How two nodes that are matched stand when they are asked for. -/
inductive Stands (V : α → α → Prop) : Standing α → Standing α → Prop where
  | stored {v v' : α} : V v v' → Stands V (.stored v) (.stored v')
  | active (depth : Nat) : Stands V (.active depth) (.active depth)
  | provisional {p p' : Provisional α} : p.Agrees V p' →
      Stands V (.provisional p) (.provisional p')
  | fresh (depth : Nat) : Stands V (.fresh depth) (.fresh depth)

namespace Agrees

variable (h : Agrees At V atom e e')
include h

/-- More numbers are matched, of which nothing is known. -/
theorem grow (matching : Matching At') (larger : ∀ {n n'}, At n n' → At' n n')
    (new : ∀ {n n'}, At' n n' → At n n' ∨ e.Fresh n ∧ e'.Fresh n' ∧ atom n = none)
    (values : ∀ {v v'}, V v v' → V' v v') : Agrees At' V' atom e e' where
  matching := matching
  atoms matched known := by
    rcases new matched with old | ⟨_, _, other⟩
    · exact h.atoms old known
    · cases other.symm.trans known
  entries matched other := by
    rcases new matched with old | ⟨fresh, fresh', _⟩
    · have entry := h.entries old other
      exact ⟨rel_imp entry.stored values, entry.active,
        rel_imp entry.provisional fun agrees => ⟨values agrees.value, agrees.lowlink⟩⟩
    · exact fresh.entry fresh'
  size := h.size
  frames d := rel_imp (h.frames d) fun agrees =>
    ⟨agrees.lowlink, agrees.pending.imp fun _ _ => larger⟩

theorem stands (matched : At n n') (other : atom n = none) :
    Stands V (e.standing n) (e'.standing n') := by
  have entry := h.entries matched other
  unfold standing
  rw [entry.active, h.size]
  rcases rel_cases entry.stored with ⟨none, none'⟩ | ⟨v, v', some_, some', value⟩
  · rw [none, none']
    cases e.active.get? n with
    | some depth => exact .active depth
    | none =>
      rcases rel_cases entry.provisional with ⟨none, none'⟩ | ⟨p, p', some_, some', agrees⟩
      · rw [none, none']
        exact .fresh _
      · rw [some_, some']
        exact .provisional agrees
  · rw [some_, some']
    exact .stored value

theorem reliedOn (depth : Nat) : Agrees At V atom (e.reliedOn depth) (e'.reliedOn depth) where
  matching := h.matching
  atoms matched known :=
    (h.atoms matched known).imp (Settles.reliedOn · depth) (Settles.reliedOn · depth)
  entries matched other := ⟨(h.entries matched other).stored, (h.entries matched other).active,
    (h.entries matched other).provisional⟩
  size := by rw [size_frames_reliedOn, size_frames_reliedOn, h.size]
  frames d := by
    rw [getElem?_frames_reliedOn, getElem?_frames_reliedOn, h.size]
    exact rel_modify (h.frames d) fun agrees => ⟨by rw [agrees.lowlink], agrees.pending⟩

theorem lowlink : e'.lowlink = e.lowlink := by
  have frame := h.frames (e.frames.size - 1)
  unfold Evaluation.lowlink
  rw [Array.back?_eq_getElem?, Array.back?_eq_getElem?, h.size]
  rcases rel_cases frame with ⟨none, none'⟩ | ⟨f, f', some_, some', agrees⟩
  · rw [none, none']
  · rw [some_, some']
    exact agrees.lowlink

theorem pending : List.Forall₂ At e.pending e'.pending := by
  have frame := h.frames (e.frames.size - 1)
  unfold Evaluation.pending
  rw [Array.back?_eq_getElem?, Array.back?_eq_getElem?, h.size]
  rcases rel_cases frame with ⟨none, none'⟩ | ⟨f, f', some_, some', agrees⟩
  · rw [none, none']
    exact .nil
  · rw [some_, some']
    exact agrees.pending

/-- Atoms may be found out about on either side. -/
theorem learn_left (matched : At n n') (known : atom n = some v) :
    Agrees At V atom (e.learn n v) e' where
  matching := h.matching
  atoms {m m' u} hm known' := by
    refine (h.atoms hm known').imp_left fun settles => ?_
    by_cases same : m = n
    · subst same
      cases known.symm.trans known'
      exact .inr (by rw [stored_learn, if_pos rfl])
    · exact settles.learn same v
  entries {m m'} hm other := by
    have ne : m ≠ n := fun same => by cases (same ▸ other).symm.trans known
    have entry := h.entries hm other
    exact ⟨by rw [stored_learn, if_neg ne]; exact entry.stored,
      by rw [active_learn ne, entry.active], by rw [provisional_learn]; exact entry.provisional⟩
  size := by rw [frames_learn, h.size]
  frames d := by rw [frames_learn]; exact h.frames d

theorem learn_right (matched : At n n') (known : atom n = some v) :
    Agrees At V atom e (e'.learn n' v) where
  matching := h.matching
  atoms {m m' u} hm known' := by
    refine (h.atoms hm known').imp_right fun settles => ?_
    by_cases same : m' = n'
    · obtain rfl := h.matching.left matched (same ▸ hm)
      cases known.symm.trans known'
      exact .inr (by rw [same, stored_learn, if_pos rfl])
    · exact settles.learn same v
  entries {m m'} hm other := by
    have ne : m' ≠ n' := fun same => by
      cases (h.matching.left matched (same ▸ hm) ▸ other).symm.trans known
    have entry := h.entries hm other
    exact ⟨by rw [stored_learn, if_neg ne]; exact entry.stored,
      by rw [active_learn ne, entry.active], by rw [provisional_learn]; exact entry.provisional⟩
  size := by rw [frames_learn, h.size]
  frames d := by rw [frames_learn]; exact h.frames d

variable (matched : At n n') (other : atom n = none)
include matched other

/-- Atoms are not touched by what is done about others. -/
theorem settled {f f' : Evaluation α → Evaluation α}
    (left : ∀ {m u}, m ≠ n → e.Settles m u → (f e).Settles m u)
    (right : ∀ {m u}, m ≠ n' → e'.Settles m u → (f' e').Settles m u) {m m' : Nat} (hm : At m m')
    (known : atom m = some u) : (f e).Settles m u ∧ (f' e').Settles m' u := by
  have ne : m ≠ n := fun same => by cases (same ▸ other).symm.trans known
  have ne' : m' ≠ n' := fun same => ne ((h.matching.eq_iff matched hm).mp same)
  exact (h.atoms hm known).imp (left ne) (right ne')

theorem enter : Agrees At V atom (e.enter n) (e'.enter n') where
  matching := h.matching
  atoms hm known := h.settled matched other (fun ne settles => settles.enter ne)
    (fun ne settles => settles.enter ne) hm known
  entries hm free := by
    have entry := h.entries hm free
    refine ⟨entry.stored, ?_, entry.provisional⟩
    rw [active_enter, active_enter, h.size, entry.active]
    exact if_congr (h.matching.eq_iff matched hm) rfl rfl
  size := by simp [h.size]
  frames d := by
    rw [frames_enter, frames_enter, Array.getElem?_push, Array.getElem?_push, h.size]
    split
    · exact .some ⟨rfl, .nil⟩
    · exact h.frames d

theorem leave : Agrees At V atom (e.leave n) (e'.leave n') where
  matching := h.matching
  atoms hm known := h.settled matched other (fun _ settles => settles.leave n)
    (fun _ settles => settles.leave n') hm known
  entries {m m'} hm free := by
    have entry := h.entries hm free
    refine ⟨entry.stored, ?_, ?_⟩
    · rw [active_leave, active_leave, entry.active]
      exact if_congr (h.matching.eq_iff matched hm) rfl rfl
    · have pending := h.matching.mem_iff h.pending hm
      change Option.Rel _ ((e.pending.foldl Table.erase e.provisional).get? m)
        ((e'.pending.foldl Table.erase e'.provisional).get? m')
      rw [get?_foldl_erase, get?_foldl_erase]
      by_cases here : m ∈ e.pending
      · rw [if_pos here, if_pos (pending.mpr here)]
        exact .none
      · rw [if_neg here, if_neg fun there => here (pending.mp there)]
        exact entry.provisional
  size := by simp [h.size]
  frames d := by
    rw [frames_leave, frames_leave, Array.getElem?_pop, Array.getElem?_pop, h.size]
    split
    · exact h.frames d
    · exact .none

theorem store (value : V v v') : Agrees At V atom (e.store n v) (e'.store n' v') where
  matching := h.matching
  atoms hm known := h.settled matched other (fun ne settles => settles.store ne v)
    (fun ne settles => settles.store ne v') hm known
  entries {m m'} hm free := by
    have entry := h.entries hm free
    refine ⟨?_, entry.active, entry.provisional⟩
    rw [stored_store, stored_store]
    by_cases same : m = n
    · rw [if_pos same, if_pos ((h.matching.eq_iff matched hm).mpr same)]
      exact .some value
    · rw [if_neg same, if_neg fun same' => same ((h.matching.eq_iff matched hm).mp same')]
      exact entry.stored
  size := h.size
  frames := h.frames

theorem put (value : V v v') (l : Nat) : Agrees At V atom (e.put n v l) (e'.put n' v' l) where
  matching := h.matching
  atoms hm known := h.settled matched other (fun ne settles => settles.put ne v l)
    (fun ne settles => settles.put ne v' l) hm known
  entries {m m'} hm free := by
    have entry := h.entries hm free
    refine ⟨entry.stored, entry.active, ?_⟩
    rw [get?_provisional_put, get?_provisional_put]
    by_cases same : m = n
    · rw [if_pos same, if_pos ((h.matching.eq_iff matched hm).mpr same)]
      exact .some ⟨value, rfl⟩
    · rw [if_neg same, if_neg fun same' => same ((h.matching.eq_iff matched hm).mp same')]
      exact entry.provisional
  size := by simp [Evaluation.put, h.size]
  frames d := by
    rw [getElem?_frames_put, getElem?_frames_put]
    exact rel_modify (h.frames d) fun agrees =>
      ⟨agrees.lowlink, .cons matched agrees.pending⟩

theorem postpone (value : V v v') (l : Nat) :
    Agrees At V atom (e.postpone n v l) (e'.postpone n' v' l) := by
  rw [postpone_eq, postpone_eq]
  exact (h.put matched other value l).reliedOn l

theorem forget : Agrees At V atom (e.forget n) (e'.forget n') where
  matching := h.matching
  atoms hm known := h.settled matched other (fun ne settles => settles.forget ne)
    (fun ne settles => settles.forget ne) hm known
  entries {m m'} hm free := by
    have entry := h.entries hm free
    refine ⟨?_, entry.active, entry.provisional⟩
    change Option.Rel V ((e.stored.erase n).get? m) ((e'.stored.erase n').get? m')
    rw [Table.get?_erase, Table.get?_erase]
    by_cases same : m = n
    · rw [if_pos same, if_pos ((h.matching.eq_iff matched hm).mpr same)]
      exact .none
    · rw [if_neg same, if_neg fun same' => same ((h.matching.eq_iff matched hm).mp same')]
      exact entry.stored
  size := h.size
  frames := h.frames

end Agrees

/-- Only numbers below `b` are known. -/
def Within (b : Nat) (e : Evaluation α) : Prop :=
  ∀ n, b ≤ n → e.Fresh n

namespace Within

variable {b b' : Nat} (h : e.Within b)
include h

theorem mono (le : b ≤ b') : e.Within b' :=
  fun n hn => h n (Nat.le_trans le hn)

theorem reliedOn (depth : Nat) : (e.reliedOn depth).Within b :=
  fun n le => ⟨(h n le).stored, (h n le).active, (h n le).provisional⟩

theorem leave (n : Nat) : (e.leave n).Within b := fun m le => by
  refine ⟨(h m le).stored, by rw [active_leave, (h m le).active, ite_self], ?_⟩
  change (e.pending.foldl Table.erase e.provisional).get? m = none
  rw [get?_foldl_erase, (h m le).provisional, ite_self]

theorem forget (n : Nat) : (e.forget n).Within b := fun m le => by
  refine ⟨?_, (h m le).active, (h m le).provisional⟩
  change (e.stored.erase n).get? m = none
  rw [Table.get?_erase, (h m le).stored, ite_self]

variable (lt : n < b)
include lt

theorem enter : (e.enter n).Within b := fun m le =>
  ⟨(h m le).stored, by rw [active_enter, if_neg (by omega), (h m le).active],
    (h m le).provisional⟩

theorem store : (e.store n v).Within b := fun m le =>
  ⟨by rw [stored_store, if_neg (by omega), (h m le).stored], (h m le).active,
    (h m le).provisional⟩

theorem postpone (l : Nat) : (e.postpone n v l).Within b := by
  rw [postpone_eq]
  refine reliedOn (e := e.put n v l) (fun m le => ?_) l
  exact ⟨(h m le).stored, (h m le).active, by
    rw [get?_provisional_put, if_neg (by omega), (h m le).provisional]⟩

theorem learn (v : α) : (e.learn n v).Within b :=
  ((h.enter lt).leave n).store lt

end Within

end Evaluation

namespace Memo

variable {ρ : Type} {At At' : Nat → Nat → Prop} {R R' : ρ → ρ → Prop} {S : Value → Value → Prop}
  {atom : Nat → Option ρ} {m m' : Memo ρ} {n n' k : Nat} {b c c' : Value} {d d' u : ρ}

/-- The result for an atom is found, or else there is none yet. -/
def Settles (m : Memo ρ) (n : Nat) (c : Value) (d : ρ) : Prop :=
  m.find? n c = none ∨ m.find? n c = some d

theorem Settles.finish (h : m.Settles k b u) (ne : k ≠ n) : (m.finish n c d).Settles k b u := by
  unfold Settles
  rw [find?_finish, if_neg fun hit => ne hit.1]
  exact h

theorem Settles.forget (h : m.Settles k b u) (ne : k ≠ n) : (m.forget n).Settles k b u := by
  unfold Settles
  rw [find?_forget_of_ne ne]
  exact h

structure Agrees (At : Nat → Nat → Prop) (R : ρ → ρ → Prop) (S : Value → Value → Prop)
    (atom : Nat → Option ρ) (m m' : Memo ρ) : Prop where
  matching : Matching At
  keys : ∀ {c c' d d'}, S c c' → S d d' → c'.same d' = c.same d
  atoms : ∀ {n n' c c' d}, At n n' → S c c' → atom n = some d →
    m.Settles n c d ∧ m'.Settles n' c' d
  entries : ∀ {n n' c c'}, At n n' → S c c' → atom n = none →
    Option.Rel R (m.find? n c) (m'.find? n' c')
  started : List.Forall₂ (fun a a' => At a.1 a'.1 ∧ S a.2 a'.2) m.inProgress m'.inProgress
  compound : ∀ a ∈ m.inProgress, atom a.1 = none

theorem find?_initial (n : Nat) (c : Value) : ({} : Memo ρ).find? n c = none := by simp [find?]

theorem Agrees.initial (matching : Matching At)
    (keys : ∀ {c c' d d'}, S c c' → S d d' → c'.same d' = c.same d) : Agrees At R S atom {} {} where
  matching := matching
  keys := keys
  atoms _ _ _ := ⟨.inl (find?_initial _ _), .inl (find?_initial _ _)⟩
  entries {n n' c c'} _ _ _ := by
    rw [find?_initial, find?_initial]
    exact .none
  started := .nil
  compound _ member := (List.not_mem_nil member).elim

/-- How far the results for two nodes that are matched have come. -/
inductive Stands (R : ρ → ρ → Prop) : Progress ρ → Progress ρ → Prop where
  | finished {d d' : ρ} : R d d' → Stands R (.finished d) (.finished d')
  | started : Stands R .started .started
  | absent : Stands R .absent .absent

/-- Only numbers below `b` are known. -/
def Within (b : Nat) (m : Memo ρ) : Prop :=
  ∀ n, b ≤ n → ∀ c, m.find? n c = none

theorem Within.mono {b b' : Nat} (h : m.Within b) (le : b ≤ b') : m.Within b' :=
  fun n hn => h n (Nat.le_trans le hn)

theorem Within.finish {b : Nat} (h : m.Within b) (lt : n < b) : (m.finish n c d).Within b :=
  fun k le key => by
    rw [find?_finish, if_neg fun same => absurd same.1 (by omega)]
    exact h k le key

theorem Within.forget {b : Nat} (h : m.Within b) (n : Nat) : (m.forget n).Within b :=
  fun k le key => by
    cases found : (m.forget n).find? k key with
    | none => rfl
    | some d => cases (h k le key).symm.trans (find?_forget found)

namespace Agrees

variable (h : Agrees At R S atom m m')
include h

theorem grow (matching : Matching At') (larger : ∀ {n n'}, At n n' → At' n n')
    (new : ∀ {n n'}, At' n n' → At n n' ∨
      (∀ c, m.find? n c = none) ∧ (∀ c, m'.find? n' c = none) ∧ atom n = none)
    (values : ∀ {d d'}, R d d' → R' d d') : Agrees At' R' S atom m m' where
  matching := matching
  keys := h.keys
  atoms matched key known := by
    rcases new matched with old | ⟨_, _, other⟩
    · exact h.atoms old key known
    · cases other.symm.trans known
  entries {n n' c c'} matched key other := by
    rcases new matched with old | ⟨silent, silent', _⟩
    · exact rel_imp (h.entries old key other) values
    · rw [silent c, silent' c']
      exact .none
  started := h.started.imp fun _ _ related => ⟨larger related.1, related.2⟩
  compound := h.compound

theorem hit {a a' : Nat × Value} (related : At a.1 a'.1 ∧ S a.2 a'.2) (matched : At n n')
    (key : S c c') : (a'.1 == n' && a'.2.same c') = (a.1 == n && a.2.same c) := by
  have number : (a'.1 == n') = (a.1 == n) := by
    rw [Bool.eq_iff_iff, beq_iff_eq, beq_iff_eq]
    exact h.matching.eq_iff matched related.1
  rw [number, h.keys related.2 key]

theorem forget (matched : At n n') (other : atom n = none) :
    Agrees At R S atom (m.forget n) (m'.forget n') where
  matching := h.matching
  keys := h.keys
  atoms {k k' b b' u} hk hb known := by
    have ne : k ≠ n := fun same => by cases (same ▸ other).symm.trans known
    have ne' : k' ≠ n' := fun same => ne ((h.matching.eq_iff matched hk).mp same)
    exact (h.atoms hk hb known).imp (Settles.forget · ne) (Settles.forget · ne')
  entries {k k' b b'} hk hb free := by
    by_cases here : k = n
    · have there := (h.matching.eq_iff matched hk).mpr here
      simp only [find?, Memo.forget, Table.get?_erase, here, there, if_true]
      exact .none
    · have there : k' ≠ n' := fun same => here ((h.matching.eq_iff matched hk).mp same)
      rw [find?_forget_of_ne here, find?_forget_of_ne there]
      exact h.entries hk hb free
  started := h.started
  compound := h.compound

/-- Atoms may be found out about on either side. -/
theorem learn_left (known : atom n = some d) : Agrees At R S atom (m.finish n c d) m' where
  matching := h.matching
  keys := h.keys
  atoms {k k' b b' u} hk hb known' := by
    refine (h.atoms hk hb known').imp_left fun settles => ?_
    by_cases same : k = n
    · subst same
      cases known.symm.trans known'
      unfold Settles
      rw [find?_finish]
      split
      · exact .inr rfl
      · exact settles
    · exact settles.finish same
  entries {k k' b b'} hk hb free := by
    have ne : k ≠ n := fun same => by cases (same ▸ free).symm.trans known
    rw [find?_finish, if_neg fun hit => ne hit.1]
    exact h.entries hk hb free
  started := h.started
  compound := h.compound

theorem learn_right (matched : At n n') (known : atom n = some d) :
    Agrees At R S atom m (m'.finish n' c' d) where
  matching := h.matching
  keys := h.keys
  atoms {k k' b b' u} hk hb known' := by
    refine (h.atoms hk hb known').imp_right fun settles => ?_
    by_cases same : k' = n'
    · obtain rfl := h.matching.left matched (same ▸ hk)
      cases known.symm.trans known'
      unfold Settles
      rw [find?_finish]
      split
      · exact .inr rfl
      · exact settles
    · exact settles.finish same
  entries {k k' b b'} hk hb free := by
    have ne : k' ≠ n' := fun same => by
      cases (h.matching.left matched (same ▸ hk) ▸ free).symm.trans known
    rw [find?_finish, if_neg fun hit => ne hit.1]
    exact h.entries hk hb free
  started := h.started
  compound := h.compound

variable (matched : At n n') (key : S c c')
include matched key

theorem isStarted : m'.isStarted n' c' = m.isStarted n c := by
  have all := h.started
  unfold Memo.isStarted
  generalize m.inProgress = as at all ⊢
  generalize m'.inProgress = as' at all ⊢
  induction all with
  | nil => rfl
  | cons first _ ih =>
    rw [List.any_cons, List.any_cons, ih]
    exact congrArg (· || _) (h.hit first matched key)

theorem progress (other : atom n = none) : Stands R (m.progress n c) (m'.progress n' c') := by
  unfold Memo.progress
  rw [h.isStarted matched key]
  rcases rel_cases (h.entries matched key other) with ⟨none, none'⟩ | ⟨d, d', some_, some', value⟩
  · rw [none, none']
    cases m.isStarted n c with
    | true => exact .started
    | false => exact .absent
  · rw [some_, some']
    exact .finished value

theorem start (other : atom n = none) : Agrees At R S atom (m.start n c) (m'.start n' c') where
  matching := h.matching
  keys := h.keys
  atoms := h.atoms
  entries := h.entries
  started := .cons ⟨matched, key⟩ h.started
  compound a member := (List.mem_cons.mp member).elim (fun here => here ▸ other) (h.compound a)

theorem stop : Agrees At R S atom (m.stop n c) (m'.stop n' c') where
  matching := h.matching
  keys := h.keys
  atoms := h.atoms
  entries := h.entries
  started := by
    have all := h.started
    unfold Memo.stop
    dsimp only
    generalize m.inProgress = as at all ⊢
    generalize m'.inProgress = as' at all ⊢
    induction all with
    | nil => exact .nil
    | cons first rest ih =>
      rw [List.eraseP_cons, List.eraseP_cons]
      rw [h.hit first matched key]
      cases hit : _ == n && _ with
      | true => exact rest
      | false => exact .cons first ih
  compound a member := h.compound a (List.mem_of_mem_eraseP member)

theorem finish (value : R d d') (other : atom n = none) :
    Agrees At R S atom (m.finish n c d) (m'.finish n' c' d') where
  matching := h.matching
  keys := h.keys
  atoms {k k' b b' u} hk hb known := by
    have ne : k ≠ n := fun same => by cases (same ▸ other).symm.trans known
    have ne' : k' ≠ n' := fun same => ne ((h.matching.eq_iff matched hk).mp same)
    exact (h.atoms hk hb known).imp (Settles.finish · ne) (Settles.finish · ne')
  entries {k k' b b'} hk hb free := by
    have hit : (k' = n' ∧ c'.same b' = true) ↔ (k = n ∧ c.same b = true) := by
      rw [h.keys key hb]
      exact and_congr_left' (h.matching.eq_iff matched hk)
    rw [find?_finish, find?_finish]
    by_cases here : k = n ∧ c.same b = true
    · rw [if_pos here, if_pos (hit.mpr here)]
      exact .some value
    · rw [if_neg here, if_neg fun there => here (hit.mp there)]
      exact h.entries hk hb free
  started := h.started
  compound := h.compound

omit key matched in
/-- Nothing is in progress for an atom. -/
theorem not_started (known : atom n = some d) : m.isStarted n c = false := by
  rw [Bool.eq_false_iff, Ne, isStarted_iff]
  rintro ⟨b, member, -⟩
  cases (h.compound _ member).symm.trans known

end Agrees

end Memo

end GrammarGraph
