import Mathlib.Data.Finset.Card
import Mathlib.Data.List.Forall2
import GrammarGraph.Proofs.Recursion.Leaning

/-! Recursions on finite graphs. A call ends within every bound above the number of nodes, since
no node is entered twice at the same time. What a body may rely on holds of all answers, and every
node of which nothing was known is begun when it is asked for. -/
namespace GrammarGraph

structure FiniteGraph where
  nodes : Finset Nat
  children : Nat → List Nat
  closed : ∀ {n m}, n ∈ nodes → m ∈ children n → m ∈ nodes

namespace FiniteGraph

def Child (G : FiniteGraph) (n m : Nat) : Prop :=
  m ∈ G.children n

/-- The children of the nodes `0`, `1` and so on. -/
def ofLists (lists : List (List Nat)) (inside : ∀ ms ∈ lists, ∀ m ∈ ms, m < lists.length) :
    FiniteGraph where
  nodes := .range lists.length
  children n := lists.getD n []
  closed {n m} member child := by
    rw [Finset.mem_range] at member ⊢
    rw [List.getD_eq_getElem?_getD, List.getElem?_eq_getElem member, Option.getD_some] at child
    exact inside _ (List.getElem_mem member) m child

end FiniteGraph

namespace Body

variable {α : Type}

/-- Gives a value whatever the answers are. -/
inductive Sure : Body α → Prop where
  | done (v : α) : Sure (.done v)
  | asks {n : Nat} {next : α → Body α} : (∀ v, Sure (next v)) → Sure (.asks n next)

/-- The value satisfies `T` if those of the nodes that are asked for satisfy `S`. -/
inductive Meets (S : Nat → α → Prop) (T : α → Prop) : Body α → Prop where
  | ends {result : Except Fault α} : (∀ v, result = .ok v → T v) → Meets S T (.ends result)
  | asks {n : Nat} {next : α → Body α} : (∀ v, S n v → Meets S T (next v)) →
      Meets S T (.asks n next)

end Body

/-- Calls one after another, each of which finds what it needs and leaves it behind. -/
theorem RunOf.mapM_ok {σ α β : Type} {f : α → RunOf σ β} {I : σ → Prop} {T : α → β → Prop}
    {as : List α}
    (each : ∀ a ∈ as, ∀ s, I s → ∃ b s', f a s = some (.ok b, s') ∧ I s' ∧ T a b)
    {s : σ} (start : I s) :
    ∃ bs s', as.mapM f s = some (.ok bs, s') ∧ I s' ∧ List.Forall₂ T as bs := by
  induction as generalizing s with
  | nil => exact ⟨[], s, rfl, start, .nil⟩
  | cons a as ih =>
    obtain ⟨b, s₁, first, kept, holds⟩ := each a (by simp) s start
    obtain ⟨bs, s', rest, kept', all⟩ := ih (fun a' member => each a' (by simp [member])) kept
    refine ⟨b :: bs, s', ?_, kept', .cons holds all⟩
    rw [List.mapM_cons, bind_of_ok first, bind_of_ok rest]
    rfl

/-- Two runs over the same list, of which the second leaves no trace, end alike if they do so at
each place. The invariant of the first may speak of what is done already. -/
theorem RunOf.mapM_alike {σ τ α β : Type} {f : α → RunOf σ β} {g : α → RunOf τ β}
    {I : List α → σ → Prop} {t : τ} {as : List α}
    (each : ∀ a ∈ as, ∀ passed s, I passed s → ∃ r s', f a s = some (r, s') ∧
      g a t = some (r, t) ∧ ∀ b, r = .ok b → I (passed ++ [a]) s')
    {passed : List α} {s : σ} (start : I passed s) :
    ∃ r s', as.mapM f s = some (r, s') ∧ as.mapM g t = some (r, t) ∧
      ∀ bs, r = .ok bs → I (passed ++ as) s' := by
  induction as generalizing passed s with
  | nil => exact ⟨.ok [], s, rfl, rfl, fun _ _ => by simpa using start⟩
  | cons a as ih =>
    rw [List.mapM_cons, List.mapM_cons]
    obtain ⟨r, s₁, first, alike, kept⟩ := each a (by simp) passed s start
    cases r with
    | error fault =>
      refine ⟨.error fault, s₁, ?_, ?_, fun _ ended => (nomatch ended)⟩
      · rw [bind_run, first]
        rfl
      · rw [bind_run, alike]
        rfl
    | ok b =>
      obtain ⟨r, s', rest, alike', kept'⟩ :=
        ih (fun a' member => each a' (by simp [member])) (kept b rfl)
      rw [bind_of_ok first, bind_of_ok alike, bind_run, bind_run, rest, alike']
      cases r with
      | error fault => exact ⟨.error fault, s', rfl, rfl, fun _ ended => (nomatch ended)⟩
      | ok bs => exact ⟨.ok (b :: bs), s', rfl, rfl, fun _ _ => by simpa using kept' bs rfl⟩

namespace Evaluation

variable {α : Type} {e e₁ : Evaluation α} {n m : Nat}

theorem fresh_or_leans (e : Evaluation α) (n : Nat) :
    e.Fresh n ∨ (∃ v, e.stored.get? n = some v) ∨ ∃ d, e.Leans n d := by
  cases stored : e.stored.get? n with
  | some v => exact .inr (.inl ⟨v, rfl⟩)
  | none => cases active : e.active.get? n with
    | some d => exact .inr (.inr ⟨d, .inl active⟩)
    | none => cases provisional : e.provisional.get? n with
      | some p => exact .inr (.inr ⟨_, .inr ⟨p, provisional, rfl⟩⟩)
      | none => exact .inl ⟨stored, active, provisional⟩

theorem Fresh.enter (h : e.Fresh m) (other : m ≠ n) : (e.enter n).Fresh m where
  stored := h.stored
  active := by rw [active_enter, if_neg other, h.active]
  provisional := h.provisional

/-- Of another node than the one that is left nothing more is known. -/
theorem Fresh.close (h : e.Fresh m) (other : m ≠ n) (v : α) (depth : Nat) :
    (e.close n v depth).Fresh m where
  stored := by
    unfold Evaluation.close
    split
    · exact h.stored
    · rw [stored_store, if_neg other]
      exact h.stored
  active := by
    have left : (e.leave n).active.get? m = none := by rw [active_leave, if_neg other, h.active]
    unfold Evaluation.close
    split <;> exact left
  provisional := by
    refine Option.eq_none_iff_forall_ne_some.mpr fun p known => ?_
    have left : (e.leave n).provisional.get? m = none := by
      change (e.pending.foldl Table.erase e.provisional).get? m = none
      rw [get?_foldl_erase, h.provisional, ite_self]
    unfold Evaluation.close at known
    split at known
    · have known : ((e.leave n).put n v e.lowlink).provisional.get? m = some p := known
      rw [get?_provisional_put, if_neg other, left] at known
      cases known
    · cases left.symm.trans known

end Evaluation

namespace Recursion

open Evaluation (Consistent)

variable {α : Type} {R : Recursion α} {k n m : Nat} {e e' : Evaluation α} {b : Body α}
  {result : Except Fault α} {as bs : List Nat} {P : Nat → Prop} {c c' : Course α} {v : α}

/-- The bodies of the nodes of the graph ask for nodes of the graph. -/
def Within (R : Recursion α) (G : FiniteGraph) : Prop :=
  ∀ n ∈ G.nodes, (R.body n).Asks (· ∈ G.nodes)

theorem replies_or_fresh (R : Recursion α) (e : Evaluation α) (n : Nat) :
    (∃ result e', R.Replies e n result e') ∨ e.Fresh n := by
  cases stored : e.stored.get? n with
  | some v => exact .inl ⟨_, _, .stored stored⟩
  | none => cases active : e.active.get? n with
    | some depth => exact .inl ⟨_, _, .active stored active rfl⟩
    | none => cases provisional : e.provisional.get? n with
      | some p => exact .inl ⟨_, _, .provisional stored active provisional⟩
      | none => exact .inr ⟨stored, active, provisional⟩

def idle (G : FiniteGraph) (e : Evaluation α) : Finset Nat :=
  G.nodes.filter fun n => (e.active.get? n).isNone

theorem idle_congr {G : FiniteGraph} (same : ∀ n, e'.active.get? n = e.active.get? n) :
    idle G e' = idle G e := by
  simp [idle, same]

theorem card_idle_enter {G : FiniteGraph} (member : n ∈ G.nodes) (fresh : e.Fresh n) :
    (idle G (e.enter n)).card < (idle G e).card := by
  refine Finset.card_lt_card (Finset.ssubset_iff_of_subset (fun m member => ?_) |>.mpr ⟨n, ?_, ?_⟩)
  · simp only [idle, Finset.mem_filter, Evaluation.active_enter] at member ⊢
    by_cases same : m = n
    · simp [same] at member
    · simpa [same] using member
  · simp [idle, member, fresh.active]
  · simp [idle, Evaluation.active_enter]

theorem Within.exists_runs {G : FiniteGraph} (within : R.Within G) (consistent : e.Consistent)
    (asks : b.Asks (· ∈ G.nodes)) (bound : (idle G e).card < k) :
    ∃ result e' as bs, R.Runs k e b result e' as bs := by
  induction k generalizing e b with
  | zero => omega
  | succ k inner =>
    induction asks generalizing e with
    | ends result => exact ⟨_, _, _, _, .ends result⟩
    | @asks n next member _ later =>
      rcases R.replies_or_fresh e n with ⟨answer, e₁, reply⟩ | fresh
      · cases answer with
        | error fault => exact ⟨_, _, _, _, .refused reply⟩
        | ok v =>
          obtain ⟨result, e', as, bs, runs⟩ := later v (reply.consistent consistent)
            (by rwa [idle_congr reply.grows.active])
          exact ⟨_, _, _, _, .replied reply runs⟩
      · have less := card_idle_enter member fresh
        obtain ⟨answer, e₁, as₁, bs₁, visit⟩ :=
          inner (consistent.enter fresh) (within n member) (by omega)
        cases answer with
        | error fault => exact ⟨_, _, _, _, .failed fresh visit⟩
        | ok v =>
          obtain ⟨closed, closing⟩ := visit.closed fresh consistent
          obtain ⟨result, e', as, bs, runs⟩ := later v closed (by rwa [idle_congr closing.active])
          exact ⟨_, _, _, _, .computed fresh visit runs⟩

/-- With a bound above the number of nodes a call ends, wherever it is made. -/
theorem Within.exists_call {G : FiniteGraph} (within : R.Within G) (consistent : e.Consistent)
    (member : n ∈ G.nodes) (large : G.nodes.card < k) :
    ∃ result e' as bs, R.Runs k e (.asks n .done) result e' as bs := by
  have few : (idle G e).card ≤ G.nodes.card := Finset.card_filter_le ..
  exact within.exists_runs consistent (.done member) (by omega)

theorem Runs.sure (h : R.Runs k e b result e' as bs) (bodies : ∀ n, (R.body n).Sure)
    (defaults : ∀ n, ∃ v, R.default n = .ok v) (sure : b.Sure) : ∃ v, result = .ok v := by
  induction h with
  | ends _ =>
    cases sure with
    | done v => exact ⟨v, rfl⟩
  | replied _ _ ih =>
    cases sure with
    | asks later => exact ih (later _)
  | refused reply =>
    cases reply with
    | active _ _ failed =>
      obtain ⟨v, given⟩ := defaults _
      cases failed.symm.trans given
  | computed _ _ _ _ outer =>
    cases sure with
    | asks later => exact outer (later _)
  | failed _ _ inner =>
    obtain ⟨v, ended⟩ := inner (bodies _)
    cases ended

/-- What bodies may rely on holds of all values, if it holds of the defaults. -/
theorem Runs.meets {S : Nat → α → Prop} (h : R.Runs k e b result e' as bs)
    (bodies : ∀ n, (R.body n).Meets S (S n)) (defaults : ∀ n v, R.default n = .ok v → S n v)
    {T : α → Prop} (meets : b.Meets S T) (known : ∀ {m u}, e.Knows m u → S m u) :
    (∀ v, result = .ok v → T v) ∧ ∀ {m u}, e'.Knows m u → S m u := by
  induction h generalizing T with
  | ends _ =>
    cases meets with
    | ends holds => exact ⟨holds, known⟩
  | @replied k n e e₁ e' next v result as bs reply _ ih =>
    cases meets with
    | asks later =>
      cases reply with
      | stored stored => exact ih (later v (known (.inl stored))) known
      | active _ _ given => exact ih (later v (defaults n v given)) known
      | provisional _ _ provisional =>
        exact ih (later _ (known (.inr ⟨_, provisional, rfl⟩))) known
  | refused reply =>
    refine ⟨fun v ended => (nomatch ended), ?_⟩
    cases reply with
    | active _ _ _ => exact known
  | computed _ _ _ inner outer =>
    cases meets with
    | asks later =>
      obtain ⟨holds, known₁⟩ := inner (bodies _) known
      refine outer (later _ (holds _ rfl)) fun known' => ?_
      rcases Evaluation.Visited.knows_close known' with before | ⟨rfl, rfl⟩
      · exact known₁ before
      · exact holds _ rfl
  | failed _ _ inner =>
    obtain ⟨-, known₁⟩ := inner (bodies _) known
    exact ⟨fun v ended => (nomatch ended), fun known' => known₁ (Evaluation.knows_leave known')⟩

theorem Replies.fresh (h : R.Replies e n result e') (fresh : e.Fresh m) : e'.Fresh m := by
  cases h with
  | stored _ => exact fresh
  | active _ _ _ => exact ⟨fresh.stored, fresh.active, fresh.provisional⟩
  | provisional _ _ _ => exact ⟨fresh.stored, fresh.active, fresh.provisional⟩

theorem Runs.fresh (h : R.Runs k e b (.ok v) e' as bs) (fresh : e.Fresh m) (other : m ∉ bs) :
    e'.Fresh m := by
  induction h using Runs.ok_induction with
  | ends _ => exact fresh
  | replied reply _ ih => exact ih (reply.fresh fresh) other
  | computed _ _ _ inner outer =>
    simp only [List.cons_append, List.mem_cons, List.mem_append, not_or] at other
    exact outer ((inner (fresh.enter other.1) other.2.1).close other.1 _ _) other.2.2

theorem Runs.begun (h : R.Runs k e b (.ok v) e' as bs) (fresh : e.Fresh m) (member : m ∈ as) :
    m ∈ bs := by
  induction h using Runs.ok_induction with
  | ends _ => cases member
  | replied reply _ ih =>
    rcases List.mem_cons.mp member with rfl | member
    · exact absurd fresh reply.not_fresh
    · exact ih (reply.fresh fresh) member
  | @computed k n e e₁ e' next u v as₁ as bs₁ bs _ visit _ inner outer =>
    by_cases here : m = n
    · simp [here]
    simp only [List.cons_append, List.mem_cons, List.mem_append, here, false_or] at member ⊢
    rcases member with member | member
    · exact .inl (inner (fresh.enter here) member)
    · by_cases before : m ∈ bs₁
      · exact .inl before
      · exact .inr (outer ((visit.fresh (fresh.enter here) before).close here _ _) member)

theorem Within.asked {G : FiniteGraph} (within : R.Within G)
    (h : R.Runs k e b result e' as bs) (asks : b.Asks (· ∈ G.nodes)) (member : m ∈ as) :
    m ∈ G.nodes := by
  induction h with
  | ends _ => cases member
  | replied _ _ ih =>
    rcases List.mem_cons.mp member with rfl | member
    · exact asks.here
    · exact ih (asks.next _) member
  | refused _ =>
    rw [List.mem_singleton.mp member]
    exact asks.here
  | computed _ _ _ inner outer =>
    simp only [List.cons_append, List.mem_cons, List.mem_append] at member
    rcases member with rfl | member | member
    · exact asks.here
    · exact inner (within _ asks.here) member
    · exact outer (asks.next _) member
  | failed _ _ inner =>
    rcases List.mem_cons.mp member with rfl | member
    · exact asks.here
    · exact inner (within _ asks.here) member

theorem Runs.asked_here {next : α → Body α} (h : R.Runs k e (.asks n next) result e' as bs) :
    n ∈ as := by
  cases h <;> simp

theorem Runs.asked_of_begun (h : R.Runs k e b result e' as bs) (member : m ∈ bs) : m ∈ as := by
  induction h with
  | ends _ | refused _ => cases member
  | replied _ _ ih => exact List.mem_cons_of_mem _ (ih member)
  | computed _ _ _ inner outer =>
    simp only [List.cons_append, List.mem_cons, List.mem_append] at member ⊢
    exact member.imp_right (Or.imp inner outer)
  | failed _ _ inner =>
    simp only [List.mem_cons] at member ⊢
    exact member.imp_right inner

/-- No body is begun of a node that is in progress or whose value is stored. -/
theorem Runs.idle_of_begun (h : R.Runs k e b result e' as bs) (consistent : e.Consistent)
    (member : m ∈ bs) : e.active.get? m = none ∧ e.stored.get? m = none := by
  have before {e e' : Evaluation α} (grows : e.Grows e')
      (idle : e'.active.get? m = none ∧ e'.stored.get? m = none) :
      e.active.get? m = none ∧ e.stored.get? m = none := by
    refine ⟨(grows.active m).symm.trans idle.1, ?_⟩
    refine Option.eq_none_iff_forall_ne_some.mpr fun v known => ?_
    cases idle.2.symm.trans (grows.stored m v known)
  have outside {e : Evaluation α} {n : Nat}
      (idle : (e.enter n).active.get? m = none ∧ (e.enter n).stored.get? m = none) :
      e.active.get? m = none ∧ e.stored.get? m = none := by
    refine ⟨?_, idle.2⟩
    rw [Evaluation.active_enter] at idle
    by_cases here : m = n
    · simp [here] at idle
    · simpa [here] using idle.1
  induction h with
  | ends _ | refused _ => cases member
  | replied reply _ ih => exact before reply.grows (ih (reply.consistent consistent) member)
  | computed fresh visit _ inner outer =>
    obtain ⟨closed, closing⟩ := visit.closed fresh consistent
    simp only [List.cons_append, List.mem_cons, List.mem_append] at member
    rcases member with rfl | member | member
    · exact ⟨fresh.active, fresh.stored⟩
    · exact outside (inner (consistent.enter fresh) member)
    · exact before closing (outer closed member)
  | failed fresh visit inner =>
    rcases List.mem_cons.mp member with rfl | member
    · exact ⟨fresh.active, fresh.stored⟩
    · exact outside (inner (consistent.enter fresh) member)

end Recursion

end GrammarGraph
