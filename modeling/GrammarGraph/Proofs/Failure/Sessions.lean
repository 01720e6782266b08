import GrammarGraph.Proofs.Balance.Sessions
import GrammarGraph.Proofs.Failure

/-! What a failed operation leaves behind: nothing in progress, and no result for any call that
failed, whatever the depth at which the fault arose. -/
namespace GrammarGraph

open RunOf (Stops Calls)

/-- Nothing is recorded about the node for the plan, with the extra arguments. -/
def Walk.Lacks (plan : Plan) (extra : List Value) (n : NodeId) (w : Walk) : Prop :=
  match plan with
  | .fixpoint _ _ => w.results.stored.get? n = none
  | .memo => w.remembered.find? n (.tuple extra) = none

namespace Tour

variable {ask others : Ask} {again again' : Again} {fault : Fault} {left : Tour → Prop}
  {plan : Plan} {extra : List Value} {n m : NodeId} {t t' : Tour} {bound : Nat}

/-- Results under way and calls in progress make no difference to the property. -/
structure Settled (left : Tour → Prop) : Prop where
  leave : ∀ {t} n, left t → left (Held.results.modify (Evaluation.leave n) t)
  stop : ∀ {t} n key, left t → left (Held.remembered.modify (Memo.stop n key) t)

theorem stops_compositional (h : balanced.Answers ask) (hagain : ∀ n, Keeps (again n))
    (inside : ∀ {α} {r : Ask → Run α}, Assembled r →
      Stops Tidy fault left (.inside .tourGraph (r others)) (.inside .tourGraph (r ask)))
    (stops : ∀ n, Stops Tidy fault left (again' n) (again n)) :
    Compositional fun _ r => (∀ ask again, balanced.Answers ask → (∀ n, Keeps (again n)) →
      Keeps (r ask again)) ∧ Stops Tidy fault left (r others again') (r ask again) where
  given result := ⟨keeps_compositional.given result, .refl _⟩
  read p := ⟨keeps_compositional.read p, .refl _⟩
  bind hr hf := by
    refine ⟨keeps_compositional.bind hr.1 fun a => (hf a).1, .bind (fun {t _ _} tidy ends => ?_)
      hr.2 fun a => (hf a).2⟩
    exact (hr.1 ask again h hagain t _ _ tidy ends).2
  visit n := ⟨keeps_compositional.visit n, .refl _⟩
  graph assembled := ⟨keeps_compositional.graph assembled, inside assembled⟩
  again n := ⟨keeps_compositional.again n, stops n⟩

theorem stops_turn (h : balanced.Answers ask) (settled : Settled left)
    (inside : ∀ {α} {r : Ask → Run α}, Assembled r →
      Stops Tidy fault left (.inside .tourGraph (r others)) (.inside .tourGraph (r ask)))
    (hagain : ∀ n, Keeps (again n)) (stops : ∀ n, Stops Tidy fault left (again' n) (again n))
    (extra : List Value) (plan : Plan) (n : NodeId) :
    Stops Tidy fault left (turn others extra plan again' n) (turn ask extra plan again n) := by
  have parts := stops_compositional h hagain inside stops
  cases plan with
  | fixpoint rule d =>
    refine .evaluation (settled.leave n) fun {t _ _} tidy fresh ends => ?_
    exact (parts.step rule n).2 _ _ _ (tidy.enter fresh) ends
  | memo =>
    refine .memo (settled.stop n _) fun {t _ _} tidy ends => ?_
    exact (parts.step .term n).2 _ _ _ (tidy.start n _) ends

theorem turn_lacks (h : balanced.Answers ask) (hagain : ∀ n, Keeps (again n)) (tidy : t.Tidy)
    (ends : turn ask extra plan again n t = some (.error fault, t')) :
    t'.walk.Lacks plan extra n := by
  cases plan with
  | fixpoint rule d =>
    cases Evaluation.demanded ends with
    | active _ _ default => cases d <;> cases default
    | failed fresh ran =>
      obtain ⟨within, tidy₁⟩ :=
        keeps_compositional.step rule n ask again h hagain _ _ _ (tidy.enter fresh) ran
      exact (fresh.visited within.walk.results tidy.walk.orderly
        tidy₁.walk.orderly).unknown_left.1
  | memo => cases Memo.demanded ends with
    | unhashable other =>
      refine Option.eq_none_iff_forall_ne_some.mpr fun v found => ?_
      cases other.symm.trans (tidy.walk.hashed found)
    | started _ absent => exact absent
    | failed _ absent _ ran =>
      obtain ⟨within, -⟩ :=
        keeps_compositional.step .term n ask again h hagain _ _ _ (tidy.start n _) ran
      refine within.walk.remembered.unfound
        (Memo.isStarted_iff.mpr ⟨_, ?_, Value.same_refl _⟩) absent
      exact List.mem_cons_self

/-- In order, the walk at `n` ends with the fault and leaves nothing recorded about `m`. -/
def Fails (ask : Ask) (extra : List Value) (plan : Plan) (fault : Fault) (m : NodeId) (bound : Nat)
    (n : NodeId) (t : Tour) : Prop :=
  t.Tidy → ∃ t', descend ask extra plan bound n t = some (.error fault, t') ∧
    t'.walk.Lacks plan extra m

theorem Fails.itself (h : balanced.Answers ask)
    (ends : descend ask extra plan bound n t = some (.error fault, t')) :
    Fails ask extra plan fault n bound n t := by
  intro tidy
  cases bound with
  | zero => cases ends
  | succ bound => exact ⟨t', ends, turn_lacks h (descend_keeps h extra plan bound) tidy ends⟩

theorem Fails.outward {n₂ : NodeId} {t₂ : Tour} (h : balanced.Answers ask)
    (fails : Fails ask extra plan fault m bound n₂ t₂)
    (calls : Calls (A := fun _ => Value) (fun again => turn ask extra plan again n)
      (descend ask extra plan bound) t n₂ t₂) :
    Fails ask extra plan fault m (bound + 1) n t := by
  intro tidy
  have settled : Settled (·.walk.Lacks plan extra m) := by
    cases plan <;> exact ⟨fun _ lacks => lacks, fun _ _ lacks => lacks⟩
  obtain ⟨_, t', ends, rfl, lacks⟩ := calls.marked
    (P := fun result (t' : Tour) => result = .error fault ∧ t'.walk.Lacks plan extra m)
    fun others alike result t' ends =>
      stops_turn h settled (fun _ => .refl _) (descend_keeps h extra plan bound)
        (.call fails alike) extra plan n _ _ _ tidy ends
  exact ⟨t', ends, lacks⟩

/-- The walk at `n`, on its way, comes to `m` and goes on from there. -/
inductive Visits (ask : Ask) (extra : List Value) (plan : Plan) (bound : Nat) (n : NodeId)
    (t : Tour) : Nat → NodeId → Tour → Prop where
  | itself : Visits ask extra plan bound n t bound n t
  | onward {bound' : Nat} {m₁ m₂ : NodeId} {t₁ t₂ : Tour} :
      Visits ask extra plan bound n t (bound' + 1) m₁ t₁ →
      Calls (A := fun _ => Value) (fun again => turn ask extra plan again m₁)
        (descend ask extra plan bound') t₁ m₂ t₂ →
      Visits ask extra plan bound n t bound' m₂ t₂

theorem Visits.fails {bound' : Nat} {m₁ : NodeId} {t₁ : Tour} (h : balanced.Answers ask)
    (visits : Visits ask extra plan bound n t bound' m₁ t₁)
    (fails : Fails ask extra plan fault m bound' m₁ t₁) :
    Fails ask extra plan fault m bound n t := by
  induction visits with
  | itself => exact fails
  | onward _ calls ih => exact ih (fails.outward h calls)

end Tour

namespace Session

variable {ask others : Ask} {fault : Fault} {q : Query} {bound : Nat} {s s' : Session}

/-- In the course of the operation, the question is asked at the graph, directly or on account of
another question or of a child that is computed. -/
inductive Asks (bound : Nat) (op : Operation) (s : Session) : Nat → Query → Graph → Prop where
  | directly {q : Query} {g : Graph} :
      Calls (fun ask => operate ask bound op) (Engine.run bound) s q g → Asks bound op s bound q g
  | onward {bound' : Nat} {q₁ q₂ : Query} {g₁ g₂ : Graph} : Asks bound op s (bound' + 1) q₁ g₁ →
      Calls (fun ask => Engine.answer bound' ask q₁) (Engine.run bound') g₁ q₂ g₂ →
      Asks bound op s bound' q₂ g₂

/-- In the course of the operation, the walk `name` comes to a node. -/
inductive Goes (bound : Nat) : Operation → Session → String → Plan → List Value → Nat → NodeId →
    Tour → Prop where
  | call {s s₁ : Session} {name : String} {w : Walk} {term : Term} {extra : List Value} {n m : NodeId}
      {bound' : Nat} {t : Tour} : s.walks.lookup name = some w →
      language (Engine.run bound) term s = some (.ok n, s₁) →
      Tour.Visits (Engine.run bound) extra w.plan bound n ⟨s₁.graph, w, #[]⟩ bound' m t →
      Goes bound (.call name term extra) s name w.plan extra bound' m t

/-- Every call is answered from a finished result, or it begins afresh: nothing is in its way. -/
structure Ready (s : Session) : Prop where
  evaluators : ∀ i n, (Evaluator.of i s.graph).standing n = .fresh 0 ∨
    ∃ v, (Evaluator.of i s.graph).standing n = .stored v
  derivatives : ∀ n c, s.graph.derivatives.progress n c = .absent ∨
    ∃ d, s.graph.derivatives.progress n c = .finished d
  children : ∀ cell, s.graph.isForcing cell = false
  walks : ∀ {name w}, (name, w) ∈ s.walks →
    (∀ n, w.results.standing n = .fresh 0 ∨ ∃ v, w.results.standing n = .stored v) ∧
    ∀ n key, w.remembered.progress n key = .absent ∨
      ∃ v, w.remembered.progress n key = .finished v

theorem Resting.ready (rest : s.Resting) : s.Ready where
  evaluators i := (rest.graph.books i).standing
  derivatives := Memo.progress_of_resting rest.graph.started
  children := rest.graph.forcing
  walks member :=
    ⟨(rest.walks member).2.results.standing, Memo.progress_of_resting (rest.walks member).2.started⟩

end Session

end GrammarGraph
