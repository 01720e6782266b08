import GrammarGraph.Proofs.Balance.Sessions
import GrammarGraph.Proofs.Chronicle.Sessions
import GrammarGraph.Proofs.Chronicle.Slots

/-! A slot that holds a computation is written at most once, by a read that computes it. This holds
along every history of a session that does not overwrite the node, whatever the computation asks
before it ends. Constructors and inspections ask nothing, so that they compute no child. -/
namespace GrammarGraph

open GrammarGraph.Graph (WritesOnce)
open Inquiry (allOf momentsOf graphsOf)

namespace Term

mutual

/-- Made by constructors alone. What a deferred operand computes does not matter. -/
def constructs : Term → Bool
  | .name _ | .empty | .trivial | .eps _ | .char _ | .lazy _ | .value _ => true
  | .cat ts | .alt ts => constructsAll ts
  | .rep t | .delta t | .red t _ | .letrec _ t => constructs t
  | .raw _ first second _ _ _ => constructsOption first && constructsOption second
  | .derive _ _ | .compact _ | .residual _ _ _ | .child _ _ | .ifNullable _ _ _ => false

def constructsAll : List Term → Bool
  | [] => true
  | t :: ts => constructs t && constructsAll ts

def constructsOption : Option Term → Bool
  | none => true
  | some t => constructs t

end

mutual

theorem build_constructs (ask ask' : Ask) (scope : Scope) :
    ∀ t : Term, t.constructs = true → t.build ask scope = t.build ask' scope
  | .name _, _ | .empty, _ | .trivial, _ | .eps _, _ | .char _, _ | .lazy _, _ | .value _, _ => by
    simp only [build]
  | .cat ts, h | .alt ts, h => by
    rw [constructs] at h
    simp only [build, buildAll_constructs ask ask' scope ts h]
  | .rep t, h | .delta t, h | .red t _, h => by
    rw [constructs] at h
    simp only [build, build_constructs ask ask' scope t h]
  | .letrec x t, h => by
    rw [constructs] at h
    simp only [build]
    exact congrArg (_ >>= ·) (funext fun n => by rw [build_constructs ask ask' _ t h])
  | .raw _ first second _ _ _, h => by
    rw [constructs, Bool.and_eq_true] at h
    simp only [build, buildOption_constructs ask ask' scope first h.1,
      buildOption_constructs ask ask' scope second h.2]
  | .derive _ _, h | .compact _, h | .residual _ _ _, h | .child _ _, h | .ifNullable _ _ _, h => by
    cases h

theorem buildAll_constructs (ask ask' : Ask) (scope : Scope) :
    ∀ ts : List Term, constructsAll ts = true → buildAll ask scope ts = buildAll ask' scope ts
  | [], _ => by simp only [buildAll]
  | t :: ts, h => by
    rw [constructsAll, Bool.and_eq_true] at h
    simp only [buildAll, build_constructs ask ask' scope t h.1,
      buildAll_constructs ask ask' scope ts h.2]

theorem buildOption_constructs (ask ask' : Ask) (scope : Scope) :
    ∀ t : Option Term, constructsOption t = true →
      buildOption ask scope t = buildOption ask' scope t
  | none, _ => by simp only [buildOption]
  | some t, h => by
    rw [constructsOption] at h
    simp only [buildOption, build_constructs ask ask' scope t h]

end

end Term

namespace Operation

/-- Constructs nodes, gives them a name, describes or draws them, or tells whether they are atomic
and whether their children are computed. -/
def looks : Operation → Bool
  | .bind _ t | .list t false | .inspect t | .describe t | .view t _ _ | .render t _ _
  | .parser _ t _ => t.constructs
  | .same t u => t.constructs && u.constructs
  | _ => false

end Operation

namespace Session

variable {n : NodeId} {side : Side} {s s' : Session} {xs : List Inquiry}

theorem language_constructs (ask ask' : Ask) {t : Term} (h : t.constructs = true) :
    language ask t = language ask' t := by
  simp only [language, Term.build_constructs ask ask' [] t h]

theorem operate_looks (ask ask' : Ask) (bound : Nat) {op : Operation} (h : op.looks = true) :
    operate ask bound op = operate ask' bound op := by
  cases op with
  | bind _ t | inspect t | describe t | view t | render t | parser _ t =>
    simp only [operate, language_constructs ask ask' (t := t) h]
  | list t force => cases force with
    | false => simp only [operate, language_constructs ask ask' (t := t) h, Bool.false_eq_true, if_false]
    | true => cases h
  | same t u =>
    obtain ⟨first, second⟩ := Bool.and_eq_true_iff.mp h
    simp only [operate, language_constructs ask ask' first, language_constructs ask ask' second]
  | _ => cases h

/-- What is ordered up to `b` and from there on is ordered altogether. -/
theorem pairwise_through {α : Type} {R : α → α → Prop} (trans : ∀ {a b c}, R a b → R b c → R a c)
    {a b c : α} {as bs : List α} (h : (a :: (as ++ [b])).Pairwise R)
    (h' : (b :: (bs ++ [c])).Pairwise R) : (a :: ((as ++ bs) ++ [c])).Pairwise R := by
  simp only [List.pairwise_cons, List.pairwise_append, List.mem_append, List.mem_singleton] at h h' ⊢
  grind

theorem History.pairwise (h : History n s xs s') :
    (s.graph :: (graphsOf xs ++ [s'.graph])).Pairwise (WritesOnce n) := by
  induction h with
  | start => simpa using WritesOnce.refl n s.graph
  | perform _ _ now ih | refused _ now ih =>
    rw [Inquiry.graphsOf_append]
    exact pairwise_through .trans ih (now.timely n).pairwise
  | @become bound term other m k s₁ s₂ xs ys _ now other' ih =>
    have spared : s₂.graph.WritesOnce n (s₂.become m k).graph :=
      .of_eq (Graph.node_become_of_ne k other'.symm)
    have last : (s₂.graph :: ([] ++ [(s₂.become m k).graph])).Pairwise (WritesOnce n) := by
      simpa using spared
    have whole := pairwise_through .trans (pairwise_through .trans ih (now.timely n).pairwise) last
    rw [List.append_nil] at whole
    rw [Inquiry.graphsOf_append]
    exact whole

theorem History.kind (h : History n s xs s') (lt : n < s.graph.nodes.size) :
    n < s'.graph.nodes.size ∧ (s'.graph.node n).kind = (s.graph.node n).kind := by
  induction h with
  | start => exact ⟨lt, rfl⟩
  | perform _ _ now ih | refused _ now ih =>
    obtain ⟨there, kind⟩ := ih
    have evolves := (now.timely n).evolves
    exact ⟨Nat.lt_of_lt_of_le there evolves.size, (evolves.kind there).trans kind⟩
  | @become bound term other m k s₁ s₂ xs ys _ now other' ih =>
    obtain ⟨there, kind⟩ := ih
    have evolves := (now.timely n).evolves
    have size := Graph.nodes_size_become (g := s₂.graph) m k
    refine ⟨Nat.lt_of_lt_of_eq (Nat.lt_of_lt_of_le there evolves.size) size.symm, ?_⟩
    calc ((s₂.become m k).graph.node n).kind
        _ = (s₂.graph.node n).kind := congrArg Node.kind (Graph.node_become_of_ne k other'.symm)
        _ = (s₁.graph.node n).kind := evolves.kind there
        _ = (s.graph.node n).kind := kind

theorem History.proper (h : History n s xs s') : ∀ x ∈ allOf xs, x.Proper := by
  induction h with
  | start => simp
  | perform _ _ now ih | become _ now _ ih | refused _ now ih =>
    intro x member
    rw [Inquiry.allOf_append, List.mem_append] at member
    exact member.elim (ih x) (now.proper x)

theorem Spares.reached (h : Spares n s s') (reached : s.Reached) : s'.Reached := by
  induction h with
  | refl => exact reached
  | perform _ ends _ ih => exact ih.perform _ _ ends

/-- An operation with which a program is not refused spares the nodes that all grammars share. -/
theorem Spares.accepted {bound : Nat} {op : Operation} {s₁ : Session} {result : Except Fault Reply}
    (h : Spares n s s₁) (shared : n = .empty ∨ n = .eps)
    (accepted : overwritesShared bound s₁ op = false)
    (ends : Session.perform bound op s₁ = some (result, s')) : Spares n s s' := by
  refine h.perform ends ?_
  rintro term other m s₂ rfl overwrites
  obtain ⟨k, s₃, found, rest⟩ := RunOf.bind_ok overwrites
  obtain ⟨_, s₄, _, rest⟩ := RunOf.bind_ok rest
  cases rest
  rw [overwritesShared, found] at accepted
  rcases shared with rfl | rfl <;> cases accepted

/-- Where a read has given a node, each read that is begun later gives the same one at once. -/
theorem History.read_again (h : History n s xs s') : (momentsOf xs).Pairwise fun a b =>
    ∀ side k before within after,
      a = .answered (.mk (.child n side) before within (.ok (some k)) after) →
    ∀ before' within' result' after',
      b = .asked (.mk (.child n side) before' within' result' after') →
        within' = [] ∧ result' = .ok (some k) ∧ after' = before' := by
  have order : (momentsOf xs).Pairwise fun a b => a.graph.WritesOnce n b.graph :=
    List.pairwise_map.mp (List.pairwise_append.mp (List.pairwise_cons.mp h.pairwise).2).1
  have proper (m : Moment) (member : m ∈ momentsOf xs) : m.inquiry.Proper :=
    h.proper _ (Inquiry.inquiry_mem_allOf xs m member)
  refine order.imp_of_mem fun {a b} first second once side k before within after given before'
    within' result' after' again => ?_
  subst given again
  have filled : (after.node n).slot side = .node k := (proper _ first).gives k rfl
  exact (proper _ second).node k ((once side).1 k filled)

/-- A slot that holds a computation is a cell that is written at most once, along every history that
does not overwrite its node: what it holds stays, but for a computation that gives way to the node
that it gave. A node is read at once, as often as the slot is read, and by whomever. While the
computation is in progress, every read is a fault that changes nothing; if it fails, or gives no
node, the slot can be read again. To construct nodes and to look at them computes nothing. -/
theorem slots_written_once (reached : s.Reached) (spares : Spares n s s') :
    (∃ xs, History n s xs s') ∧
    (∀ xs, History n s xs s' →
      (s.graph :: (graphsOf xs ++ [s'.graph])).Pairwise (WritesOnce n) ∧
      ((momentsOf xs).Pairwise fun a b =>
        ∀ side k before within after,
          a = .answered (.mk (.child n side) before within (.ok (some k)) after) →
        ∀ before' within' result' after',
          b = .asked (.mk (.child n side) before' within' result' after') →
            within' = [] ∧ result' = .ok (some k) ∧ after' = before') ∧
      (∀ side before within result after, .mk (.child n side) before within result after ∈ allOf xs →
        Inquiry.Reads n side before within result after) ∧
      ∀ cell, s'.graph.isForcing cell = false) ∧
    ∀ op, op.looks = true → ∀ ask ask' bound, operate ask bound op = operate ask' bound op :=
  ⟨spares.exists_history, fun _ h => ⟨h.pairwise, h.read_again,
    fun _ _ _ _ _ member => h.proper _ member, (spares.reached reached).resting.graph.forcing⟩,
    fun _ looks ask ask' bound => operate_looks ask ask' bound looks⟩

/-- After a concatenation was given a name whose first operand is deferred. -/
def deferredWord : Session :=
  ((perform 4 (.bind "x" (.cat [.lazy (.char (.str "a")), .char (.str "b")])) {}).map
    Prod.snd).getD {}

/-- After it was asked whether that is nullable. -/
def computedWord : Session :=
  ((perform 4 (.nullable (.name "x")) deferredWord).map Prod.snd).getD {}

theorem deferredWord_reached : deferredWord.Reached := by
  have named : ∃ reply, perform 4 (.bind "x" (.cat [.lazy (.char (.str "a")), .char (.str "b")])) {} =
      some (.ok reply, deferredWord) := ⟨_, rfl⟩
  exact .perform _ _ .start named.choose_spec

theorem deferredWord_spares : Spares 3 deferredWord computedWord := by
  have asked : perform 4 (.nullable (.name "x")) deferredWord =
      some (.ok (.truth false), computedWord) := rfl
  exact .perform .refl asked fun _ _ _ _ other => nomatch other

theorem slots_written_once_word : deferredWord.Reached ∧ Spares 3 deferredWord computedWord ∧
    (deferredWord.graph.node 3).slot .first = .deferred 0 ∧
    (computedWord.graph.node 3).slot .first = .node 4 ∧
    ∃ xs, History 3 deferredWord xs computedWord ∧
      (deferredWord.graph :: (graphsOf xs ++ [computedWord.graph])).Pairwise (WritesOnce 3) := by
  have given : (computedWord.graph.node 3).slot .first = .node 4 := by decide +kernel
  obtain ⟨⟨xs, history⟩, all, -⟩ := slots_written_once deferredWord_reached deferredWord_spares
  exact ⟨deferredWord_reached, deferredWord_spares, by decide +kernel, given, xs, history,
    (all xs history).1⟩

end Session

end GrammarGraph
