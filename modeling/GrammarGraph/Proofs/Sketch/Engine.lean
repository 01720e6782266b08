import GrammarGraph.Proofs.Census.Survey
import GrammarGraph.Proofs.Sketch.Answers

/-! The engine in a sketch. Within every bound the engine does in the larger graph what it does in
the sketch. -/
namespace GrammarGraph

variable {K : Cast} {p q : Placing K}

namespace Survey

/-- Surveys that met and looked at the same nodes. -/
structure Placed (p : Placing K) (s s' : Survey) : Prop where
  numbered : s.Numbered
  numbered' : s'.Numbered
  order : List.Forall₂ p.At s.order.toList s'.order.toList
  number : ∀ {n n'}, p.At n n' → s'.number.get? n' = s.number.get? n
  contents : List.Forall₂ p.Nodes s.contents.toList s'.contents.toList

namespace Placed

variable {s s' : Survey} {n n' : NodeId} {node node' : Node}

/-- As many nodes were met. -/
theorem met (h : Placed p s s') : s'.order.size = s.order.size := by
  rw [← Array.length_toList, ← Array.length_toList, h.order.length_eq]

/-- As many nodes were looked at. -/
theorem looked (h : Placed p s s') : s'.contents.size = s.contents.size := by
  rw [← Array.length_toList, ← Array.length_toList, h.contents.length_eq]

theorem mono (h : Placed p s s') (le : p.Le q) (matching : Matching q.At) : Placed q s s' := by
  have order : List.Forall₂ q.At s.order.toList s'.order.toList := h.order.imp fun _ _ => le.node
  refine ⟨h.numbered, h.numbered', order, fun {n n'} placed => ?_,
    h.contents.imp fun _ _ => le.nodes⟩
  by_cases member : n ∈ s.order.toList
  · obtain ⟨m', -, old⟩ := exists_related h.order member
    obtain rfl := matching.right placed (le.node old)
    exact h.number old
  · have absent : ¬ s.number.has n = true := by
      rwa [h.numbered.number, ← Array.mem_toList_iff]
    have absent' : ¬ s'.number.has n' = true := by
      rwa [h.numbered'.number, ← Array.mem_toList_iff, matching.mem_iff order placed]
    rw [Option.not_isSome_iff_eq_none.mp absent, Option.not_isSome_iff_eq_none.mp absent']

theorem meet (h : Placed p s s') (matching : Matching p.At) (placed : p.At n n') :
    Placed p (s.meet n) (s'.meet n') := by
  have known : s'.number.has n' = s.number.has n := by
    rw [Table.has, Table.has, h.number placed]
  refine ⟨h.numbered.meet n, h.numbered'.meet n', ?_, fun {m m'} hm => ?_, ?_⟩
  · unfold Survey.meet
    rw [known]
    split
    · exact h.order
    · rw [Array.toList_push, Array.toList_push]
      exact List.rel_append h.order (.cons placed .nil)
  · unfold Survey.meet
    rw [known]
    split
    · exact h.number hm
    · rw [Table.get?_insert, Table.get?_insert, h.met, h.number hm]
      exact if_congr (matching.eq_iff placed hm) rfl rfl
  · unfold Survey.meet
    rw [known]
    split <;> exact h.contents

theorem foldl_meet (matching : Matching p.At) {ks ks' : List NodeId}
    (all : List.Forall₂ p.At ks ks') {s s' : Survey} (h : Placed p s s') :
    Placed p (ks.foldl Survey.meet s) (ks'.foldl Survey.meet s') := by
  induction all generalizing s s' with
  | nil => exact h
  | cons first _ ih => exact ih (h.meet matching first)

theorem start (matching : Matching p.At) (placed : p.At n n') :
    Placed p (Survey.start n) (Survey.start n') :=
  have empty : ({} : Survey).Numbered := ⟨List.nodup_nil, by simp [Table.has]⟩
  Placed.meet ⟨empty, empty, .nil, fun _ => rfl, .nil⟩ matching placed

theorem advance (h : Placed p s s') (matching : Matching p.At) (nodes : p.Nodes node node')
    {ks ks' : List NodeId} (all : List.Forall₂ p.At ks ks') :
    Placed p (s.advance node ks) (s'.advance node' ks') := by
  refine foldl_meet matching all ⟨⟨h.numbered.nodup, h.numbered.number⟩,
    ⟨h.numbered'.nodup, h.numbered'.number⟩, h.order, h.number, ?_⟩
  rw [Array.toList_push, Array.toList_push]
  exact List.rel_append h.contents (.cons nodes .nil)

theorem current? (h : Placed p s s') : Option.Rel p.At s.current? s'.current? := by
  have order := h.order
  unfold Survey.current?
  rw [← Array.getElem?_toList, ← Array.getElem?_toList, h.looked]
  generalize s.contents.size = i
  generalize s.order.toList = ns at order
  generalize s'.order.toList = ns' at order
  induction order generalizing i with
  | nil => exact .none
  | cons first _ ih =>
    cases i with
    | zero => exact .some first
    | succ i => exact ih i

end Placed

end Survey

namespace Ask.Mirrored

open Mirrors (pure bind read)

variable {ask ask' : Ask} (a : ask.Mirrored K ask') {n n' : NodeId}
include a

theorem compute {x x' : Suspension} (suspensions : p.Suspensions x x') :
    Mirrors p Placing.Operands (Child.compute ask x) (Child.compute ask' x') := by
  cases x <;> cases x'
  case derivative.derivative c n side c' n' side' =>
    obtain ⟨key, placed, rfl⟩ := suspensions
    refine a.onChild side' placed fun q k k' le hk => ?_
    exact bind (a.derive key hk) fun q d d' le hd => pure hd
  case compacted.compacted n n' =>
    exact bind (a.evaluate .compact suspensions) fun q m m' le hm => pure hm
  all_goals exact suspensions.elim

theorem explore (bound : Nat) {p : Placing K} {s s' : Survey} (placed : s.Placed p s') :
    Mirrors p Survey.Placed (Survey.explore (Survey.forcing ask) bound s)
      (Survey.explore (Survey.forcing ask') bound s') := by
  induction bound generalizing p s s' with
  | zero => exact pure placed
  | succ bound ih =>
    unfold Survey.explore
    have current := placed.current?
    generalize s.current? = here at current ⊢
    generalize s'.current? = here' at current ⊢
    cases current with
    | none => exact pure placed
    | @some n n' there =>
      refine bind (V := fun q seen seen' => q.Nodes seen.1 seen'.1 ∧
          List.Forall₂ q.At seen.2 seen'.2 ∧ Matching q.At)
        (bind (a.children there) fun q ks ks' le all =>
          read (T := fun node node' => q.Nodes node node' ∧ Matching q.At)
            (fun h g s => ⟨s.nodes (le.node there), s.matching⟩)
            fun node node' related => pure ⟨related.1, all, related.2⟩)
        fun q seen seen' le related => ?_
      exact ih ((placed.mono le related.2.2).advance related.2.2 related.1 related.2.1)

theorem survey (bound : Nat) (placed : p.At n n') :
    Mirrors p (fun _ => Eq) (Survey.nodeCount ask bound n) (Survey.nodeCount ask' bound n') := by
  intro h g sketches
  have started : Survey.Placed p (.start n) (.start n') := .start sketches.matching placed
  refine (bind (V := Survey.Placed) (bind (a.explore bound started) fun q s s' le found => ?_)
    fun q s s' le found => pure ?_) h g sketches
  · have current := found.current?
    generalize s.current? = here at current ⊢
    generalize s'.current? = here' at current ⊢
    cases current with
    | none => exact pure found
    | some => exact Mirrors.spent
  · exact found.met.symm

end Ask.Mirrored

namespace Cast

/-- The answer to a query, for the first run. -/
def answer (K : Cast) (bound : Nat) (ask : Ask) : (q : Query) → Run q.Answer
  | .forest n => Evaluation.demand .forests (pure []) (K.forest ask n) n
  | q => Engine.answer bound ask q

/-- The engine, for the first run. -/
def run (K : Cast) : Nat → Ask
  | 0, _ => RunOf.spent
  | bound + 1, q => K.answer bound (K.run bound) q

theorem run_of_strict (strict : K.strict) : ∀ bound, K.run bound = Engine.run bound
  | 0 => rfl
  | bound + 1 => by
    funext q
    rw [run, Engine.run, run_of_strict strict bound]
    cases q with
    | forest n => rw [answer, forest_of_strict strict]; rfl
    | child | nullable | emptyLike | epsLike | compact | derive | nodeCount => rfl

theorem answer_mirrored (bound : Nat) {ask ask' : Ask} (a : ask.Mirrored K ask') :
    Ask.Mirrored (K.answer bound ask) K (Engine.answer bound ask') where
  child? side placed := .child placed fun _ _ _ _ suspensions => a.compute suspensions
  evaluate i placed := by
    have rule := Mirrors.evaluation i ask ask' placed fun _ le =>
      a.body i (le.node placed)
    cases i <;> exact rule
  derive key placed := .memo placed key fun _ le => a.derivative key (le.node placed)
  nodeCount placed := a.survey bound placed

/-- Whatever is asked in a sketch is answered alike in the larger graph. -/
theorem run_mirrored (K : Cast) : ∀ bound, (K.run bound).Mirrored K (Engine.run bound)
  | 0 => ⟨fun _ _ => .spent, fun i _ => by cases i <;> exact .spent, fun _ _ => .spent,
      fun _ => .spent⟩
  | bound + 1 => K.answer_mirrored bound (K.run_mirrored bound)

end Cast

end GrammarGraph
