import GrammarGraph.Engine.Parts
import GrammarGraph.Run.Within

/-! More bound keeps every answer: if a query ends at all within a bound, it ends in the
same way, and leaves the same graph, within every larger one. -/
namespace GrammarGraph

open RunOf (Within)

/-- What `ask` answers, `ask'` answers in the same way. -/
def Ask.Below (ask ask' : Ask) : Prop :=
  ∀ q, Within (ask q) (ask' q)

/-- What is made of questions ends where the questions do. -/
theorem Ask.below_constructive :
    Constructive fun _ r => ∀ ask ask', Ask.Below ask ask' → Within (r ask) (r ask') where
  given _ _ _ _ := .refl _
  read _ _ _ _ := .refl _
  bind hr hf ask ask' below := .bind (hr ask ask' below) fun a => hf a ask ask' below
  spent _ _ _ _ := .refl _
  ask q _ _ below := below q
  make _ _ _ _ _ := .refl _
  defer _ _ _ _ := .refl _
  postpone _ _ _ _ _ _ := .refl _
  note _ _ _ _ _ := .refl _
  letrec body ask ask' below := .after _ fun n => .before (body n ask ask' below) _
  anyNode _ _ _ _ _ _ := .refl _

namespace Survey

theorem run_within {visit visit' : NodeId → Run (Node × List NodeId)} {bound bound' : Nat}
    (hv : ∀ n, Within (visit n) (visit' n)) (le : bound ≤ bound') (root : NodeId) :
    Within (run visit bound root) (run visit' bound' root) := by
  unfold run
  generalize start root = s
  induction bound generalizing bound' s with
  | zero =>
    by_cases left : s.current?.isSome
    · simpa [explore, left] using .spent _
    · have none : s.current? = none := by simpa using left
      have ends : explore visit' bound' s = pure s := by
        cases bound' <;> simp [explore, none]
      rw [ends]
      exact .refl _
  | succ bound ih =>
    cases bound' with
    | zero => omega
    | succ bound' =>
      unfold explore
      split
      · exact .refl _
      · next n _ =>
        simp only [bind_assoc]
        exact .bind (hv n) fun _ => ih (by omega) _

end Survey

namespace Ask.Below

variable {ask ask' : Ask} (h : ask.Below ask')
include h

theorem residual (compaction : Bool) (symbols : List Value) (n : NodeId) :
    Within (Parse.residual ask compaction symbols n)
      (Parse.residual ask' compaction symbols n) :=
  below_constructive.residual compaction symbols n ask ask' h

theorem recognize (compaction : Bool) (symbols : List Value) (n : NodeId) :
    Within (Parse.recognize ask compaction symbols n)
      (Parse.recognize ask' compaction symbols n) :=
  below_constructive.recognize compaction symbols n ask ask' h

theorem parse (compaction : Bool) (symbols : List Value) (n : NodeId) :
    Within (Parse.parse ask compaction symbols n) (Parse.parse ask' compaction symbols n) :=
  below_constructive.parse compaction symbols n ask ask' h

theorem force (cell : CellId) (suspension : Suspension) :
    Within (Child.force ask cell suspension) (Child.force ask' cell suspension) :=
  .after _ fun _ => .before (.outcome (below_constructive.compute suspension.uses_true ask ask' h)) _

theorem read (n : NodeId) (side : Side) :
    Within (Child.read ask n side) (Child.read ask' n side) := by
  refine .after _ fun slot => ?_
  split
  · exact .refl _
  · exact .refl _
  · refine .after _ fun cell => ?_
    split
    · exact .refl _
    · exact .refl _
    · exact .before (h.force _ _) _

theorem nodeCount {bound bound' : Nat} (le : bound ≤ bound') (n : NodeId) :
    Within (Survey.nodeCount ask bound n) (Survey.nodeCount ask' bound' n) :=
  .before (Survey.run_within
    (fun m => .before (below_constructive.children m ask ask' h) _) le n) _

theorem answer {bound bound' : Nat} (le : bound ≤ bound') :
    Ask.Below (Engine.answer bound ask) (Engine.answer bound' ask')
  | .child n side => h.read n side
  | .nullable n => .evaluation (.refl _) (below_constructive.nullable n ask ask' h) n
  | .forest n => .evaluation (.refl _) (below_constructive.forest n ask ask' h) n
  | .emptyLike n => .evaluation (.refl _) (below_constructive.emptyLike n ask ask' h) n
  | .epsLike n => .evaluation (.refl _) (below_constructive.epsLike n ask ask' h) n
  | .compact n => .evaluation (.refl _) (below_constructive.compact n ask ask' h) n
  | .derive symbol n => .memo (below_constructive.derive symbol n ask ask' h) n symbol
  | .nodeCount n => h.nodeCount le n

end Ask.Below

namespace Engine

theorem run_below : ∀ {bound bound' : Nat}, bound ≤ bound' → (run bound).Below (run bound')
  | 0, _, _ => fun _ => .spent _
  | _ + 1, 0, le => absurd le (Nat.not_succ_le_zero _)
  | _ + 1, _ + 1, le =>
    (run_below (Nat.le_of_succ_le_succ le)).answer (Nat.le_of_succ_le_succ le)

/-- A query has at most one outcome, whatever the bound. -/
theorem run_unique {bound bound' : Nat} {q : Query} {g : Graph} {x y}
    (hx : run bound q g = some x) (hy : run bound' q g = some y) : x = y := by
  rcases Nat.le_total bound bound' with le | le
  · exact Option.some.inj ((run_below le q g x hx).symm.trans hy)
  · exact Option.some.inj (hx.symm.trans (run_below le q g y hy))

end Engine

end GrammarGraph
