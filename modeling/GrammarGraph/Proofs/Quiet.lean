import GrammarGraph.Engine
import GrammarGraph.Proofs.Formed
import GrammarGraph.Proofs.Regime.Keeping

/-! Queries write nothing into the journal. Only a deferred term could, by asking for a residual,
and constructors on concrete nodes leave no such terms behind. -/
namespace GrammarGraph

/-- No deferred slot waits for a term. -/
def Graph.Termless (g : Graph) : Prop :=
  ∀ cell body scope, g.suspension? cell ≠ some (.term body scope)

/-- Nothing is written into the journal. -/
def quiet : Regime Unit where
  Valid _ g := g.Termless
  Later _ g _ g' := g'.journal = g.journal
  refl _ _ := rfl
  trans h k := k.trans h

/-- Evaluators write no notes of their own and defer no terms. -/
theorem quiet_compositional : Compositional fun _ r => ∀ ask, quiet.Answers ask → quiet.Keeps (r ask) := by
  refine Regime.compositional (fun _ => .make fun _ valid => ⟨rfl, valid⟩) fun plain =>
    .defer fun g valid => ⟨rfl, fun c body scope found => ?_⟩
  rw [Graph.suspension_addCell] at found
  split at found
  · exact plain body scope (congrArg _ (Option.some.inj found))
  · exact valid c body scope found

namespace Regime.Answers

variable {ask : Ask} (h : quiet.Answers ask)
include h

theorem read_quiet (n : NodeId) (side : Side) : quiet.Keeps (Child.read ask n side) := by
  intro g valid
  refine .imp (.child (Q := fun _ _ _ => True) (fun _ => trivial) ?_ valid)
    fun _ _ _ _ _ _ => trivial
  intro cell s _ suspended _ result g₁ ends
  have compute : quiet.Keeps (Child.compute ask s) :=
    quiet_compositional.compute (fun body scope same => valid cell body scope (by
      rw [suspended, Operand.deferred.inj same])) ask h
  have marked : (g.setForcing cell true).Termless := fun c body scope => by
    rw [Graph.suspension_setForcing]
    exact valid c body scope
  obtain ⟨_, journal, termless, _⟩ := compute _ marked result g₁ ends
  have unmarked : (g₁.setForcing cell false).Termless := fun c body scope => by
    rw [Graph.suspension_setForcing]
    exact termless c body scope
  exact ⟨(), journal, unmarked, fun _ _ _ _ => ⟨journal, unmarked, trivial⟩⟩

theorem answer_quiet (bound : Nat) : quiet.Answers (Engine.answer bound ask) := by
  refine h.answer quiet_compositional.toEvaluatorParts (fun {g g'} valid _ cells journal => ?_)
    h.read_quiet bound
  refine ⟨journal, fun cell body scope => ?_⟩
  rw [Graph.suspension_congr cells]
  exact valid cell body scope

end Regime.Answers

theorem Engine.run_quiet : ∀ bound, quiet.Answers (Engine.run bound)
  | 0 => fun _ _ _ => .spent
  | bound + 1 => (run_quiet bound).answer_quiet bound

theorem Regime.Ends.quiet {γ α : Type} {R : Regime γ} {x : γ} {g : Graph} {r : Ask → Run α}
    {Q : γ → Graph → α → Prop} (h : R.Ends x g r Q) (termless : g.Termless)
    (without : ∀ {ask : Ask}, GrammarGraph.quiet.Answers ask → GrammarGraph.quiet.Keeps (r ask)) :
    R.Ends x g r fun x' g' a => Q x' g' a ∧ g'.journal = g.journal := by
  obtain ⟨a, g', ⟨least, gives⟩, x', later, valid, q⟩ := h
  have quiet := without (Engine.run_quiet least)
  obtain ⟨_, journal, _⟩ := quiet g termless _ _ (gives least (Nat.le_refl _))
  exact ⟨a, g', ⟨least, gives⟩, x', later, valid, q, journal⟩

end GrammarGraph
