import GrammarGraph.Engine.Parts
import GrammarGraph.Proofs.Constructors
import GrammarGraph.Proofs.Evaluator

/-! Runs that keep a regime without a ghost, from every graph that is in order. Evaluators and
terms do so if their parts do and the questions that they ask are answered by such runs. -/
namespace GrammarGraph

theorem EvaluatorParts.body {P : (α : Type) → (Ask → Run α) → Prop} {fit : Transform → Prop}
    (h : EvaluatorParts P fit) (i : Evaluator) (n : NodeId) :
    P i.Result fun ask => i.body ask n := by
  cases i with
  | forest => exact h.forest n
  | nullable => exact h.nullable n
  | emptyLike => exact h.emptyLike n
  | epsLike => exact h.epsLike n
  | compact => exact h.compact n

namespace Regime

variable {α β : Type} {R : Regime Unit}

/-- However the run ends, it leaves a graph in order and changed as is allowed. -/
def Keeps (R : Regime Unit) (r : Run α) : Prop :=
  ∀ g, R.Valid () g → R.After () g r fun _ _ _ => True

theorem Keeps.bind {r : Run α} {f : α → Run β} (hr : R.Keeps r) (hf : ∀ a, R.Keeps (f a)) :
    R.Keeps (r >>= f) :=
  fun g valid => .bind (hr g valid) fun _ g' a _ valid' _ => hf a g' valid'

/-- A change that the regime allows at any time. -/
theorem Keeps.update {p : Graph → Graph}
    (h : ∀ g, R.Valid () g → R.Later () g () (p g) ∧ R.Valid () (p g)) :
    R.Keeps (RunOf.update p) :=
  fun g valid => .update (k := Pure.pure) (h g valid).1 (.pure (h g valid).2 trivial)

theorem Keeps.make {node : Node}
    (h : ∀ g, R.Valid () g → R.Later () g () (g.addNode node) ∧ R.Valid () (g.addNode node)) :
    R.Keeps (Run.make node) :=
  fun g valid => .read (.update (h g valid).1 (.pure (h g valid).2 trivial))

theorem Keeps.defer {s : Suspension}
    (h : ∀ g, R.Valid () g → R.Later () g () (g.addCell s) ∧ R.Valid () (g.addCell s)) :
    R.Keeps (Run.defer s) :=
  fun g valid => .read (.update (h g valid).1 (.pure (h g valid).2 trivial))

/-- The questions are answered by runs that keep the regime. -/
def Answers (R : Regime Unit) (ask : Ask) : Prop :=
  ∀ q, R.Keeps (ask q)

theorem parts {fit : Transform → Prop} (fits : Transform.Closed fit)
    (node_fits : ∀ {g : Graph}, R.Valid () g → ∀ n, fit (g.node n).transform)
    (make : ∀ {node : Node}, node.Canonical → fit node.transform → R.Keeps (Run.make node))
    (defer : ∀ {s}, (Operand.deferred s).Plain → R.Keeps (Run.defer s)) :
    EvaluatorParts (fun _ r => ∀ ask, R.Answers ask → R.Keeps (r ask)) fit where
  fits := fits
  given _ _ _ _ valid := .ofExcept valid fun _ _ => trivial
  read p _ _ g valid := .pure (a := p g) valid trivial
  bind hr hf ask h := .bind (hr ask h) fun a => hf a ask h
  node n _ next ask h g valid := .read (next _ (node_fits valid n) ask h g valid)
  spent _ _ _ _ _ := .spent
  ask q _ h := h q
  make canonical fits _ _ := make canonical fits
  defer plain _ _ := defer plain

theorem compositional (make : ∀ {node : Node}, node.Canonical → R.Keeps (Run.make node))
    (defer : ∀ {s}, (Operand.deferred s).Plain → R.Keeps (Run.defer s)) :
    Compositional fun _ r => ∀ ask, R.Answers ask → R.Keeps (r ask) where
  toEvaluatorParts := parts .all (fun _ _ => trivial) (fun canonical _ => make canonical) defer

/-- Where the books of the evaluators do not matter, only the children need be seen to that are
read. -/
theorem Answers.answer {fit : Transform → Prop}
    (parts : EvaluatorParts (fun _ r => ∀ ask, R.Answers ask → R.Keeps (r ask)) fit)
    (books : ∀ {g g' : Graph}, R.Valid () g → g'.nodes = g.nodes → g'.cells = g.cells →
      g'.journal = g.journal → R.Later () g () g' ∧ R.Valid () g')
    {ask : Ask} (h : R.Answers ask) (read : ∀ n side, R.Keeps (Child.read ask n side))
    (bound : Nat) : R.Answers (Engine.answer bound ask) := by
  have evaluate (i : Evaluator) (n : NodeId) :
      R.Keeps (Evaluation.demand i.held (i.default n) (i.body ask n) n) := fun _ valid =>
    .evaluation (Q := fun _ _ _ => True) (fun _ _ => trivial)
      (fun valid _ => books valid (Evaluator.nodes_modify _) (Evaluator.cells_modify _)
        (by cases i <;> rfl))
      (fun _ => trivial) (fun _ valid => by cases i <;> exact .pure valid trivial)
      (fun _ valid => parts.body i n ask h _ valid) valid
  intro q
  cases q with
  | child n side => exact read n side
  | nullable n => exact evaluate .nullable n
  | forest n => exact evaluate .forest n
  | emptyLike n => exact evaluate .emptyLike n
  | epsLike n => exact evaluate .epsLike n
  | compact n => exact evaluate .compact n
  | derive c n =>
    exact fun _ valid => .memo (Q := fun _ _ _ => True) (fun _ _ => trivial)
      (fun valid _ => books valid rfl rfl rfl) (fun valid _ => books valid rfl rfl rfl)
      (fun _ => trivial) (fun _ valid => parts.derive c n ask h _ valid) valid
  | nodeCount n => exact parts.nodeCount bound n ask h

end Regime

end GrammarGraph
