import GrammarGraph.Proofs.Canonical
import GrammarGraph.Proofs.Operations

/-! Operations that stay in order. If an order of graphs is kept by whatever is made of questions and
constructions, and does not depend on names and notes, then every operation of a session keeps it
that makes no node as it is and overwrites none. -/
namespace GrammarGraph

open RunOf (Stays)

/-- The operation makes nodes with constructors and evaluators alone, and overwrites only what it
defines. -/
structure Operation.Crafts (op : Operation) : Prop where
  uses : op.Uses False
  sparing : ∀ term other, op ≠ .become term other

/-- What is made of questions and constructions goes alike with `ask` and with `others` at graphs in
order, and leaves graphs in order. -/
structure InOrder (I : Graph → Prop) (ask others : Ask) : Prop where
  assembled : ∀ {α} {r : Ask → Run α}, Assembled r False →
    Stays I (r ask) (r others) fun _ => True
  journal : ∀ {g} (journal : Option Journal), I g → I { g with journal }
  name : ∀ {g} (x : String) (n : NodeId), I g → I (g.bind x n)

namespace InOrder

variable {I : Graph → Prop} {ask others : Ask} {again again' : Tour.Again} (h : InOrder I ask others)
include h

theorem compositional
    (onward : ∀ n, Stays (fun t => I t.graph) (again n) (again' n) fun _ => True) :
    Tour.Compositional
      (fun _ r => Stays (fun t => I t.graph) (r ask again) (r others again') fun _ => True) False where
  given _ := .ofExcept fun _ _ => trivial
  read _ := .read fun _ _ => trivial
  bind hr hf := .bind hr fun a _ => hf a
  visit _ := .update fun _ order => order
  graph assembled := .inside (fun _ order => order) (fun _ _ _ order => order) (h.assembled assembled)
  again := onward

theorem descend (extra : List Value) (plan : Plan) (depth : Nat) (n : NodeId) :
    Stays (fun t => I t.graph) (Tour.descend ask extra plan depth n)
      (Tour.descend others extra plan depth n) fun _ => True := by
  induction depth generalizing n with
  | zero => exact .spent
  | succ depth ih =>
    have parts := h.compositional ih
    cases plan with
    | fixpoint rule d =>
      refine .evaluation (fun _ _ => .trivial _) (fun _ _ order _ => order) ?_ (parts.step rule n)
      cases d
      · exact .pure trivial
      · exact .read fun _ _ => trivial
    | memo => exact .memo (fun _ _ order => order) (parts.step .term n)

theorem follow (extra : List Value) (depth : Nat) (n : NodeId) :
    Stays (fun t => I t.graph) (Tour.follow ask extra depth n) (Tour.follow others extra depth n)
      fun _ => True := by
  intro t result t' order ends
  rw [Tour.follow_eq] at ends ⊢
  exact h.descend extra _ depth n _ _ _ order ends

omit h in
theorem onGraph {α : Type} {r r' : Run α} {Q : α → Prop} (h : Stays I r r' Q) :
    Stays (fun s => I s.graph) (Session.onGraph r) (Session.onGraph r') Q :=
  .inside (fun _ order => order) (fun _ _ _ order => order) h

theorem sparing : Sparing
    (fun _ r => Stays (fun s => I s.graph) (r ask) (r others) fun _ => True) False where
  given _ := .ofExcept fun _ _ => trivial
  read _ := .read fun _ _ => trivial
  bind hr hf := .bind hr fun a _ => hf a
  graph assembled := onGraph (h.assembled assembled)
  journaled log assembled := by
    have journal (p : Graph → Option Journal) :
        Stays I (.update fun g => { g with journal := p g })
          (.update fun g => { g with journal := p g }) fun _ => True :=
      .update fun _ order => h.journal _ order
    exact onGraph (.bind (journal fun _ => _) fun _ _ =>
      .bind (.outcome (h.assembled assembled)) fun _ _ =>
      .bind (.read (Q := fun _ => True) fun _ _ => trivial) fun _ _ =>
      .bind (journal fun _ => _) fun _ _ =>
      .bind (.ofExcept (Q := fun _ => True) fun _ _ => trivial) fun _ _ => .pure trivial)
  name x n := onGraph (.update fun _ order => h.name x n order)
  parser _ _ := .update fun _ order => order
  walk _ _ := .update fun _ order => order

theorem call (depth : Nat) (name : String) {term : Term} (uses : term.Uses False)
    (extra : List Value) :
    Stays (fun s => I s.graph) (Session.call ask depth name term extra)
      (Session.call others depth name term extra) fun _ => True := by
  refine .bind (.read (Q := fun _ => True) fun _ _ => trivial) fun found _ => ?_
  cases found with
  | none => exact .ofExcept fun _ _ => trivial
  | some walk =>
    refine .bind (h.sparing.language uses) fun n _ =>
      .inside (J := fun t : Tour => I t.graph) (fun _ order => order) (fun _ _ _ order => order) ?_
    exact .bind (.outcome (h.follow extra depth n)) fun _ _ =>
      .bind (.read (Q := fun _ => True) fun _ _ => trivial) fun _ _ => .pure trivial

theorem operate (depth : Nat) {op : Operation} (crafts : op.Crafts) :
    Stays (fun s => I s.graph) (Session.operate ask depth op) (Session.operate others depth op)
      fun _ => True := by
  by_cases still : ∀ name term extra, op ≠ .call name term extra
  · exact h.sparing.operate depth crafts.uses still crafts.sparing
  · push Not at still
    obtain ⟨name, term, extra, rfl⟩ := still
    exact h.call depth name crafts.uses extra

end InOrder

end GrammarGraph
