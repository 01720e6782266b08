import GrammarGraph.Proofs.History
import GrammarGraph.Proofs.Regime.Ending

/-! Calls from outside. Where every query by certain symbols keeps a regime, within any bound,
so does every call by such symbols, which is made of queries and of notes in the journal. -/
namespace GrammarGraph

/-- Derivatives are taken by symbols in `P` only. -/
def Query.By (P : Value → Prop) : Query → Prop
  | .derive symbol _ => P symbol
  | _ => True

def Call.By (P : Value → Prop) : Call → Prop
  | .query q => q.By P
  | .residual _ symbols _ | .recognize _ symbols _ | .parse _ symbols _ => ∀ c ∈ symbols, P c

/-- Answers that are nodes lie in the graph. -/
def Query.Lands : (q : Query) → Graph → q.Answer → Prop
  | .derive _ _, g, d | .compact _, g, d => d < g.nodes.size
  | _, _, _ => True

theorem Call.by_of_all {P : Value → Prop} (all : ∀ c, P c) (call : Call) : call.By P := by
  cases call with
  | query q =>
    cases q with
    | derive symbol _ => exact all symbol
    | _ => exact trivial
  | _ => exact fun c _ => all c

theorem Call.By.mono {P Q : Value → Prop} (le : ∀ c, P c → Q c) {call : Call} (h : call.By P) :
    call.By Q := by
  cases call with
  | query q =>
    cases q with
    | derive symbol _ => exact le symbol h
    | _ => exact trivial
  | _ => exact fun c member => le c (h c member)

theorem Call.By.and {P Q : Value → Prop} {call : Call} (h : call.By P) (k : call.By Q) :
    call.By fun c => P c ∧ Q c := by
  cases call with
  | query q =>
    cases q with
    | derive symbol _ => exact ⟨h, k⟩
    | _ => exact trivial
  | _ => exact fun c member => ⟨h c member, k c member⟩

/-- Queries by symbols in `P` and notes keep the regime. -/
structure Regime.Serves {γ : Type} (R : Regime γ) (P : Value → Prop) (ask : Ask) : Prop where
  query : ∀ {x g} (q : Query), q.By P → R.Valid x g → q.node < g.nodes.size →
    R.After x g (ask q) fun _ g' a => q.Lands g' a
  note : ∀ {x g} (level : Level) (message : String), R.Valid x g →
    R.Later x g x (g.note level message) ∧ R.Valid x (g.note level message)
  grows : ∀ {x g x' g'}, R.Later x g x' g' → g.nodes.size ≤ g'.nodes.size
  inhabited : ∀ {x g}, R.Valid x g → NodeId.empty < g.nodes.size

namespace Regime.Serves

variable {γ : Type} {R : Regime γ} {P : Value → Prop} {ask : Ask} {x : γ} {g : Graph} {n : NodeId}
  (serves : R.Serves P ask)
include serves

theorem advance (valid : R.Valid x g) (lt : n < g.nodes.size) (compaction : Bool)
    {symbol : Value} (by_ : P symbol) :
    R.After x g (Parse.advance ask compaction symbol n) fun _ g' d => d < g'.nodes.size := by
  refine .bind (serves.query (.derive symbol n) by_ valid lt) fun x₁ g₁ d _ valid₁ lands => ?_
  cases compaction with
  | false => exact .pure valid₁ lands
  | true => exact serves.query (.compact d) trivial valid₁ lands

theorem report (valid : R.Valid x g) (lt : n < g.nodes.size) (position : Nat) (symbol : Value) :
    R.After x g (Parse.report ask position symbol n) fun _ _ _ => True := by
  refine .read (f := fun g => g.admits .debug) ?_
  split
  · refine .bind (serves.query (.nodeCount n) trivial valid lt) fun x₁ g₁ count _ valid₁ _ => ?_
    obtain ⟨later, valid₂⟩ := serves.note .debug
      s!"Consumed {symbol.written} at position {position}, residual has {count} nodes" valid₁
    exact .update later (.pure valid₂ trivial)
  · exact .pure valid trivial

theorem residualFrom (compaction : Bool) {symbols : List Value} (by_ : ∀ c ∈ symbols, P c)
    {x : γ} {g : Graph} {n : NodeId} (position : Nat) (valid : R.Valid x g)
    (lt : n < g.nodes.size) :
    R.After x g (Parse.residualFrom ask compaction position symbols n) fun _ g' r =>
      r.node < g'.nodes.size := by
  induction symbols generalizing x g n position with
  | nil => exact .pure valid lt
  | cons symbol rest ih =>
    unfold Parse.residualFrom
    have first := by_ symbol List.mem_cons_self
    have others := fun c member => by_ c (List.mem_cons_of_mem symbol member)
    refine .bind (serves.advance valid lt compaction first) fun x₁ g₁ next _ valid₁ lands => ?_
    split
    · next none =>
      obtain ⟨later, valid₂⟩ := serves.note .debug
        s!"Rejected at position {position} on {symbol.written}" valid₁
      rw [eq_of_beq none]
      exact .update later (.pure valid₂ (serves.inhabited valid₂))
    · refine .bind (serves.report valid₁ lands position symbol) fun x₂ g₂ _ later valid₂ _ => ?_
      exact ih others (position + 1) valid₂ (Nat.lt_of_lt_of_le lands (serves.grows later))

theorem call (valid : R.Valid x g) {c : Call} (by_ : c.By P) (lt : c.node < g.nodes.size) :
    R.After x g (c.run ask) fun _ _ _ => True := by
  cases c with
  | query q =>
    exact .bind (serves.query q by_ valid lt) fun _ _ _ _ valid' _ => .pure valid' trivial
  | residual compaction symbols n =>
    exact .bind (serves.residualFrom compaction by_ 0 valid lt) fun _ _ _ _ valid' _ =>
      .pure valid' trivial
  | recognize compaction symbols n =>
    refine .bind (Q := fun _ _ _ => True) ?_ fun _ _ _ _ valid' _ => .pure valid' trivial
    refine .bind (serves.residualFrom compaction by_ 0 valid lt) fun x₁ g₁ r _ valid₁ lands => ?_
    refine .bind (serves.query (.nullable r.node) trivial valid₁ lands)
      fun x₂ g₂ accepted _ valid₂ _ => ?_
    let verdict := if accepted then "accepted" else "rejected"
    obtain ⟨later, valid₃⟩ := serves.note .info s!"Recognition {verdict}" valid₂
    exact .update later (.pure valid₃ trivial)
  | parse compaction symbols n =>
    refine .bind (Q := fun _ _ _ => True) ?_ fun _ _ _ _ valid' _ => .pure valid' trivial
    refine .bind (serves.residualFrom compaction by_ 0 valid lt) fun x₁ g₁ r _ valid₁ lands => ?_
    refine .bind (serves.query (.forest r.node) trivial valid₁ lands)
      fun x₂ g₂ forest _ valid₂ _ => ?_
    refine .given valid₂ fun ws _ => ?_
    obtain ⟨later, valid₃⟩ := serves.note .info s!"Parse produced {ws.length} witnesses" valid₂
    exact .update later (.pure valid₃ trivial)

end Regime.Serves

namespace Regime

variable {γ : Type} {R : Regime γ} {x : γ} {g : Graph}

/-- A query that ends well within some bound can end in no other way within any bound. -/
theorem Ends.after {q : Query} {Q : γ → Graph → q.Answer → Prop}
    (h : R.Ends x g (fun ask => ask q) Q) (bound : Nat) : R.After x g (Engine.run bound q) Q := by
  intro result g' ends
  obtain ⟨a, g'', ⟨least, gives⟩, x', later, valid, holds⟩ := h
  cases Engine.run_unique ends (gives least (Nat.le_refl _))
  exact ⟨x', later, valid, by rintro _ ⟨⟩; exact holds⟩

end Regime

end GrammarGraph
