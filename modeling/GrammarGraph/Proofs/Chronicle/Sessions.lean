import GrammarGraph.Proofs.Chronicle
import GrammarGraph.Proofs.Operations

/-! Chronicles of operations. Whatever a session does, all questions that it asks on the way are
asked in some order; the histories of a session put them one after another. -/
namespace GrammarGraph

variable {bound : Nat}

namespace Charted

variable {α : Type}

theorem onTour {r : Ask → Run α} (hr : Charted .whole bound r) :
    Charted .tourGraph bound fun ask => .inside .tourGraph (r ask) :=
  inside (fun _ => rfl) (fun _ _ => rfl) hr

theorem onGraph {r : Ask → Run α} (hr : Charted .whole bound r) :
    Charted .graph bound fun ask => Session.onGraph (r ask) :=
  inside (fun _ => rfl) (fun _ _ => rfl) hr

theorem journaled {r : Ask → Run α} (log : Option Level) (hr : Charted .whole bound r) :
    Charted .graph bound fun ask => Session.journaled log (r ask) := by
  have journal (p : Graph → Option Journal) :
      Charted .whole bound fun _ => .update fun g => { g with journal := p g } :=
    update (fun _ => rfl) fun _ => rfl
  refine onGraph (bind (journal fun _ => _) fun _ => bind hr.outcome fun ended =>
    bind (read _) fun _ => bind (journal fun _ => _) fun _ => bind (given ended) fun _ => pure _)

end Charted

namespace Tour

/-- Walks whose questions and whose steps have chronicles. -/
theorem charted_compositional {again : Ask → Again}
    (onward : ∀ n, Charted .tourGraph bound fun ask => again ask n) :
    Compositional fun _ r => Charted .tourGraph bound fun ask => r ask (again ask) where
  given := .given
  read := .read
  bind := .bind
  visit _ := .update (fun _ => rfl) fun _ => rfl
  graph assembled := .onTour (.assembled assembled)
  again := onward

theorem charted_descend (extra : List Value) (plan : Plan) :
    ∀ (depth : Nat) (n : NodeId),
      Charted .tourGraph bound fun ask => descend ask extra plan depth n
  | 0, _ => fun _ _ _ ends => by cases ends
  | depth + 1, n => by
    have parts := charted_compositional (charted_descend extra plan depth)
    cases plan with
    | fixpoint rule d =>
      refine .evaluation (fun _ _ => rfl) (fun _ _ => rfl) ?_ (parts.step rule n) n
      cases d
      · exact .pure _
      · exact .read _
    | memo => exact .memo (fun _ _ => rfl) (fun _ _ => rfl) (parts.step .term n) n _

theorem charted_follow (extra : List Value) (depth : Nat) (n : NodeId) :
    Charted .tourGraph bound fun ask => follow ask extra depth n := by
  have same (ask : Ask) : follow ask extra depth n =
      (RunOf.read (·.walk.plan) >>= fun plan => descend ask extra plan depth n) := by
    funext t
    exact follow_eq ask extra depth n t
  simp only [same]
  exact .bind (.read _) fun plan => charted_descend extra plan depth n

end Tour

namespace Session

theorem charted_sparing : Sparing fun _ r => Charted .graph bound r where
  given := .given
  read := .read
  bind := .bind
  graph assembled := .onGraph (.assembled assembled)
  journaled log assembled := .journaled log (.assembled assembled)
  name _ _ := .onGraph (.update (fun _ => rfl) fun _ => rfl)
  parser _ _ := .update (fun _ => rfl) fun _ => rfl
  walk _ _ := .update (fun _ => rfl) fun _ => rfl

theorem charted_call (depth : Nat) (name : String) (term : Term) (extra : List Value) :
    Charted .graph bound fun ask => call ask depth name term extra := by
  refine .bind (.read _) fun found => ?_
  cases found with
  | none => exact .given (.error _)
  | some walk =>
    have toured (n : NodeId) : Charted .tourGraph bound fun ask =>
        RunOf.outcome (Tour.follow ask extra depth n) >>= fun result =>
          RunOf.read (·.visits.toList) >>= fun visits => pure (Reply.walked result visits) :=
      .bind (.outcome (Tour.charted_follow extra depth n)) fun _ => .bind (.read _) fun _ => .pure _
    exact .bind (charted_sparing.language term.uses_true) fun n =>
      (toured n).inside (fun _ => rfl) fun _ _ => rfl

/-- Every operation that overwrites no node has a chronicle. -/
theorem charted_operate (depth : Nat) {op : Operation}
    (sparing : ∀ term other, op ≠ .become term other) :
    Charted .graph bound fun ask => operate ask depth op := by
  by_cases still : ∀ name term extra, op ≠ .call name term extra
  · exact charted_sparing.operate depth op.uses_true still sparing
  · push Not at still
    obtain ⟨name, term, extra, rfl⟩ := still
    exact charted_call depth name term extra

/-- The node to overwrite and the one that it takes over from. -/
def operands (ask : Ask) (term other : Term) : Act (NodeId × NodeId) := do
  let n ← language ask term
  let m ← language ask other
  pure (n, m)

theorem charted_operands (term other : Term) :
    Charted .graph bound fun ask => operands ask term other :=
  charted_sparing.onNode term.uses_true fun _ => charted_sparing.onNode other.uses_true fun _ =>
    .pure _

theorem operate_become (ask : Ask) (depth : Nat) (term other : Term) (s : Session) :
    operate ask depth (.become term other) s = (operands ask term other s).bind fun
      | (.ok (n, m), s₁) => listing n (become n m s₁)
      | (.error fault, s₁) => some (.error fault, s₁) := by
  have whole : operate ask depth (.become term other) =
      (operands ask term other >>= fun (n, m) => RunOf.update (become n m) >>= fun _ => listing n) := by
    simp only [operands, bind_assoc, pure_bind]
    rfl
  rw [whole, RunOf.bind_run]
  rcases operands ask term other s with _ | ⟨_ | _, _⟩ <;> rfl

/-- What happened from one session to another, while operations were performed none of which
overwrote the node. -/
inductive History (n : NodeId) (s : Session) : List Inquiry → Session → Prop where
  | start : History n s [] s
  | perform {bound : Nat} {op : Operation} {s₁ s' : Session} {xs ys : List Inquiry}
      {result : Except Fault Reply} : History n s xs s₁ →
      (∀ term other, op ≠ .become term other) →
      Chronicle .graph bound (fun ask => operate ask bound op) s₁ ys result s' →
      History n s (xs ++ ys) s'
  | become {bound : Nat} {term other : Term} {m k : NodeId} {s₁ s' : Session}
      {xs ys : List Inquiry} : History n s xs s₁ →
      Chronicle .graph bound (fun ask => operands ask term other) s₁ ys (.ok (m, k)) s' → m ≠ n →
      History n s (xs ++ ys) (become m k s')
  | refused {bound : Nat} {term other : Term} {fault : Fault} {s₁ s' : Session}
      {xs ys : List Inquiry} : History n s xs s₁ →
      Chronicle .graph bound (fun ask => operands ask term other) s₁ ys (.error fault) s' →
      History n s (xs ++ ys) s'

/-- Operations were performed, whatever came of each, none of which overwrote the node. -/
inductive Spares (n : NodeId) (s : Session) : Session → Prop where
  | refl : Spares n s s
  | perform {bound : Nat} {op : Operation} {s₁ s' : Session} {result : Except Fault Reply} :
      Spares n s s₁ → perform bound op s₁ = some (result, s') →
      (∀ term other m s₂, op = .become term other →
        operands (Engine.run bound) term other s₁ ≠ some (.ok (n, m), s₂)) →
      Spares n s s'

variable {n : NodeId} {s s' : Session} {xs : List Inquiry}

/-- Whatever was done has a history. -/
theorem Spares.exists_history (h : Spares n s s') : ∃ xs, History n s xs s' := by
  induction h with
  | refl => exact ⟨[], .start⟩
  | @perform bound op s₁ s' result _ ends spared ih =>
    obtain ⟨xs, earlier⟩ := ih
    by_cases sparing : ∀ term other, op ≠ .become term other
    · obtain ⟨ys, now⟩ := charted_operate bound sparing _ _ _ ends
      exact ⟨_, .perform earlier sparing now⟩
    · push Not at sparing
      obtain ⟨term, other, rfl⟩ := sparing
      have ends := (operate_become _ bound term other s₁).symm.trans ends
      obtain ⟨⟨found, s₂⟩, began, ends⟩ := Option.bind_eq_some_iff.mp ends
      obtain ⟨ys, now⟩ := charted_operands term other _ _ _ began
      cases found with
      | error fault =>
        cases ends
        exact ⟨_, .refused earlier now⟩
      | ok nodes =>
        obtain ⟨m, k⟩ := nodes
        cases ends
        exact ⟨_, .become earlier now fun same => spared _ _ k s₂ rfl (same ▸ began)⟩

end Session

end GrammarGraph
