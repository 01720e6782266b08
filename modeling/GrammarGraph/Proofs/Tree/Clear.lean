import GrammarGraph.Proofs.Tree.Reference
import GrammarGraph.Proofs.Tree.Sure

/-! Trees in which no part that is paired is ambiguous. There nothing is lost where forests are
paired position by position, so every derivation counts, with compaction and without. -/
namespace GrammarGraph

namespace Tree

/-- Every sentence has at most one witness. -/
def Definite (e : Tree) : Prop :=
  ∀ s w, e.Yields s w → e.Only s w

/-- The parts of concatenations, the rounds of repetitions and repetitions are definite. -/
def Clear : Tree → Prop
  | .empty | .eps _ | .char _ => True
  | .cat a b => (a.Clear ∧ b.Clear) ∧ a.Definite ∧ b.Definite
  | .alt a b => a.Clear ∧ b.Clear
  | .rep e => e.Clear ∧ e.Definite ∧ (rep e).Definite
  | .delta e | .red e _ => e.Clear

variable {a b e : Tree} {s t : List Value} {v w : Value}

theorem Clear.sure (clear : e.Clear) (yields : e.Yields s w) : e.Sure s w := by
  induction e generalizing s w with
  | empty | eps | char => exact yields
  | alt a b iha ihb => exact yields.imp (iha clear.1) (ihb clear.2)
  | rep e ih =>
    exact Rounds.mono (fun p u round => ⟨ih clear.1 round, clear.2.1 p u round⟩) yields
  | delta e ih => exact ⟨yields.1, ih clear yields.2⟩
  | red e t ih =>
    obtain ⟨v, inner, applied⟩ := yields
    exact ⟨v, ih clear inner, applied⟩
  | cat a b iha ihb =>
    obtain ⟨p, q, u, v, parts, joined, first, second⟩ := yields
    exact ⟨p, q, u, v, parts, joined, ⟨iha clear.1.1 first, clear.2.1 p u first⟩,
      ihb clear.1.2 second, .inl (clear.2.2 q v second)⟩

theorem yields_of_mem_reference (member : w ∈ e.reference s) : e.Yields s w := by
  induction s generalizing e with
  | nil => exact yields_of_mem_forest (reference_nil e ▸ member)
  | cons c s ih => exact yields_derive.mp (ih (reference_derive e c s ▸ member))

section Reference

variable (plain : e.Proper Value.Plain) (symbols : ∀ c ∈ s, c.Plain)
include plain symbols

/-- The witnesses of a sentence differ and hold no truth values. -/
theorem Proper.reference :
    Forest.Distinct (e.reference s) ∧ ∀ w ∈ e.reference s, w.Plain := by
  induction s generalizing e with
  | nil =>
    rw [reference_nil]
    exact ⟨plain.forest_distinct, plain.forest Value.plain_closed⟩
  | cons c s ih =>
    rw [← reference_derive]
    exact ih (plain.derive (symbols c List.mem_cons_self))
      fun d member => symbols d (List.mem_cons_of_mem c member)

theorem Only.reference_eq (only : e.Only s w) (member : w ∈ e.reference s) :
    e.reference s = [w] :=
  Forest.eq_singleton (plain.reference symbols).1 member fun v among =>
    only v (yields_of_mem_reference among)

/-- A value without truth values is a witness if an equal one is. -/
theorem Proper.mem_reference (h : ∃ v ∈ e.reference s, v.same w = true) (hw : w.Plain) :
    w ∈ e.reference s := by
  obtain ⟨v, member, same⟩ := h
  rwa [← Value.eq_of_same ((plain.reference symbols).2 v member).2 hw.2 same]

end Reference

theorem Clear.mem_reference (clear : e.Clear) (plain : e.Proper Value.Plain)
    (symbols : ∀ c ∈ s, c.Plain) (yields : e.Yields s w) : w ∈ e.reference s := by
  induction e generalizing s w with
  | empty => exact yields.elim
  | eps =>
    obtain ⟨rfl, member⟩ := yields
    exact member
  | char a =>
    obtain ⟨rfl, same⟩ := yields
    simp [reference, same]
  | delta e ih =>
    obtain ⟨rfl, yields⟩ := yields
    exact ih clear plain symbols yields
  | alt a b iha ihb =>
    have member : w ∈ a.reference s ++ b.reference s := by
      rw [List.mem_append]
      exact yields.imp (iha clear.1 plain.1 symbols) (ihb clear.2 plain.2 symbols)
    refine plain.mem_reference symbols (Forest.exists_same_distinct member) ?_
    exact (List.mem_append.mp member).elim ((plain.1.reference symbols).2 w)
      ((plain.2.reference symbols).2 w)
  | red e t ih =>
    obtain ⟨v, yields, applied⟩ := yields
    have member : w ∈ t.results (e.reference s) :=
      Transform.mem_results.mpr ⟨v, ih clear plain.1 symbols yields, applied⟩
    refine plain.mem_reference symbols (Forest.exists_same_distinct member) ?_
    exact plain.2.results (plain.1.reference symbols).2 w member
  | cat a b iha ihb =>
    obtain ⟨p, q, u, v, rfl, rfl, first, second⟩ := yields
    obtain ⟨before, after⟩ := List.forall_mem_append.mp symbols
    have ha := iha clear.1.1 plain.1 before first
    have hb := ihb clear.1.2 plain.2 after second
    refine plain.mem_reference symbols (Forest.exists_same_splits
      ((clear.2.1 p u first).reference_eq plain.1 before ha)
      ((clear.2.2 q v second).reference_eq plain.2 after hb)) ?_
    exact Value.plain_closed.cons ((plain.1.reference before).2 u ha)
      ((plain.2.reference after).2 v hb)
  | rep e ih =>
    have inner : e.Proper Value.Plain := plain
    have rounds : Rounds .literal e.Yields s w := yields
    clear yields
    induction rounds with
    | none => exact (reference_nil (rep e)).symm ▸ List.mem_singleton_self _
    | @more c p u q v first rest again =>
      obtain ⟨before, after⟩ := List.forall_mem_append.mp symbols
      have he := ih clear.1 inner before first
      have hr := again after
      refine plain.mem_reference symbols ?_ ?_
      · rw [List.cons_append, reference, Forest.rounds_cons]
        exact Forest.exists_same_splits
          ((clear.2.1 (c :: p) u first).reference_eq inner before he)
          ((clear.2.2 q v rest).reference_eq plain after hr)
      · exact Value.plain_closed.cons ((inner.reference before).2 u he)
          ((plain.reference after).2 v hr)

end Tree

end GrammarGraph
