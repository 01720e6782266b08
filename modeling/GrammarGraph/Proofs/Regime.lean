import GrammarGraph.Grammar
import GrammarGraph.Query
import GrammarGraph.Proofs.Evolution

/-! Reasoning about runs on a graph. A regime says which graphs are in order, by a ghost
that the graph does not hold, and how ghost and graph may change together. `After` speaks
of every way in which a run can end, also with a fault; `Ends` says that runs with enough
bound end, without a fault, and what holds then. -/
namespace GrammarGraph

structure Regime (γ : Type) where
  Valid : γ → Graph → Prop
  Later : γ → Graph → γ → Graph → Prop
  refl : ∀ x g, Later x g x g
  trans : ∀ {x g x' g' x'' g''}, Later x g x' g' → Later x' g' x'' g'' → Later x g x'' g''

namespace RunOf

variable {σ α β : Type}

theorem bind_run (r : RunOf σ α) (f : α → RunOf σ β) (s : σ) :
    (r >>= f) s = (r s).bind fun
      | (.ok a, s') => f a s'
      | (.error fault, s') => some (.error fault, s') := by
  change (r s).bind _ = _
  cases r s with
  | none => rfl
  | some end_ => obtain ⟨_ | _, _⟩ := end_ <;> rfl

theorem bind_of_ok {r : RunOf σ α} {f : α → RunOf σ β} {s s' : σ} {a : α}
    (h : r s = some (.ok a, s')) : (r >>= f) s = f a s' := by
  rw [bind_run, h]
  rfl

theorem read_bind (f : σ → α) (k : α → RunOf σ β) (s : σ) : (read f >>= k) s = k (f s) s := rfl

theorem update_bind (f : σ → σ) (k : Unit → RunOf σ β) (s : σ) :
    (update f >>= k) s = k () (f s) := rfl

theorem ok_bind (a : α) (k : α → RunOf σ β) (s : σ) :
    (ofExcept (.ok a) >>= k) s = k a s := rfl

end RunOf

namespace Regime

variable {γ α β : Type} {R : Regime γ} {x : γ} {g : Graph}

/-- However `r` ends, the graph is in order, and `Q` holds of what it gives. -/
def After (R : Regime γ) (x : γ) (g : Graph) (r : Run α) (Q : γ → Graph → α → Prop) : Prop :=
  ∀ result g', r g = some (result, g') →
    ∃ x', R.Later x g x' g' ∧ R.Valid x' g' ∧ ∀ a, result = .ok a → Q x' g' a

namespace After

variable {r : Run α} {f : α → Run β} {Q : γ → Graph → α → Prop} {S : γ → Graph → β → Prop}

theorem pure {a : α} (valid : R.Valid x g) (h : Q x g a) : R.After x g (pure a) Q := by
  rintro result g' ⟨⟩
  exact ⟨x, R.refl x g, valid, by rintro _ ⟨⟩; exact h⟩

theorem fault {fault : Fault} (valid : R.Valid x g) :
    R.After x g (throw fault : Run α) Q := by
  rintro result g' ⟨⟩
  exact ⟨x, R.refl x g, valid, by rintro _ ⟨⟩⟩

theorem spent : R.After x g (.spent : Run α) Q :=
  fun _ _ h => by cases h

theorem ofExcept {result : Except Fault α} (valid : R.Valid x g)
    (h : ∀ a, result = .ok a → Q x g a) : R.After x g (.ofExcept result) Q := by
  rintro _ _ ⟨⟩
  exact ⟨x, R.refl x g, valid, h⟩

theorem imp {Q' : γ → Graph → α → Prop} (h : R.After x g r Q)
    (hQ : ∀ x' g' a, R.Later x g x' g' → R.Valid x' g' → Q x' g' a → Q' x' g' a) :
    R.After x g r Q' := by
  intro result g' hr
  obtain ⟨x', later, valid, hq⟩ := h result g' hr
  exact ⟨x', later, valid, fun a ha => hQ x' g' a later valid (hq a ha)⟩

theorem bind (hr : R.After x g r Q)
    (hf : ∀ x' g' a, R.Later x g x' g' → R.Valid x' g' → Q x' g' a → R.After x' g' (f a) S) :
    R.After x g (r >>= f) S := by
  intro result g'' h
  rw [RunOf.bind_run] at h
  obtain ⟨⟨first, g'⟩, hfirst, hrest⟩ := Option.bind_eq_some_iff.mp h
  obtain ⟨x', later, valid, hq⟩ := hr first g' hfirst
  cases first with
  | error fault =>
    cases hrest
    exact ⟨x', later, valid, by rintro _ ⟨⟩⟩
  | ok a =>
    obtain ⟨x'', later', valid', hs⟩ := hf x' g' a later valid (hq a rfl) result g'' hrest
    exact ⟨x'', R.trans later later', valid', hs⟩

theorem read {k : β → Run α} {f : Graph → β} (h : R.After x g (k (f g)) Q) :
    R.After x g (RunOf.read f >>= k) Q := h

theorem ok {k : β → Run α} {b : β} (h : R.After x g (k b) Q) :
    R.After x g (RunOf.ofExcept (.ok b) >>= k) Q := h

theorem given {k : β → Run α} {result : Except Fault β} (valid : R.Valid x g)
    (h : ∀ b, result = .ok b → R.After x g (k b) Q) :
    R.After x g (RunOf.ofExcept result >>= k) Q := by
  cases result with
  | ok b => exact h b rfl
  | error fault => exact After.fault valid

/-- A change of the graph, with the ghost that then goes with it. -/
theorem update {k : Unit → Run α} {f : Graph → Graph} {y : γ} (later : R.Later x g y (f g))
    (h : R.After y (f g) (k ()) Q) : R.After x g (RunOf.update f >>= k) Q := by
  intro result g' hr
  obtain ⟨x'', later', rest⟩ := h result g' hr
  exact ⟨x'', R.trans later later', rest⟩

theorem reuse {shortcut : Graph → Option NodeId} {make : Run NodeId}
    {Q : γ → Graph → NodeId → Prop} (valid : R.Valid x g)
    (old : ∀ n, shortcut g = some n → Q x g n)
    (new : shortcut g = none → R.After x g make Q) :
    R.After x g (Grammar.reuse shortcut make) Q := by
  refine read ?_
  cases found : shortcut g with
  | some n => exact pure valid (old n found)
  | none => exact new found

theorem outcome (h : R.After x g r Q) :
    R.After x g r.outcome fun x' g' result => ∀ a, result = .ok a → Q x' g' a := by
  intro result g' hr
  simp only [RunOf.outcome, Option.map_eq_some_iff] at hr
  obtain ⟨⟨inner, g₁⟩, hinner, ends⟩ := hr
  cases ends
  obtain ⟨x', later, valid, hq⟩ := h inner g₁ hinner
  exact ⟨x', later, valid, by rintro _ ⟨⟩; exact hq⟩

/-- What holds of each result, and goes on holding, holds of all of them in the end. -/
theorem mapM {f : α → Run β} (stable : ∀ {x g x' g' b}, R.Later x g x' g' → S x g b → S x' g' b) :
    ∀ {as : List α} {x g}, R.Valid x g →
      (∀ a ∈ as, ∀ {x' g'}, R.Later x g x' g' → R.Valid x' g' → R.After x' g' (f a) S) →
      R.After x g (as.mapM f) fun x' g' bs => ∀ b ∈ bs, S x' g' b
  | [], x, g, valid, _ => by
    rw [List.mapM_nil]
    exact pure valid fun _ none => by cases none
  | a :: as, x, g, valid, each => by
    rw [List.mapM_cons]
    refine bind (each a List.mem_cons_self (R.refl x g) valid) fun x₁ g₁ b later valid₁ first => ?_
    refine bind (mapM stable valid₁ fun c member _ _ later' valid₂ =>
      each c (List.mem_cons_of_mem _ member) (R.trans later later') valid₂) ?_
    intro x₂ g₂ bs later' valid₂ rest
    refine pure valid₂ fun c member => ?_
    rcases List.mem_cons.mp member with rfl | member
    · exact stable later' first
    · exact rest c member

theorem either {a b : Run Bool} {S : γ → Graph → Bool → Prop}
    (ha : R.After x g a fun x' g' answer => (answer = true → S x' g' true) ∧
      (answer = false → R.After x' g' b S)) : R.After x g (Run.either a b) S := by
  refine bind ha fun x' g' answer later valid h => ?_
  cases answer with
  | true => exact pure valid (h.1 rfl)
  | false => exact h.2 rfl

theorem both {a b : Run Bool} {S : γ → Graph → Bool → Prop}
    (ha : R.After x g a fun x' g' answer => (answer = false → S x' g' false) ∧
      (answer = true → R.After x' g' b S)) : R.After x g (Run.both a b) S := by
  refine bind ha fun x' g' answer later valid h => ?_
  cases answer with
  | true => exact h.2 rfl
  | false => exact pure valid (h.1 rfl)

end After

end Regime

end GrammarGraph
