import GrammarGraph.Evaluation
import GrammarGraph.Memo

/-! Comparing computations by how far they get. A computation lies within another one if
that one ends in the same way whenever the first ends at all. -/
namespace GrammarGraph.RunOf

def Within (r r' : RunOf σ α) : Prop :=
  ∀ s x, r s = some x → r' s = some x

namespace Within

theorem refl (r : RunOf σ α) : Within r r :=
  fun _ _ h => h

theorem spent (r : RunOf σ α) : Within RunOf.spent r :=
  fun _ _ h => by simp [RunOf.spent] at h

theorem bind {r r' : RunOf σ α} {f f' : α → RunOf σ β} (hr : Within r r')
    (hf : ∀ a, Within (f a) (f' a)) : Within (r >>= f) (r' >>= f') := by
  intro s x h
  change (r s).bind _ = some x at h
  change (r' s).bind _ = some x
  cases hs : r s with
  | none => simp [hs] at h
  | some y =>
    rw [hr s y hs]
    rw [hs] at h
    obtain ⟨result, t⟩ := y
    cases result with
    | error fault => exact h
    | ok a => exact hf a t x h

/-- The first step is the same. -/
theorem after (r : RunOf σ α) {f f' : α → RunOf σ β} (hf : ∀ a, Within (f a) (f' a)) :
    Within (r >>= f) (r >>= f') :=
  bind (refl r) hf

/-- The last step is the same. -/
theorem before {r r' : RunOf σ α} (hr : Within r r') (f : α → RunOf σ β) :
    Within (r >>= f) (r' >>= f) :=
  bind hr fun a => refl (f a)

theorem outcome {r r' : RunOf σ α} (h : Within r r') : Within r.outcome r'.outcome := by
  intro s x hx
  simp only [RunOf.outcome, Option.map_eq_some_iff] at hx ⊢
  obtain ⟨y, hy, rfl⟩ := hx
  exact ⟨y, h s y hy, rfl⟩

theorem evaluation {held : Held σ (Evaluation α)} {d d' b b' : RunOf σ α} (hd : Within d d')
    (hb : Within b b') (n : Nat) :
    Within (Evaluation.demand held d b n) (Evaluation.demand held d' b' n) := by
  unfold Evaluation.demand
  refine after _ fun standing => ?_
  cases standing with
  | stored value => exact refl _
  | active depth => exact after _ fun _ => hd
  | provisional entry => exact refl _
  | fresh depth => exact after _ fun _ => before (outcome hb) _

theorem memo {held : Held σ (Memo ρ)} {name : String} {b b' : RunOf σ ρ} (hb : Within b b')
    (n : Nat) (key : Value) :
    Within (Memo.demand held name b n key) (Memo.demand held name b' n key) := by
  unfold Memo.demand
  refine after _ fun key => after _ fun progress => ?_
  cases progress with
  | finished result => exact refl _
  | started => exact refl _
  | absent => exact after _ fun _ => before (outcome hb) _

end Within

end GrammarGraph.RunOf
