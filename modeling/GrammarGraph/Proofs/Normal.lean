import GrammarGraph.Proofs.Fringe
import GrammarGraph.Proofs.Witnesses

/-! The shape of witnesses. In a grammar without reductions, with symbols that are no tuples, every
witness is nothing, or a symbol or a pair, or one of these as the only part of a tuple. Pairing
unwraps one level and wraps anew where an operand is nothing, so neither nothing nor a tuple of one
part ever gets inside a witness. -/
namespace GrammarGraph

namespace Value

def Untupled (v : Value) : Prop :=
  ∀ items, v ≠ .tuple items

/-- All tuples in the value are pairs. -/
inductive Paired : Value → Prop where
  | leaf {v : Value} : v.Untupled → Paired v
  | pair {u v : Value} : Paired u → Paired v → Paired (.tuple [u, v])

inductive Normal : Value → Prop where
  | nothing : Normal .nothing
  | bare {u : Value} : u.Paired → Normal u
  | wrapped {u : Value} : u.Paired → Normal (.tuple [u])

/-- The value is a part of a tuple, or inside a part of it. -/
inductive Inside (v : Value) : Value → Prop where
  | part {items : List Value} : v ∈ items → Inside v (.tuple items)
  | deep {u : Value} {items : List Value} : u ∈ items → Inside v u → Inside v (.tuple items)

variable {u v w : Value}

namespace Paired

theorem ne_nothing (h : u.Paired) : u ≠ .nothing := by
  rintro rfl
  cases h with
  | leaf untupled => exact untupled [] rfl

theorem ne_wrapped (h : u.Paired) (v : Value) : u ≠ .tuple [v] := by
  rintro rfl
  cases h with
  | leaf untupled => exact untupled [v] rfl

theorem inside (h : u.Paired) (inside : v.Inside u) : v.Paired := by
  induction h with
  | leaf untupled => cases inside <;> exact absurd rfl (untupled _)
  | pair first second ihf ihs =>
    cases inside with
    | part member => rcases List.mem_pair.mp member with rfl | rfl <;> assumption
    | deep member inside =>
      rcases List.mem_pair.mp member with rfl | rfl
      · exact ihf inside
      · exact ihs inside

end Paired

namespace Normal

theorem inside (h : w.Normal) (inside : v.Inside w) : v.Paired := by
  cases h with
  | nothing => cases inside with
    | part none | deep none => cases none
  | bare paired => exact paired.inside inside
  | wrapped paired => cases inside with
    | part member => exact List.mem_singleton.mp member ▸ paired
    | deep member inside => exact paired.inside (List.mem_singleton.mp member ▸ inside)

theorem share (h : w.Normal) : Forest.share w = [] ∨ ∃ u, u.Paired ∧ Forest.share w = [u] := by
  cases h with
  | nothing => exact .inl rfl
  | wrapped paired => exact .inr ⟨_, paired, rfl⟩
  | bare paired =>
    refine .inr ⟨w, paired, ?_⟩
    have some_ : w.isNothing = false := by
      rw [Bool.eq_false_iff, ne_eq, isNothing_iff]
      exact paired.ne_nothing
    have whole : Forest.collapse w = w := by
      unfold Forest.collapse
      split
      · exact absurd rfl (paired.ne_wrapped _)
      · rfl
    rw [Forest.share, some_, whole]
    rfl

theorem closed : Forest.Closed Normal where
  nothing := .nothing
  cons {u v} hu hv := by
    unfold Forest.cons
    obtain left | ⟨u', hu', left⟩ := hu.share <;> obtain right | ⟨v', hv', right⟩ := hv.share <;>
      rw [left, right]
    · exact .nothing
    · exact .wrapped hv'
    · exact .wrapped hu'
    · exact .bare (.pair hu' hv')

end Normal

end Value

/-- All witnesses are in normal shape, and inside them is neither nothing nor a tuple of one part. -/
def Forest.Normal (ws : Forest) : Prop :=
  ∀ w ∈ ws, w.Normal ∧ ∀ v : Value, v.Inside w → v ≠ .nothing ∧ ∀ u, v ≠ .tuple [u]

theorem Forest.normal_of_all {ws : Forest} (h : ∀ w ∈ ws, w.Normal) : ws.Normal :=
  fun w member => ⟨h w member, fun _ inside =>
    have paired := (h w member).inside inside
    ⟨paired.ne_nothing, paired.ne_wrapped⟩⟩

/-- A constructor without reductions, and of symbols that are no tuples. -/
def Construction.Untupled : Construction → Prop
  | .char c => c.Untupled
  | c => c.Free

namespace Construction.Untupled

variable {c : Construction} (h : c.Untupled)
include h

theorem free : c.Free := by
  cases c with
  | char => exact trivial
  | eps | cat | alt | rep | delta | red => exact h

theorem of : c.Of Value.Normal := by
  cases c with
  | char => exact .bare (.leaf h)
  | eps ws =>
    obtain rfl : ws = Forest.trivial := h
    exact List.forall_mem_singleton.mpr .nothing
  | red => exact h.elim
  | cat | alt | rep | delta => exact trivial

end Construction.Untupled

/-- A one as the only part of a tuple is the only witness. -/
def Forest.isOne : Forest → Bool
  | [.tuple [.int 1]] => true
  | _ => false

theorem Forest.eq_of_isOne {ws : Forest} (one : ws.isOne = true) : ws = [.tuple [.int 1]] := by
  unfold isOne at one
  split at one
  · rfl
  · cases one

namespace Bench

open RunOf (Gives)

variable {b : Bench} {n m : NodeId} {g : Graph}

/-- Whatever one is led to by derivatives, rewriting and children, its forest is in normal shape, and
so are the witnesses that it carries itself. -/
theorem witnesses_normal
    (composed : b.Composed Construction.Untupled fun b c => b.opened = [] ∧ c.By Value.Untupled)
    (complete : b.opened = []) (lt : n < b.graph.nodes.size)
    (leads : b.graph.Leads Value.Untupled n g m) :
    (∃ ws g', Gives (fun ask => ask.forest m) g ws g' ∧ Forest.Normal ws) ∧
      ((g.node m).kind = .eps → Forest.Normal (g.node m).witnesses) := by
  obtain ⟨⟨ws, g', gives, given⟩, carried⟩ := composed.witnesses Value.Normal.closed
    (fun _ untupled => untupled.of) (fun _ untupled => untupled.free.total)
    (fun _ untupled => .bare (.leaf untupled)) complete lt leads
  exact ⟨⟨ws, g', gives, Forest.normal_of_all given⟩, fun _ => Forest.normal_of_all carried⟩

/-- A one is taken, and what is left is rewritten; its witness is the one as the only part of a
tuple. -/
theorem witnesses_normal_ones :
    ones.Composed Construction.Untupled (fun b c => b.opened = [] ∧ c.By Value.Untupled) ∧
    ones.opened = [] ∧ 2 < ones.graph.nodes.size ∧
    ∃ g m, ones.graph.Leads Value.Untupled 2 g m ∧
      (∃ ws g', Gives (fun ask => ask.forest m) g ws g' ∧ ws = [.tuple [.int 1]] ∧
        Forest.Normal ws) ∧
      ((g.node m).kind = .eps → Forest.Normal (g.node m).witnesses) := by
  have untupled : Value.Untupled (.int 1) := fun _ same => nomatch same
  have composed : ones.Composed Construction.Untupled
      fun b c => b.opened = [] ∧ c.By Value.Untupled := ones_composed _ untupled trivial trivial
  have ran : ((show Run Forest from do
      let d ← Engine.run 14 (.derive (.int 1) 2)
      let k ← Engine.run 14 (.compact d)
      Engine.run 14 (.forest k)) ones.graph).any
        (fun r => r.1.toOption.any Forest.isOne) = true := by decide +kernel
  obtain ⟨⟨given, _⟩, ends, one⟩ := (Option.any_eq_true _ _).mp ran
  cases given with
  | error => cases one
  | ok taken =>
    obtain ⟨d, g₁, first, ends⟩ := RunOf.bind_ok ends
    obtain ⟨k, g₂, second, third⟩ := RunOf.bind_ok ends
    have leads : ones.graph.Leads Value.Untupled 2 g₂ k :=
      .compact (.derive .start untupled (.ask 14 first)) (.ask 14 second)
    obtain ⟨⟨ws, g', gives, normal⟩, carried⟩ :=
      witnesses_normal composed rfl (by decide) leads
    have same : ws = taken := by cases gives.unique (fun below => below (.forest k)) third; rfl
    exact ⟨composed, rfl, by decide, g₂, k, leads,
      ⟨ws, g', gives, same ▸ Forest.eq_of_isOne one, normal⟩, carried⟩

end Bench

end GrammarGraph
