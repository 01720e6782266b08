import GrammarGraph.Proofs.Sketch.Engine
import GrammarGraph.Proofs.Totality

/-! Sketches that tell one sentence from none, but not one witness from another. Such a sketch has
one symbol, the number one, and no forest with more than one witness. What is computed from its
witnesses depends only on which of them are nothing, so any other witnesses may take their places
if they agree in that. -/
namespace GrammarGraph

namespace Forest

variable {u v w : Value}

theorem share_eq_nil : share w = [] ↔ w.isNothing = true := by
  unfold share
  split
  · next none => exact ⟨fun _ => none, fun _ => rfl⟩
  · next some_ => exact ⟨fun none => absurd none (List.cons_ne_nil _ _), fun none => absurd none some_⟩

/-- A pair is nothing exactly if its parts are. -/
theorem isNothing_cons (u v : Value) : (cons u v).isNothing = (u.isNothing && v.isNothing) := by
  rw [Bool.eq_iff_iff, Bool.and_eq_true, ← share_eq_nil (w := u), ← share_eq_nil (w := v),
    ← List.append_eq_nil_iff, Value.isNothing_iff, cons, Value.tuple.injEq]

end Forest

namespace Value

theorem isNothing_numeric (v : Value) : v.numeric.isNothing = v.isNothing := by
  cases v with
  | tuple items => cases items <;> rfl
  | none | bool | int | str | list => rfl

/-- Equal values are both nothing or both not. -/
theorem isNothing_eq_of_same {a b : Value} (h : a.same b = true) : a.isNothing = b.isNothing := by
  rw [← isNothing_numeric a, (same_iff a b).mp h, isNothing_numeric]

end Value

namespace Transform

/-- The witness that a transform pairs with others. -/
def attached? : Transform → Option Value
  | .prepend w | .append w => some w
  | _ => none

/-- The transform does no more than to attach witnesses with the property. -/
def Attaches (P : Value → Prop) (t : Transform) : Prop :=
  ∀ part ∈ t.parts, ∃ w ∈ part.attached?, P w

/-- Something that is not nothing is attached. -/
def adds (t : Transform) : Bool :=
  t.parts.any fun part => part.attached?.any fun w => !w.isNothing

variable {P : Value → Prop} {t t' : Transform} {w : Value}

theorem Attaches.compose (outer : t.Attaches P) (inner : t'.Attaches P) :
    (Transform.compose t t').Attaches P :=
  fun part member => (List.mem_append.mp member).elim (inner part) (outer part)

theorem adds_compose (outer inner : Transform) :
    (compose outer inner).adds = (inner.adds || outer.adds) :=
  List.any_append

theorem attaches_identity : identity.Attaches P :=
  fun _ none => (List.not_mem_nil none).elim

theorem attaches_prepend (h : P w) : (prepend w).Attaches P :=
  fun _ member => List.mem_singleton.mp member ▸ ⟨w, rfl, h⟩

theorem attaches_append (h : P w) : (append w).Attaches P :=
  fun _ member => List.mem_singleton.mp member ▸ ⟨w, rfl, h⟩

/-- Attaching gives a witness, and that is nothing only if nothing was added to nothing. -/
theorem Attaches.apply (closed : Forest.Closed P) (h : t.Attaches P) (hw : P w) :
    ∃ v, t.apply w = .ok v ∧ P v ∧ v.isNothing = (w.isNothing && !t.adds) := by
  rw [apply_eq]
  unfold Attaches at h
  unfold adds
  generalize t.parts = parts at h ⊢
  induction parts generalizing w with
  | nil => exact ⟨w, rfl, hw, (Bool.and_true _).symm⟩
  | cons part parts ih =>
    obtain ⟨u, attached, hu⟩ := h part List.mem_cons_self
    have rest := fun part member => h part (List.mem_cons_of_mem _ member)
    rw [List.any_cons, attached, Option.any_some]
    obtain ⟨first, applied, hfirst, nothing⟩ : ∃ v, part.apply w = .ok v ∧ P v ∧
        v.isNothing = (w.isNothing && u.isNothing) := by
      cases part with
      | prepend head =>
        cases attached
        exact ⟨_, rfl, closed.cons hu hw, by rw [Forest.isNothing_cons, Bool.and_comm]⟩
      | append tail =>
        cases attached
        exact ⟨_, rfl, closed.cons hw hu, Forest.isNothing_cons _ _⟩
      | plain | composition => cases attached
    obtain ⟨v, applied', hv, nothing'⟩ := ih hfirst rest
    refine ⟨v, ?_, hv, ?_⟩
    · rw [applyAll, applied]
      exact applied'
    · rw [nothing', nothing, Bool.not_or, Bool.not_not, Bool.and_assoc]

end Transform

/-- The symbol that the one of a sketch stands for, and what is true of all witnesses that are made
of it. -/
structure Material where
  symbol : Value
  Apt : Value → Prop
  closed : Forest.Closed Apt
  hashable : ∀ {w}, Apt w → w.hashable = true
  apt : Apt symbol
  solid : symbol.isNothing = false

namespace Material

/-- A witness of the sketch, and one that may take its place. -/
structure Akin (M : Material) (w w' : Value) : Prop where
  hashable : w.hashable = true
  apt : M.Apt w'
  nothing : w'.isNothing = w.isNothing

/-- Forests with at most one witness. -/
inductive Slim (M : Material) : Forest → Forest → Prop where
  | none : Slim M [] []
  | one {w w' : Value} : M.Akin w w' → Slim M [w] [w']

/-- Transforms that attach something, or nothing, to akin witnesses. -/
structure Alike (M : Material) (t t' : Transform) : Prop where
  hashable : t.Attaches fun w => w.hashable = true
  apt : t'.Attaches M.Apt
  adds : t'.adds = t.adds

/-- The symbol of the sketch, and the one that it stands for. -/
structure Stands (M : Material) (c c' : Value) : Prop where
  one : c.same (.int 1) = true
  symbol : c'.same M.symbol = true
  apt : M.Apt c'

variable {M : Material} {u u' v v' w w' c c' d d' : Value} {us us' vs vs' ws ws' : Forest}
  {s s' t t' : Transform}

namespace Akin

theorem nothings : M.Akin .nothing .nothing :=
  ⟨rfl, M.closed.nothing, rfl⟩

theorem cons (hu : M.Akin u u') (hv : M.Akin v v') :
    M.Akin (Forest.cons u v) (Forest.cons u' v') where
  hashable := Forest.hashable_closed.cons hu.hashable hv.hashable
  apt := M.closed.cons hu.apt hv.apt
  nothing := by
    rw [Forest.isNothing_cons, Forest.isNothing_cons, hu.nothing, hv.nothing]

end Akin

namespace Stands

theorem same (h : M.Stands c c') (k : M.Stands d d') : c'.same d' = c.same d :=
  (Value.same_trans h.symbol (Value.same_symm k.symbol)).trans
    (Value.same_trans h.one (Value.same_symm k.one)).symm

theorem akin (h : M.Stands c c') : M.Akin c c' where
  hashable := Value.hashable_eq_of_same h.one
  apt := h.apt
  nothing := by
    rw [Value.isNothing_eq_of_same h.one, Value.isNothing_eq_of_same h.symbol, M.solid]
    rfl

theorem self : M.Stands (.int 1) M.symbol :=
  ⟨Value.same_refl _, Value.same_refl _, M.apt⟩

end Stands

namespace Alike

theorem identity : M.Alike .identity .identity :=
  ⟨Transform.attaches_identity, Transform.attaches_identity, rfl⟩

theorem prepend (h : M.Akin w w') : M.Alike (.prepend w) (.prepend w') :=
  ⟨Transform.attaches_prepend h.hashable, Transform.attaches_prepend h.apt, by
    simp [Transform.adds, Transform.parts, Transform.attached?, h.nothing]⟩

theorem append (h : M.Akin w w') : M.Alike (.append w) (.append w') :=
  ⟨Transform.attaches_append h.hashable, Transform.attaches_append h.apt, by
    simp [Transform.adds, Transform.parts, Transform.attached?, h.nothing]⟩

theorem compose (outer : M.Alike s s') (inner : M.Alike t t') :
    M.Alike (Transform.compose s t) (Transform.compose s' t') :=
  ⟨outer.hashable.compose inner.hashable, outer.apt.compose inner.apt, by
    rw [Transform.adds_compose, Transform.adds_compose, outer.adds, inner.adds]⟩

theorem apply (h : M.Alike t t') (hw : M.Akin w w') :
    ∃ v v', t.apply w = .ok v ∧ t'.apply w' = .ok v' ∧ M.Akin v v' := by
  obtain ⟨v, applied, hashable, nothing⟩ := h.hashable.apply Forest.hashable_closed hw.hashable
  obtain ⟨v', applied', apt, nothing'⟩ := h.apt.apply M.closed hw.apt
  exact ⟨v, v', applied, applied', hashable, apt, by rw [nothing', nothing, hw.nothing, h.adds]⟩

end Alike

namespace Slim

theorem isTrivial (h : M.Slim ws ws') : Forest.isTrivial ws' = Forest.isTrivial ws := by
  cases h with
  | none => rfl
  | one akin => exact akin.nothing

theorem counts (h : M.Slim ws ws') : Counts M.Alike ws ws' := by
  cases h with
  | none => exact .none
  | one akin => exact .one (.prepend akin) (.append akin)

/-- A forest with at most one witness is left as it is. -/
theorem ofWitnesses (h : M.Slim ws ws') :
    Forest.ofWitnesses ws = .ok ws ∧ Forest.ofWitnesses ws' = .ok ws' := by
  cases h with
  | none => exact ⟨rfl, rfl⟩
  | one akin =>
    refine ⟨Forest.ofWitnesses_ok.mpr ⟨?_, rfl⟩, Forest.ofWitnesses_ok.mpr ⟨?_, rfl⟩⟩
    · simpa using akin.hashable
    · simpa using M.hashable akin.apt

theorem ended (h : M.Slim ws ws') :
    Ended M.Slim (Forest.ofWitnesses ws) (Forest.ofWitnesses ws') := by
  rw [h.ofWitnesses.1, h.ofWitnesses.2]
  exact .value h

/-- Of two forests that have one witness together, one is empty. -/
theorem append (hu : M.Slim us us') (hv : M.Slim vs vs') (few : (us ++ vs).length ≤ 1) :
    M.Slim (us ++ vs) (us' ++ vs') := by
  cases hu with
  | none => exact hv
  | one akin =>
    cases hv with
    | none => exact .one akin
    | one => exact absurd few (by simp)

theorem union (hu : M.Slim us us') (hv : M.Slim vs vs') (few : (us ++ vs).length ≤ 1) :
    Ended M.Slim (Forest.union [us, vs]) (Forest.union [us', vs']) := by
  have both {us vs : Forest} : [us, vs].flatten = us ++ vs := by simp
  rw [Forest.union, Forest.union, both, both]
  exact (hu.append hv few).ended

theorem combine (hu : M.Slim us us') (hv : M.Slim vs vs') :
    Ended M.Slim (Forest.combine us vs) (Forest.combine us' vs') := by
  refine ended ?_
  cases hu with
  | none => exact .none
  | one first =>
    cases hv with
    | none => exact .none
    | one second => exact .one (first.cons second)

theorem image (alike : M.Alike t t') (h : M.Slim ws ws') :
    Ended M.Slim (t.image ws) (t'.image ws') := by
  cases h with
  | none => exact .value .none
  | one akin =>
    obtain ⟨v, v', applied, applied', akin'⟩ := alike.apply akin
    have single {t : Transform} {w v : Value} (applied : t.apply w = .ok v)
        (hashable : v.hashable = true) : t.image [w] = .ok [v] := by
      simp [Transform.image, applied, Value.hashed, hashable, bind, Except.bind, pure,
        Except.pure, Forest.distinct, Forest.insert]
    rw [single applied akin'.hashable, single applied' (M.hashable akin'.apt)]
    exact .value (.one akin')

end Slim

end Material

open Material (Stands Slim) in
/-- One symbol and single witnesses may be others. No names are used. -/
def Cast.slim (M : Material) : Cast where
  Symbols := M.Stands
  Forests := M.Slim
  Transforms := M.Alike
  owns _ := False
  unites us vs := decide ((us ++ vs).length ≤ 1)
  strict := False
  keys := Stands.same
  hashable h := (M.hashable h.apt).trans h.akin.hashable.symm
  single h := .one h.akin
  none := .none
  trivial := .one .nothings
  isTrivial := Slim.isTrivial
  counts := Slim.counts
  ofWitnesses := Slim.ended
  union few hu hv := hu.union hv (of_decide_eq_true few)
  combine := Slim.combine
  image := Slim.image
  identity := .identity
  compose := .compose
  unites_of_strict impossible := impossible.elim

/-- What a sketch does is the same whatever its symbol stands for. -/
theorem Cast.run_slim (M M' : Material) : ∀ bound, (slim M).run bound = (slim M').run bound
  | 0 => rfl
  | bound + 1 => by
    funext q
    rw [Cast.run, Cast.run, run_slim M M' bound]
    cases q <;> rfl

end GrammarGraph
