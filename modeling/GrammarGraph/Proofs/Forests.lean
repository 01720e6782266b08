import Mathlib.Data.List.Forall2
import GrammarGraph.Transform
import GrammarGraph.Forest.Distinct

/-! Forests as results: when one is given, what is in it, and when it has no witness. -/
namespace GrammarGraph

theorem Value.hashed_ok {v w : Value} : v.hashed = .ok w ↔ v.hashable = true ∧ v = w := by
  unfold Value.hashed
  split
  · next h => simp [h]
  · next h => simp [h]

theorem exists_related {R : α → β → Prop} {as : List α} {bs : List β}
    (all : List.Forall₂ R as bs) {a : α} (member : a ∈ as) : ∃ b ∈ bs, R a b := by
  induction all with
  | nil => cases member
  | cons first _ ih =>
    rcases List.mem_cons.mp member with rfl | later
    · exact ⟨_, List.mem_cons_self, first⟩
    · obtain ⟨b, there, related⟩ := ih later
      exact ⟨b, List.mem_cons_of_mem _ there, related⟩

/-- A list of results is a list of the results for its members. -/
theorem Except.mapM_ok {f : α → Except ε β} : ∀ {as : List α} {bs : List β},
    as.mapM f = .ok bs ↔ List.Forall₂ (fun a b => f a = .ok b) as bs
  | [], bs => by cases bs <;> simp [pure, Except.pure]
  | a :: as, bs => by
    rw [List.mapM_cons]
    cases first : f a with
    | error fault => cases bs <;> simp [bind, Except.bind, first]
    | ok b =>
      cases rest : as.mapM f with
      | error fault =>
        have none (bs : List β) : ¬ List.Forall₂ (fun a b => f a = .ok b) as bs := fun all => by
          rw [mapM_ok.mpr all] at rest
          cases rest
        cases bs <;> simp [bind, Except.bind, none]
      | ok cs =>
        have := mapM_ok.mp rest
        cases bs with
        | nil => simp [bind, Except.bind, pure, Except.pure]
        | cons b' bs =>
          rw [List.forall₂_cons, first, ← mapM_ok, rest]
          simp only [bind, Except.bind, pure, Except.pure, Except.ok.injEq, List.cons.injEq]

theorem Except.exists_of_mapM {f : α → Except ε β} {as : List α} {bs : List β} {b : β}
    (h : as.mapM f = .ok bs) (member : b ∈ bs) : ∃ a ∈ as, f a = .ok b :=
  exists_related (mapM_ok.mp h).flip member

namespace Forest

variable {ws us : List Value} {forest left right : Forest} {w : Value}

theorem mapM_hashed {vs : List Value} :
    ws.mapM Value.hashed = .ok vs ↔ (∀ w ∈ ws, w.hashable = true) ∧ vs = ws := by
  rw [Except.mapM_ok]
  simp only [Value.hashed_ok]
  rw [List.forall₂_and_left, List.forall₂_eq_eq_eq, eq_comm]

theorem ofWitnesses_ok : ofWitnesses ws = .ok forest ↔
    (∀ w ∈ ws, w.hashable = true) ∧ forest = distinct ws := by
  unfold ofWitnesses
  cases listed : ws.mapM Value.hashed with
  | error fault =>
    have : ¬ ∀ w ∈ ws, w.hashable = true := fun all => by
      rw [mapM_hashed.mpr ⟨all, rfl⟩] at listed
      cases listed
    simp only [bind, Except.bind, this, false_and, reduceCtorEq]
  | ok vs =>
    obtain ⟨all, rfl⟩ := mapM_hashed.mp listed
    simp only [bind, Except.bind, pure, Except.pure, Except.ok.injEq]
    exact ⟨fun same => ⟨all, same.symm⟩, fun same => same.2.symm⟩

theorem mem_of_mem_ofWitnesses (h : ofWitnesses ws = .ok forest) (member : w ∈ forest) :
    w ∈ ws :=
  mem_of_mem_distinct ((ofWitnesses_ok.mp h).2 ▸ member)

theorem distinct_eq_nil : distinct ws = [] ↔ ws = [] := by
  constructor
  · intro none
    cases ws with
    | nil => rfl
    | cons w ws =>
      obtain ⟨v, member, _⟩ := exists_same_distinct (List.mem_cons_self (a := w) (l := ws))
      rw [none] at member
      cases member
  · rintro rfl
    rfl

theorem ofWitnesses_eq_nil (h : ofWitnesses ws = .ok forest) : forest = [] ↔ ws = [] := by
  rw [(ofWitnesses_ok.mp h).2, distinct_eq_nil]

theorem mem_union (h : union [left, right] = .ok forest) (member : w ∈ forest) :
    w ∈ left ∨ w ∈ right := by
  simpa using mem_of_mem_ofWitnesses h member

theorem mem_combine (h : combine left right = .ok forest) (member : w ∈ forest) :
    ∃ u ∈ left, ∃ v ∈ right, w = cons u v := by
  have member := mem_of_mem_ofWitnesses h member
  rw [← List.map_uncurry_zip_eq_zipWith, List.mem_map] at member
  obtain ⟨⟨u, v⟩, zipped, rfl⟩ := member
  exact ⟨u, (List.of_mem_zip zipped).1, v, (List.of_mem_zip zipped).2, rfl⟩

theorem insert_of_same (known : ∃ v ∈ forest, v.same w = true) : insert forest w = forest :=
  if_pos (List.any_eq_true.mpr known)

/-- What is left out of a list would not have been added. -/
theorem foldl_insert_insert (forest : Forest) (ws : Forest) (w : Value) :
    (insert ws w).foldl insert forest = insert (ws.foldl insert forest) w := by
  by_cases known : ws.any (·.same w) = true
  · obtain ⟨v, member, equal⟩ := List.any_eq_true.mp known
    obtain ⟨u, kept, equal'⟩ := exists_same_foldl_insert ws member forest
    rw [insert_of_same ⟨v, member, equal⟩,
      insert_of_same ⟨u, kept, Value.same_trans equal' equal⟩]
  · rw [insert, if_neg known, List.foldl_append, List.foldl_cons, List.foldl_nil]

theorem foldl_insert_foldl (forest base : Forest) (ws : List Value) :
    (ws.foldl insert base).foldl insert forest = ws.foldl insert (base.foldl insert forest) := by
  induction ws generalizing base with
  | nil => rfl
  | cons w ws ih => rw [List.foldl_cons, List.foldl_cons, ih, foldl_insert_insert]

theorem distinct_append (us ws : List Value) :
    distinct (us ++ ws) = ws.foldl insert (distinct us) :=
  List.foldl_append

theorem distinct_idem (ws : List Value) : distinct (distinct ws) = distinct ws :=
  foldl_insert_foldl [] [] ws

theorem distinct_append_distinct (us ws : List Value) :
    distinct (us ++ distinct ws) = distinct (us ++ ws) := by
  rw [distinct_append, distinct_append]
  exact foldl_insert_foldl _ [] ws

theorem distinct_distinct_append (us ws : List Value) :
    distinct (distinct us ++ ws) = distinct (us ++ ws) := by
  rw [distinct_append, distinct_append, distinct_idem]

theorem foldl_insert_of_distinct (h : Distinct (forest ++ ws)) :
    ws.foldl insert forest = forest ++ ws := by
  induction ws generalizing forest with
  | nil => exact (List.append_nil forest).symm
  | cons w ws ih =>
    have fresh : insert forest w = forest ++ [w] := by
      refine if_neg fun known => ?_
      obtain ⟨v, member, equal⟩ := List.any_eq_true.mp known
      rw [(List.pairwise_append.mp h).2.2 v member w List.mem_cons_self] at equal
      cases equal
    rw [List.foldl_cons, fresh, ih (by rwa [List.append_assoc]), List.append_assoc]
    rfl

theorem distinct_of_distinct (h : Distinct ws) : distinct ws = ws :=
  foldl_insert_of_distinct (List.nil_append ws ▸ h)

theorem reduced_ofWitnesses (h : ofWitnesses ws = .ok forest) : forest.Reduced := by
  obtain ⟨hashable, rfl⟩ := ofWitnesses_ok.mp h
  exact reduced_distinct hashable

theorem Reduced.ofWitnesses (h : Reduced ws) : Forest.ofWitnesses ws = .ok ws :=
  ofWitnesses_ok.mpr ⟨h.hashable, (distinct_of_distinct h.distinct).symm⟩

/-- Different witnesses that are all the same are one. -/
theorem eq_singleton (distinct : Distinct ws) (member : w ∈ ws) (same : ∀ v ∈ ws, v = w) :
    ws = [w] := by
  match ws with
  | [v] => rw [same v List.mem_cons_self]
  | v :: v' :: ws =>
    rw [same v List.mem_cons_self, same v' (by simp)] at distinct
    have differs := (List.pairwise_cons.mp distinct).1 w List.mem_cons_self
    rw [Value.same_refl] at differs
    cases differs

/-- A forest with exactly one witness that is nothing holds it. -/
theorem nothing_mem (h : isTrivial forest = true) : .nothing ∈ forest := by
  unfold isTrivial at h
  split at h
  · next w => rw [(Value.isNothing_iff w).mp h]; exact List.mem_singleton_self _
  · cases h

end Forest

namespace Transform

/-- What is in an image was given for some witness and is hashable. -/
theorem image_distinct {t : Transform} {ws forest : Forest} (h : t.image ws = .ok forest) :
    ∃ us, forest = Forest.distinct us ∧
      ∀ u ∈ us, u.hashable = true ∧ ∃ w ∈ ws, t.apply w = .ok u := by
  unfold image at h
  cases listed : ws.mapM (fun w => do (← t.apply w).hashed) with
  | error fault => rw [listed] at h; cases h
  | ok us =>
    rw [listed] at h
    cases h
    refine ⟨us, rfl, fun u member => ?_⟩
    obtain ⟨w, there, applied⟩ := Except.exists_of_mapM listed member
    cases result : t.apply w with
    | error fault => rw [result] at applied; cases applied
    | ok v =>
      rw [result] at applied
      obtain ⟨hashable, rfl⟩ := Value.hashed_ok.mp applied
      exact ⟨hashable, w, there, result⟩

theorem mem_image {t : Transform} {ws forest : Forest} {w : Value}
    (h : t.image ws = .ok forest) (member : w ∈ forest) : ∃ v ∈ ws, t.apply v = .ok w := by
  obtain ⟨us, rfl, given⟩ := image_distinct h
  exact (given w (Forest.mem_of_mem_distinct member)).2

theorem reduced_image {t : Transform} {ws forest : Forest} (h : t.image ws = .ok forest) :
    forest.Reduced := by
  obtain ⟨us, rfl, given⟩ := image_distinct h
  exact Forest.reduced_distinct fun u member => (given u member).1

theorem applyAll_append (first second : List Transform) (w : Value) :
    applyAll (first ++ second) w = (applyAll first w).bind (applyAll second) := by
  induction first generalizing w with
  | nil => rfl
  | cons part first ih =>
    rw [List.cons_append, applyAll, applyAll]
    cases part.apply w with
    | error fault => rfl
    | ok v => exact ih v

theorem apply_eq (t : Transform) (w : Value) : t.apply w = applyAll t.parts w := by
  cases t with
  | composition parts => rfl
  | prepend | append => rfl
  | plain name argument function =>
    change function w = (function w).bind (applyAll [])
    cases function w <;> rfl

theorem apply_compose (outer inner : Transform) (w : Value) :
    (compose outer inner).apply w = (inner.apply w).bind outer.apply := by
  rw [compose, apply, applyAll_append, ← apply_eq]
  cases inner.apply w with
  | error fault => rfl
  | ok v => exact (apply_eq outer v).symm

end Transform

end GrammarGraph
