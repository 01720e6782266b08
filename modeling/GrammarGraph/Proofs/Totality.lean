import GrammarGraph.Proofs.Forests

/-! Hashable witnesses are kept: forests of them are joined without a fault, and so are their
images under functions that give a hashable witness for every hashable witness. -/
namespace GrammarGraph

namespace Forest

variable {ws us vs : List Value}

theorem hashableAll_iff : Value.hashableAll ws = true ↔ ∀ w ∈ ws, w.hashable = true := by
  induction ws with
  | nil => simp [Value.hashableAll]
  | cons w ws ih => simp [Value.hashableAll, ih]

/-- A property of witnesses that concatenations keep. -/
structure Closed (P : Value → Prop) : Prop where
  nothing : P .nothing
  cons : ∀ {u v}, P u → P v → P (Forest.cons u v)

/-- A property of tuples that is one of their elements. -/
theorem Closed.of_tuple {P : Value → Prop} (tuple : ∀ {ws}, P (.tuple ws) ↔ ∀ w ∈ ws, P w) :
    Closed P := by
  have share {w : Value} (hw : P w) : ∀ v ∈ share w, P v := by
    intro v member
    unfold Forest.share at member
    split at member
    · cases member
    · rw [List.mem_singleton.mp member]
      unfold collapse
      split
      · exact tuple.mp hw _ List.mem_cons_self
      · exact hw
  refine ⟨tuple.mpr fun _ none => (nomatch none), fun hu hv => tuple.mpr fun w member => ?_⟩
  exact (List.mem_append.mp member).elim (share hu w) (share hv w)

theorem Closed.zip {P : Value → Prop} (closed : Closed P) (hu : ∀ w ∈ us, P w)
    (hv : ∀ w ∈ vs, P w) : ∀ w ∈ List.zipWith Forest.cons us vs, P w := by
  intro w member
  rw [← List.map_uncurry_zip_eq_zipWith, List.mem_map] at member
  obtain ⟨⟨u, v⟩, zipped, rfl⟩ := member
  exact closed.cons (hu u (List.of_mem_zip zipped).1) (hv v (List.of_mem_zip zipped).2)

theorem hashable_closed : Closed fun v => v.hashable = true :=
  .of_tuple hashableAll_iff

theorem hashable_distinct (hashable : ∀ w ∈ ws, w.hashable = true) :
    ∀ w ∈ distinct ws, w.hashable = true :=
  fun w member => hashable w (mem_of_mem_distinct member)

theorem hashable_trivial : ∀ w ∈ trivial, w.hashable = true := by
  simp [Value.hashable, Value.hashableAll]

theorem hashable_append (hu : ∀ w ∈ us, w.hashable = true) (hv : ∀ w ∈ vs, w.hashable = true) :
    ∀ w ∈ us ++ vs, w.hashable = true :=
  fun w member => (List.mem_append.mp member).elim (hu w) (hv w)

theorem hashable_zip (hu : ∀ w ∈ us, w.hashable = true) (hv : ∀ w ∈ vs, w.hashable = true) :
    ∀ w ∈ List.zipWith cons us vs, w.hashable = true :=
  hashable_closed.zip hu hv

theorem union_ok (hu : ∀ w ∈ us, w.hashable = true) (hv : ∀ w ∈ vs, w.hashable = true) :
    union [us, vs] = .ok (distinct (us ++ vs)) := by
  refine ofWitnesses_ok.mpr ?_
  rw [List.flatten_cons, List.flatten_cons, List.flatten_nil, List.append_nil]
  exact ⟨hashable_append hu hv, rfl⟩

theorem combine_ok (hu : ∀ w ∈ us, w.hashable = true) (hv : ∀ w ∈ vs, w.hashable = true) :
    combine us vs = .ok (distinct (List.zipWith cons us vs)) :=
  ofWitnesses_ok.mpr ⟨hashable_zip hu hv, rfl⟩

end Forest

namespace Transform

/-- A function that gives a witness with the property for every one. -/
def Keeps (P : Value → Prop) (t : Transform) : Prop :=
  ∀ v, P v → ∃ w, t.apply v = .ok w ∧ P w

/-- A function that gives a witness for every witness. -/
def Total (t : Transform) : Prop :=
  ∀ v, v.hashable = true → ∃ w, t.apply v = .ok w ∧ w.hashable = true

/-- What the function gives for the witnesses, one after the other. -/
def results (t : Transform) (ws : List Value) : List Value :=
  ws.filterMap fun w => (t.apply w).toOption

theorem mem_results {t : Transform} {ws : List Value} {w : Value} :
    w ∈ t.results ws ↔ ∃ v ∈ ws, t.apply v = .ok w := by
  have ok (v : Value) : (t.apply v).toOption = some w ↔ t.apply v = .ok w := by
    cases t.apply v <;> simp [Except.toOption]
  simp only [results, List.mem_filterMap, ok]

section Keeps

variable {P : Value → Prop} {t t' : Transform} {ws : List Value} {v : Value}

theorem Keeps.results (keeps : t.Keeps P) (all : ∀ w ∈ ws, P w) : ∀ w ∈ t.results ws, P w := by
  intro w member
  obtain ⟨v, among, applied⟩ := mem_results.mp member
  obtain ⟨_, applied', kept⟩ := keeps v (all v among)
  cases applied.symm.trans applied'
  exact kept

theorem Keeps.compose (outer : t.Keeps P) (inner : t'.Keeps P) :
    (Transform.compose t t').Keeps P := by
  intro v hv
  obtain ⟨u, first, hu⟩ := inner v hv
  obtain ⟨w, second, hw⟩ := outer u hu
  exact ⟨w, by rw [apply_compose, first]; exact second, hw⟩

theorem keeps_prepend (closed : Forest.Closed P) (head : P v) : (Transform.prepend v).Keeps P :=
  fun _ tail => ⟨_, rfl, closed.cons head tail⟩

theorem keeps_append (closed : Forest.Closed P) (tail : P v) : (Transform.append v).Keeps P :=
  fun _ head => ⟨_, rfl, closed.cons head tail⟩

end Keeps

namespace Total

variable {t t' : Transform} (total : t.Total) {ws : List Value}
include total

theorem hashable_results (hashable : ∀ w ∈ ws, w.hashable = true) :
    ∀ w ∈ t.results ws, w.hashable = true :=
  Keeps.results total hashable

theorem results_cons {w : Value} (hw : w.hashable = true) (ws : List Value) :
    ∃ u, (t.apply w = .ok u ∧ u.hashable = true) ∧ t.results (w :: ws) = u :: t.results ws := by
  obtain ⟨u, applied, kept⟩ := total w hw
  refine ⟨u, ⟨applied, kept⟩, List.filterMap_cons_some ?_⟩
  rw [applied]
  rfl

theorem results_eq_nil (hashable : ∀ w ∈ ws, w.hashable = true) : t.results ws = [] ↔ ws = [] := by
  cases ws with
  | nil => simp [results]
  | cons w ws =>
    obtain ⟨u, -, first⟩ := total.results_cons (hashable w List.mem_cons_self) ws
    simp [first]

theorem image_ok (hashable : ∀ w ∈ ws, w.hashable = true) :
    t.image ws = .ok (Forest.distinct (t.results ws)) := by
  have listed : ws.mapM (fun w => do (← t.apply w).hashed) = .ok (t.results ws) := by
    induction ws with
    | nil => rfl
    | cons w ws ih =>
      obtain ⟨u, ⟨applied, kept⟩, first⟩ :=
        total.results_cons (hashable w List.mem_cons_self) ws
      have rest := ih fun v member => hashable v (List.mem_cons_of_mem _ member)
      have one : (do (← t.apply w).hashed : Except Fault Value) = .ok u := by
        rw [applied]
        exact Value.hashed_ok.mpr ⟨kept, rfl⟩
      rw [List.mapM_cons, one, rest, first]
      rfl
  unfold image
  rw [listed]
  rfl

theorem compose (inner : t'.Total) : (Transform.compose t t').Total :=
  Keeps.compose total inner

end Total

theorem total_prepend {head : Value} (hashable : head.hashable = true) :
    (Transform.prepend head).Total :=
  keeps_prepend Forest.hashable_closed hashable

theorem total_append {tail : Value} (hashable : tail.hashable = true) :
    (Transform.append tail).Total :=
  keeps_append Forest.hashable_closed hashable

end Transform

end GrammarGraph
