import GrammarGraph.Engine
import GrammarGraph.Proofs.Regime

/-! Rules for the ways in which evaluators ask for values: through an evaluation, through a
memo, and by reading a child. Each says what a regime must allow so that the asking keeps
it. -/
namespace GrammarGraph

namespace Evaluation

variable {α : Type} {e : Evaluation α} {n m : Nat} {v u : α}

/-- A value that `e` would give without computing it, for good or for the time being. -/
def Knows (e : Evaluation α) (n : Nat) (v : α) : Prop :=
  e.stored.get? n = some v ∨ ∃ entry, e.provisional.get? n = some entry ∧ entry.value = v

theorem knows_leave (h : (e.leave n).Knows m u) : e.Knows m u := by
  have erased (ns : List Nat) (t : Table (Provisional α)) (entry : Provisional α)
      (hm : (ns.foldl Table.erase t).get? m = some entry) : t.get? m = some entry := by
    induction ns generalizing t with
    | nil => exact hm
    | cons k ns ih =>
      have := ih _ hm
      rw [Table.get?_erase] at this
      split at this
      · cases this
      · exact this
  rcases h with stored | ⟨entry, provisional, value⟩
  · exact .inl stored
  · exact .inr ⟨entry, erased _ _ _ provisional, value⟩

theorem knows_store (h : (e.store n v).Knows m u) : e.Knows m u ∨ m = n ∧ u = v := by
  rcases h with stored | provisional
  · rw [store, Table.get?_insert] at stored
    split at stored
    · next same => exact .inr ⟨same, (Option.some.inj stored).symm⟩
    · exact .inl (.inl stored)
  · exact .inl (.inr provisional)

theorem knows_postpone {lowlink : Nat} (h : (e.postpone n v lowlink).Knows m u) :
    e.Knows m u ∨ m = n ∧ u = v := by
  rcases h with stored | ⟨entry, provisional, value⟩
  · exact .inl (.inl stored)
  · simp only [postpone, reliedOn, Table.get?_insert] at provisional
    split at provisional
    · next same =>
      cases provisional
      exact .inr ⟨same, value.symm⟩
    · exact .inl (.inr ⟨entry, provisional, value⟩)

theorem knows_forget (h : (e.forget n).Knows m u) : e.Knows m u := by
  rcases h with stored | provisional
  · rw [forget, Table.get?_erase] at stored
    split at stored
    · cases stored
    · exact .inl stored
  · exact .inr provisional

theorem knows_of_stored (h : e.standing n = .stored v) : e.Knows n v := by
  unfold standing at h
  split at h
  · next stored => cases h; exact .inl stored
  · split at h
    · cases h
    · split at h <;> cases h

theorem knows_of_provisional {entry : Provisional α} (h : e.standing n = .provisional entry) :
    e.Knows n entry.value := by
  unfold standing at h
  split at h
  · cases h
  · split at h
    · cases h
    · split at h
      · next known => cases h; exact .inr ⟨entry, known, rfl⟩
      · cases h

end Evaluation

namespace Memo

variable {ρ : Type} {m : Memo ρ} {n k : Nat} {key c : Value} {d : ρ}

@[simp] theorem find?_start : (m.start n key).find? k c = m.find? k c := rfl

@[simp] theorem find?_stop : (m.stop n key).find? k c = m.find? k c := rfl

theorem find?_finish : (m.finish n key d).find? k c =
    if k = n ∧ key.same c = true then some d else m.find? k c := by
  simp only [find?, finish, Table.get?_insert]
  by_cases same : k = n
  · subst same
    cases hit : key.same c <;> simp [hit]
  · simp [same]

theorem find?_forget (h : (m.forget n).find? k c = some d) : m.find? k c = some d := by
  simp only [find?, forget, Table.get?_erase] at h
  split at h
  · cases h
  · exact h

theorem find?_forget_of_ne (ne : k ≠ n) : (m.forget n).find? k c = m.find? k c := by
  simp only [find?, forget, Table.get?_erase, if_neg ne]

theorem isStarted_iff : m.isStarted n key = true ↔
    ∃ known, (n, known) ∈ m.inProgress ∧ known.same key = true := by
  simp only [isStarted, List.any_eq_true, Bool.and_eq_true, beq_iff_eq]
  constructor
  · rintro ⟨⟨_, known⟩, member, rfl, equal⟩
    exact ⟨known, member, equal⟩
  · rintro ⟨known, member, equal⟩
    exact ⟨(n, known), member, rfl, equal⟩

/-- Equal keys find the same result. -/
theorem find?_congr (same : key.same c = true) : m.find? n key = m.find? n c := by
  have equal (known : Value) : known.same key = known.same c := by
    rw [Bool.eq_iff_iff]
    exact ⟨fun h => Value.same_trans h same, fun h => Value.same_trans h (Value.same_symm same)⟩
  simp only [find?, equal]

theorem isStarted_congr (same : key.same c = true) : m.isStarted n key = m.isStarted n c := by
  rw [Bool.eq_iff_iff, isStarted_iff, isStarted_iff]
  exact exists_congr fun known => and_congr_right fun _ =>
    ⟨fun h => Value.same_trans h same, fun h => Value.same_trans h (Value.same_symm same)⟩

theorem isStarted_eq_false (h : ∀ known, (n, known) ∉ m.inProgress) :
    m.isStarted n key = false := by
  rw [Bool.eq_false_iff]
  intro started
  obtain ⟨known, member, -⟩ := isStarted_iff.mp started
  exact h known member

theorem isStarted_start_self : (m.start n key).isStarted n key = true :=
  isStarted_iff.mpr ⟨key, List.mem_cons_self, key.same_refl⟩

theorem isStarted_start (h : m.isStarted k c = true) : (m.start n key).isStarted k c = true := by
  obtain ⟨known, member, same⟩ := isStarted_iff.mp h
  exact isStarted_iff.mpr ⟨known, List.mem_cons_of_mem _ member, same⟩

/-- What is in progress is not what has not begun. -/
theorem ne_of_isStarted (started : m.isStarted k c = true) (fresh : m.isStarted n key = false) :
    ¬ (k = n ∧ key.same c = true) := by
  rintro ⟨rfl, same⟩
  rw [← isStarted_congr same, fresh] at started
  cases started

/-- What was started last is the first to be stopped. -/
theorem inProgress_stop (h : m.inProgress = (n, key) :: rest) : (m.stop n key).inProgress = rest := by
  simp [stop, h]

end Memo

namespace Regime.After

variable {γ α : Type} {R : Regime γ} {x : γ} {g : Graph}

/-- The rule for evaluations. Changes of the books alone must be free; a value may only be
recorded once `Q` holds of it, and what is known must satisfy `Q`. -/
theorem evaluation {held : Held Graph (Evaluation α)} {default body : Run α} {n : NodeId}
    {Q : γ → Graph → α → Prop}
    (known : ∀ {x g v}, R.Valid x g → (held.get g).Knows n v → Q x g v)
    (record : ∀ {x g f}, R.Valid x g →
      (∀ m u, (f (held.get g)).Knows m u → (held.get g).Knows m u ∨ m = n ∧ Q x g u) →
      R.Later x g x (held.modify f g) ∧ R.Valid x (held.modify f g))
    (frame : ∀ {x g f v}, Q x g v → Q x (held.modify f g) v)
    (onDefault : ∀ {g'}, R.Later x g x g' → R.Valid x g' → R.After x g' default Q)
    (onBody : ∀ {g'}, R.Later x g x g' → R.Valid x g' → R.After x g' body Q)
    (valid : R.Valid x g) : R.After x g (Evaluation.demand held default body n) Q := by
  unfold Evaluation.demand
  refine read ?_
  cases standing : (held.get g).standing n with
  | stored value => exact pure valid (known valid (Evaluation.knows_of_stored standing))
  | active depth =>
    have step := record (f := Evaluation.reliedOn depth) valid fun m u h => .inl h
    exact update step.1 (onDefault step.1 step.2)
  | provisional entry =>
    have step := record (f := Evaluation.reliedOn entry.lowlink) valid fun m u h => .inl h
    exact update step.1 (pure step.2
      (frame (known valid (Evaluation.knows_of_provisional standing))))
  | fresh depth =>
    have enter := record (f := Evaluation.enter n) valid fun m u h => .inl h
    refine update enter.1 (bind (outcome (onBody enter.1 enter.2)) ?_)
    intro x₁ g₁ result _ valid₁ hQ
    refine read ?_
    have leave := record (f := Evaluation.leave n) valid₁ fun m u h =>
      .inl (Evaluation.knows_leave h)
    refine update leave.1 (bind (ofExcept leave.2 fun a ha => frame (hQ a ha)) ?_)
    intro x₂ g₂ value _ valid₂ hvalue
    dsimp only
    split
    · have step := record (f := Evaluation.postpone n value (held.get g₁).lowlink) valid₂ fun m u h =>
        (Evaluation.knows_postpone h).imp_right fun ⟨hm, hu⟩ => ⟨hm, hu ▸ hvalue⟩
      exact update step.1 (pure step.2 (frame hvalue))
    · have step := record (f := Evaluation.store n value) valid₂ fun m u h =>
        (Evaluation.knows_store h).imp_right fun ⟨hm, hu⟩ => ⟨hm, hu ▸ hvalue⟩
      exact update step.1 (pure step.2 (frame hvalue))

/-- The rule for memos. -/
theorem memo {held : Held Graph (Memo α)} {name : String} {body : Run α} {n : NodeId}
    {key : Value} {Q : γ → Graph → α → Prop}
    (known : ∀ {x g d}, R.Valid x g → (held.get g).find? n key = some d → Q x g d)
    (books : ∀ {x g f}, R.Valid x g → (∀ k c, (f (held.get g)).find? k c = (held.get g).find? k c) →
      R.Later x g x (held.modify f g) ∧ R.Valid x (held.modify f g))
    (record : ∀ {x g d}, R.Valid x g → Q x g d →
      R.Later x g x (held.modify (Memo.finish n key d) g) ∧
        R.Valid x (held.modify (Memo.finish n key d) g))
    (frame : ∀ {x g f d}, Q x g d → Q x (held.modify f g) d)
    (onBody : ∀ {g'}, R.Later x g x g' → R.Valid x g' → R.After x g' body Q)
    (valid : R.Valid x g) : R.After x g (Memo.demand held name body n key) Q := by
  unfold Memo.demand
  cases hashed : key.hashed with
  | error f => exact fault valid
  | ok key' =>
    obtain rfl : key = key' := by
      unfold Value.hashed at hashed
      split at hashed <;> cases hashed
      rfl
    refine ok (read (f := fun g => (held.get g).progress n key) ?_)
    cases progress : (held.get g).progress n key with
    | finished d =>
      refine pure valid (known valid ?_)
      unfold Memo.progress at progress
      split at progress
      · next found => cases progress; exact found
      · split at progress <;> cases progress
    | started => exact fault valid
    | absent =>
      have start := books (f := Memo.start n key) valid fun _ _ => rfl
      refine update start.1 (bind (outcome (onBody start.1 start.2)) ?_)
      intro x₁ g₁ result _ valid₁ hQ
      have stop := books (f := Memo.stop n key) valid₁ fun _ _ => rfl
      refine update stop.1 (bind (ofExcept stop.2 fun a ha => frame (hQ a ha)) ?_)
      intro x₂ g₂ value _ valid₂ hvalue
      have step := record valid₂ hvalue
      exact update step.1 (pure step.2 (frame hvalue))

/-- The rule for children. While the computation of a cell runs, the cell is marked, which
is no change that a regime must allow on its own; it must allow the whole, whether the
computation gives a child or not. -/
theorem child {ask : Ask} {n : NodeId} {side : Side} {Q : γ → Graph → NodeId → Prop}
    (there : ∀ {k}, (g.node n).slot side = .node k → Q x g k)
    (onCompute : ∀ {cell suspension}, (g.node n).slot side = .deferred cell →
      g.suspension? cell = some suspension → g.isForcing cell = false →
      ∀ result g₁, (Child.compute ask suspension) (g.setForcing cell true) = some (result, g₁) →
        ∃ x', R.Later x g x' (g₁.setForcing cell false) ∧ R.Valid x' (g₁.setForcing cell false) ∧
          ∀ operand, result = .ok operand → ∀ k, operand = .node k →
            R.Later x g x' ((g₁.setForcing cell false).setSlot n side (.node k)) ∧
            R.Valid x' ((g₁.setForcing cell false).setSlot n side (.node k)) ∧
            Q x' ((g₁.setForcing cell false).setSlot n side (.node k)) k)
    (valid : R.Valid x g) :
    R.After x g (Child.read ask n side) fun x' g' c => ∀ k, c = some k → Q x' g' k := by
  unfold Child.read
  refine read (f := fun g => (g.node n).slot side) ?_
  cases slot : (g.node n).slot side with
  | vacant => exact pure valid fun _ h => by cases h
  | node k => exact pure valid fun _ h => by cases h; exact there slot
  | deferred cell =>
    refine read (f := fun g => g.cells[cell]?) ?_
    cases here : g.cells[cell]? with
    | none => exact pure valid fun _ h => by cases h
    | some content =>
      obtain ⟨suspension, forcing⟩ := content
      cases forcing with
      | true => exact fault valid
      | false =>
        have marked : g.isForcing cell = false := by simp [Graph.isForcing, here]
        have suspended : g.suspension? cell = some suspension := by
          simp [Graph.suspension?, here]
        intro result g' ends
        change (Child.force ask cell suspension >>= fun child =>
          RunOf.update (Graph.setSlot n side (.node child)) >>= fun _ =>
            Pure.pure (some child)) g = _ at ends
        rw [RunOf.bind_run] at ends
        obtain ⟨⟨forced, g₂⟩, hforce, hrest⟩ := Option.bind_eq_some_iff.mp ends
        unfold Child.force at hforce
        rw [RunOf.update_bind, RunOf.bind_run] at hforce
        obtain ⟨⟨computed, g₁⟩, hcompute, hforce⟩ := Option.bind_eq_some_iff.mp hforce
        simp only [RunOf.outcome, Option.map_eq_some_iff] at hcompute
        obtain ⟨⟨operand?, g₁'⟩, hcompute, same⟩ := hcompute
        cases same
        obtain ⟨x', later, valid', ok⟩ := onCompute slot suspended marked _ _ hcompute
        dsimp only at hforce
        rw [RunOf.update_bind] at hforce
        cases operand? with
        | error f =>
          cases hforce
          cases hrest
          exact ⟨x', later, valid', fun _ h => by cases h⟩
        | ok operand =>
          cases operand with
          | node k =>
            cases hforce
            cases hrest
            obtain ⟨later, valid', hQ⟩ := ok _ rfl k rfl
            exact ⟨x', later, valid', fun a ha j hj => by cases ha; cases hj; exact hQ⟩
          | deferred s =>
            cases hforce
            cases hrest
            exact ⟨x', later, valid', fun _ h => by cases h⟩
          | other name =>
            cases hforce
            cases hrest
            exact ⟨x', later, valid', fun _ h => by cases h⟩

end Regime.After

end GrammarGraph
