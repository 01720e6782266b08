import GrammarGraph.Engine
import GrammarGraph.Proofs.Forests
import GrammarGraph.Proofs.Regime

/-! How a demand can end, for values that are evaluated, values that are memoized and children
that are read: by what was known, by what was in progress, or by a computation, which gives a
value or a fault. -/
namespace GrammarGraph

theorem RunOf.outcome_bind {σ α β : Type} (r : RunOf σ α) (k : Except Fault α → RunOf σ β)
    (s : σ) : (r.outcome >>= k) s = (r s).bind fun ended => k ended.1 ended.2 := by
  rw [bind_run, outcome]
  cases r s <;> rfl

theorem RunOf.bind_ok {σ α β : Type} {r : RunOf σ α} {f : α → RunOf σ β} {s s' : σ} {b : β}
    (ends : (r >>= f) s = some (.ok b, s')) :
    ∃ a s₁, r s = some (.ok a, s₁) ∧ f a s₁ = some (.ok b, s') := by
  rw [bind_run] at ends
  obtain ⟨⟨first, s₁⟩, began, ends⟩ := Option.bind_eq_some_iff.mp ends
  cases first with
  | error fault => cases ends
  | ok a => exact ⟨a, s₁, began, ends⟩

namespace Evaluation

/-- Nothing is known about `n`, and it is not in progress. -/
structure Fresh (e : Evaluation α) (n : Nat) : Prop where
  stored : e.stored.get? n = none
  active : e.active.get? n = none
  provisional : e.provisional.get? n = none

variable {σ α : Type}

/-- How a demand for `n` ends that starts in state `s`. -/
inductive Demanded (held : Held σ (Evaluation α)) (default body : RunOf σ α) (n : Nat) (s : σ) :
    Except Fault α → σ → Prop where
  | stored {v : α} : (held.get s).stored.get? n = some v → Demanded held default body n s (.ok v) s
  | active {depth : Nat} {result : Except Fault α} {s' : σ} :
      (held.get s).stored.get? n = none → (held.get s).active.get? n = some depth →
      default (held.modify (reliedOn depth) s) = some (result, s') →
      Demanded held default body n s result s'
  | provisional {entry : Provisional α} : (held.get s).stored.get? n = none →
      (held.get s).active.get? n = none → (held.get s).provisional.get? n = some entry →
      Demanded held default body n s (.ok entry.value) (held.modify (reliedOn entry.lowlink) s)
  | failed {fault : Fault} {s' : σ} : (held.get s).Fresh n →
      body (held.modify (enter n) s) = some (.error fault, s') →
      Demanded held default body n s (.error fault) (held.modify (leave n) s')
  | postponed {v : α} {s' : σ} : (held.get s).Fresh n →
      body (held.modify (enter n) s) = some (.ok v, s') →
      (held.get s').lowlink < (held.get s).frames.size →
      Demanded held default body n s (.ok v)
        (held.modify (postpone n v (held.get s').lowlink) (held.modify (leave n) s'))
  | computed {v : α} {s' : σ} : (held.get s).Fresh n →
      body (held.modify (enter n) s) = some (.ok v, s') →
      ¬ (held.get s').lowlink < (held.get s).frames.size →
      Demanded held default body n s (.ok v) (held.modify (store n v) (held.modify (leave n) s'))

theorem demanded {held : Held σ (Evaluation α)} {default body : RunOf σ α} {n : Nat} {s s' : σ}
    {result : Except Fault α} (h : demand held default body n s = some (result, s')) :
    Demanded held default body n s result s' := by
  unfold demand at h
  rw [RunOf.read_bind] at h
  cases stored : (held.get s).stored.get? n with
  | some v =>
    simp only [standing, stored] at h
    cases h
    exact .stored stored
  | none =>
    cases active : (held.get s).active.get? n with
    | some depth =>
      simp only [standing, stored, active] at h
      exact .active stored active h
    | none =>
      cases provisional : (held.get s).provisional.get? n with
      | some entry =>
        simp only [standing, stored, active, provisional] at h
        cases h
        exact .provisional stored active provisional
      | none =>
        have fresh : (held.get s).Fresh n := ⟨stored, active, provisional⟩
        simp only [standing, stored, active, provisional] at h
        rw [RunOf.update_bind, RunOf.outcome_bind] at h
        obtain ⟨⟨ended, s₁⟩, computed, h⟩ := Option.bind_eq_some_iff.mp h
        rw [RunOf.read_bind, RunOf.update_bind] at h
        cases ended with
        | error fault =>
          cases h
          exact .failed fresh computed
        | ok v =>
          rw [RunOf.ok_bind] at h
          split at h
          · next low =>
            cases h
            exact .postponed fresh computed low
          · next high =>
            cases h
            exact .computed fresh computed high

section

variable {held : Held σ (Evaluation α)} {default body body' : RunOf σ α} {n : Nat} {s s' : σ}

theorem demand_congr (same : (held.get s).Fresh n →
      body (held.modify (enter n) s) = body' (held.modify (enter n) s)) :
    demand held default body n s = demand held default body' n s := by
  unfold demand
  rw [RunOf.read_bind, RunOf.read_bind]
  cases stored : (held.get s).stored.get? n with
  | some v => simp only [standing, stored]
  | none =>
    cases active : (held.get s).active.get? n with
    | some depth => simp only [standing, stored, active]
    | none =>
      cases provisional : (held.get s).provisional.get? n with
      | some entry => simp only [standing, stored, active, provisional]
      | none =>
        simp only [standing, stored, active, provisional]
        rw [RunOf.update_bind, RunOf.update_bind, RunOf.outcome_bind, RunOf.outcome_bind,
          same ⟨stored, active, provisional⟩]

theorem demand_failed {fault : Fault} (fresh : (held.get s).Fresh n)
    (failed : body (held.modify (enter n) s) = some (.error fault, s')) :
    demand held default body n s = some (.error fault, held.modify (leave n) s') := by
  unfold demand
  rw [RunOf.read_bind]
  simp only [standing, fresh.stored, fresh.active, fresh.provisional]
  rw [RunOf.update_bind, RunOf.outcome_bind, failed]
  rfl

end

end Evaluation

namespace Memo

variable {σ ρ : Type}

/-- How a demand for `n` and `key` ends that starts in state `s`. -/
inductive Demanded (held : Held σ (Memo ρ)) (name : String) (body : RunOf σ ρ) (n : Nat)
    (key : Value) (s : σ) : Except Fault ρ → σ → Prop where
  | unhashable : key.hashable = false → Demanded held name body n key s (.error .unhashable) s
  | finished {d : ρ} : key.hashable = true → (held.get s).find? n key = some d →
      Demanded held name body n key s (.ok d) s
  | started : key.hashable = true → (held.get s).find? n key = none →
      (held.get s).isStarted n key = true →
      Demanded held name body n key s (.error (.reentered name)) s
  | failed {fault : Fault} {s' : σ} : key.hashable = true → (held.get s).find? n key = none →
      (held.get s).isStarted n key = false →
      body (held.modify (start n key) s) = some (.error fault, s') →
      Demanded held name body n key s (.error fault) (held.modify (stop n key) s')
  | computed {d : ρ} {s' : σ} : key.hashable = true → (held.get s).find? n key = none →
      (held.get s).isStarted n key = false →
      body (held.modify (start n key) s) = some (.ok d, s') →
      Demanded held name body n key s (.ok d)
        (held.modify (finish n key d) (held.modify (stop n key) s'))

theorem demanded {held : Held σ (Memo ρ)} {name : String} {body : RunOf σ ρ} {n : Nat}
    {key : Value} {s s' : σ} {result : Except Fault ρ}
    (h : demand held name body n key s = some (result, s')) :
    Demanded held name body n key s result s' := by
  unfold demand at h
  cases hashable : key.hashable with
  | false =>
    simp only [Value.hashed, hashable] at h
    cases h
    exact .unhashable hashable
  | true =>
    rw [Value.hashed_ok.mpr ⟨hashable, rfl⟩, RunOf.ok_bind, RunOf.read_bind] at h
    cases found : (held.get s).find? n key with
    | some d =>
      simp only [progress, found] at h
      cases h
      exact .finished hashable found
    | none =>
      cases started : (held.get s).isStarted n key with
      | true =>
        simp only [progress, found, started] at h
        cases h
        exact .started hashable found started
      | false =>
        simp only [progress, found, started, Bool.false_eq_true, if_false] at h
        rw [RunOf.update_bind, RunOf.outcome_bind] at h
        obtain ⟨⟨ended, s₁⟩, computed, h⟩ := Option.bind_eq_some_iff.mp h
        rw [RunOf.update_bind] at h
        cases ended with
        | error fault =>
          cases h
          exact .failed hashable found started computed
        | ok d =>
          cases h
          exact .computed hashable found started computed

/-- A demand whose body ends, if it is begun, ends itself. -/
theorem exists_demanded {held : Held σ (Memo ρ)} {name : String} {body : RunOf σ ρ} {n : Nat}
    {key : Value} {s : σ}
    (ends : key.hashable = true → (held.get s).find? n key = none →
      (held.get s).isStarted n key = false →
      ∃ result s', body (held.modify (start n key) s) = some (result, s')) :
    ∃ result s', demand held name body n key s = some (result, s') := by
  unfold demand
  cases hashable : key.hashable with
  | false =>
    simp only [Value.hashed, hashable]
    exact ⟨_, _, rfl⟩
  | true =>
    rw [Value.hashed_ok.mpr ⟨hashable, rfl⟩, RunOf.ok_bind, RunOf.read_bind]
    cases found : (held.get s).find? n key with
    | some d =>
      simp only [progress, found]
      exact ⟨_, _, rfl⟩
    | none =>
      cases started : (held.get s).isStarted n key with
      | true =>
        simp only [progress, found, started]
        exact ⟨_, _, rfl⟩
      | false =>
        obtain ⟨result, s', ended⟩ := ends hashable found started
        simp only [progress, found, started, Bool.false_eq_true, if_false]
        rw [RunOf.update_bind, RunOf.outcome_bind, ended]
        cases result <;> exact ⟨_, _, rfl⟩

section

variable {held : Held σ (Memo ρ)} {name : String} {body body' : RunOf σ ρ} {n : Nat} {key : Value}
  {s s' : σ}

theorem demand_congr (same : key.hashable = true → (held.get s).find? n key = none →
      (held.get s).isStarted n key = false →
      body (held.modify (start n key) s) = body' (held.modify (start n key) s)) :
    demand held name body n key s = demand held name body' n key s := by
  unfold demand
  cases hashable : key.hashable with
  | false =>
    simp only [Value.hashed, hashable]
    rfl
  | true =>
    rw [Value.hashed_ok.mpr ⟨hashable, rfl⟩, RunOf.ok_bind, RunOf.ok_bind, RunOf.read_bind,
      RunOf.read_bind]
    cases found : (held.get s).find? n key with
    | some d => simp only [progress, found]
    | none =>
      cases started : (held.get s).isStarted n key with
      | true => simp only [progress, found, started, if_true]
      | false =>
        simp only [progress, found, started, Bool.false_eq_true, if_false]
        rw [RunOf.update_bind, RunOf.update_bind, RunOf.outcome_bind, RunOf.outcome_bind,
          same hashable found started]

theorem demand_failed {fault : Fault} (hashable : key.hashable = true)
    (absent : (held.get s).find? n key = none) (fresh : (held.get s).isStarted n key = false)
    (failed : body (held.modify (start n key) s) = some (.error fault, s')) :
    demand held name body n key s = some (.error fault, held.modify (stop n key) s') := by
  unfold demand
  rw [Value.hashed_ok.mpr ⟨hashable, rfl⟩, RunOf.ok_bind, RunOf.read_bind]
  simp only [progress, absent, fresh, Bool.false_eq_true, if_false]
  rw [RunOf.update_bind, RunOf.outcome_bind, failed]
  rfl

end

end Memo

namespace Child

/-- How reading the child of `n` on `side` ends on the graph `g`. -/
inductive Outcome (ask : Ask) (n : NodeId) (side : Side) (g : Graph) :
    Except Fault (Option NodeId) → Graph → Prop where
  | vacant : (g.node n).slot side = .vacant → Outcome ask n side g (.ok none) g
  | node {k : NodeId} : (g.node n).slot side = .node k → Outcome ask n side g (.ok (some k)) g
  | lost {cell : CellId} : (g.node n).slot side = .deferred cell → g.suspension? cell = none →
      Outcome ask n side g (.ok none) g
  | busy {cell : CellId} : (g.node n).slot side = .deferred cell → g.isForcing cell = true →
      Outcome ask n side g (.error .childInProgress) g
  | failed {cell : CellId} {s : Suspension} {fault : Fault} {g' : Graph} :
      (g.node n).slot side = .deferred cell → g.suspension? cell = some s →
      g.isForcing cell = false →
      compute ask s (g.setForcing cell true) = some (.error fault, g') →
      Outcome ask n side g (.error fault) (g'.setForcing cell false)
  | refused {cell : CellId} {s : Suspension} {operand : Operand} {g' : Graph} :
      (g.node n).slot side = .deferred cell → g.suspension? cell = some s →
      g.isForcing cell = false →
      compute ask s (g.setForcing cell true) = some (.ok operand, g') →
      (∀ k, operand ≠ .node k) →
      Outcome ask n side g (.error (.productType operand.typeName)) (g'.setForcing cell false)
  | computed {cell : CellId} {s : Suspension} {k : NodeId} {g' : Graph} :
      (g.node n).slot side = .deferred cell → g.suspension? cell = some s →
      g.isForcing cell = false →
      compute ask s (g.setForcing cell true) = some (.ok (.node k), g') →
      Outcome ask n side g (.ok (some k))
        ((g'.setForcing cell false).setSlot n side (.node k))

theorem read_outcome {ask : Ask} {n : NodeId} {side : Side} {g g' : Graph}
    {result : Except Fault (Option NodeId)} (h : read ask n side g = some (result, g')) :
    Outcome ask n side g result g' := by
  unfold read at h
  rw [RunOf.read_bind] at h
  cases slot : (g.node n).slot side with
  | vacant =>
    simp only [slot] at h
    cases h
    exact .vacant slot
  | node k =>
    simp only [slot] at h
    cases h
    exact .node slot
  | deferred cell =>
    simp only [slot] at h
    rw [RunOf.read_bind] at h
    cases here : g.cells[cell]? with
    | none =>
      simp only [here] at h
      cases h
      exact .lost slot (by simp [Graph.suspension?, here])
    | some content =>
      obtain ⟨s, forcing⟩ := content
      have suspended : g.suspension? cell = some s := by simp [Graph.suspension?, here]
      have marked : g.isForcing cell = forcing := by simp [Graph.isForcing, here]
      simp only [here] at h
      cases forcing with
      | true =>
        cases h
        exact .busy slot marked
      | false =>
        change (force ask cell s >>= fun child =>
          RunOf.update (Graph.setSlot n side (.node child)) >>= fun _ =>
            Pure.pure (some child)) g = _ at h
        rw [RunOf.bind_run] at h
        obtain ⟨⟨forced, g₂⟩, hforce, h⟩ := Option.bind_eq_some_iff.mp h
        unfold force at hforce
        rw [RunOf.update_bind, RunOf.outcome_bind] at hforce
        obtain ⟨⟨ended, g₁⟩, computed, hforce⟩ := Option.bind_eq_some_iff.mp hforce
        rw [RunOf.update_bind] at hforce
        cases ended with
        | error fault =>
          cases hforce
          cases h
          exact .failed slot suspended marked computed
        | ok operand => cases operand with
          | node k =>
            cases hforce
            cases h
            exact .computed slot suspended marked computed
          | deferred later =>
            cases hforce
            cases h
            exact .refused slot suspended marked computed fun _ => Operand.noConfusion
          | other name =>
            cases hforce
            cases h
            exact .refused slot suspended marked computed fun _ => Operand.noConfusion

section

variable {ask ask' : Ask} {n : NodeId} {side : Side} {g g' : Graph} {cell : CellId} {s : Suspension}

/-- What is done with a deferred child that is not in progress. -/
theorem read_eq (slot : (g.node n).slot side = .deferred cell) (suspended : g.suspension? cell = some s)
    (free : g.isForcing cell = false) : read ask n side g =
      (force ask cell s >>= fun child => RunOf.update (Graph.setSlot n side (.node child)) >>= fun _ =>
        Pure.pure (some child)) g := by
  unfold read
  rw [RunOf.read_bind]
  simp only [slot]
  rw [RunOf.read_bind]
  cases here : g.cells[cell]? with
  | none => simp [Graph.suspension?, here] at suspended
  | some content =>
    obtain ⟨s', forcing⟩ := content
    obtain rfl : s' = s := by simpa [Graph.suspension?, here] using suspended
    obtain rfl : forcing = false := by simpa [Graph.isForcing, here] using free
    rfl

theorem force_eq : force ask cell s g = (compute ask s (g.setForcing cell true)).bind fun ended =>
    ((RunOf.ofExcept ended.1 : Run Operand) >>= fun operand => match operand with
      | .node n => pure n
      | operand => throw (.productType operand.typeName)) (ended.2.setForcing cell false) := by
  unfold force
  rw [RunOf.update_bind, RunOf.outcome_bind]
  rfl

/-- Only when the child is deferred and not in progress does its computation matter. -/
theorem read_congr (same : ∀ {cell s}, (g.node n).slot side = .deferred cell →
      g.suspension? cell = some s → g.isForcing cell = false →
      compute ask s (g.setForcing cell true) = compute ask' s (g.setForcing cell true)) :
    read ask n side g = read ask' n side g := by
  cases slot : (g.node n).slot side with
  | vacant | node =>
    unfold read
    rw [RunOf.read_bind, RunOf.read_bind]
    simp only [slot]
  | deferred cell =>
    cases suspended : g.suspension? cell with
    | none =>
      have here : g.cells[cell]? = none := by simpa [Graph.suspension?] using suspended
      unfold read
      rw [RunOf.read_bind, RunOf.read_bind]
      simp only [slot]
      rw [RunOf.read_bind, RunOf.read_bind]
      simp only [here]
    | some s =>
      cases marked : g.isForcing cell with
      | false =>
        rw [read_eq slot suspended marked, read_eq slot suspended marked, RunOf.bind_run,
          RunOf.bind_run, force_eq, force_eq, same slot suspended marked]
      | true =>
        obtain ⟨⟨s', forcing⟩, here, -⟩ := Option.map_eq_some_iff.mp suspended
        obtain rfl : forcing = true := by simpa [Graph.isForcing, here] using marked
        unfold read
        rw [RunOf.read_bind, RunOf.read_bind]
        simp only [slot]
        rw [RunOf.read_bind, RunOf.read_bind]
        simp only [here]

theorem read_failed {fault : Fault} (slot : (g.node n).slot side = .deferred cell)
    (suspended : g.suspension? cell = some s) (free : g.isForcing cell = false)
    (failed : compute ask s (g.setForcing cell true) = some (.error fault, g')) :
    read ask n side g = some (.error fault, g'.setForcing cell false) := by
  rw [read_eq slot suspended free, RunOf.bind_run, force_eq, failed]
  rfl

end

end Child

end GrammarGraph
