import GrammarGraph.Engine.Bound
import GrammarGraph.Proofs.Forests
import GrammarGraph.Proofs.Regime

/-! Runs that end. Within every bound that is large enough the run gives the same answer and
leaves the same graph, and what a regime promises holds of them. -/
namespace GrammarGraph

namespace RunOf

/-- With enough bound, the run gives `a` and leaves `g'`. -/
def Gives (r : Ask → Run α) (g : Graph) (a : α) (g' : Graph) : Prop :=
  ∃ least, ∀ bound, least ≤ bound → r (Engine.run bound) g = some (.ok a, g')

namespace Gives

variable {r : Ask → Run α} {f : Ask → α → Run β} {g g' g'' : Graph} {a a' : α} {b : β}

theorem of_eq {r : Run α} (h : r g = some (.ok a, g')) : Gives (fun _ => r) g a g' :=
  ⟨0, fun _ _ => h⟩

theorem bind (hr : Gives r g a g') (hf : Gives (fun ask => f ask a) g' b g'') :
    Gives (fun ask => r ask >>= f ask) g b g'' := by
  obtain ⟨least, hr⟩ := hr
  obtain ⟨least', hf⟩ := hf
  refine ⟨max least least', fun bound le => ?_⟩
  change (r (Engine.run bound) >>= f (Engine.run bound)) g = _
  rw [RunOf.bind_run, hr bound (Nat.le_trans (Nat.le_max_left ..) le)]
  exact hf bound (Nat.le_trans (Nat.le_max_right ..) le)

/-- What the engine answers once, it answers within every larger bound. -/
theorem ask {q : Query} (bound : Nat) {a : q.Answer}
    (h : Engine.run bound q g = some (.ok a, g')) : Gives (fun ask => ask q) g a g' :=
  ⟨bound, fun _ le => Engine.run_below le q g _ h⟩

/-- What a run gives once, it gives within every larger bound. -/
theorem of_below {bound : Nat}
    (below : ∀ {ask ask' : Ask}, ask.Below ask' → Within (r ask) (r ask'))
    (h : r (Engine.run bound) g = some (.ok a, g')) : Gives r g a g' :=
  ⟨bound, fun _ le => below (Engine.run_below le) g _ h⟩

/-- What a run gives with enough bound is all that it can give. -/
theorem unique {end_ : Except Fault α × Graph} {bound : Nat} (h : Gives r g a g')
    (below : ∀ {ask ask' : Ask}, ask.Below ask' → Within (r ask) (r ask'))
    (ends : r (Engine.run bound) g = some end_) : end_ = (.ok a, g') := by
  obtain ⟨least, gives⟩ := h
  have more := below (Engine.run_below (Nat.le_max_right least bound)) g _ ends
  exact Option.some.inj (more.symm.trans (gives _ (Nat.le_max_left least bound)))

/-- What a run gives with enough bound it gives once and for all. -/
theorem agree (h : Gives r g a g') (k : Gives r g a' g'') : a' = a ∧ g'' = g' := by
  obtain ⟨least, gives⟩ := h
  obtain ⟨least', gives'⟩ := k
  cases (gives _ (Nat.le_max_left least least')).symm.trans (gives' _ (Nat.le_max_right least least'))
  exact ⟨rfl, rfl⟩

theorem answer {q : Query} {a : q.Answer}
    (h : Gives (fun ask => Engine.answer 0 ask q) g a g') : Gives (fun ask => ask q) g a g' := by
  obtain ⟨least, h⟩ := h
  refine .ask (least + 1) ?_
  exact Ask.Below.answer (fun _ => .refl _) (Nat.zero_le least) q g _ (h least (Nat.le_refl _))

end Gives

end RunOf

namespace Child

variable {ask : Ask} {g g' : Graph} {n k : NodeId} {side : Side}

theorem read_node (slot : (g.node n).slot side = .node k) :
    read ask n side g = some (.ok (some k), g) := by
  unfold read
  simp only [RunOf.read_bind, slot]
  rfl

/-- A deferred child that is computed takes the place of its cell. -/
theorem read_deferred {cell : CellId} {s : Suspension}
    (slot : (g.node n).slot side = .deferred cell) (suspended : g.suspension? cell = some s)
    (free : g.isForcing cell = false)
    (computed : compute ask s (g.setForcing cell true) = some (.ok (.node k), g')) :
    read ask n side g =
      some (.ok (some k), (g'.setForcing cell false).setSlot n side (.node k)) := by
  have forced : force ask cell s g = some (.ok k, g'.setForcing cell false) := by
    unfold force
    rw [RunOf.update_bind, RunOf.bind_run]
    simp only [RunOf.outcome, computed, Option.map_some, Option.bind_some]
    rfl
  obtain ⟨content, here⟩ : ∃ content, g.cells[cell]? = some content := by
    cases here : g.cells[cell]? with
    | none => simp [Graph.suspension?, here] at suspended
    | some content => exact ⟨content, rfl⟩
  obtain ⟨suspension, forcing⟩ := content
  obtain rfl : suspension = s := by simpa [Graph.suspension?, here] using suspended
  obtain rfl : forcing = false := by simpa [Graph.isForcing, here] using free
  unfold read
  simp only [RunOf.read_bind, slot, here]
  rw [RunOf.bind_run, forced]
  rfl

end Child

namespace Memo

variable {σ ρ : Type} {held : Held σ (Memo ρ)} {name : String} {body : RunOf σ ρ} {n : Nat}
  {key : Value} {d : ρ} {s s' : σ}

theorem demand_finished (hashable : key.hashable = true)
    (found : (held.get s).find? n key = some d) :
    demand held name body n key s = some (.ok d, s) := by
  unfold demand
  rw [Value.hashed_ok.mpr ⟨hashable, rfl⟩, RunOf.ok_bind]
  simp only [RunOf.read_bind, progress, found]
  rfl

theorem demand_absent (hashable : key.hashable = true)
    (absent : (held.get s).find? n key = none) (fresh : (held.get s).isStarted n key = false)
    (computed : body (held.modify (start n key) s) = some (.ok d, s')) :
    demand held name body n key s =
      some (.ok d, held.modify (finish n key d) (held.modify (stop n key) s')) := by
  unfold demand
  rw [Value.hashed_ok.mpr ⟨hashable, rfl⟩, RunOf.ok_bind]
  simp only [RunOf.read_bind, progress, absent, fresh, Bool.false_eq_true, if_false,
    RunOf.update_bind]
  rw [RunOf.bind_run]
  simp only [RunOf.outcome, computed]
  rfl

end Memo

open RunOf (Gives)

namespace Regime

variable {γ α β : Type} {R : Regime γ} {x : γ} {g : Graph}

/-- The run ends without a fault, the graph is in order, and `Q` holds of what it gives. -/
def Ends (R : Regime γ) (x : γ) (g : Graph) (r : Ask → Run α) (Q : γ → Graph → α → Prop) :
    Prop :=
  ∃ a g', Gives r g a g' ∧ ∃ x', R.Later x g x' g' ∧ R.Valid x' g' ∧ Q x' g' a

namespace Ends

variable {r : Ask → Run α} {f : Ask → α → Run β} {Q : γ → Graph → α → Prop}
  {S : γ → Graph → β → Prop}

theorem pure {a : α} (valid : R.Valid x g) (h : Q x g a) : R.Ends x g (fun _ => pure a) Q :=
  ⟨a, g, .of_eq rfl, x, R.refl x g, valid, h⟩

theorem imp {Q' : γ → Graph → α → Prop} (h : R.Ends x g r Q)
    (hQ : ∀ x' g' a, R.Later x g x' g' → R.Valid x' g' → Q x' g' a → Q' x' g' a) :
    R.Ends x g r Q' :=
  let ⟨a, g', gives, x', later, valid, q⟩ := h
  ⟨a, g', gives, x', later, valid, hQ x' g' a later valid q⟩

/-- What holds at the end of a run holds of what it gave. -/
theorem gives (h : R.Ends x g r Q) : R.Ends x g r fun x' g' a => Gives r g a g' ∧ Q x' g' a :=
  let ⟨a, g', gives, x', later, valid, q⟩ := h
  ⟨a, g', gives, x', later, valid, gives, q⟩

theorem bind (hr : R.Ends x g r Q)
    (hf : ∀ x' g' a, R.Later x g x' g' → R.Valid x' g' → Q x' g' a →
      R.Ends x' g' (fun ask => f ask a) S) :
    R.Ends x g (fun ask => r ask >>= f ask) S := by
  obtain ⟨a, g', gives, x', later, valid, q⟩ := hr
  obtain ⟨b, g'', gives', x'', later', valid', s⟩ := hf x' g' a later valid q
  exact ⟨b, g'', gives.bind gives', x'', R.trans later later', valid', s⟩

theorem read {k : Ask → β → Run α} {p : Graph → β}
    (h : R.Ends x g (fun ask => k ask (p g)) Q) :
    R.Ends x g (fun ask => RunOf.read p >>= k ask) Q := h

theorem ok {k : Ask → β → Run α} {b : β} (h : R.Ends x g (fun ask => k ask b) Q) :
    R.Ends x g (fun ask => RunOf.ofExcept (.ok b) >>= k ask) Q := h

theorem update {k : Ask → Unit → Run α} {p : Graph → Graph} {y : γ}
    (later : R.Later x g y (p g)) (h : R.Ends y (p g) (fun ask => k ask ()) Q) :
    R.Ends x g (fun ask => RunOf.update p >>= k ask) Q := by
  obtain ⟨a, g', gives, x'', later', rest⟩ := h
  exact ⟨a, g', gives, x'', R.trans later later', rest⟩

/-- A query is answered by way of the answers to others. -/
theorem answer {q : Query} {Q : γ → Graph → q.Answer → Prop}
    (h : R.Ends x g (fun ask => Engine.answer 0 ask q) Q) : R.Ends x g (fun ask => ask q) Q :=
  let ⟨a, g', gives, rest⟩ := h
  ⟨a, g', gives.answer, rest⟩

theorem reuse {shortcut : Graph → Option NodeId} {make : Run NodeId}
    {Q : γ → Graph → NodeId → Prop} (valid : R.Valid x g)
    (old : ∀ n, shortcut g = some n → Q x g n)
    (new : shortcut g = none → R.Ends x g (fun _ => make) Q) :
    R.Ends x g (fun _ => Grammar.reuse shortcut make) Q := by
  refine read ?_
  cases found : shortcut g with
  | some n => exact pure valid (old n found)
  | none => exact new found

end Ends

def beside {δ : Type} (R : Regime γ) (S : Regime δ) : Regime (γ × δ) where
  Valid z g := R.Valid z.1 g ∧ S.Valid z.2 g
  Later z g z' g' := R.Later z.1 g z'.1 g' ∧ S.Later z.2 g z'.2 g'
  refl z g := ⟨R.refl z.1 g, S.refl z.2 g⟩
  trans h k := ⟨R.trans h.1 k.1, S.trans h.2 k.2⟩

theorem Ends.beside {δ : Type} {S : Regime δ} {z : γ × δ} {r : Ask → Run α}
    {P : γ → Graph → α → Prop} {Q : δ → Graph → α → Prop} (h : R.Ends z.1 g r P)
    (k : S.Ends z.2 g r Q) :
    (R.beside S).Ends z g r fun z' g' a => P z'.1 g' a ∧ Q z'.2 g' a := by
  obtain ⟨a, g', gives, x', later, valid, p⟩ := h
  obtain ⟨a', g'', gives', y', later', valid', q⟩ := k
  obtain ⟨rfl, rfl⟩ := gives.agree gives'
  exact ⟨a', g'', gives', (x', y'), ⟨later, later'⟩, ⟨valid, valid'⟩, p, q⟩

end Regime

end GrammarGraph
