import GrammarGraph.Proofs.Census.Turns

/-! The rules of the evaluators in a visit. A rule asks its own evaluator about the children of
the node, where the visit goes on, and what has an earlier turn as a whole. It ends without a
fault, since all kinds are known and all witnesses can be kept. -/
namespace GrammarGraph

namespace Regime.Ends

variable {γ : Type} {R : Regime γ} {x : γ} {g : Graph} {a b : Ask → Run Bool}

theorem eitherway (ha : R.Ends x g a fun _ _ _ => True)
    (hb : ∀ {x' g'}, R.Later x g x' g' → R.Valid x' g' → R.Ends x' g' b fun _ _ _ => True) :
    R.Ends x g (fun ask => Run.either (a ask) (b ask)) fun _ _ _ => True :=
  .either (.imp ha fun _ _ _ later valid _ => ⟨fun _ => trivial, fun _ => hb later valid⟩)

theorem bothways (ha : R.Ends x g a fun _ _ _ => True)
    (hb : ∀ {x' g'}, R.Later x g x' g' → R.Valid x' g' → R.Ends x' g' b fun _ _ _ => True) :
    R.Ends x g (fun ask => Run.both (a ask) (b ask)) fun _ _ _ => True :=
  .both (.imp ha fun _ _ _ later valid _ => ⟨fun _ => trivial, fun _ => hb later valid⟩)

end Regime.Ends

namespace Census

variable {C : Finset Value} {roots : Finset NodeId} {visit : Visit} {own : Origin → Prop}
  {x x₁ : Census} {g g₁ : Graph} {n k : NodeId} {l l' : Nat} {side : Side}

theorem Fits.mono {i : Evaluator} {r : i.Result} (h : x.Fits g l i r) (le : l ≤ l') :
    x.Fits g l' i r := by
  cases i with
  | compact => exact ⟨h.1, Nat.le_trans h.2 (Nat.succ_le_succ le)⟩
  | _ => exact h

theorem Later.widen (h : Later (some visit) nothing x g x₁ g₁) : Later (some visit) own x g x₁ g₁ :=
  { h with fresh := fun n le lt engaged => (h.fresh n le lt engaged).elim }

/-- A run that makes nothing of its own is one that may. -/
theorem ends_widen {α : Type} {r : Ask → Run α} {Q : Census → Graph → α → Prop}
    (ends : (counting C roots (some visit) nothing).Ends x g r Q) :
    (counting C roots (some visit) own).Ends x g r Q :=
  let ⟨a, g', gives, x', later, valid, q⟩ := ends
  ⟨a, g', gives, x', later.widen, valid, q⟩

/-- A visit that compacts has come to `k` through alternatives of which one side is left. -/
def Arrives (visit : Visit) (g : Graph) (k : NodeId) : Prop :=
  visit.evaluator = .compact → ∀ {m d}, g.compacted.active.get? m = some d → visit.floor ≤ d →
    g.Anchored m ∧ Relation.TransGen g.Passes m k

/-- The visit goes on: its evaluator can be asked about every node up to its level. -/
def Recurs (C : Finset Value) (roots : Finset NodeId) (visit : Visit) (own : Origin → Prop)
    (x : Census) (g : Graph) : Prop :=
  ∀ {x₁ g₁ k}, Later (some visit) own x g x₁ g₁ → Valid C roots (some visit) x₁ g₁ →
    k < g₁.nodes.size → x₁.level k ≤ visit.level → Arrives visit g₁ k →
    (counting C roots (some visit) nothing).Ends x₁ g₁ (fun ask => visit.evaluator.ask ask k)
      fun x' g' r => x'.Records g' k visit.evaluator r

/-- The turn of a node in a visit, in which the visit goes on. -/
structure Visiting (C : Finset Value) (roots : Finset NodeId) (visit : Visit) (own : Origin → Prop)
    (x : Census) (g : Graph) (n : NodeId) : Prop where
  turn : Turn C roots (some visit) visit.turn x g n
  lower : Answers C roots visit.turn
  recurs : Recurs C roots visit own x g
  level : x.level n = visit.level

namespace Visiting

theorem later (h : Visiting C roots visit own x g n) (later : Later (some visit) own x g x₁ g₁)
    (valid : Valid C roots (some visit) x₁ g₁) : Visiting C roots visit own x₁ g₁ n where
  turn := h.turn.later later valid
  lower := h.lower
  recurs later' := h.recurs (later.trans later')
  level := (later.level n h.turn.lt).trans h.level

variable (h : Visiting C roots visit own x g n)
include h

theorem complete : (g.node n).kind ≠ .placeholder :=
  h.turn.valid.complete n h.turn.lt

theorem child (member : side ∈ (g.node n).sides) :
    (counting C roots (some visit) own).Ends x g (fun ask => ask.child n side) fun x' g' k =>
      Later none nothing x g x' g' ∧ k < g'.nodes.size ∧ x'.level k ≤ visit.level ∧
        (g'.node n).slot side = .node k :=
  h.level ▸ h.turn.child h.lower member

/-- A child is asked about, by the evaluator of the visit. -/
theorem onChild (other : visit.evaluator ≠ .compact) (member : side ∈ (g.node n).sides) :
    (counting C roots (some visit) own).Ends x g
      (fun ask => do visit.evaluator.ask ask (← ask.child n side)) fun x' g' r =>
        x'.Fits g' visit.level visit.evaluator r := by
  refine .bind (h.child member) ?_
  rintro x₁ g₁ k later valid ⟨-, lt, level, -⟩
  refine ends_widen (.imp (h.recurs later valid lt level fun is => absurd is other) ?_)
  intro x₂ g₂ r later' _ records
  refine records.fits.mono ?_
  rwa [Later.level later' k lt]

/-- An evaluator that comes before that of the visit is asked about a node up to the level. -/
theorem earlier (i : Evaluator) (index : i.index < visit.evaluator.index) (lt : k < g.nodes.size)
    (level : x.level k ≤ visit.level) :
    (counting C roots (some visit) own).Ends x g (fun ask => i.ask ask k) fun x' g' r =>
      Later none nothing x g x' g' ∧ x'.Fits g' (x.level k) i r ∧
        (i.of g').stored.get? k = some r :=
  h.turn.evaluate h.lower i lt (by rw [Visit.turn]; omega)

end Visiting

section Rules

variable {floor level : Nat}

theorem forest (h : Visiting C roots ⟨.forest, floor, level⟩ own x g n) :
    (counting C roots (some ⟨.forest, floor, level⟩) own).Ends x g
      (fun ask => Extraction.forest ask n) fun _ _ ws => ∀ w ∈ ws, w.hashable = true := by
  have counted := h.turn.valid.counted
  refine .read (p := fun g => g.node n) ?_
  cases kind : (g.node n).kind with
  | placeholder => exact absurd kind h.complete
  | other name => exact absurd kind ((counted.describes n).known name)
  | empty | char => exact .pure h.turn.valid fun _ none => nomatch none
  | eps => exact .pure h.turn.valid ((counted.describes n).eps kind)
  | rep => exact .pure h.turn.valid Forest.hashable_trivial
  | delta => exact h.onChild nofun (Node.mem_sides_of_single (.inr (.inl kind)))
  | red =>
    refine .bind (h.onChild nofun (Node.mem_sides_of_single (.inr (.inr kind))))
      fun x₁ g₁ ws _ valid₁ hashable => ?_
    have total := (counted.describes n).red kind
    rw [total.image_ok hashable]
    exact .pure valid₁ (Forest.hashable_distinct (total.hashable_results hashable))
  | alt =>
    have member := Node.mem_sides_of_pair (.inr kind)
    refine .bind (h.onChild nofun (member .first)) fun x₁ g₁ us later valid₁ first => ?_
    have h₁ := h.later later valid₁
    rw [← Later.sides later h.turn.lt] at member
    refine .bind (h₁.onChild nofun (member .second)) fun x₂ g₂ vs _ valid₂ second => ?_
    rw [Forest.union_ok first second]
    exact .pure valid₂ (Forest.hashable_distinct (Forest.hashable_append first second))
  | cat =>
    have member := Node.mem_sides_of_pair (.inl kind)
    refine .bind (h.onChild nofun (member .first)) fun x₁ g₁ us later valid₁ first => ?_
    have h₁ := h.later later valid₁
    rw [← Later.sides later h.turn.lt] at member
    refine .bind (h₁.onChild nofun (member .second)) fun x₂ g₂ vs _ valid₂ second => ?_
    rw [Forest.combine_ok first second]
    exact .pure valid₂ (Forest.hashable_distinct (Forest.hashable_zip first second))

theorem nullable (h : Visiting C roots ⟨.nullable, floor, level⟩ own x g n) :
    (counting C roots (some ⟨.nullable, floor, level⟩) own).Ends x g
      (fun ask => Emptiness.nullable ask n) fun _ _ _ => True := by
  refine .read (p := fun g => (g.node n).kind) ?_
  cases kind : (g.node n).kind with
  | placeholder => exact absurd kind h.complete
  | other name => exact absurd kind ((h.turn.valid.counted.describes n).known name)
  | empty | char | eps | rep => exact .pure h.turn.valid trivial
  | delta | red => exact h.onChild nofun (by simp [Node.sides, kind])
  | alt =>
    have member := Node.mem_sides_of_pair (.inr kind)
    refine .eitherway (h.onChild nofun (member .first)) fun later valid₁ => ?_
    exact (h.later later valid₁).onChild nofun (Later.sides later h.turn.lt ▸ member .second)
  | cat =>
    have member := Node.mem_sides_of_pair (.inl kind)
    refine .bothways (h.onChild nofun (member .first)) fun later valid₁ => ?_
    exact (h.later later valid₁).onChild nofun (Later.sides later h.turn.lt ▸ member .second)

theorem emptyLike (h : Visiting C roots ⟨.emptyLike, floor, level⟩ own x g n) :
    (counting C roots (some ⟨.emptyLike, floor, level⟩) own).Ends x g
      (fun ask => Emptiness.emptyLike ask n) fun _ _ _ => True := by
  refine .read (p := fun g => (g.node n).kind) ?_
  cases kind : (g.node n).kind with
  | placeholder => exact absurd kind h.complete
  | other name => exact absurd kind ((h.turn.valid.counted.describes n).known name)
  | empty | char | eps | rep => exact .pure h.turn.valid trivial
  | red => exact h.onChild nofun (Node.mem_sides_of_single (.inr (.inr kind)))
  | delta =>
    refine .bind (h.child (Node.mem_sides_of_single (.inr (.inl kind)))) ?_
    rintro x₁ g₁ k later valid₁ ⟨-, lt, below, -⟩
    refine .bind ((h.later later valid₁).earlier .nullable (Nat.lt_succ_self 3) lt below) ?_
    rintro x₂ g₂ r - valid₂ -
    exact .pure valid₂ trivial
  | alt =>
    have member := Node.mem_sides_of_pair (.inr kind)
    refine .bothways (h.onChild nofun (member .first)) fun later valid₁ => ?_
    exact (h.later later valid₁).onChild nofun (Later.sides later h.turn.lt ▸ member .second)
  | cat =>
    have member := Node.mem_sides_of_pair (.inl kind)
    refine .eitherway (h.onChild nofun (member .first)) fun later valid₁ => ?_
    exact (h.later later valid₁).onChild nofun (Later.sides later h.turn.lt ▸ member .second)

/-- Whether a node takes no more symbols. If it may, it is not empty and leads to something. -/
theorem settled (h : Visiting C roots ⟨.epsLike, floor, level⟩ own x g n) (lt : k < g.nodes.size)
    (below : x.level k ≤ level) :
    (counting C roots (some ⟨.epsLike, floor, level⟩) own).Ends x g
      (fun ask => Run.either (ask.epsLike k) (ask.emptyLike k)) fun _ g' v =>
        v = false → g'.Judged k false ∧ g'.Anchored k := by
  refine .either (.imp (ends_widen (h.recurs (.refl _ _ x g) h.turn.valid lt below nofun)) ?_)
  intro x₁ g₁ likely later valid records
  refine ⟨fun _ => nofun, fun no => ?_⟩
  subst no
  have h₁ := h.later later valid
  refine .imp (h₁.earlier .emptyLike (Nat.lt_succ_self 4) (Later.lt later lt) ?_) ?_
  · rwa [Later.level later k lt]
  · rintro x₂ g₂ none later' valid' ⟨step, -, stored⟩ rfl
    exact ⟨⟨Valid.complete valid' k (step.lt (Later.lt later lt)), stored⟩,
      step.extends_.anchored (records.2 rfl)⟩

theorem epsLike (h : Visiting C roots ⟨.epsLike, floor, level⟩ own x g n) :
    (counting C roots (some ⟨.epsLike, floor, level⟩) own).Ends x g
      (fun ask => Emptiness.epsLike ask n) fun _ g' v =>
        ((g.node n).kind = .delta → v = true) ∧ (v = false → g'.Anchored n) := by
  refine .read (p := fun g => (g.node n).kind) ?_
  by_cases delta : (g.node n).kind = .delta
  · rw [delta]
    exact .pure h.turn.valid ⟨fun _ => rfl, nofun⟩
  by_cases alt : (g.node n).kind = .alt
  · rw [alt]
    have member := Node.mem_sides_of_pair (.inr alt)
    refine .bind (h.child (member .first)) ?_
    rintro x₁ g₁ a later valid₁ ⟨-, lt, below, slot⟩
    have h₁ := h.later later valid₁
    refine .bind (h₁.child (Later.sides later h.turn.lt ▸ member .second)) ?_
    rintro x₂ g₂ b later' valid₂ ⟨-, lt', below', slot'⟩
    have h₂ := h₁.later later' valid₂
    have kind₂ : (g₂.node n).kind = .alt :=
      (Later.kind (Later.trans later later') h.turn.lt).trans alt
    have slot₂ := (Later.extends_ later').filled .first slot
    -- The first side may take more, or else it is up to the second.
    refine .both (.imp (settled h₂ (Later.lt later' lt) ?_) ?_)
    · rwa [Later.level later' a lt]
    intro x₃ g₃ v later'' valid₃ open_
    have grown := Later.extends_ later''
    refine ⟨fun no => ⟨nofun, fun _ => ?_⟩, fun _ => ?_⟩
    · obtain ⟨judged, anchored⟩ := open_ no
      exact .alt .first (grown.kind kind₂ (by decide)) (grown.filled _ slot₂) judged anchored
    · refine .imp (settled (h₂.later later'' valid₃) (Later.lt later'' lt') ?_) ?_
      · rwa [Later.level later'' b lt']
      intro x₄ g₄ v later''' _ open_
      have grown' := grown.trans (Later.extends_ later''')
      refine ⟨nofun, fun no => ?_⟩
      obtain ⟨judged, anchored⟩ := open_ no
      exact .alt .second (grown'.kind kind₂ (by decide)) (grown'.filled _ slot') judged anchored
  refine .imp (Q := fun _ _ _ => True) ?_ fun x' g' _ later _ _ => ⟨fun is => absurd is delta,
    fun _ => .other (Later.kind later h.turn.lt ▸ alt) (Later.kind later h.turn.lt ▸ h.complete)⟩
  cases kind : (g.node n).kind with
  | placeholder => exact absurd kind h.complete
  | other name => exact absurd kind ((h.turn.valid.counted.describes n).known name)
  | delta => exact absurd kind delta
  | alt => exact absurd kind alt
  | empty | char | eps => exact .pure h.turn.valid trivial
  | red => exact h.onChild nofun (Node.mem_sides_of_single (.inr (.inr kind)))
  | rep =>
    refine .bind (h.child (Node.mem_sides_of_single (.inl kind))) ?_
    rintro x₁ g₁ k later valid₁ ⟨-, lt, below, -⟩
    have h₁ := h.later later valid₁
    refine .eitherway (.imp (h₁.earlier .emptyLike (Nat.lt_succ_self 4) lt below)
      fun _ _ _ _ _ _ => trivial) fun later' valid₂ => ?_
    refine .imp (ends_widen (h₁.recurs later' valid₂ (Later.lt later' lt) ?_ nofun))
      fun _ _ _ _ _ _ => trivial
    rwa [Later.level later' k lt]
  | cat =>
    have member := Node.mem_sides_of_pair (.inl kind)
    refine .bothways (h.onChild nofun (member .first)) fun later valid₁ => ?_
    exact (h.later later valid₁).onChild nofun (Later.sides later h.turn.lt ▸ member .second)

end Rules

end Census

end GrammarGraph
