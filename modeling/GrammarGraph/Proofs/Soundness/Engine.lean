import GrammarGraph.Proofs.Reach
import GrammarGraph.Proofs.Soundness.Compaction
import GrammarGraph.Proofs.Soundness.Derivative

/-! The engine is honest: within any bound, every query keeps the regime of soundness and
its answer meets the bound for it. -/
namespace GrammarGraph

variable {ω : Type} {A : Worth ω} {embed : Value → ω} {plan : Blueprint} {M M' : Meaning ω}
  {g g' : Graph} {n : NodeId}

namespace Ask.Honest

variable {ask : Ask} (honest : ask.Honest A embed plan)
include honest

/-- What a computation for later gives means no more than its suspension does. -/
theorem compute (h : Sound A embed plan M g) {suspension : Suspension}
    (allowed : Graph.Formed.Allows g suspension) :
    (soundness A embed plan).After M g (Child.compute ask suspension) fun M' g' operand =>
      ∀ k, operand = .node k → M'.Confines g' (.node k) (M.ofSuspension g suspension) := by
  cases suspension with
  | term => exact allowed.elim
  | compacted m =>
    refine .bind (honest h (.compact m) allowed) fun M₁ g₁ k later h₁ bounds => ?_
    refine .pure h₁ ?_
    rintro _ ⟨⟩
    exact ⟨bounds.2.1, fun s w hw => later.ofSuspension (k := .compacted m) allowed
      (bounds.2.2 s w hw)⟩
  | derivative c m side =>
    have lt : m < g.nodes.size := Graph.lt_of_kind allowed
    refine .bind (honest.child h side lt) fun M₁ g₁ k later₁ h₁ slot => ?_
    refine .bind (honest h₁ (.derive c k) (h₁.formed.node_lt slot)) fun M₂ g₂ d later₂ h₂ follows => ?_
    refine .pure h₂ ?_
    rintro _ ⟨⟩
    refine ⟨follows.2.1, fun s w hw => ?_⟩
    refine (later₁.trans later₂).ofSuspension (k := .derivative c m side) allowed ?_
    rw [Meaning.ofSuspension, later₂.evolves.filled slot]
    exact follows.2.2 s w hw

theorem read (h : Sound A embed plan M g) (lt : n < g.nodes.size) (side : Side) :
    (soundness A embed plan).After M g (Child.read ask n side) fun _ g' c =>
      ∀ k, c = some k → (g'.node n).slot side = .node k := by
  refine .child (Q := fun _ g' k => (g'.node n).slot side = .node k) (fun slot => slot) ?_ h
  intro cell suspension slot suspended free result g₁ ends
  have clt : cell < g.cells.size := h.formed.cell_lt slot
  have allowed := h.formed.allows suspended
  obtain ⟨M₁, later, h₁, post⟩ :=
    honest.compute (h.setForcing cell true) allowed result g₁ ends
  have back : M.Later g M₁ (g₁.setForcing cell false) :=
    ⟨later.evolves.unmarked clt free, fun x hx => by
      have hx : (g.setForcing cell true).Covers x := hx.congr (by simp) (by simp)
      exact later.agree x hx, fun m mlt => later.narrow m mlt⟩
  refine ⟨M₁, back, h₁.setForcing cell false, ?_⟩
  rintro operand rfl k rfl
  have made := post _ rfl k rfl
  have held := later.evolves.held clt slot
  obtain ⟨placed, sound⟩ := (h₁.setForcing cell false).setSlot
    (later.evolves.placed clt slot k) ⟨made.1, fun s w hw => by
      rw [Graph.node_setForcing, held, back.agree (.deferred cell) clt]
      exact h.supports.cell suspended (made.2 s w hw)⟩
  exact ⟨back.trans placed, sound,
    Graph.slot_setSlot_self side _ (Nat.lt_of_lt_of_le lt back.evolves.size)⟩

theorem children (h : Sound A embed plan M g) (lt : n < g.nodes.size) :
    (soundness A embed plan).After M g (ask.children n) fun _ g' ks =>
      ∀ k ∈ ks, k < g'.nodes.size := by
  refine .read (f := fun g => g.node n) ?_
  refine .mapM (R := soundness A embed plan) (S := fun _ g' k => k < g'.nodes.size)
    (fun later lt => Nat.lt_of_lt_of_le lt (Meaning.Later.evolves later).size) h
    fun side _ _ _ later h₁ => ?_
  exact .imp (honest.child h₁ side (Nat.lt_of_lt_of_le lt later.evolves.size))
    fun _ _ _ _ h₂ slot => h₂.formed.node_lt slot

theorem explore (bound : Nat) : ∀ {M g} {survey : Survey}, Sound A embed plan M g →
    (∀ k ∈ survey.order, k < g.nodes.size) → (soundness A embed plan).After M g
      (Survey.explore (Survey.forcing ask) bound survey) fun _ _ _ => True := by
  induction bound with
  | zero => exact fun h _ => .pure h trivial
  | succ bound ih =>
    intro M g survey h met
    unfold Survey.explore
    split
    · exact .pure h trivial
    · next k current =>
      have klt : k < g.nodes.size := met k (Array.mem_of_getElem? current)
      refine .bind (Q := fun _ g' visited => ∀ c ∈ visited.2, c < g'.nodes.size) ?_ ?_
      · refine .bind (honest.children h klt) fun _ _ _ _ h₁ below => ?_
        exact .read (.pure h₁ below)
      · intro M₁ g₁ visited later h₁ below
        refine ih h₁ fun c member => ?_
        rcases Survey.mem_advance member with old | new
        · exact Nat.lt_of_lt_of_le (met c old) later.evolves.size
        · exact below c new

theorem nodeCount (h : Sound A embed plan M g) (lt : n < g.nodes.size) (bound : Nat) :
    (soundness A embed plan).After M g (Survey.nodeCount ask bound n) fun _ _ _ => True := by
  refine .bind (Q := fun _ _ _ => True) (.bind (honest.explore bound h fun k member => ?_)
    fun _ _ survey _ h₁ _ => ?_) fun _ _ _ _ h₁ _ => .pure h₁ trivial
  · rcases Survey.mem_meet member with none | rfl
    · exact absurd none (Array.not_mem_empty k)
    · exact lt
  · split
    · exact .spent
    · exact .pure h₁ trivial

/-- The engine answers as it is told to, whatever answers the questions it asks. -/
theorem answer (embeds : A.Embeds embed) (bound : Nat) :
    Ask.Honest (Engine.answer bound ask) A embed plan := by
  intro M g h q lt
  cases q with
  | child n side => exact honest.read h lt side
  | nodeCount n => exact honest.nodeCount h lt bound
  | nullable n =>
    refine .evaluation (fun h known => h.nullable known) (fun h known => ?_) (fun hQ => hQ)
      (fun _ h => .pure h fun no => by cases no)
      (fun later h => honest.nullable h (Nat.lt_of_lt_of_le lt later.evolves.size)) h
    refine h.books rfl rfl h.derivatives (fun kept yes => ?_) h.forests h.compacted
    rcases known _ _ kept with old | ⟨rfl, new⟩
    · exact h.nullable old yes
    · exact new yes
  | forest n =>
    refine .evaluation (fun h known => h.forests known) (fun h known => ?_) (fun hQ => hQ)
      (fun later h => .pure h ⟨Nat.lt_of_lt_of_le lt later.evolves.size, fun _ none => by cases none⟩)
      (fun later h => honest.forest embeds h (Nat.lt_of_lt_of_le lt later.evolves.size)) h
    refine h.books rfl rfl h.derivatives h.nullable (fun kept => ?_) h.compacted
    rcases known _ _ kept with old | ⟨rfl, new⟩
    · exact h.forests old
    · exact new
  | emptyLike n =>
    exact .evaluation (Q := fun _ _ _ => True) (fun _ _ => trivial)
      (fun h _ => h.books rfl rfl h.derivatives h.nullable h.forests h.compacted)
      (fun _ => trivial) (fun _ h => .pure h trivial)
      (fun later h => honest.emptyLike h (Nat.lt_of_lt_of_le lt later.evolves.size)) h
  | epsLike n =>
    exact .evaluation (Q := fun _ _ _ => True) (fun _ _ => trivial)
      (fun h _ => h.books rfl rfl h.derivatives h.nullable h.forests h.compacted)
      (fun _ => trivial) (fun _ h => .pure h trivial)
      (fun later h => honest.epsLike h (Nat.lt_of_lt_of_le lt later.evolves.size)) h
  | compact n =>
    refine .evaluation (fun h known => h.compacted known) (fun h known => ?_) (fun hQ => hQ)
      (fun later h => .pure h ?_)
      (fun later h => honest.compact embeds h (Nat.lt_of_lt_of_le lt later.evolves.size)) h
    · refine h.books rfl rfl h.derivatives h.nullable h.forests fun kept => ?_
      rcases known _ _ kept with old | ⟨rfl, new⟩
      · exact h.compacted old
      · exact new
    · have lt := Nat.lt_of_lt_of_le lt later.evolves.size
      exact ⟨lt, lt, fun _ _ hw => hw⟩
  | derive c n =>
    refine .memo (fun h known => h.derivatives known) (fun h same => ?_) (fun h new => ?_)
      (fun hQ => hQ)
      (fun later h => honest.derive embeds h (Nat.lt_of_lt_of_le lt later.evolves.size)) h
    · refine h.books rfl rfl (fun kept => ?_) h.nullable h.forests h.compacted
      exact h.derivatives ((same _ _).symm.trans kept)
    · refine h.books rfl rfl (fun kept => ?_) h.nullable h.forests h.compacted
      replace kept := Memo.find?_finish.symm.trans kept
      split at kept
      · next hit =>
        cases kept
        obtain ⟨rfl, equal⟩ := hit
        refine ⟨new.1, new.2.1, fun s w hw => ?_⟩
        rw [← (Value.same_iff _ _).mp equal]
        exact new.2.2 s w hw
      · exact h.derivatives kept

end Ask.Honest

/-- Within any bound the engine is honest. -/
theorem Engine.run_honest (embeds : A.Embeds embed) :
    ∀ bound, Ask.Honest (Engine.run bound) A embed plan
  | 0 => fun _ _ _ => .spent
  | bound + 1 => Ask.Honest.answer (run_honest embeds bound) embeds bound

end GrammarGraph
