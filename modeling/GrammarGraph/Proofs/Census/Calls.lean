import GrammarGraph.Proofs.Census.Survey
import GrammarGraph.Proofs.Regime.Calls

/-! Calls under a census. Whatever is asked by hashable symbols ends without a fault, and whatever
is asked at all leaves a census behind. -/
namespace GrammarGraph

theorem Graph.Still.journal {g : Graph} (h : g.Still) (journal : Option Journal) :
    Still { g with journal } :=
  ⟨h.forcing, h.started, fun i n => by rw [Evaluator.of_journal]; exact h.active i n,
    fun i n => by rw [Evaluator.of_journal]; exact h.provisional i n⟩

theorem Counted.journal {C : Finset Value} {roots : Finset NodeId} {x : Census} {g : Graph}
    (h : Counted C roots x g) (journal : Option Journal) :
    Counted C roots x { g with journal } :=
  h.books rfl (fun _ => rfl) rfl (fun _ _ => (Graph.done_or_engaged_congr rfl rfl _).mpr)
    h.derivatives (fun i _ _ known => h.results i (Evaluator.of_journal (i := i) journal ▸ known))
    (.journal journal) fun i => by rw [Evaluator.of_journal]; exact h.orderly i

namespace Census

variable {C : Finset Value} {roots : Finset NodeId} {x x' : Census} {g g' : Graph} {n : NodeId}
  {c : Value}

/-- The symbol can be taken, and the census knows it. -/
def Takes (C : Finset Value) (c : Value) : Prop :=
  c.hashable = true ∧ c.numeric ∈ C

/-- If the symbol can be taken at all, the census knows it. -/
def Bears (C : Finset Value) (c : Value) : Prop :=
  c.hashable = true → c.numeric ∈ C

namespace Rested

/-- A change of the journal. -/
theorem journal (h : Rested C roots x g) (journal : Option Journal) :
    Later none nothing x g x { g with journal } ∧ Rested C roots x { g with journal } :=
  ⟨.of_same (g.evolves_of_eq rfl rfl) (.journal journal) (fun _ _ => rfl) (fun _ _ => rfl) (fun _ => rfl) rfl
    (fun _ => Evaluator.of_journal journal) fun _ le lt => absurd lt (Nat.not_lt_of_le le),
    ⟨h.valid.counted.journal journal, h.valid.complete, fun _ is => nomatch is⟩,
    h.still.journal journal⟩

theorem note (h : Rested C roots x g) (level : Level) (message : String) :
    Later none nothing x g x (g.note level message) ∧ Rested C roots x (g.note level message) :=
  h.journal _

section

variable (h : Rested C roots x g)
include h

theorem advance (lt : n < g.nodes.size) (takes : Takes C c) (compaction : Bool) :
    (resting C roots).Ends x g (fun ask => Parse.advance ask compaction c n) fun _ g' d =>
      d < g'.nodes.size := by
  refine .bind (h.derive lt takes.1 takes.2) ?_
  rintro x₁ g₁ d - h₁ ⟨dlt, -⟩
  cases compaction with
  | false => exact .pure h₁ dlt
  | true => exact .imp (Rested.evaluate h₁ .compact dlt) fun _ _ _ _ _ ⟨fits, _⟩ => fits.1

theorem report (lt : n < g.nodes.size) (position : Nat) (symbol : Value) :
    (resting C roots).Ends x g (fun ask => Parse.report ask position symbol n)
      fun _ _ _ => True := by
  refine .read (p := fun g => g.admits .debug) ?_
  split
  · refine .bind (h.nodeCount lt) fun x₁ g₁ count _ h₁ _ => ?_
    obtain ⟨later, rested⟩ := note h₁ .debug
      s!"Consumed {symbol.written} at position {position}, residual has {count} nodes"
    exact .update (y := x₁) later (.pure rested trivial)
  · exact .pure h trivial

theorem residualFrom (compaction : Bool) {symbols : List Value} (position : Nat)
    (lt : n < g.nodes.size) (takes : ∀ c ∈ symbols, Takes C c) :
    (resting C roots).Ends x g (fun ask => Parse.residualFrom ask compaction position symbols n)
      fun _ g' r => r.node < g'.nodes.size := by
  induction symbols generalizing x g n position with
  | nil => exact .pure h lt
  | cons symbol rest ih =>
    unfold Parse.residualFrom
    refine .bind (h.advance lt (takes symbol List.mem_cons_self) compaction)
      fun x₁ g₁ next _ h₁ next_lt => ?_
    split
    · obtain ⟨step, rested⟩ := note h₁ .debug
        s!"Rejected at position {position} on {symbol.written}"
      exact .update (y := x₁) step (.pure rested next_lt)
    · refine .bind (report h₁ next_lt position symbol) fun x₂ g₂ _ step h₂ _ => ?_
      exact ih h₂ (position + 1) (Later.lt step next_lt) fun c member =>
        takes c (List.mem_cons_of_mem symbol member)

theorem recognize (lt : n < g.nodes.size) (compaction : Bool) {symbols : List Value}
    (takes : ∀ c ∈ symbols, Takes C c) :
    (resting C roots).Ends x g (fun ask => Parse.recognize ask compaction symbols n)
      fun _ _ _ => True := by
  refine .bind (h.residualFrom compaction 0 lt takes) fun x₁ g₁ r _ h₁ left => ?_
  refine .bind (Rested.evaluate h₁ .nullable left) fun x₂ g₂ accepted _ h₂ _ => ?_
  let verdict := if accepted then "accepted" else "rejected"
  obtain ⟨step, rested⟩ := note h₂ .info s!"Recognition {verdict}"
  exact .update (y := x₂) step (.pure rested trivial)

theorem parse (lt : n < g.nodes.size) (compaction : Bool) {symbols : List Value}
    (takes : ∀ c ∈ symbols, Takes C c) :
    (resting C roots).Ends x g (fun ask => Parse.parse ask compaction symbols n)
      fun _ _ _ => True := by
  refine .bind (h.residualFrom compaction 0 lt takes) fun x₁ g₁ r _ h₁ left => ?_
  refine .bind (Rested.evaluate h₁ .forest left) ?_
  rintro x₂ g₂ ws - h₂ ⟨hashable, -⟩
  rw [Forest.ofWitnesses_ok.mpr ⟨hashable, rfl⟩]
  obtain ⟨step, rested⟩ := note h₂ .info s!"Parse produced {(Forest.distinct ws).length} witnesses"
  exact .ok (.update (y := x₂) step (.pure rested trivial))

theorem query (q : Query) (by_ : q.By (Takes C)) (lt : q.node < g.nodes.size) :
    (resting C roots).Ends x g (fun ask => ask q) fun _ g' a => q.Lands g' a := by
  cases q with
  | nullable n => exact .imp (h.evaluate .nullable lt) fun _ _ _ _ _ _ => trivial
  | forest n => exact .imp (h.evaluate .forest lt) fun _ _ _ _ _ _ => trivial
  | emptyLike n => exact .imp (h.evaluate .emptyLike lt) fun _ _ _ _ _ _ => trivial
  | epsLike n => exact .imp (h.evaluate .epsLike lt) fun _ _ _ _ _ _ => trivial
  | compact n => exact .imp (h.evaluate .compact lt) fun _ _ _ _ _ ⟨fits, _⟩ => fits.1
  | nodeCount n => exact .imp (h.nodeCount lt) fun _ _ _ _ _ _ => trivial
  | derive c n => exact .imp (h.derive lt by_.1 by_.2) fun _ _ _ _ _ ⟨dlt, _⟩ => dlt
  | child n side =>
    by_cases member : side ∈ (g.node n).sides
    · exact .imp (h.child? lt member) fun _ _ _ _ _ _ => trivial
    · refine .answer (.read (p := fun g => (g.node n).slot side) ?_)
      rw [(h.valid.counted.describes n).vacant side member]
      exact .pure h trivial

theorem call {call : Call} (by_ : call.By (Takes C)) (lt : call.node < g.nodes.size) :
    (resting C roots).Ends x g (fun ask => call.run ask) fun _ _ _ => True := by
  cases call with
  | query q => exact .bind (h.query q by_ lt) fun _ _ _ _ h₁ _ => .pure h₁ trivial
  | residual compaction symbols n =>
    exact .bind (h.residualFrom compaction 0 lt by_) fun _ _ _ _ h₁ _ => .pure h₁ trivial
  | recognize compaction symbols n =>
    exact .bind (h.recognize lt compaction by_) fun _ _ _ _ h₁ _ => .pure h₁ trivial
  | parse compaction symbols n =>
    exact .bind (h.parse lt compaction by_) fun _ _ _ _ h₁ _ => .pure h₁ trivial

end

/-- Whatever is asked, a census is left behind; what cannot be taken is a fault at once. -/
theorem serves (bound : Nat) : (resting C roots).Serves (Bears C) (Engine.run bound) where
  query {x g} q bears h lt := by
    by_cases takes : q.By (Takes C)
    · exact Regime.Ends.after (query h q takes lt) bound
    · cases q with
      | derive c n =>
        have key : c.hashable = false := by
          cases key : c.hashable with
          | false => rfl
          | true => exact absurd ⟨key, bears key⟩ takes
        cases bound with
        | zero => exact .spent
        | succ bound =>
          have unhashed : c.hashed = .error .unhashable := by simp [Value.hashed, key]
          change (resting C roots).After x g (Memo.demand _ _ _ _ _) _
          rw [Memo.demand, unhashed]
          exact .given h fun _ none => by cases none
      | _ => exact absurd trivial takes
  note level message h := note h level message
  grows later := Graph.Evolves.size (Later.evolves later)
  inhabited h := (Rested.valid h).counted.formed.empty_lt

/-- The census may know more symbols and more roots. -/
theorem mono {C' : Finset Value} {roots' : Finset NodeId} (h : Rested C roots x g)
    (symbols : C ⊆ C') (nodes : roots ⊆ roots') : Rested C' roots' x g :=
  ⟨⟨h.valid.counted.mono symbols nodes, h.valid.complete, fun _ is => nomatch is⟩, h.still⟩

end Rested

/-- The representatives of the symbols of a call. -/
noncomputable def symbols (call : Call) : Finset Value := by
  classical exact match call with
    | .query (.derive c _) => {c.numeric}
    | .query _ => ∅
    | .residual _ s _ | .recognize _ s _ | .parse _ s _ => (s.map Value.numeric).toFinset

theorem by_symbols (call : Call) : call.By fun c => c.numeric ∈ symbols call := by
  cases call with
  | query q =>
    cases q with
    | derive c n => exact Finset.mem_singleton_self _
    | _ => exact trivial
  | _ =>
    intro c member
    classical exact List.mem_toFinset.mpr (List.mem_map_of_mem member)

/-- A census may come to know the symbols of a call. -/
theorem Rested.takes {call : Call} (h : Rested C roots x g)
    (hashable : call.By fun c => c.hashable = true) :
    ∃ C', Rested C' roots x g ∧ call.By (Takes C') := by
  classical
  refine ⟨C ∪ symbols call, h.mono Finset.subset_union_left (Finset.Subset.refl roots), ?_⟩
  exact hashable.and ((by_symbols call).mono fun _ known => Finset.mem_union_right C known)

end Census

end GrammarGraph
