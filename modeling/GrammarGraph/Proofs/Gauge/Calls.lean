import GrammarGraph.Proofs.Gauge.Survey
import GrammarGraph.Proofs.Regime.Calls

/-! Calls under exact gauges. What is left after a sentence stands for what is left of the
sense of the node, and the answers of recognition and parsing are right for that. Whatever
else is asked leaves an exact gauge behind. -/
namespace GrammarGraph

namespace Sense

variable {σ : Type} (S : Sense σ)

/-- What is left after one symbol. -/
def advance (compaction : Bool) (c : Value) (e : σ) : σ :=
  if compaction then S.compacted (S.after c e) else S.after c e

/-- What is left after the symbols. -/
def left (compaction : Bool) : List Value → σ → σ
  | [], e => e
  | c :: s, e => left compaction s (S.advance compaction c e)

theorem left_nothing (compaction : Bool) (s : List Value) :
    S.left compaction s S.nothing = S.nothing := by
  have stuck (c : Value) : S.advance compaction c S.nothing = S.nothing := by
    cases compaction <;> simp [advance, S.after_nothing, S.compacted_nothing]
  induction s with
  | nil => rfl
  | cons c s ih => rw [left, stuck, ih]

/-- Symbols that can be taken at all are symbols that derivatives are taken by. -/
def admits (c : Value) : Prop :=
  c.hashable = true → S.takes c

end Sense

namespace Gauge

variable {σ : Type} {S : Sense σ} {x x' : Gauge σ} {g g' : Graph} {w : Weight σ} {c : Value}
  {n : NodeId} {e : σ}

/-- The node stands for `e`. -/
structure Denotes (x : Gauge σ) (g : Graph) (e : σ) (n : NodeId) : Prop where
  lt : n < g.nodes.size
  sense : (x (.node n)).sense = e

theorem Stands.denotes (h : x.Stands g w n) : x.Denotes g w.sense n :=
  ⟨h.lt, h.within.sense⟩

theorem Later.denotes (later : Later x g x' g') (h : x.Denotes g e n) : x'.Denotes g' e n :=
  ⟨later.lt h.lt, by rw [later.node h.lt]; exact h.sense⟩

namespace Rested

/-- A change of the journal. -/
theorem journal (h : Rested S x g) (journal : Option Journal) :
    Later x g x { g with journal } ∧ Rested S x { g with journal } := by
  have same (i : Evaluator) : i.of { g with journal } = i.of g := by cases i <;> rfl
  refine ⟨⟨g.evolves_of_eq rfl rfl, fun _ _ => rfl, fun _ _ _ => .refl _, fun _ => rfl, rfl,
    fun i _ => by rw [same], fun i => by rw [same]⟩, ?_, fun v => ⟨(h.busy v).forcing,
    (h.busy v).started, fun i _ _ found => (h.busy v).active i (same i ▸ found)⟩⟩
  exact h.valid.books rfl (fun _ => rfl) rfl h.valid.derivatives
    (fun i _ _ found => h.valid.stored i (same i ▸ found))
    fun i k => by rw [same]; exact h.valid.provisional i k

theorem note (h : Rested S x g) (level : Level) (message : String) :
    Later x g x (g.note level message) ∧ Rested S x (g.note level message) :=
  h.journal _

/-- A new node with concrete children. -/
theorem lay (h : Rested S x g) {built : NodeId → Prop} {node : Node}
    (concrete : node.Concrete built) (below : ∀ k, built k → k < g.nodes.size)
    (complete : node.kind ≠ .placeholder) (eps : node.kind = .eps → S.grants node.witnesses)
    (red : node.kind = .red → node.transform.Total) :
    ∃ x', Later x g x' (g.addNode node) ∧ Rested S x' (g.addNode node) := by
  have covers (side : Side) : g.Covers (node.slot side) := by
    by_cases member : side ∈ node.sides
    · obtain ⟨k, slot, made⟩ := concrete.child side member
      rw [slot]
      exact below k made
    · rw [concrete.vacant side member]
      trivial
  let w : Weight σ :=
    ⟨node.sense S x, (x (node.slot .first)).rank + (x (node.slot .second)).rank + 1⟩
  have weighs : node.Weighs S x w := by
    refine ⟨concrete.kind, complete, fun side member => ⟨?_, ?_⟩, concrete.vacant, rfl, eps, red⟩
    · obtain ⟨k, slot, _⟩ := concrete.child side member
      rw [slot]
      exact Slot.noConfusion
    · cases side
      · exact Nat.lt_succ_of_le (Nat.le_add_right _ _)
      · exact Nat.lt_succ_of_le (Nat.le_add_left _ _)
  obtain ⟨later, exact_⟩ := h.valid.addNode covers weighs
  exact ⟨_, later, exact_, fun v => later.busy (h.busy v)⟩

variable [Rules S] (h : Rested S x g)
include h

theorem advance (denotes : x.Denotes g e n) (takes : S.takes c) (compaction : Bool) :
    (resting S).Ends x g (fun ask => Parse.advance ask compaction c n) fun x' g' d =>
      x'.Denotes g' (S.advance compaction c e) d := by
  rw [← denotes.sense]
  refine .bind (h.derive denotes.lt takes) fun x₁ g₁ d _ h₁ derived => ?_
  cases compaction with
  | false => exact .pure h₁ derived.denotes
  | true =>
    refine .imp (Rested.evaluate h₁ .compact derived.lt) fun x₂ g₂ m _ _ fits => ?_
    exact (Stands.mono fits derived.within.compacted).denotes

theorem report (lt : n < g.nodes.size) (position : Nat) (symbol : Value) :
    (resting S).Ends x g (fun ask => Parse.report ask position symbol n) fun _ _ _ => True := by
  refine .read (p := fun g => g.admits .debug) ?_
  split
  · refine .bind (h.nodeCount lt) fun x₁ g₁ count _ h₁ _ => ?_
    obtain ⟨later, rested⟩ := note h₁ .debug
      s!"Consumed {symbol.written} at position {position}, residual has {count} nodes"
    exact .update (y := x₁) later (.pure rested trivial)
  · exact .pure h trivial

theorem residualFrom (compaction : Bool) {symbols : List Value} (position : Nat)
    (denotes : x.Denotes g e n) (takes : ∀ c ∈ symbols, S.takes c) :
    (resting S).Ends x g (fun ask => Parse.residualFrom ask compaction position symbols n)
      fun x' g' r => x'.Denotes g' (S.left compaction symbols e) r.node := by
  induction symbols generalizing x g n e position with
  | nil => exact .pure h denotes
  | cons symbol rest ih =>
    unfold Parse.residualFrom
    have later := fun c member => takes c (List.mem_cons_of_mem symbol member)
    refine .bind (h.advance denotes (takes symbol List.mem_cons_self) compaction)
      fun x₁ g₁ next _ h₁ derived => ?_
    split
    · next none =>
      obtain rfl := eq_of_beq none
      obtain ⟨step, rested⟩ := note h₁ .debug
        s!"Rejected at position {position} on {symbol.written}"
      refine .update (y := x₁) step (.pure rested ?_)
      -- Nothing follows, so nothing is left after the other symbols either.
      have nothing := (Rested.valid h₁).sense_empty
      rw [Sense.left, ← derived.sense, nothing, S.left_nothing]
      exact step.denotes ⟨derived.lt, nothing⟩
    · refine .bind (report h₁ derived.lt position symbol) fun x₂ g₂ _ step h₂ _ => ?_
      exact ih h₂ (position + 1) (Later.denotes step derived) later

theorem recognize (denotes : x.Denotes g e n) (compaction : Bool) {symbols : List Value}
    (takes : ∀ c ∈ symbols, S.takes c) :
    (resting S).Ends x g (fun ask => Parse.recognize ask compaction symbols n) fun _ _ answer =>
      S.agrees .nullable (S.left compaction symbols e) answer.1 := by
  refine .bind (h.residualFrom compaction 0 denotes takes) fun x₁ g₁ r _ h₁ left => ?_
  refine .bind (Rested.evaluate h₁ .nullable left.lt) fun x₂ g₂ accepted _ h₂ fits => ?_
  let verdict := if accepted then "accepted" else "rejected"
  obtain ⟨step, rested⟩ := note h₂ .info s!"Recognition {verdict}"
  refine .update (y := x₂) step (.pure rested ?_)
  rw [Fits, left.sense] at fits
  exact fits

/-- The forest of what is left. -/
theorem forest_residual (denotes : x.Denotes g e n) (compaction : Bool) {symbols : List Value}
    (takes : ∀ c ∈ symbols, S.takes c) :
    (resting S).Ends x g (fun ask => do ask.forest (← Parse.residual ask compaction symbols n).node)
      fun _ _ ws => S.agrees .forest (S.left compaction symbols e) ws ∧
        ∀ w ∈ ws, w.hashable = true := by
  refine .bind (h.residualFrom compaction 0 denotes takes) fun x₁ g₁ r _ h₁ left => ?_
  refine .imp (Rested.evaluate h₁ .forest left.lt) fun x₂ g₂ ws _ _ fits => ?_
  rw [← left.sense]
  exact ⟨fits, S.hashable_forest ((Rested.valid h₁).proper _) fits⟩

theorem parse (denotes : x.Denotes g e n) (compaction : Bool) {symbols : List Value}
    (takes : ∀ c ∈ symbols, S.takes c) :
    (resting S).Ends x g (fun ask => Parse.parse ask compaction symbols n) fun _ _ answer =>
      ∃ ws, S.agrees .forest (S.left compaction symbols e) ws ∧ answer.1 = Forest.distinct ws := by
  refine .bind (h.residualFrom compaction 0 denotes takes) fun x₁ g₁ r _ h₁ left => ?_
  refine .bind (Rested.evaluate h₁ .forest left.lt) fun x₂ g₂ ws _ h₂ fits => ?_
  rw [Forest.ofWitnesses_ok.mpr ⟨S.hashable_forest ((Rested.valid h₁).proper _) fits, rfl⟩]
  obtain ⟨step, rested⟩ := note h₂ .info s!"Parse produced {(Forest.distinct ws).length} witnesses"
  refine .ok (.update (y := x₂) step (.pure rested ⟨ws, ?_, rfl⟩))
  rw [← left.sense]
  exact fits

theorem query (q : Query) (by_ : q.By S.admits) (lt : q.node < g.nodes.size) (bound : Nat) :
    (resting S).After x g (Engine.run bound q) fun _ g' a => q.Lands g' a := by
  cases q with
  | nullable n =>
    exact .imp (Regime.Ends.after (h.evaluate .nullable lt) bound) fun _ _ _ _ _ _ => trivial
  | forest n =>
    exact .imp (Regime.Ends.after (h.evaluate .forest lt) bound) fun _ _ _ _ _ _ => trivial
  | emptyLike n =>
    exact .imp (Regime.Ends.after (h.evaluate .emptyLike lt) bound) fun _ _ _ _ _ _ => trivial
  | epsLike n =>
    exact .imp (Regime.Ends.after (h.evaluate .epsLike lt) bound) fun _ _ _ _ _ _ => trivial
  | compact n =>
    exact .imp (Regime.Ends.after (h.evaluate .compact lt) bound) fun _ _ _ _ _ fits => Stands.lt fits
  | nodeCount n => exact .imp (Regime.Ends.after (h.nodeCount lt) bound) fun _ _ _ _ _ _ => trivial
  | child n side =>
    by_cases member : side ∈ (g.node n).sides
    · exact .imp (Regime.Ends.after (h.child? lt member) bound) fun _ _ _ _ _ _ => trivial
    · have slot := (h.valid.nodes n lt).vacant side member
      refine .imp (Regime.Ends.after (Q := fun _ _ _ => True) ?_ bound) fun _ _ _ _ _ _ => trivial
      refine .answer (.read (p := fun g => (g.node n).slot side) ?_)
      rw [slot]
      exact .pure h trivial
  | derive c n =>
    cases key : c.hashable with
    | true =>
      exact .imp (Regime.Ends.after (h.derive lt (by_ key)) bound) fun _ _ _ _ _ derived =>
        Stands.lt derived
    | false =>
      cases bound with
      | zero => exact .spent
      | succ bound =>
        have unhashed : c.hashed = .error .unhashable := by simp [Value.hashed, key]
        change (resting S).After x g (Memo.demand _ _ _ _ _) _
        rw [Memo.demand, unhashed]
        exact .given h fun _ none => (by cases none)

omit h

theorem serves (bound : Nat) : (resting S).Serves S.admits (Engine.run bound) where
  query q by_ h lt := query h q by_ lt bound
  note level message h := note h level message
  grows later := Graph.Evolves.size (Later.evolves later)
  inhabited h := (Rested.valid h).formed.empty_lt

end Rested

/-- The gauge of the two atoms. -/
def initial (S : Sense σ) : Gauge σ
  | .node 1 => ⟨S.node { kind := .eps, witnesses := Forest.trivial } fun _ => S.nothing, 0⟩
  | _ => ⟨S.nothing, 0⟩

theorem initial_rested : Rested S (initial S) {} := by
  have lt {n : NodeId} (lt : n < ({} : Graph).nodes.size) : n = 0 ∨ n = 1 :=
    Nat.le_one_iff_eq_zero_or_eq_one.mp (Nat.le_of_lt_succ lt)
  refine ⟨⟨Graph.initial_formed, ⟨rfl, rfl⟩, fun n small => ?_, fun hs => ?_, fun y => ?_,
    fun found => (by cases found), fun i n v found => ?_, fun i n => by cases i <;> rfl⟩, fun v =>
    ⟨fun held => ?_, fun member => (by cases member), fun i n d found => ?_⟩⟩
  · rcases lt small with rfl | rfl
    · exact ⟨fun _ => Kind.noConfusion, Kind.noConfusion, fun _ none => (nomatch none),
        fun side _ => by cases side <;> rfl, (S.node_empty rfl).symm, fun eps => (nomatch eps),
        fun red => (nomatch red)⟩
    · refine ⟨fun _ => Kind.noConfusion, Kind.noConfusion, fun _ none => (nomatch none),
        fun side _ => by cases side <;> rfl, congrArg _ (funext fun side => ?_),
        fun _ => S.grants_trivial, fun red => (nomatch red)⟩
      cases side <;> rfl
  · rw [Graph.suspension_initial] at hs
    cases hs
  · unfold initial
    split
    · exact S.proper_node (fun _ => S.grants_trivial) (fun red => (nomatch red))
        fun _ => S.proper_nothing
    · exact S.proper_nothing
  · cases i <;> cases found
  · simp [Graph.isForcing] at held
  · cases i <;> cases found

end Gauge

end GrammarGraph
