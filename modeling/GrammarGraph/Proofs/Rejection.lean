import GrammarGraph.Proofs.Census.Building
import GrammarGraph.Proofs.Quiet
import GrammarGraph.Proofs.Regular

/-! Rejection as early as possible. With compaction, what is left of a regular expression is the
empty node exactly when no sentence goes on from the symbols taken; so taking symbols stops, and
the journal tells so, at the first symbol after which nothing can follow. -/
namespace GrammarGraph

open Computability
open RunOf (Gives)

/-- No sentence of the language begins with `s`. -/
def Stuck (L : Language Value) (s : List Value) : Prop :=
  ∀ t, s ++ t ∉ L

/-- The position of the first symbol of `s` after which no sentence can go on. -/
def RejectedAt (L : Language Value) (s : List Value) (p : Nat) : Prop :=
  p < s.length ∧ Stuck L (s.take (p + 1)) ∧ ∀ q < p, ¬ Stuck L (s.take (q + 1))

/-- What is told while the symbols are taken, of which the first is at `position`. One of them may
be rejected, and it is the last that is told of. -/
inductive Told : Nat → List Value → Option Nat → List (Level × String) → Prop where
  | done {position : Nat} : Told position [] none []
  | rejected {position : Nat} {c : Value} {s : List Value} : Told position (c :: s) (some position)
      [(.debug, s!"Rejected at position {position} on {c.written}")]
  | consumed {position : Nat} {c : Value} {s : List Value} {rejected : Option Nat}
      {messages : List (Level × String)} (count : Nat) : Told (position + 1) s rejected messages →
      Told position (c :: s) rejected
        ((.debug, s!"Consumed {c.written} at position {position}, residual has {count} nodes") ::
          messages)

theorem Told.le {k q : Nat} {s : List Value} {messages : List (Level × String)}
    (h : Told k s (some q) messages) : k ≤ q := by
  generalize position : some q = rejected at h
  induction h with
  | done => cases position
  | rejected => exact Nat.le_of_eq (Option.some.inj position).symm
  | consumed _ _ ih => exact Nat.le_of_succ_le (ih position)

namespace Graph

/-- Notes messages, one after the other. -/
def notes (messages : List (Level × String)) (g : Graph) : Graph :=
  messages.foldl (fun g message => g.note message.1 message.2) g

variable {g g' : Graph}

theorem journal_note (same : g'.journal = g.journal) (level : Level) (message : String) :
    (g'.note level message).journal = (g.note level message).journal := by
  rw [note, note, same]

theorem journal_notes (same : g'.journal = g.journal) (messages : List (Level × String)) :
    (g'.notes messages).journal = (g.notes messages).journal := by
  induction messages generalizing g g' with
  | nil => exact same
  | cons message messages ih => exact ih (journal_note same message.1 message.2)

/-- A message that the journal does not take changes nothing. -/
theorem journal_note_of_not_admits {level : Level} (refused : g.admits level = false)
    (message : String) : (g.note level message).journal = g.journal := by
  unfold note
  unfold admits at refused
  cases kept : g.journal with
  | none => rfl
  | some journal =>
    rw [kept, Option.any_some] at refused
    simp [refused]

end Graph

variable {L : Language Value} {c : Value} {s : List Value} {p : Nat}

theorem stuck_nil : Stuck L [] ↔ L = 0 :=
  eq_zero_iff.symm

theorem stuck_cons : Stuck L (c :: s) ↔ Stuck (following c L) s :=
  .rfl

theorem rejectedAt_zero : RejectedAt L (c :: s) 0 ↔ following c L = 0 := by
  rw [RejectedAt, List.take_succ_cons, List.take_zero, stuck_cons, stuck_nil]
  exact ⟨fun h => h.2.1, fun none =>
    ⟨Nat.zero_lt_succ _, none, fun q lt => absurd lt q.not_lt_zero⟩⟩

theorem rejectedAt_succ :
    RejectedAt L (c :: s) (p + 1) ↔ following c L ≠ 0 ∧ RejectedAt (following c L) s p := by
  simp only [RejectedAt, List.length_cons, Nat.add_lt_add_iff_right, List.take_succ_cons,
    stuck_cons]
  constructor
  · intro ⟨lt, stuck, before⟩
    refine ⟨fun none => before 0 (Nat.zero_lt_succ p) ?_, lt, stuck, fun q below => ?_⟩
    · exact stuck_nil.mpr none
    · exact before (q + 1) (Nat.succ_lt_succ below)
  · intro ⟨some_, lt, stuck, before⟩
    refine ⟨lt, stuck, fun q below => ?_⟩
    cases q with
    | zero => exact fun stuck => some_ (stuck_nil.mp stuck)
    | succ q => exact before q (Nat.lt_of_succ_lt_succ below)

/-- What is left after `s`, the first of which is at `position`, and what was told meanwhile. -/
structure Verdict (L : Language Value) (position : Nat) (s : List Value) (r : Residual)
    (messages : List (Level × String)) : Prop where
  empty : r.node = .empty ↔ Stuck L s
  rejected : ∀ p, r = ⟨.empty, position + p + 1⟩ ↔ RejectedAt L s p
  consumed : r.node ≠ .empty → r.consumed = position + s.length
  told : Told position s (if r.node = .empty then some (r.consumed - 1) else none) messages

namespace Verdict

variable {position : Nat} {n : NodeId} {r : Residual} {messages : List (Level × String)}

theorem nil (some_ : L ≠ 0) (other : n ≠ .empty) : Verdict L position [] ⟨n, position⟩ [] where
  empty := ⟨fun none => absurd none other, fun stuck => absurd (stuck_nil.mp stuck) some_⟩
  rejected p := ⟨fun none => absurd (congrArg Residual.node none) other,
    fun h => absurd h.1 (Nat.not_lt_zero p)⟩
  consumed _ := rfl
  told := by
    rw [if_neg other]
    exact .done

theorem stop (none : following c L = 0) : Verdict L position (c :: s) ⟨.empty, position + 1⟩
    [(.debug, s!"Rejected at position {position} on {c.written}")] where
  empty := by
    refine iff_of_true rfl fun t => ?_
    exact eq_zero_iff.mp none (s ++ t)
  rejected p := by
    cases p with
    | zero => exact iff_of_true rfl (rejectedAt_zero.mpr none)
    | succ p =>
      refine iff_of_false (fun same => ?_) fun h => (rejectedAt_succ.mp h).1 none
      have : position + 1 = position + (p + 1) + 1 := congrArg Residual.consumed same
      omega
  consumed other := absurd rfl other
  told := by
    rw [if_pos rfl]
    exact .rejected

/-- Something can follow the first symbol. -/
theorem step (some_ : following c L ≠ 0) (count : Nat)
    (h : Verdict (following c L) (position + 1) s r messages) :
    Verdict L position (c :: s) r
      ((.debug, s!"Consumed {c.written} at position {position}, residual has {count} nodes") ::
        messages) where
  empty := h.empty
  rejected p := by
    cases p with
    | zero =>
      refine iff_of_false (fun same => ?_) fun h => some_ (rejectedAt_zero.mp h)
      have told := h.told
      rw [same, if_pos rfl] at told
      exact absurd told.le (Nat.not_succ_le_self position)
    | succ p =>
      rw [rejectedAt_succ, and_iff_right some_, ← h.rejected, Nat.add_right_comm position 1 p]
      rfl
  consumed other := by
    rw [h.consumed other, List.length_cons]
    omega
  told := .consumed count h.told

end Verdict

section Watching

variable {C : Finset Value} {roots : Finset NodeId} {z : Census × Gauge (Language Value)}
  {g : Graph} {n m : NodeId}

/-- Compaction gives the empty node for what is empty, and for nothing else. -/
theorem eq_empty_iff_of_compacted (valid : (watching languages C roots).Valid z g)
    (denotes : z.2.Denotes g L n) (stored : g.compacted.stored.get? n = some m)
    (same : z.2.Denotes g L m) : m = .empty ↔ L = 0 := by
  obtain ⟨counted, exact_⟩ := valid
  constructor
  · rintro rfl
    exact same.sense.symm.trans exact_.valid.sense_empty
  · intro none
    have sense {kind : Kind} (hk : (g.node n).kind = kind) :=
      denotes.sense.symm.trans (exact_.valid.sense_of_kind denotes.lt hk)
    rcases (counted.valid.counted.results .compact (.inl stored)).2.2.2 with
      empty | eps | char | refuted
    · exact empty
    · exact absurd (none.symm.trans (sense eps)).symm one_ne_zero_language
    · exact absurd (none.symm.trans (sense char)).symm matching_ne_zero
    · have agrees : false = true ↔ (z.2 (.node n)).sense = 0 :=
        (exact_.valid.stored .emptyLike refuted).2
      exact absurd (agrees.mpr (denotes.sense.trans none)) Bool.false_ne_true

theorem advance_ends (valid : (watching languages C roots).Valid z g) (denotes : z.2.Denotes g L n)
    (takes : Census.Takes C c) :
    (watching languages C roots).Ends z g (fun ask => Parse.advance ask true c n) fun z' g' d =>
      z'.2.Denotes g' (following c L) d ∧ (d = .empty ↔ following c L = 0) := by
  have derived := Regime.Ends.beside (z := z) (valid.1.derive denotes.lt takes.1 takes.2)
    (valid.2.derive denotes.lt takes.1)
  refine .bind derived ?_
  rintro z₁ g₁ d - valid₁ ⟨⟨lt, -⟩, stands⟩
  have left : z₁.2.Denotes g₁ (following c L) d := by
    rw [← denotes.sense]
    exact stands.denotes
  refine .imp
    (Regime.Ends.beside (valid₁.1.evaluate .compact lt) (valid₁.2.evaluate .compact lt)) ?_
  rintro z₂ g₂ m later valid₂ ⟨⟨-, stored⟩, fits⟩
  have same : z₂.2.Denotes g₂ (following c L) m := by
    rw [← left.sense]
    exact Gauge.Stands.denotes fits
  exact ⟨same, eq_empty_iff_of_compacted valid₂ (Gauge.Later.denotes later.2 left) stored same⟩

theorem termless (valid : (watching languages C roots).Valid z g) : g.Termless :=
  fun _ _ _ found => valid.1.valid.counted.formed.allows found

theorem note_ends {α : Type} {r : Ask → Run α} {level : Level} {message : String}
    {Q : Census × Gauge (Language Value) → Graph → α → Prop}
    (valid : (watching languages C roots).Valid z g)
    (h : (watching languages C roots).Valid z (g.note level message) →
      (watching languages C roots).Ends z (g.note level message) r Q) :
    (watching languages C roots).Ends z g (fun ask => do
      RunOf.update (Graph.note level message)
      r ask) Q := by
  obtain ⟨counted, valid₁⟩ := valid.1.note level message
  obtain ⟨weighed, valid₂⟩ := valid.2.note level message
  exact .update (y := z) ⟨counted, weighed⟩ (h ⟨valid₁, valid₂⟩)

theorem report_ends (valid : (watching languages C roots).Valid z g) (lt : n < g.nodes.size)
    (position : Nat) (c : Value) :
    (watching languages C roots).Ends z g (fun ask => Parse.report ask position c n) fun _ g' _ =>
      ∃ count : Nat, g'.journal = (g.note .debug
        s!"Consumed {c.written} at position {position}, residual has {count} nodes").journal := by
  refine .read (p := fun g => g.admits .debug) ?_
  cases admits : g.admits .debug with
  | true =>
    have counts := Regime.Ends.beside (z := z) (valid.1.nodeCount lt) (valid.2.nodeCount lt)
    refine .bind (counts.quiet (termless valid) fun quiet => quiet (.nodeCount n)) ?_
    rintro z₁ g₁ count - valid₁ ⟨-, journal⟩
    exact note_ends (r := fun _ => pure ()) valid₁ fun valid₂ =>
      .pure valid₂ ⟨count, Graph.journal_note journal _ _⟩
  | false => exact .pure valid ⟨0, (Graph.journal_note_of_not_admits admits _).symm⟩

theorem residualFrom_ends {symbols : List Value} (position : Nat) {L : Language Value}
    {z : Census × Gauge (Language Value)} {g : Graph} {n : NodeId}
    (valid : (watching languages C roots).Valid z g) (denotes : z.2.Denotes g L n)
    (some_ : symbols = [] → L ≠ 0 ∧ n ≠ .empty) (takes : ∀ c ∈ symbols, Census.Takes C c) :
    (watching languages C roots).Ends z g
      (fun ask => Parse.residualFrom ask true position symbols n) fun _ g' r =>
        ∃ messages, Verdict L position symbols r messages ∧
        g'.journal = (g.notes messages).journal := by
  induction symbols generalizing z g n L position with
  | nil =>
    obtain ⟨some_, other⟩ := some_ rfl
    exact .pure valid ⟨[], .nil some_ other, rfl⟩
  | cons c rest ih =>
    unfold Parse.residualFrom
    have first := advance_ends valid denotes (takes c List.mem_cons_self)
    refine .bind (first.quiet (termless valid) fun quiet => ?_) ?_
    · exact .bind (quiet (.derive c n)) fun d => quiet (.compact d)
    rintro z₁ g₁ next - valid₁ ⟨⟨left, empty⟩, journal⟩
    split
    · next none =>
      obtain rfl := eq_of_beq none
      let rejected : Residual := ⟨.empty, position + 1⟩
      exact note_ends (r := fun _ => pure rejected) valid₁ fun valid₂ =>
        .pure valid₂ ⟨_, .stop (empty.mp rfl), Graph.journal_note journal _ _⟩
    · next other =>
      have other : next ≠ .empty := fun same => other (beq_iff_eq.mpr same)
      have some_ : following c L ≠ 0 := mt empty.mpr other
      refine .bind (report_ends valid₁ left.lt position c) ?_
      rintro z₂ g₂ - later valid₂ ⟨count, reported⟩
      refine .imp (ih (position + 1) valid₂ (Gauge.Later.denotes later.2 left)
        (fun _ => ⟨some_, other⟩) fun c' member => takes c' (List.mem_cons_of_mem c member)) ?_
      rintro _ g₃ r - - ⟨messages, verdict, told⟩
      refine ⟨_, .step some_ count verdict, told.trans (Graph.journal_notes ?_ messages)⟩
      exact reported.trans (Graph.journal_note journal _ _)

end Watching

namespace Draft

variable {d : Draft} {e : Regular} {n : NodeId}

theorem Writes.total {nodes : List (Regular × NodeId)} {c : Construction} (h : Writes nodes c e) :
    c.Total := by
  cases h with
  | red _ total => exact total
  | _ => trivial

/-- What is written is written of what was written before. -/
theorem Writes.operands {nodes : List (Regular × NodeId)} {c : Construction}
    (h : Writes nodes c e) : ∀ k ∈ c.operands, ∃ e', (e', k) ∈ nodes := by
  have each {es : List Regular} {ns : List NodeId}
      (all : List.Forall₂ (fun e n => (e, n) ∈ nodes) es ns) : ∀ k ∈ ns, ∃ e', (e', k) ∈ nodes := by
    induction all with
    | nil => exact fun _ none => nomatch none
    | cons first _ ih =>
      intro k member
      rcases List.mem_cons.mp member with rfl | member
      · exact ⟨_, first⟩
      · exact ih k member
  cases h with
  | char | eps => exact fun _ none => nomatch none
  | cat all | alt all => exact each all
  | rep member | delta member | red member =>
    intro k here
    rw [List.mem_singleton.mp here]
    exact ⟨_, member⟩

theorem Reached.grounded (reached : d.Reached) :
    ((∃ e, (e, .empty) ∈ d.nodes) ∧ ∃ e, (e, .eps) ∈ d.nodes) ∧
      ∃ C roots x, Grounded C roots x (fun k => ∃ e, (e, k) ∈ d.nodes) [] d.graph := by
  induction reached with
  | refl =>
    refine ⟨⟨⟨_, List.mem_cons_self⟩, ⟨_, List.mem_cons_of_mem _ List.mem_cons_self⟩⟩, _, _, _,
      { Grounded.initial with built := fun k made => Grounded.initial.built k ?_ }⟩
    obtain ⟨e, member⟩ := made
    rcases List.mem_cons.mp member with same | member
    · exact .inl (congrArg Prod.snd same)
    · exact .inr (congrArg Prod.snd (List.mem_singleton.mp member))
  | tail _ step ih =>
    obtain ⟨⟨empty, eps⟩, C, roots, x, grounded⟩ := ih
    cases step with
    | @write c e n g writes ends =>
      obtain ⟨laid, inside⟩ := c.laid empty eps writes.operands ends
      obtain ⟨roots', x', grounded'⟩ := grounded.laid writes.total laid
      refine ⟨⟨empty.imp fun _ => List.mem_cons_of_mem _, eps.imp fun _ => List.mem_cons_of_mem _⟩,
        C, roots', x', { grounded' with built := fun k made => ?_ }⟩
      obtain ⟨e', member⟩ := made
      rcases List.mem_cons.mp member with same | member
      · obtain ⟨-, rfl⟩ := Prod.mk.inj same
        exact grounded'.built k inside
      · exact grounded'.built k (.inl ⟨e', member⟩)
    | call bound c lt ends =>
      obtain ⟨C', x', grounded'⟩ := grounded.call rfl lt ends
      exact ⟨⟨empty, eps⟩, C', roots, x', grounded'⟩
    | journal journal => exact ⟨⟨empty, eps⟩, C, roots, x, grounded.journal journal⟩

/-- What is left of a non-empty sequence of symbols with compaction is the empty node exactly when
the sequence cannot be completed, and the first symbol that makes it so is rejected. -/
theorem residual_rejects (reached : d.Reached) (written : (e, n) ∈ d.nodes) (some_ : s ≠ [])
    (hashable : ∀ c ∈ s, c.hashable = true) :
    ∃ r g messages, Gives (fun ask => Parse.residual ask true s n) d.graph r g ∧
      Verdict e.language 0 s r messages ∧ g.journal = (d.graph.notes messages).journal := by
  obtain ⟨-, C, roots, x, grounded⟩ := reached.grounded
  obtain ⟨y, weighed⟩ := reached.weighed
  have by_ : (Call.residual true s n).By fun c => c.hashable = true := hashable
  obtain ⟨C', rested, takes⟩ := (grounded.rested rfl).takes by_
  have valid : (watching languages C' roots).Valid (x, y) d.graph := ⟨rested, weighed.rested⟩
  obtain ⟨r, g, gives, _, _, _, messages, verdict, journal⟩ :=
    residualFrom_ends 0 valid (weighed.nodes (e, n) written) (fun none => absurd none some_) takes
  exact ⟨r, g, messages, gives, verdict, journal⟩

/-- A one can be followed by ones, but not by a two. -/
theorem repeated_rejectedAt :
    RejectedAt (Regular.rep (.char (.int 1))).language [.int 1, .int 2] 1 := by
  rw [Regular.language, Regular.language]
  have ones {s : List Value} (member : s ∈ (matching (.int 1))∗) :
      ∀ c ∈ s, (Value.int 1).same c = true := by
    obtain ⟨ss, rfl, parts⟩ := Language.mem_kstar.mp member
    intro c inside
    obtain ⟨t, there, inside⟩ := List.mem_flatten.mp inside
    obtain ⟨a, rfl, same⟩ := parts t there
    exact List.mem_singleton.mp inside ▸ same
  refine ⟨by decide, fun t member => ?_, fun q lt stuck => ?_⟩
  · exact absurd (ones member (.int 2) (by simp)) (by decide)
  · obtain rfl := Nat.lt_one_iff.mp lt
    refine stuck [] (Language.mem_kstar.mpr ⟨[[.int 1]], rfl, fun s there => ?_⟩)
    rw [List.mem_singleton.mp there]
    exact ⟨.int 1, rfl, rfl⟩

theorem residual_rejects_repeated : repeated.Reached ∧
    (.rep (.char (.int 1)), 3) ∈ repeated.nodes ∧ [Value.int 1, Value.int 2] ≠ [] ∧
    (∀ c ∈ [Value.int 1, Value.int 2], c.hashable = true) ∧
    ∃ g, Gives (fun ask => Parse.residual ask true [.int 1, .int 2] 3) repeated.graph
      ⟨.empty, 2⟩ g := by
  have hashable : ∀ c ∈ [Value.int 1, Value.int 2], c.hashable = true := by simp [Value.hashable]
  have written : (.rep (.char (.int 1)), 3) ∈ repeated.nodes := List.mem_cons_self
  have some_ : [Value.int 1, Value.int 2] ≠ [] := List.cons_ne_nil _ _
  obtain ⟨r, g, messages, gives, verdict, -⟩ :=
    residual_rejects repeated_reached written some_ hashable
  cases (verdict.rejected 1).mpr repeated_rejectedAt
  exact ⟨repeated_reached, written, some_, hashable, g, gives⟩

end Draft

end GrammarGraph
