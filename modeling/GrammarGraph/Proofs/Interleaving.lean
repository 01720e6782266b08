import GrammarGraph.Proofs.Balance.Sessions
import GrammarGraph.Proofs.Sketch.Sessions

/-! Parties that take turns on one graph. Each builds grammars under its own names and asks about
them; the parties share no nodes but the atoms. Whoever takes part, and in whatever order the turns
come, a party gets the replies and the faults that it would get alone. -/
namespace GrammarGraph

namespace Evaluation

variable {α : Type} {At : Nat → Nat → Prop} {V : α → α → Prop} {atom : Nat → Option α}
  {e e' e₁ : Evaluation α}

theorem Agrees.replace (h : Agrees At V atom e e') (rest : e.Resting) (rest₁ : e₁.Resting)
    (stored : ∀ {n n'}, At n n' → atom n = none → e₁.stored.get? n' = e'.stored.get? n')
    (atoms : ∀ {n n' v}, At n n' → atom n = some v → e₁.Settles n' v) : Agrees At V atom e e₁ where
  matching := h.matching
  atoms placed known := ⟨(h.atoms placed known).1, atoms placed known⟩
  entries {n n'} placed other := by
    refine ⟨?_, by rw [rest.active, rest₁.active], ?_⟩
    · rw [stored placed other]
      exact (h.entries placed other).stored
    · rw [rest.provisional, rest₁.provisional]
      exact .none
  size := by rw [rest.frames, rest₁.frames]
  frames d := by
    rw [rest.frames, rest₁.frames]
    exact .none

end Evaluation

namespace Memo

variable {ρ : Type} {At : Nat → Nat → Prop} {R : ρ → ρ → Prop} {atom : Nat → Option ρ}
  {m m' m₁ : Memo ρ}

theorem Agrees.replace (h : Agrees At R Eq atom m m') (rest : m.inProgress = [])
    (rest₁ : m₁.inProgress = [])
    (found : ∀ {n n'} c, At n n' → atom n = none → m₁.find? n' c = m'.find? n' c)
    (atoms : ∀ {n n' d} c, At n n' → atom n = some d → m₁.Settles n' c d) :
    Agrees At R Eq atom m m₁ where
  matching := h.matching
  keys := h.keys
  atoms placed key known := ⟨(h.atoms placed key known).1, atoms _ placed known⟩
  entries placed key other := by
    rw [found _ placed other]
    exact h.entries placed key other
  started := by
    rw [rest, rest₁]
    exact .nil
  compound := h.compound

end Memo

namespace Sketches

variable {owns owns' : String → Prop} {p : Placing (.same owns)} {o o' : Placing (.same owns')}
  {h h' g g₁ : Graph}

theorem undisturbed (s : Sketches p h g) (rest : h.Resting) (step : Step o o' g g₁)
    (next : Sketches o' h' g₁) (rest₁ : g₁.Resting) (silent : g.journal = none)
    (apart : ∀ {n m n'}, p.At n n' → o.At m n' → n' = .empty ∨ n' = .eps)
    (apartCells : ∀ {c}, p.CoversCell c → ¬ o.CoversCell c)
    (foreign : ∀ {x}, owns x → ¬ owns' x) : Sketches p h g₁ := by
  have node {n n' : NodeId} (placed : p.At n n') : g₁.node n' = g.node n' := by
    by_cases covered : o.Covers n'
    · obtain ⟨m, there⟩ := covered
      rcases apart placed there with rfl | rfl
      · rw [next.atoms'.empty, s.atoms'.empty]
      · rw [next.atoms'.eps, s.atoms'.eps]
    · exact step.node (s.inside placed).2 covered
  have free {n n' : NodeId} (placed : p.At n n') (ne : n ≠ .empty ∧ n ≠ .eps) : ¬ o.Covers n' := by
    rintro ⟨m, there⟩
    exact (apart placed there).elim (s.ne_atom placed ne).1 (s.ne_atom placed ne).2
  exact {
    matching := s.matching
    matchingCells := s.matchingCells
    inside := fun placed => (s.inside placed).imp_right fun lt => Nat.lt_of_lt_of_le lt step.size
    insideCells := fun placed =>
      (s.insideCells placed).imp_right fun lt => Nat.lt_of_lt_of_le lt step.cellsSize
    empty := s.empty
    eps := s.eps
    atoms := s.atoms
    atoms' := next.atoms'
    nodes := fun placed => by rw [node placed]; exact s.nodes placed
    cells := fun placed => by
      rw [step.cell (s.insideCells placed).2 (apartCells ⟨_, placed⟩)]
      exact s.cells placed
    books := fun i => by
      refine (s.books i).replace (rest.books i) (rest₁.books i) (fun placed other => ?_)
        fun {n n' v} placed known => ?_
      · exact step.stored i (s.inside placed).2 (free placed (Evaluator.atom_eq_none.mp other))
      · have atom := Evaluator.eq_of_atom known
        obtain rfl := s.eq_of_atom atom placed
        exact ((next.books i).atoms (next.at_atom atom) known).2
    derivatives := by
      refine s.derivatives.replace rest.started rest₁.started (fun c placed other => ?_)
        fun {n n' d} c placed known => ?_
      · exact step.derived c (s.inside placed).2 (free placed (Derivative.atom_eq_none.mp other))
      · have atom := (Derivative.eq_of_atom known).1
        obtain rfl := s.eq_of_atom atom placed
        exact (next.derivatives.atoms (c := c) (next.at_atom atom) rfl known).2
    known := fun i => ⟨(s.known i).1, (next.known i).2⟩
    derived := ⟨s.derived.1, next.derived.2⟩
    names := fun owned => by rw [step.names (foreign owned)]; exact s.names owned
    journal := by rw [step.silent silent, ← s.journal, silent] }

end Sketches

namespace Session

variable {ι : Type}

/-- A party's operation, and how deep it may go. -/
structure Turn (ι : Type) where
  party : ι
  bound : Nat
  op : Operation

/-- Takes the turns one after the other, whatever comes of each, and tells who got which reply. -/
def play : List (Turn ι) → Session → Option (List (ι × Except Fault Reply) × Session)
  | [], s => some ([], s)
  | turn :: turns, s => do
    let (reply, s₁) ← perform turn.bound turn.op s
    let (replies, s₂) ← play turns s₁
    some ((turn.party, reply) :: replies, s₂)

theorem play_cons {i : ι} {bound : Nat} {op : Operation} {s s₁ : Session}
    {reply : Except Fault Reply} (ran : perform bound op s = some (reply, s₁))
    (turns : List (Turn ι)) : play (⟨i, bound, op⟩ :: turns) s =
      (play turns s₁).map fun (replies, s₂) => ((i, reply) :: replies, s₂) := by
  rw [play, ran]
  change (play turns s₁).bind _ = _
  cases play turns s₁ <;> rfl

theorem play_cons_spent {i : ι} {bound : Nat} {op : Operation} {s : Session}
    (spent : perform bound op s = none) (turns : List (Turn ι)) :
    play (⟨i, bound, op⟩ :: turns) s = none := by
  rw [play, spent]
  rfl

def replies (turns : List (Turn ι)) : Option (List (ι × Except Fault Reply)) :=
  (play turns {}).map Prod.fst

abbrev names (owner : String → ι) (i : ι) : String → Prop :=
  fun x => owner x = i

/-- Each of the sessions `alone` is a sketch of a part of `s`, and the parts share no nodes but the
atoms. -/
structure Apart (owner : String → ι) (p : ∀ i, Placing (.same (names owner i)))
    (alone : ι → Session) (s : Session) : Prop where
  reached : s.Reached
  each : ∀ i, (alone i).Reached
  silent : s.graph.journal = none
  sketches : ∀ i, Sketches (p i) (alone i).graph s.graph
  nodes : ∀ {i j n m n'}, i ≠ j → (p i).At n n' → (p j).At m n' → n' = .empty ∨ n' = .eps
  cells : ∀ {i j c}, i ≠ j → (p i).CoversCell c → ¬ (p j).CoversCell c

theorem Apart.initial (owner : String → ι) : ∃ p, Apart owner p (fun _ => {}) {} :=
  ⟨_, .start, fun _ => .start, rfl, fun _ => .initial _, fun _ placed _ => placed.1 ▸ placed.2,
    fun _ covered => covered.elim fun _ none => none.elim⟩

variable [DecidableEq ι] {owner : String → ι} {p : ∀ i, Placing (.same (names owner i))}
  {alone : ι → Session} {s : Session}

theorem Apart.next (h : Apart owner p alone s) {i : ι} {q : Placing (.same (names owner i))}
    {h₁ s₁ : Session} (reached : s₁.Reached) (each : h₁.Reached)
    (step : Step (p i) q s.graph s₁.graph) (sketch : Sketches q h₁.graph s₁.graph) :
    Apart owner (Function.update p i q) (Function.update alone i h₁) s₁ := by
  have placed {j : ι} {n n' : NodeId} (there : (Function.update p i q j).At n n') :
      (p j).At n n' ∨ j = i ∧ s.graph.nodes.size ≤ n' := by
    by_cases here : j = i
    · subst here
      rw [Function.update_self] at there
      exact (step.fresh there).imp_right fun new => ⟨rfl, new⟩
    · rw [Function.update_of_ne here] at there
      exact .inl there
  have placedCell {j : ι} {c c' : CellId} (there : (Function.update p i q j).AtCell c c') :
      (p j).AtCell c c' ∨ j = i ∧ s.graph.cells.size ≤ c' := by
    by_cases here : j = i
    · subst here
      rw [Function.update_self] at there
      exact (step.freshCells there).imp_right fun new => ⟨rfl, new⟩
    · rw [Function.update_of_ne here] at there
      exact .inl there
  refine ⟨reached, fun j => ?_, step.silent h.silent, fun j => ?_, fun {j k n m n'} ne hj hk => ?_,
    fun {j k c'} ne ⟨c, hj⟩ ⟨d, hk⟩ => ?_⟩
  · by_cases here : j = i
    · subst here
      rw [Function.update_self]
      exact each
    · rw [Function.update_of_ne here]
      exact h.each j
  · by_cases here : j = i
    · subst here
      rw [Function.update_self, Function.update_self]
      exact sketch
    · rw [Function.update_of_ne here, Function.update_of_ne here]
      exact (h.sketches j).undisturbed (h.each j).resting.graph step sketch reached.resting.graph
        h.silent (h.nodes here) (h.cells here) fun mine other => here (mine.symm.trans other)
  · rcases placed hj with old | ⟨rfl, new⟩ <;> rcases placed hk with old' | ⟨rfl, new'⟩
    · exact h.nodes ne old old'
    · exact absurd ((h.sketches j).inside old).2 (Nat.not_lt_of_le new')
    · exact absurd ((h.sketches k).inside old').2 (Nat.not_lt_of_le new)
    · exact absurd rfl ne
  · rcases placedCell hj with old | ⟨rfl, new⟩ <;> rcases placedCell hk with old' | ⟨rfl, new'⟩
    · exact h.cells ne ⟨c, old⟩ ⟨d, old'⟩
    · exact absurd ((h.sketches j).insideCells old).2 (Nat.not_lt_of_le new')
    · exact absurd ((h.sketches k).insideCells old').2 (Nat.not_lt_of_le new)
    · exact absurd rfl ne

/-- A turn comes to the same for the party alone as among the others, and the others do not notice
it. -/
theorem Apart.turn (h : Apart owner p alone s) (bound : Nat) {op : Operation} {i : ι}
    (own : op.Own (names owner i)) :
    perform bound op (alone i) = none ∧ perform bound op s = none ∨
    ∃ reply h₁ s₁ p', perform bound op (alone i) = some (reply, h₁) ∧
      perform bound op s = some (reply, s₁) ∧ Apart owner p' (Function.update alone i h₁) s₁ := by
  have met := perform_follows (p := p i) bound own (alone i) s (h.sketches i)
  cases first : perform bound op (alone i) with
  | none =>
    rw [first] at met
    refine .inl ⟨rfl, ?_⟩
    cases met with
    | spent both => exact Option.map_eq_none_iff.mp (both True.intro)
  | some end_ =>
    obtain ⟨reply, h₁⟩ := end_
    rw [first] at met
    cases second : perform bound op s with
    | none => rw [second] at met; cases met
    | some end_' =>
      obtain ⟨reply', s₁⟩ := end_'
      rw [second] at met
      cases met with
      | @ended q _ _ _ _ step next same =>
        obtain rfl := same.eq
        have reached : s₁.Reached := .perform bound op h.reached second
        exact .inr ⟨reply, h₁, s₁, _, rfl, rfl, h.next reached (.perform bound op (h.each i) first)
          step next⟩

theorem Apart.play (h : Apart owner p alone s) {turns : List (Turn ι)}
    (owned : ∀ turn ∈ turns, turn.op.Own (names owner turn.party)) :
    (∀ {replies s'}, play turns s = some (replies, s') → ∀ i, ∃ s'',
      play (turns.filter (·.party = i)) (alone i) = some (replies.filter (·.1 = i), s'')) ∧
    ((∀ i, (play (turns.filter (·.party = i)) (alone i)).isSome) → (play turns s).isSome) := by
  induction turns generalizing p alone s with
  | nil => exact ⟨by rintro _ _ ⟨⟩ i; exact ⟨_, rfl⟩, fun _ => rfl⟩
  | cons turn turns ih =>
    obtain ⟨j, bound, op⟩ := turn
    have own := owned _ List.mem_cons_self
    have owned := fun turn member => owned turn (List.mem_cons_of_mem _ member)
    have mine : (⟨j, bound, op⟩ :: turns).filter (·.party = j) =
        ⟨j, bound, op⟩ :: turns.filter (·.party = j) := List.filter_cons_of_pos (by simp)
    have other {i : ι} (ne : i ≠ j) : (⟨j, bound, op⟩ :: turns).filter (·.party = i) =
        turns.filter (·.party = i) := List.filter_cons_of_neg (by simp [ne.symm])
    rcases h.turn bound own with ⟨spent, spent'⟩ | ⟨reply, h₁, s₁, p', alone_, among, later⟩
    · refine ⟨fun ends => ?_, fun all => ?_⟩
      · cases (play_cons_spent spent' turns).symm.trans ends
      · have mine' := all j
        rw [mine, play_cons_spent spent] at mine'
        cases mine'
    · obtain ⟨each, ends⟩ := ih later owned
      refine ⟨fun {replies s'} played i => ?_, fun all => ?_⟩
      · rw [play_cons among] at played
        obtain ⟨⟨rest, s₂⟩, continued, same⟩ := Option.map_eq_some_iff.mp played
        cases same
        obtain ⟨s'', apart⟩ := each continued i
        refine ⟨s'', ?_⟩
        by_cases here : i = j
        · subst here
          rw [Function.update_self] at apart
          rw [mine, play_cons alone_, apart, List.filter_cons_of_pos (by simp)]
          rfl
        · rw [Function.update_of_ne here] at apart
          rw [other here, apart, List.filter_cons_of_neg (by simpa using Ne.symm here)]
      · rw [play_cons among, Option.isSome_map]
        refine ends fun i => ?_
        have all := all i
        by_cases here : i = j
        · subst here
          rw [mine, play_cons alone_, Option.isSome_map] at all
          rwa [Function.update_self]
        · rw [Function.update_of_ne here]
          rwa [other here] at all

/-- Any number of parties, each with its own names, take turns on one graph: they build grammars,
cyclic ones too, from concrete nodes, and differentiate, compact, measure and parse with them. If
the turns come to an end, then each party gets the replies and the faults, in their order, that its
own turns give alone; no reply speaks of the identity of a node. And if the turns of each party come
to an end alone, then they do so among the others. -/
theorem parties_independent (owner : String → ι) (turns : List (Turn ι))
    (owned : ∀ turn ∈ turns, turn.op.Own (names owner turn.party)) :
    (∀ given, replies turns = some given → ∀ i,
      replies (turns.filter (·.party = i)) = some (given.filter (·.1 = i))) ∧
    ((∀ i, (replies (turns.filter (·.party = i))).isSome) → (replies turns).isSome) := by
  obtain ⟨p, apart⟩ := Apart.initial owner
  obtain ⟨each, ends⟩ := apart.play owned
  refine ⟨fun given played i => ?_, fun all => ?_⟩
  · obtain ⟨⟨_, s'⟩, ran, rfl⟩ := Option.map_eq_some_iff.mp played
    obtain ⟨s'', alone⟩ := each ran i
    rw [replies, alone]
    rfl
  · rw [replies, Option.isSome_map]
    exact ends fun i => by simpa [replies] using all i

/-- One party parses ones by left recursion; the other sends a symbol that cannot be hashed and
applies a transform that fails. -/
def mixed : List (Turn Bool) := [
  ⟨true, 20, .bind "l" (.letrec "l" (.cat [.alt [.trivial, .name "l"], .char (.int 1)]))⟩,
  ⟨false, 20, .bind "r" (.red (.char (.int 1)) (.plain "broken" none fun _ =>
    .error (.transform "broken")))⟩,
  ⟨false, 20, .residual [.list []] (.grammar (.name "r") none) none none⟩,
  ⟨true, 20, .parse [.int 1, .int 1] (.grammar (.name "l") none) none⟩,
  ⟨false, 20, .parse [.int 1] (.grammar (.name "r") none) none⟩,
  ⟨true, 20, .nodeCount (.residual [.int 1] (.name "l") true)⟩]

theorem parties_independent_mixed :
    (∀ turn ∈ mixed, turn.op.Own (names (· == "l") turn.party)) ∧
    ∃ given, replies mixed = some given ∧
      given.map (fun r => (r.1, r.2.isOk)) = [(true, true), (false, true), (false, false),
        (true, true), (false, false), (true, true)] ∧
      ∀ i, replies (mixed.filter (·.party = i)) = some (given.filter (·.1 = i)) := by
  have owned : ∀ turn ∈ mixed, turn.op.Own (names (· == "l") turn.party) := by
    simp [mixed, Operation.Own, Term.Own, Term.AllOwn]
  have ends : (replies mixed).map (·.map fun r => (r.1, r.2.isOk)) = some [(true, true),
      (false, true), (false, false), (true, true), (false, false), (true, true)] := by
    decide +kernel
  obtain ⟨given, played, told⟩ := Option.map_eq_some_iff.mp ends
  exact ⟨owned, given, played, told, (parties_independent (· == "l") mixed owned).1 given played⟩

end Session

end GrammarGraph
