import GrammarGraph.Proofs.Sketch

/-! Runs that mirror each other. The run in the sketch and the one in the larger graph end alike,
with the same fault or with values of which one is placed where the other is, and they leave a
sketch and a graph that it is a sketch of. -/
namespace GrammarGraph

variable {K : Cast} {p q : Placing K} {α α' β β' : Type}

/-- How the ends of two runs compare. The second run began with the graph `g`. -/
inductive Met (p : Placing K) (g : Graph) (V : Placing K → α → α' → Prop) :
    Option (Except Fault α × Graph) → Option (Except Fault α' × Graph) → Prop where
  /-- The first run may only be spent before the second if it does less. -/
  | spent {o : Option (Except Fault α' × Graph)} : (K.strict → o = none) → Met p g V none o
  | ended {q : Placing K} {result : Except Fault α} {result' : Except Fault α'} {h₁ g₁ : Graph} :
      Step p q g g₁ → Sketches q h₁ g₁ → Ended (V q) result result' →
      Met p g V (some (result, h₁)) (some (result', g₁))

/-- What was done before is a part of what was done. -/
theorem Met.after {V : Placing K → α → α' → Prop} {g g₁ : Graph}
    {o : Option (Except Fault α × Graph)} {o' : Option (Except Fault α' × Graph)}
    (step : Step p q g g₁) (met : Met q g₁ V o o') : Met p g V o o' := by
  cases met with
  | spent both => exact .spent both
  | ended step' s related => exact .ended (step.trans step') s related

/-- What `r` does in a sketch that `p` places, `r'` does in the larger graph. -/
def Mirrors (p : Placing K) (V : Placing K → α → α' → Prop) (r : Run α) (r' : Run α') : Prop :=
  ∀ h g, Sketches p h g → Met p g V (r h) (r' g)

namespace Mirrors

variable {r : Run α} {r' : Run α'} {f : α → Run β} {f' : α' → Run β'}
  {V : Placing K → α → α' → Prop} {U : Placing K → β → β' → Prop}

theorem ofExcept {result : Except Fault α} {result' : Except Fault α'}
    (related : Ended (V p) result result') :
    Mirrors p V (RunOf.ofExcept result) (RunOf.ofExcept result') :=
  fun _ g s => .ended (.refl p g) s related

theorem pure {a : α} {a' : α'} (related : V p a a') : Mirrors p V (pure a) (pure a') :=
  ofExcept (.value related)

theorem fault (fault : Fault) : Mirrors p V (throw fault) (throw fault) :=
  ofExcept (.fault fault)

theorem spent : Mirrors p V RunOf.spent RunOf.spent :=
  fun _ _ _ => .spent fun _ => rfl

theorem bind (hr : Mirrors p V r r')
    (hf : ∀ q v v', p.Le q → V q v v' → Mirrors q U (f v) (f' v')) :
    Mirrors p U (r >>= f) (r' >>= f') := by
  intro h g s
  have met := hr h g s
  rw [RunOf.bind_run, RunOf.bind_run]
  generalize r h = o at met ⊢
  generalize r' g = o' at met ⊢
  cases met with
  | spent both => exact .spent fun strict => by rw [both strict]; rfl
  | ended step s' related =>
    cases related with
    | fault => exact .ended step s' (.fault _)
    | value related => exact .after step (hf _ _ _ step.le related _ _ s')

theorem read {T : β → β' → Prop} {f : Graph → β} {f' : Graph → β'} {k : β → Run α}
    {k' : β' → Run α'} (related : ∀ h g, Sketches p h g → T (f h) (f' g))
    (rest : ∀ b b', T b b' → Mirrors p V (k b) (k' b')) :
    Mirrors p V (RunOf.read f >>= k) (RunOf.read f' >>= k') :=
  fun h g s => rest _ _ (related h g s) h g s

/-- What is read is the same in both. -/
theorem same {f f' : Graph → β} {k : β → Run α} {k' : β → Run α'}
    (same : ∀ h g, Sketches p h g → f' g = f h) (rest : ∀ b, Mirrors p V (k b) (k' b)) :
    Mirrors p V (RunOf.read f >>= k) (RunOf.read f' >>= k') := by
  refine read (T := fun b b' => b' = b) same fun b b' same => ?_
  rw [same]
  exact rest b

theorem update {f f' : Graph → Graph} {k : Unit → Run α} {k' : Unit → Run α'}
    (steps : ∀ h g, Sketches p h g → Step p p g (f' g))
    (keeps : ∀ h g, Sketches p h g → Sketches p (f h) (f' g))
    (rest : Mirrors p V (k ()) (k' ())) :
    Mirrors p V (RunOf.update f >>= k) (RunOf.update f' >>= k') :=
  fun h g s => .after (steps h g s) (rest _ _ (keeps h g s))

theorem given {T : β → β' → Prop} {result : Except Fault β} {result' : Except Fault β'}
    {k : β → Run α} {k' : β' → Run α'} (related : Ended T result result')
    (rest : ∀ b b', T b b' → Mirrors p V (k b) (k' b')) :
    Mirrors p V (RunOf.ofExcept result >>= k) (RunOf.ofExcept result' >>= k') := by
  cases related with
  | fault f => exact Mirrors.fault f
  | value related => exact rest _ _ related

/-- A run whose end is looked at. -/
theorem outcome {k : Except Fault α → Run β} {k' : Except Fault α' → Run β'}
    (hr : Mirrors p V r r')
    (rest : ∀ q result result', p.Le q → Ended (V q) result result' →
      Mirrors q U (k result) (k' result')) :
    Mirrors p U (r.outcome >>= k) (r'.outcome >>= k') := by
  intro h g s
  have met := hr h g s
  rw [RunOf.outcome_bind, RunOf.outcome_bind]
  generalize r h = o at met ⊢
  generalize r' g = o' at met ⊢
  cases met with
  | spent both => exact .spent fun strict => by rw [both strict]; rfl
  | ended step s' related => exact .after step (rest _ _ _ step.le related _ _ s')

theorem make {node node' : Node} (nodes : p.Nodes node node') :
    Mirrors p (fun q n n' => q.At n n' ∧ n ≠ .empty ∧ n ≠ .eps) (Run.make node)
      (Run.make node') :=
  fun h g s => .ended (.addNode p h.nodes.size g node') (s.addNode nodes)
    (.value ⟨.inr ⟨rfl, rfl⟩, s.ne_atom_of_le (Nat.le_refl _)⟩)

theorem defer {x x' : Suspension} (suspensions : p.Suspensions x x') :
    Mirrors p Placing.AtCell (Run.defer x) (Run.defer x') :=
  fun h g s => .ended (.addCell p h.cells.size g x') (s.addCell suspensions)
    (.value (.inr ⟨rfl, rfl⟩))

theorem mapM {f : α → Run β} {f' : α → Run β'}
    (stable : ∀ {q q' b b'}, Placing.Le q q' → U q b b' → U q' b b') {as : List α}
    (each : ∀ a ∈ as, ∀ q, p.Le q → Mirrors q U (f a) (f' a)) :
    Mirrors p (fun q => List.Forall₂ (U q)) (as.mapM f) (as.mapM f') := by
  induction as generalizing p with
  | nil =>
    rw [List.mapM_nil, List.mapM_nil]
    exact pure .nil
  | cons a as ih =>
    rw [List.mapM_cons, List.mapM_cons]
    refine bind (each a List.mem_cons_self p (.refl p)) fun q b b' le hb => ?_
    refine bind (ih fun c member q' le' => each c (List.mem_cons_of_mem _ member) q' (le.trans le'))
      fun q' bs bs' le' hbs => ?_
    exact pure (.cons (stable le' hb) hbs)

theorem either {a b a' b' : Run Bool} (ha : Mirrors p (fun _ => Eq) a a')
    (hb : ∀ q, p.Le q → Mirrors q (fun _ => Eq) b b') :
    Mirrors p (fun _ => Eq) (Run.either a b) (Run.either a' b') := by
  refine bind ha fun q v v' le same => ?_
  subst same
  cases v with
  | true => exact pure rfl
  | false => exact hb q le

theorem both {a b a' b' : Run Bool} (ha : Mirrors p (fun _ => Eq) a a')
    (hb : ∀ q, p.Le q → Mirrors q (fun _ => Eq) b b') :
    Mirrors p (fun _ => Eq) (Run.both a b) (Run.both a' b') := by
  refine bind ha fun q v v' le same => ?_
  subst same
  cases v with
  | true => exact hb q le
  | false => exact pure rfl

end Mirrors

namespace Cast

/-- The rules, for the first run. -/
def body (K : Cast) (ask : Ask) : (i : Evaluator) → NodeId → Run i.Result
  | .forest, n => K.forest ask n
  | .nullable, n => Emptiness.nullable ask n
  | .emptyLike, n => Emptiness.emptyLike ask n
  | .epsLike, n => Emptiness.epsLike ask n
  | .compact, n => Compaction.compact ask n

theorem body_atom {i : Evaluator} (ask : Ask) {g : Graph} {n : NodeId} {v : i.Result}
    (atoms : g.HasAtoms) (known : i.atom n = some v) : K.body ask i n g = some (.ok v, g) := by
  rw [← Evaluator.body_atom ask atoms known]
  cases i with
  | forest =>
    have other : (g.node n).kind ≠ .alt := by
      intro kind
      rcases Evaluator.eq_of_atom known with rfl | rfl
      · rw [atoms.empty] at kind; cases kind
      · rw [atoms.eps] at kind; cases kind
    simp only [body, Cast.forest, Run.kind, RunOf.read_bind]
    rfl
  | nullable | emptyLike | epsLike | compact => rfl

end Cast

namespace Evaluator

variable {i : Evaluator} {g : Graph} {n : NodeId} {v : i.Result} {body : Run i.Result}

theorem modify_id : i.held.modify id g = g := by
  cases i <;> rfl

/-- An atom is asked for. -/
theorem demand_atom (settles : (i.of g).Settles n v) (default : Run i.Result)
    (atoms : g.HasAtoms) (gives : ∀ {g : Graph}, g.HasAtoms → body g = some (.ok v, g)) :
    ∃ f, (f = id ∨ f = Evaluation.learn n v) ∧
      Evaluation.demand i.held default body n g = some (.ok v, i.held.modify f g) := by
  rcases settles with fresh | stored
  · refine ⟨_, .inr rfl, ?_⟩
    have entered : (i.held.modify (Evaluation.enter n) g).HasAtoms :=
      atoms.of_node fun _ _ => Graph.node_congr (Evaluator.nodes_modify _) _
    rw [Evaluation.demand_fresh fresh.stored fresh.active fresh.provisional (gives entered),
      Evaluator.modify_modify, Evaluator.modify_modify]
    · rfl
    · change (i.of _).lowlink = _
      rw [Evaluator.of_modify]
      exact Evaluation.lowlink_of_frames Evaluation.frames_enter
  · refine ⟨id, .inl rfl, ?_⟩
    rw [Evaluation.demand_stored stored, modify_id]

end Evaluator

/-- The derivative of an atom is asked for. -/
theorem Derivative.demand_atom (ask : Ask) {g : Graph} {n d : NodeId} {c : Value}
    (settles : g.derivatives.Settles n c d) (hashable : c.hashable = true)
    (idle : g.derivatives.isStarted n c = false) (atoms : g.HasAtoms)
    (known : atom n = some d) :
    ∃ f, (f = id ∨ f = Memo.finish n c d) ∧
      Memo.demand .derivatives "derive" (derive ask c n) n c g =
        some (.ok d, Held.derivatives.modify f g) := by
  rcases settles with absent | found
  · refine ⟨_, .inr rfl, ?_⟩
    have started : (Held.derivatives.modify (Memo.start n c) g).HasAtoms :=
      atoms.of_node fun _ _ => rfl
    rw [Memo.demand_absent hashable absent idle (derive_atom started known)]
    have stopped : (g.derivatives.start n c).stop n c = g.derivatives := by
      simp [Memo.start, Memo.stop]
    change some (Except.ok d, { g with
      derivatives := ((g.derivatives.start n c).stop n c).finish n c d }) = _
    rw [stopped]
    rfl
  · exact ⟨id, .inl rfl, Memo.demand_finished hashable found⟩

namespace Sketches

variable {h g : Graph} {n n' : NodeId} {i : Evaluator} (s : Sketches p h g)
include s

theorem results_atom {v : i.Result} (known : i.atom n = some v) : p.Results i v v := by
  unfold Evaluator.atom at known
  split at known
  · cases known
    cases i <;> first | exact K.none | exact s.empty | rfl
  · split at known
    · cases known
      cases i <;> first | exact K.trivial | exact s.eps | rfl
    · cases known

end Sketches

namespace Mirrors

variable {n n' : NodeId}

theorem atom {i : Evaluator} {v : i.Result} {ask ask' : Ask} (placed : p.At n n')
    (known : i.atom n = some v) (default default' : Run i.Result) :
    Mirrors p (fun q => q.Results i) (Evaluation.demand i.held default (K.body ask i n) n)
      (Evaluation.demand i.held default' (i.body ask' n') n') := by
  intro h g s
  obtain rfl := s.eq_of_atom (Evaluator.eq_of_atom known) placed
  obtain ⟨here, there⟩ := (s.books i).atoms placed known
  obtain ⟨f, learned, ends⟩ := Evaluator.demand_atom here default s.atoms
    fun atoms => K.body_atom ask atoms known
  obtain ⟨f', learned', ends'⟩ := Evaluator.demand_atom there default' s.atoms'
    fun atoms => Evaluator.body_atom ask' atoms known
  obtain ⟨lt, lt'⟩ := s.inside placed
  rw [ends, ends']
  refine .ended (q := p) (.modify fun m free => ?_) (s.modify ?_ ?_) (.value (s.results_atom known))
  · rcases learned' with rfl | rfl
    · rfl
    · rw [Evaluation.stored_learn, if_neg (Placing.ne_of_not_covers placed free)]
  · have left : Evaluation.Agrees p.At (p.Results i) i.atom (f (i.of h)) (i.of g) := by
      rcases learned with rfl | rfl
      · exact s.books i
      · exact (s.books i).learn_left placed known
    rcases learned' with rfl | rfl
    · exact left
    · exact left.learn_right placed known
  · constructor
    · rcases learned with rfl | rfl
      · exact (s.known i).1
      · exact (s.known i).1.learn lt v
    · rcases learned' with rfl | rfl
      · exact (s.known i).2
      · exact (s.known i).2.learn lt' v

/-- An evaluator asked for a node of the sketch, and for the one in its place. -/
theorem evaluation (i : Evaluator) (ask ask' : Ask) (placed : p.At n n')
    (onBody : ∀ q, p.Le q → Mirrors q (fun q => q.Results i) (K.body ask i n) (i.body ask' n')) :
    Mirrors p (fun q => q.Results i)
      (Evaluation.demand i.held (i.default n) (K.body ask i n) n)
      (Evaluation.demand i.held (i.default n') (i.body ask' n') n') := by
  cases known : i.atom n with
  | some v => exact atom placed known _ _
  | none =>
    have default : Mirrors p (fun q => q.Results i) (i.default n) (i.default n') := by
      cases i
      case forest => exact pure K.none
      case compact => exact pure placed
      all_goals exact pure rfl
    unfold Evaluation.demand
    refine read (fun h g s => (s.books i).stands placed known) fun standing standing' stands => ?_
    cases stands with
    | stored value => exact pure value
    | active depth =>
      exact update (fun h g s => .modify fun _ _ => rfl) (fun h g s =>
        s.modify ((s.books i).reliedOn depth)
          ⟨(s.known i).1.reliedOn depth, (s.known i).2.reliedOn depth⟩) default
    | @provisional entry entry' agrees =>
      refine update (fun h g s => .modify fun _ _ => rfl) (fun h g s => ?_) (pure agrees.value)
      rw [agrees.lowlink]
      exact s.modify ((s.books i).reliedOn _)
        ⟨(s.known i).1.reliedOn _, (s.known i).2.reliedOn _⟩
    | fresh depth =>
      refine update (fun h g s => .modify fun _ _ => rfl) (fun h g s =>
        s.modify ((s.books i).enter placed known)
          ⟨(s.known i).1.enter (s.inside placed).1, (s.known i).2.enter (s.inside placed).2⟩) ?_
      refine outcome (onBody p (.refl p)) fun q result result' le related => ?_
      have placed := le.node placed
      refine same (fun h g s => (s.books i).lowlink) fun lowlink => ?_
      refine update (fun h g s => .modify fun _ _ => rfl) (fun h g s =>
        s.modify ((s.books i).leave placed known)
          ⟨(s.known i).1.leave n, (s.known i).2.leave n'⟩) ?_
      refine given related fun v v' value => ?_
      split
      · exact update (fun h g s => .modify fun _ _ => rfl) (fun h g s =>
          s.modify ((s.books i).postpone placed known value _)
            ⟨(s.known i).1.postpone (s.inside placed).1 _,
              (s.known i).2.postpone (s.inside placed).2 _⟩) (pure value)
      · exact update (fun h g s => .modify fun m free => by
            rw [Evaluation.stored_store, if_neg (Placing.ne_of_not_covers placed free)])
          (fun h g s => s.modify ((s.books i).store placed known value)
            ⟨(s.known i).1.store (s.inside placed).1,
              (s.known i).2.store (s.inside placed).2⟩) (pure value)

/-- The derivative of a node of the sketch, and that of the one in its place. -/
theorem memo {ask ask' : Ask} {c c' : Value} (placed : p.At n n') (key : K.Symbols c c')
    (onBody : ∀ q, p.Le q →
      Mirrors q Placing.At (Derivative.derive ask c n) (Derivative.derive ask' c' n')) :
    Mirrors p Placing.At (Memo.demand .derivatives "derive" (Derivative.derive ask c n) n c)
      (Memo.demand .derivatives "derive" (Derivative.derive ask' c' n') n' c') := by
  have same_hashable := K.hashable key
  cases hashable : c.hashable with
  | false =>
    rw [hashable] at same_hashable
    unfold Memo.demand Value.hashed
    rw [hashable, same_hashable]
    exact fault _
  | true =>
    rw [hashable] at same_hashable
    cases known : Derivative.atom n with
    | some d =>
      intro h g s
      obtain ⟨atom, rfl⟩ := Derivative.eq_of_atom known
      obtain rfl := s.eq_of_atom atom placed
      obtain ⟨here, there⟩ := s.derivatives.atoms placed key known
      have idle := s.derivatives.not_started (c := c) known
      obtain ⟨f, learned, ends⟩ := Derivative.demand_atom ask here hashable idle s.atoms known
      obtain ⟨f', learned', ends'⟩ := Derivative.demand_atom ask' there same_hashable
        ((s.derivatives.isStarted placed key).trans idle) s.atoms' known
      obtain ⟨lt, lt'⟩ := s.inside placed
      rw [ends, ends']
      refine .ended (q := p) (.record fun m b free => ?_) (s.record ?_ ?_)
        (.value s.empty)
      · rcases learned' with rfl | rfl
        · rfl
        · rw [Memo.find?_finish, if_neg fun hit => Placing.ne_of_not_covers placed free hit.1]
      · have left : Memo.Agrees p.At p.At K.Symbols Derivative.atom (f h.derivatives)
            g.derivatives := by
          rcases learned with rfl | rfl
          · exact s.derivatives
          · exact s.derivatives.learn_left known
        rcases learned' with rfl | rfl
        · exact left
        · exact left.learn_right placed known
      · constructor
        · rcases learned with rfl | rfl
          · exact s.derived.1
          · exact s.derived.1.finish lt
        · rcases learned' with rfl | rfl
          · exact s.derived.2
          · exact s.derived.2.finish lt'
    | none =>
      unfold Memo.demand
      rw [Value.hashed_ok.mpr ⟨hashable, rfl⟩, Value.hashed_ok.mpr ⟨same_hashable, rfl⟩]
      refine given (T := fun b b' => b = c ∧ b' = c') (.value ⟨rfl, rfl⟩) fun b b' same => ?_
      obtain ⟨rfl, rfl⟩ := same
      refine read (T := Memo.Stands p.At)
        (fun h g s => s.derivatives.progress placed key known) fun state state' agrees => ?_
      cases agrees with
      | finished result => exact pure result
      | started => exact fault _
      | absent =>
        refine update (fun h g s => .record fun _ _ _ => rfl) (fun h g s =>
          s.record (s.derivatives.start placed key known) ⟨s.derived.1, s.derived.2⟩) ?_
        refine outcome (onBody p (.refl p)) fun q result result' le related => ?_
        have placed := le.node placed
        refine update (fun h g s => .record fun _ _ _ => rfl) (fun h g s =>
          s.record (s.derivatives.stop placed key) ⟨s.derived.1, s.derived.2⟩) ?_
        refine given related fun d d' hd => ?_
        exact update (fun h g s => .record fun m a free => by
            rw [Memo.find?_finish, if_neg fun hit => Placing.ne_of_not_covers placed free hit.1])
          (fun h g s => s.record (s.derivatives.finish placed key hd known)
            ⟨s.derived.1.finish (s.inside placed).1, s.derived.2.finish (s.inside placed).2⟩)
          (pure hd)

/-- The child of a node of the sketch, and that of the one in its place. -/
theorem child {ask ask' : Ask} {side : Side} (placed : p.At n n')
    (onCompute : ∀ q x x', p.Le q → q.Suspensions x x' →
      Mirrors q Placing.Operands (Child.compute ask x) (Child.compute ask' x')) :
    Mirrors p (fun q => Option.Rel q.At) (Child.read ask n side) (Child.read ask' n' side) := by
  unfold Child.read
  refine read (T := fun y y' => p.Slots y y' ∧ (y ≠ .vacant → n ≠ .empty ∧ n ≠ .eps))
    (fun h g s => ⟨(s.nodes placed).slot side, fun filled => ?_⟩) fun slot slot' slots => ?_
  · refine ⟨fun same => filled ?_, fun same => filled ?_⟩
    · rw [same, s.atoms.empty]
      cases side <;> rfl
    · rw [same, s.atoms.eps]
      cases side <;> rfl
  obtain ⟨slots, compound⟩ := slots
  cases slot with
  | vacant =>
    cases slot' with
    | vacant => exact pure .none
    | node | deferred => exact slots.elim
  | node k =>
    cases slot' with
    | node k' => exact pure (.some slots)
    | vacant | deferred => exact slots.elim
  | deferred cell =>
    cases slot' with
    | vacant | node => exact slots.elim
    | deferred cell' =>
      refine read (T := Option.Rel p.Cells) (fun h g s => s.cells slots)
        fun content content' contents => ?_
      cases contents with
      | none => exact pure .none
      | @some content content' agrees =>
        obtain ⟨x, forcing⟩ := content
        obtain ⟨x', forcing'⟩ := content'
        obtain rfl : forcing' = forcing := agrees.forcing
        cases forcing' with
        | true => exact fault _
        | false =>
          refine bind (V := Placing.At) ?_ fun q k k' le hk => ?_
          · refine update (fun h g s => .setForcing slots true)
              (fun h g s => s.setForcing slots true) ?_
            refine outcome (onCompute p x x' (.refl p) agrees.suspension)
              fun q result result' le related => ?_
            have slots : q.AtCell cell cell' := le.cell slots
            refine update (fun h g s => .setForcing slots false)
              (fun h g s => s.setForcing slots false) ?_
            refine given related fun operand operand' operands => ?_
            rcases Placing.operands_cases operands with
              ⟨k, k', rfl, rfl, hk⟩ | ⟨y, y', rfl, rfl, _⟩ | ⟨name, rfl, rfl⟩
            · exact pure hk
            · exact fault _
            · exact fault _
          · have compound := compound fun vacant => nomatch vacant
            exact update (fun h g s => .setSlot (le.node placed) (s.inside (le.node placed)).2 _ _)
              (fun h g s => s.setSlot (le.node placed) compound side hk) (pure (.some hk))

end Mirrors

end GrammarGraph
