import GrammarGraph.Proofs.Sketch.Making

/-! The rules for single nodes in a sketch. Each does in the larger graph what it does in the
sketch, given queries that do; the first run forms only the unions that its cast allows. -/
namespace GrammarGraph

/-- Queries in a sketch and in the larger graph. -/
structure Ask.Mirrored (ask : Ask) (K : Cast) (ask' : Ask) : Prop where
  child? : ∀ {p : Placing K} {n n' : NodeId} (side : Side), p.At n n' →
    Mirrors p (fun q => Option.Rel q.At) (ask.child? n side) (ask'.child? n' side)
  evaluate : ∀ {p : Placing K} {n n' : NodeId} (i : Evaluator), p.At n n' →
    Mirrors p (fun q => q.Results i) (i.ask ask n) (i.ask ask' n')
  derive : ∀ {p : Placing K} {n n' : NodeId} {c c' : Value}, K.Symbols c c' → p.At n n' →
    Mirrors p Placing.At (ask.derive c n) (ask'.derive c' n')
  nodeCount : ∀ {p : Placing K} {n n' : NodeId}, p.At n n' →
    Mirrors p (fun _ => Eq) (ask.nodeCount n) (ask'.nodeCount n')

namespace Ask.Mirrored

open Mirrors (pure bind read given same fault)

variable {K : Cast} {ask ask' : Ask} (a : ask.Mirrored K ask') {p : Placing K} {n n' m m' : NodeId}
  {c c' : Value}
include a

theorem child (side : Side) (placed : p.At n n') :
    Mirrors p Placing.At (ask.child n side) (ask'.child n' side) := by
  refine bind (a.child? side placed) fun q k k' le related => ?_
  cases related with
  | none => exact fault _
  | some hk => exact pure hk

theorem onChild {α : Type} {U : Placing K → α → α → Prop} {f f' : NodeId → Run α} (side : Side)
    (placed : p.At n n') (rest : ∀ q k k', p.Le q → q.At k k' → Mirrors q U (f k) (f' k')) :
    Mirrors p U (ask.child n side >>= f) (ask'.child n' side >>= f') :=
  bind (a.child side placed) rest

theorem children (placed : p.At n n') :
    Mirrors p (fun q => List.Forall₂ q.At) (ask.children n) (ask'.children n') := by
  refine read (T := p.Nodes) (fun h g s => s.nodes placed) fun node node' nodes => ?_
  rw [nodes.sides]
  exact .mapM (U := Placing.At) (fun le => le.node) fun side _ q le => a.child side (le.node placed)

theorem nullable (placed : p.At n n') :
    Mirrors p (fun q => q.Results .nullable) (Emptiness.nullable ask n)
      (Emptiness.nullable ask' n') := by
  have ofChild (q : Placing K) (le : p.Le q) (side : Side) : Mirrors q (fun _ => Eq)
      (ask.child n side >>= ask.nullable) (ask'.child n' side >>= ask'.nullable) :=
    a.onChild side (le.node placed) fun _ _ _ _ hk => a.evaluate .nullable hk
  refine same (fun h g s => s.kind_eq placed) fun kind => ?_
  cases kind with
  | empty | char => exact pure rfl
  | eps | rep => exact pure rfl
  | delta | red => exact ofChild p (.refl p) .first
  | alt => exact .either (ofChild p (.refl p) .first) fun q le => ofChild q le .second
  | cat => exact .both (ofChild p (.refl p) .first) fun q le => ofChild q le .second
  | placeholder | other => exact fault _

theorem emptyLike (placed : p.At n n') :
    Mirrors p (fun q => q.Results .emptyLike) (Emptiness.emptyLike ask n)
      (Emptiness.emptyLike ask' n') := by
  have ofChild (q : Placing K) (le : p.Le q) (side : Side) : Mirrors q (fun _ => Eq)
      (ask.child n side >>= ask.emptyLike) (ask'.child n' side >>= ask'.emptyLike) :=
    a.onChild side (le.node placed) fun _ _ _ _ hk => a.evaluate .emptyLike hk
  refine same (fun h g s => s.kind_eq placed) fun kind => ?_
  cases kind with
  | empty => exact pure rfl
  | eps | char | rep => exact pure rfl
  | alt => exact .both (ofChild p (.refl p) .first) fun q le => ofChild q le .second
  | cat => exact .either (ofChild p (.refl p) .first) fun q le => ofChild q le .second
  | red => exact ofChild p (.refl p) .first
  | delta =>
    refine a.onChild .first placed fun q k k' _ hk =>
      bind (a.evaluate .nullable hk) fun q' v v' _ same => pure ?_
    exact congrArg Bool.not (show v = v' from same)
  | placeholder | other => exact fault _

theorem epsLike (placed : p.At n n') :
    Mirrors p (fun q => q.Results .epsLike) (Emptiness.epsLike ask n)
      (Emptiness.epsLike ask' n') := by
  have ofChild (q : Placing K) (le : p.Le q) (side : Side) : Mirrors q (fun _ => Eq)
      (ask.child n side >>= ask.epsLike) (ask'.child n' side >>= ask'.epsLike) :=
    a.onChild side (le.node placed) fun _ _ _ _ hk => a.evaluate .epsLike hk
  refine same (fun h g s => s.kind_eq placed) fun kind => ?_
  cases kind with
  | empty | char => exact pure rfl
  | eps | delta => exact pure rfl
  | rep =>
    exact a.onChild .first placed fun q k k' _ hk =>
      .either (a.evaluate .emptyLike hk) fun _ le => a.evaluate .epsLike (le.node hk)
  | alt =>
    have settled {q : Placing K} {k k' : NodeId} (hk : q.At k k') : Mirrors q (fun _ => Eq)
        (Run.either (ask.epsLike k) (ask.emptyLike k))
        (Run.either (ask'.epsLike k') (ask'.emptyLike k')) :=
      .either (a.evaluate .epsLike hk) fun _ le => a.evaluate .emptyLike (le.node hk)
    refine a.onChild .first placed fun q first first' le hf =>
      a.onChild .second (le.node placed) fun q' second second' le' hs => ?_
    exact .both (settled (le'.node hf)) fun _ le => settled (le.node hs)
  | cat => exact .both (ofChild p (.refl p) .first) fun q le => ofChild q le .second
  | red => exact ofChild p (.refl p) .first
  | placeholder | other => exact fault _

theorem forest (placed : p.At n n') :
    Mirrors p (fun q => q.Results .forest) (K.forest ask n) (Extraction.forest ask' n') := by
  have ofChild (q : Placing K) (le : p.Le q) (side : Side) : Mirrors q (fun _ => K.Forests)
      (ask.child n side >>= ask.forest) (ask'.child n' side >>= ask'.forest) :=
    a.onChild side (le.node placed) fun _ _ _ _ hk => a.evaluate .forest hk
  intro h g s
  have nodes := s.nodes placed
  have kind' := nodes.kind
  unfold Cast.forest Extraction.forest
  simp only [Run.node, Run.kind, RunOf.read_bind]
  cases kind : (h.node n).kind <;> rw [kind] at kind' <;> rw [kind'] <;>
    simp only [RunOf.read_bind, kind]
  case empty | char => exact Mirrors.pure K.none h g s
  case eps => exact Mirrors.pure nodes.witnesses h g s
  case delta => exact ofChild p (.refl p) .first h g s
  case rep => exact Mirrors.pure K.trivial h g s
  case alt =>
    refine bind (ofChild p (.refl p) .first) (fun q first first' le hf =>
      bind (ofChild q le .second) fun q' second second' le' hs => ?_) h g s
    split
    · next united => exact .ofExcept (K.union united hf hs)
    · next apart => exact fun _ _ _ => .spent fun strict => absurd (K.unites_of_strict strict _ _) apart
  case cat =>
    exact bind (ofChild p (.refl p) .first) (fun q first first' le hf =>
      bind (ofChild q le .second) fun q' second second' le' hs => .ofExcept (K.combine hf hs)) h g s
  case red =>
    exact bind (ofChild p (.refl p) .first) (fun q inner inner' le hi =>
      .ofExcept (K.image nodes.transform hi)) h g s
  case placeholder | other => exact Mirrors.fault _ h g s

theorem derivative (key : K.Symbols c c') (placed : p.At n n') :
    Mirrors p Placing.At (Derivative.derive ask c n) (Derivative.derive ask' c' n') := by
  have later (q : Placing K) (le : p.Le q) (side : Side) :
      q.Operands (.deferred (.derivative c n side)) (.deferred (.derivative c' n' side)) :=
    ⟨key, le.node placed, rfl⟩
  refine read (T := p.Nodes) (fun h g s => s.nodes placed) fun node node' nodes => ?_
  dsimp only
  rw [nodes.kind]
  cases kind : node.kind with
  | empty | eps | delta => exact .empty
  | char =>
    dsimp only
    rw [K.keys (nodes.symbol kind) key]
    split
    · exact .eps (K.single key)
    · exact .empty
  | alt => exact .alt (later p (.refl p) .first) (later p (.refl p) .second)
  | cat =>
    refine bind (a.child? .first placed) fun q₁ first first' le₁ hf => ?_
    refine bind (.delta (Placing.operand_ofChild hf)) fun q₂ vanished vanished' le₂ hv => ?_
    refine bind (.cat hv (later q₂ (le₁.trans le₂) .second))
      fun q₃ skipping skipping' le₃ hs => ?_
    have le₃ := (le₁.trans le₂).trans le₃
    refine bind (a.child? .second (le₃.node placed)) fun q₄ second second' le₄ hc => ?_
    refine bind (.cat (later q₄ (le₃.trans le₄) .first) (Placing.operand_ofChild hc))
      fun q₅ taking taking' le₅ ht => ?_
    exact .alt ((le₄.trans le₅).node hs) ht
  | rep => exact .cat (later p (.refl p) .first) placed
  | red => exact .reduction (later p (.refl p) .first) nodes.transform
  | placeholder | other => exact fault _

omit a in
theorem operand_later (placed : p.At n n') :
    p.Operands (Compaction.later n) (Compaction.later n') :=
  placed

theorem settled? (placed : p.At n n') :
    Mirrors p (fun _ => Option.Rel K.Forests) (Compaction.settled? ask n)
      (Compaction.settled? ask' n') := by
  refine bind (a.evaluate .epsLike placed) fun q v v' le same => ?_
  obtain rfl : v = v' := same
  cases v with
  | true => exact bind (a.evaluate .forest (le.node placed)) fun _ _ _ _ hw => pure (.some hw)
  | false => exact pure .none

theorem compactAlt (hn : p.At n n') (hm : p.At m m') :
    Mirrors p Placing.At (Compaction.alt ask n m) (Compaction.alt ask' n' m') := by
  refine bind (a.evaluate .emptyLike hn) fun q v v' le same => ?_
  obtain rfl : v = v' := same
  cases v with
  | true => exact a.evaluate .compact (le.node hm)
  | false =>
    refine bind (a.evaluate .emptyLike (le.node hm)) fun q' v v' le' same => ?_
    obtain rfl : v = v' := same
    cases v with
    | true => exact a.evaluate .compact ((le.trans le').node hn)
    | false =>
      exact .alt (operand_later ((le.trans le').node hn)) (operand_later ((le.trans le').node hm))

theorem compactCat (hn : p.At n n') (hm : p.At m m') :
    Mirrors p Placing.At (Compaction.cat ask n m) (Compaction.cat ask' n' m') := by
  refine bind (a.settled? hn) fun q ws ws' le related => ?_
  rcases related with related | _
  on_goal 1 => rcases K.counts related with _ | ⟨prepend, _⟩ | _
  on_goal 1 => exact .empty
  on_goal 1 => exact .reduction (operand_later (le.node hm)) prepend
  -- In the cases left, the first part does not decide.
  all_goals
    refine bind (a.settled? (le.node hm)) fun q' vs vs' le' decided => ?_
    have hn := operand_later ((le.trans le').node hn)
    have hm := operand_later ((le.trans le').node hm)
    cases decided with
    | none => exact .cat hn hm
    | some decided =>
      cases K.counts decided with
      | none => exact .empty
      | one _ append => exact .reduction hn append
      | more => exact .cat hn hm

theorem compactRed (placed : p.At n n') {t t' : Transform} (ht : K.Transforms t t') :
    Mirrors p Placing.At (Compaction.red ask n t) (Compaction.red ask' n' t') := by
  refine read (T := p.Nodes) (fun h g s => s.nodes placed) fun node node' nodes => ?_
  have kind' := nodes.kind
  cases kind : node.kind <;> rw [kind] at kind' <;> simp only [kind']
  case red =>
    refine a.onChild .first placed fun q nested nested' le hk => ?_
    exact .reduction (operand_later hk) (K.compose ht nodes.transform)
  case cat =>
    refine a.onChild .first placed fun q₁ first first' le₁ hf => ?_
    refine bind (a.settled? hf) fun q₂ ws ws' le₂ related => ?_
    have placed := (le₁.trans le₂).node placed
    cases related with
    | none => exact .reduction (operand_later placed) ht
    | some related =>
      cases K.counts related with
      | none | more => exact .reduction (operand_later placed) ht
      | one prepend _ =>
        refine a.onChild .second placed fun q₃ rest rest' le₃ hr => ?_
        exact .reduction (operand_later hr) (K.compose ht prepend)
  all_goals exact .reduction (operand_later placed) ht

theorem compound (placed : p.At n n') :
    Mirrors p Placing.At (Compaction.compound ask n) (Compaction.compound ask' n') := by
  refine read (T := p.Nodes) (fun h g s => s.nodes placed) fun node node' nodes => ?_
  have kind' := nodes.kind
  cases kind : node.kind <;> rw [kind] at kind' <;> simp only [kind']
  case rep => exact a.onChild .first placed fun q k k' le hk => .rep (operand_later hk)
  case alt =>
    exact a.onChild .first placed fun q k k' le hk =>
      a.onChild .second (le.node placed) fun q' m m' le' hm => a.compactAlt (le'.node hk) hm
  case cat =>
    exact a.onChild .first placed fun q k k' le hk =>
      a.onChild .second (le.node placed) fun q' m m' le' hm => a.compactCat (le'.node hk) hm
  case red => exact a.onChild .first placed fun q k k' le hk => a.compactRed hk nodes.transform
  all_goals exact fault _

theorem compact (placed : p.At n n') :
    Mirrors p (fun q => q.Results .compact) (Compaction.compact ask n)
      (Compaction.compact ask' n') := by
  refine same (fun h g s => s.kind_eq placed) fun kind => ?_
  cases kind
  case empty | eps | char => exact pure placed
  all_goals
    refine bind (a.evaluate .emptyLike placed) fun q₁ none none' le₁ same => ?_
    obtain rfl : none = none' := same
    cases none with
    | true => exact .empty
    | false =>
      have placed := le₁.node placed
      refine bind (a.evaluate .epsLike placed) fun q₂ settled settled' le₂ same => ?_
      obtain rfl : settled = settled' := same
      have placed := le₂.node placed
      cases settled with
      | false => exact a.compound placed
      | true =>
        refine bind (a.evaluate .forest placed) fun q₃ ws ws' le₃ related => ?_
        have related : K.Forests ws ws' := related
        cases K.counts related with
        | none => exact .empty
        | one | more => exact .eps related

/-- The rules, all of them. -/
theorem body (i : Evaluator) (placed : p.At n n') :
    Mirrors p (fun q => q.Results i) (K.body ask i n) (i.body ask' n') := by
  cases i with
  | forest => exact a.forest placed
  | nullable => exact a.nullable placed
  | emptyLike => exact a.emptyLike placed
  | epsLike => exact a.epsLike placed
  | compact => exact a.compact placed

end Ask.Mirrored

end GrammarGraph
