import GrammarGraph.Proofs.Operations
import GrammarGraph.Proofs.Sketch.Listing
import GrammarGraph.Proofs.Sketch.Terms

/-! Operations in a sketch that differs from the larger graph in its nodes only. What a party does
with its own names it does in both, with the same reply or the same fault. -/
namespace GrammarGraph

/-- The operation builds a grammar of the party, asks about one or reads a sentence with one. -/
def Operation.Own (owns : String → Prop) : Operation → Prop
  | .bind name t => owns name ∧ t.Own owns
  | .same first second => first.Own owns ∧ second.Own owns
  | .nullable t | .emptyLike t | .epsLike t | .forest t | .nodeCount t => t.Own owns
  | .recognize _ (.grammar t _) _ | .parse _ (.grammar t _) _ => t.Own owns
  | .residual _ (.grammar t _) _ name => t.Own owns ∧ ∀ x ∈ name, owns x
  | _ => False

namespace Session

variable {owns : String → Prop} {p q : Placing (.same owns)} {α α' β β' : Type}

/-- How a run on a session ended, and the graph that it left. -/
def ended (o : Option (Except Fault α × Session)) : Option (Except Fault α × Graph) :=
  o.map fun (result, s) => (result, s.graph)

/-- What `r` does in a session whose graph is a sketch, `r'` does in one with the larger graph. -/
def Follows (p : Placing (.same owns)) (V : Placing (.same owns) → α → α' → Prop) (r : Act α)
    (r' : Act α') : Prop :=
  ∀ s s', Sketches p s.graph s'.graph → Met p s'.graph V (ended (r s)) (ended (r' s'))

namespace Follows

variable {V : Placing (.same owns) → α → α' → Prop} {U : Placing (.same owns) → β → β' → Prop}
  {r : Act α} {r' : Act α'} {f : α → Act β} {f' : α' → Act β'}

theorem pure {a : α} {a' : α'} (related : V p a a') : Follows p V (pure a) (pure a') :=
  fun _ s' sketches => .ended (.refl p s'.graph) sketches (.value related)

theorem bind (hr : Follows p V r r')
    (hf : ∀ q v v', p.Le q → V q v v' → Follows q U (f v) (f' v')) :
    Follows p U (r >>= f) (r' >>= f') := by
  intro s s' sketches
  have met := hr s s' sketches
  rw [RunOf.bind_run, RunOf.bind_run]
  cases first : r s with
  | none =>
    rw [first] at met
    refine .spent fun strict => ?_
    cases met with
    | spent both => rw [Option.map_eq_none_iff.mp (both strict)]; rfl
  | some end_ =>
    obtain ⟨result, s₁⟩ := end_
    rw [first] at met
    cases second : r' s' with
    | none => rw [second] at met; cases met
    | some end_' =>
      obtain ⟨result', s₁'⟩ := end_'
      rw [second] at met
      cases met with
      | ended step sketches' related =>
        cases related with
        | fault => exact .ended step sketches' (.fault _)
        | value related => exact .after step (hf _ _ _ step.le related _ _ sketches')

theorem onGraph {r : Run α} {r' : Run α'} (h : Mirrors p V r r') :
    Follows p V (onGraph r) (onGraph r') := by
  intro s s' sketches
  have met := h s.graph s'.graph sketches
  have same {γ : Type} (r : Run γ) (s : Session) : ended (Session.onGraph r s) = r s.graph := by
    unfold ended Session.onGraph RunOf.inside
    rw [Option.map_map]
    exact Option.map_id_apply
  rw [same, same]
  exact met

theorem reply {R : Placing (.same owns) → α → α → Prop} {r r' : Act α} {say : α → Reply}
    (h : Follows p R r r') (same : ∀ {q a a'}, R q a a' → say a = say a') :
    Follows p (fun _ => Eq) (do return say (← r)) (do return say (← r')) :=
  bind h fun _ _ _ _ related => pure (same related)

theorem listing {n n' : NodeId} (placed : p.At n n') :
    Follows p (fun _ => Eq) (listing n) (listing n') :=
  fun _ s' sketches => .ended (.refl p s'.graph) sketches
    (.value (congrArg Reply.listing (sketches.listing placed).symm))

/-- A run with a journal of its own; what is noted is the same. -/
theorem journaled (log : Option Level) {r : Run α} {r' : Run α'} (h : Mirrors p V r r') :
    Follows p (fun q a a' => V q a.1 a'.1 ∧ a'.2 = a.2) (journaled log r) (journaled log r') := by
  intro s s' sketches
  have met := h _ _ (sketches.withJournal (log.map fun level => { level }))
  rw [journaled_eq, journaled_eq]
  generalize r { s.graph with journal := log.map fun level => { level } } = o at met ⊢
  generalize r' { s'.graph with journal := log.map fun level => { level } } = o' at met ⊢
  cases met with
  | spent both => exact .spent fun strict => by rw [both strict]; rfl
  | ended step sketches' related =>
    refine .ended step.journaled (sketches'.withJournal none) ?_
    cases related with
    | fault => exact .fault _
    | value related => exact .value ⟨related, by rw [sketches'.journal]⟩

theorem language {ask ask' : Ask} (a : ask.Mirrored (.same owns) ask') {t : Term} (own : t.Own owns) :
    Follows p Placing.At (language ask t) (language ask' t) :=
  onGraph (.bind (a.build t own .nil fun _ owned => .inr owned) fun _ _ _ _ hx => .language hx)

theorem name {n n' : NodeId} {x : String} (owned : owns x) (placed : p.At n n') :
    Follows p (fun _ _ _ => True) (Session.onGraph (.update (Graph.bind x n)))
      (Session.onGraph (.update (Graph.bind x n'))) :=
  onGraph fun _ _ s => .ended (.bind owned n') (s.bind x placed) (.value True.intro)

end Follows

section

variable {ask ask' : Ask} (a : ask.Mirrored (.same owns) ask')
include a

/-- The reply to a question about the node of a term. -/
theorem question_follows {R : Placing (.same owns) → α → α → Prop} {t : Term} {say : α → Reply}
    {r r' : NodeId → Run α} (own : t.Own owns)
    (h : ∀ {q n n'}, Placing.At q n n' → Mirrors q R (r n) (r' n'))
    (same : ∀ {q a a'}, R q a a' → say a = say a') :
    Follows p (fun _ => Eq)
      (do return say (← onGraph (r (← language ask t))))
      (do return say (← onGraph (r' (← language ask' t)))) :=
  .bind (.language a own) fun _ _ _ _ placed => .reply (.onGraph (h placed)) same

theorem resolve_follows (defaultCompaction : Bool) {t : Term} (compaction : Option Bool)
    (own : t.Own owns) :
    Follows p (fun q b b' => q.At b.1 b'.1 ∧ b'.2 = b.2)
      (resolve ask defaultCompaction (.grammar t compaction))
      (resolve ask' defaultCompaction (.grammar t compaction)) :=
  .bind (.language a own) fun _ _ _ _ placed => .pure ⟨placed, rfl⟩

theorem operate_follows (bound : Nat) {op : Operation} (own : op.Own owns) :
    Follows p (fun _ => Eq) (operate ask bound op) (operate ask' bound op) := by
  cases op with
  | bind x t =>
    exact .bind (.language a own.2) fun _ _ _ _ placed =>
      .bind (.name own.1 placed) fun _ _ _ le _ => .listing (le.node placed)
  | same first second =>
    refine .bind (.language a own.1) fun _ n n' _ hn => .bind (.language a own.2)
      fun q m m' le hm => ?_
    intro s s' sketches
    have same : (n' == m') = (n == m) := by
      rw [Bool.eq_iff_iff, beq_iff_eq, beq_iff_eq]
      exact sketches.matching.eq_iff hm (le.node hn)
    exact Follows.pure (congrArg Reply.truth same.symm) s s' sketches
  | nullable t => exact question_follows a own (a.evaluate .nullable) (congrArg Reply.truth)
  | emptyLike t => exact question_follows a own (a.evaluate .emptyLike) (congrArg Reply.truth)
  | epsLike t => exact question_follows a own (a.evaluate .epsLike) (congrArg Reply.truth)
  | forest t => exact question_follows a own (a.evaluate .forest) (congrArg Reply.values)
  | nodeCount t => exact question_follows a own a.nodeCount (congrArg Reply.number)
  | recognize symbols source log =>
    cases source with
    | parser name => exact own.elim
    | grammar t compaction =>
      refine .bind (resolve_follows a false compaction own) fun q b b' _ hb => ?_
      obtain ⟨n, compaction⟩ := b
      obtain ⟨n', compaction'⟩ := b'
      obtain ⟨placed, rfl⟩ := hb
      refine .bind (.journaled log (a.recognize (fun _ _ => rfl) compaction' placed)) fun _ c c' _ hc => ?_
      obtain rfl : c = c' := Prod.ext hc.1 hc.2.symm
      exact .pure rfl
  | parse symbols source log =>
    cases source with
    | parser name => exact own.elim
    | grammar t compaction =>
      refine .bind (resolve_follows a true compaction own) fun q b b' _ hb => ?_
      obtain ⟨n, compaction⟩ := b
      obtain ⟨n', compaction'⟩ := b'
      obtain ⟨placed, rfl⟩ := hb
      refine .bind (.journaled log (a.parse (fun _ _ => rfl) (Cast.same_faithful owns) compaction' placed)) fun _ c c' _ hc => ?_
      obtain rfl : c = c' := Prod.ext hc.1 hc.2.symm
      exact .pure rfl
  | residual symbols source log name =>
    cases source with
    | parser name => exact own.elim
    | grammar t compaction =>
      refine .bind (resolve_follows a true compaction own.1) fun q b b' _ hb => ?_
      obtain ⟨n, compaction⟩ := b
      obtain ⟨n', compaction'⟩ := b'
      obtain ⟨placed, rfl⟩ := hb
      refine .bind (.journaled log (a.residual (fun _ _ => rfl) compaction' placed)) fun q c c' _ hc => ?_
      obtain ⟨r, journal⟩ := c
      obtain ⟨r', journal'⟩ := c'
      obtain ⟨⟨left, consumed⟩, rfl⟩ := hc
      obtain ⟨m, position⟩ := r
      obtain ⟨m', position'⟩ := r'
      obtain rfl : position' = position := consumed
      have reported {q : Placing (.same owns)} (left : q.At m m') : Follows q (fun _ => Eq)
          (do return Reply.parsed (← Session.listing m) position' journal')
          (do return Reply.parsed (← Session.listing m') position' journal') :=
        .bind (.listing left) fun _ l l' _ same => .pure (by rw [same])
      cases name with
      | none => exact reported left
      | some x => exact .bind (.name (own.2 x rfl) left) fun _ _ _ le _ => reported (le.node left)
  | list | inspect | children | become | describe | parser | trace | walk | call | union | cons
  | combine | apply | transform | label | view | render | draw | checkRenderer | about =>
    exact own.elim

end

/-- A party's operation goes in a sketch as it goes in the larger graph. -/
theorem perform_follows (bound : Nat) {op : Operation} (own : op.Own owns) :
    Follows p (fun _ => Eq) (perform bound op) (perform bound op) := by
  have mirrored := Cast.run_mirrored (.same owns) bound
  rw [Cast.run_of_strict True.intro] at mirrored
  exact operate_follows mirrored bound own

end Session

end GrammarGraph
