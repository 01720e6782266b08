import GrammarGraph.Engine.Parts
import GrammarGraph.Proofs.Outcomes
import GrammarGraph.Session

/-! What operations of a session are made of: runs on the graph that are made of questions and
constructions, and a few changes of the session. Only walks are more than that. -/
namespace GrammarGraph

/-- The run is made of questions and constructions. -/
def Assembled {α : Type} (r : Ask → Run α) (raw : Prop := True) : Prop :=
  ∀ P, Constructive P raw → P α r

namespace Tour

/-- A property that sequencing keeps, and that the steps of a walk have because their parts have
it. -/
structure Compositional (P : (α : Type) → (Ask → Again → RunOf Tour α) → Prop)
    (raw : Prop := True) : Prop where
  given : ∀ {α} (result : Except Fault α), P α fun _ _ => RunOf.ofExcept result
  read : ∀ {α} (p : Tour → α), P α fun _ _ => RunOf.read p
  bind : ∀ {α β} {r : Ask → Again → RunOf Tour α} {f : Ask → Again → α → RunOf Tour β},
    P α r → (∀ a, P β fun ask again => f ask again a) →
      P β fun ask again => r ask again >>= f ask again
  visit : ∀ n, P Unit fun _ _ => .update (visit n)
  graph : ∀ {α} {r : Ask → Run α}, Assembled r raw → P α fun ask _ => .inside .tourGraph (r ask)
  again : ∀ n, P Value fun _ again => again n

namespace Compositional

variable {P : (α : Type) → (Ask → Again → RunOf Tour α) → Prop} {raw : Prop}
  (h : Compositional P raw) {α β : Type}
include h

theorem pure (a : α) : P α fun _ _ => pure a :=
  h.given (.ok a)

theorem fault (fault : Fault) : P α fun _ _ => throw fault :=
  h.given (.error fault)

theorem mapM {f : Again → α → RunOf Tour β} (each : ∀ a, P β fun _ again => f again a)
    (as : List α) : P (List β) fun _ again => as.mapM (f again) := by
  induction as with
  | nil => exact h.pure []
  | cons a as ih =>
    simp only [List.mapM_cons]
    exact h.bind (each a) fun b => h.bind ih fun bs => h.pure (b :: bs)

theorem anyOf (ns : List NodeId) : P Bool fun _ again => anyOf again ns := by
  induction ns with
  | nil => exact h.pure false
  | cons n ns ih =>
    refine h.bind (h.again n) fun v => ?_
    cases v.truthy
    · exact ih
    · exact h.pure true

theorem allOf (ns : List NodeId) : P Bool fun _ again => allOf again ns := by
  induction ns with
  | nil => exact h.pure true
  | cons n ns ih =>
    refine h.bind (h.again n) fun v => ?_
    cases v.truthy
    · exact h.pure false
    · exact ih

theorem arrive (n : NodeId) : P (Kind × List NodeId) fun ask _ => arrive ask n := by
  have children : P (List NodeId) fun ask _ => .inside .tourGraph (ask.children n) :=
    h.graph fun _ parts => parts.children n
  refine h.bind (h.visit n) fun _ => h.bind (h.read _) fun node => ?_
  dsimp only
  split
  · exact h.bind (h.fault _) fun _ => h.bind children fun _ => h.pure _
  · exact h.bind children fun _ => h.pure _

theorem step (rule : Rule) (n : NodeId) : P Value fun ask again => step ask rule again n := by
  refine h.bind (h.arrive n) fun seen => ?_
  obtain ⟨kind, children⟩ := seen
  cases rule with
  | anyOf =>
    dsimp only
    split
    · exact h.pure _
    · exact h.bind (h.anyOf children) fun _ => h.pure _
  | allOf =>
    dsimp only
    split
    · exact h.pure _
    · split
      · exact h.pure _
      · exact h.bind (h.allOf children) fun _ => h.pure _
  | size =>
    have each (c : NodeId) : P Int fun _ again => (do return ((← again c).number?).getD 0) :=
      h.bind (h.again c) fun _ => h.pure _
    exact h.bind (h.mapM each children) fun _ => h.pure _
  | term =>
    have each (c : NodeId) : P String fun _ again => (do return (← again c).shown) :=
      h.bind (h.again c) fun _ => h.pure _
    exact h.bind (h.mapM each children) fun _ => h.pure _
  | twice =>
    have each (c : NodeId) : P String fun _ again => (do
        let once ← again c
        return once.shown ++ (← again c).shown) :=
      h.bind (h.again c) fun _ => h.bind (h.again c) fun _ => h.pure _
    exact h.bind (h.mapM each children) fun _ => h.pure _

end Compositional

/-- One turn of a walk at a node, where `again` gives the walk at the others. -/
def turn (ask : Ask) (extra : List Value) (plan : Plan) (again : Again) : Again :=
  match plan with
  | .fixpoint rule d => fun n =>
    Evaluation.demand .results (atCycle d n) (step ask rule again n) n
  | .memo => fun n =>
    Memo.demand .remembered "walk" (step ask .term again n) n (.tuple extra)

/-- The walk, as far as `bound` turns deep. -/
def descend (ask : Ask) (extra : List Value) (plan : Plan) : Nat → Again
  | 0, _ => .spent
  | bound + 1, n => turn ask extra plan (descend ask extra plan bound) n

theorem follow_eq (ask : Ask) (extra : List Value) (bound : Nat) (n : NodeId) (t : Tour) :
    follow ask extra bound n t = descend ask extra t.walk.plan bound n t := by
  unfold follow
  rw [RunOf.read_bind]
  cases t.walk.plan with
  | fixpoint rule d =>
    have same (bound : Nat) : Evaluation.solve .results (atCycle d) (step ask rule) bound =
        descend ask extra (.fixpoint rule d) bound := by
      induction bound with
      | zero => rfl
      | succ bound ih =>
        funext n
        simp only [Evaluation.solve, descend, turn, ih]
    exact congrFun (congrFun (same bound) n) t
  | memo =>
    have same (bound : Nat) : Memo.solve .remembered "walk" (step ask .term) (.tuple extra) bound =
        descend ask extra .memo bound := by
      induction bound with
      | zero => rfl
      | succ bound ih =>
        funext n
        simp only [Memo.solve, descend, turn, ih]
    exact congrFun (congrFun (same bound) n) t

end Tour

namespace Session

variable {name : String} {w : Walk} {s : Session} (ask : Ask) (bound : Nat) (term : Term)
  (extra : List Value)

/-- A session after the walk `name` went its way. -/
def toured (name : String) (s : Session) (t : Tour) : Session :=
  { s with graph := t.graph, walks := s.walks.put name t.walk }

/-- What was noted is handed over with the value; the journal is closed, however the run ends. -/
theorem journaled_eq {α : Type} (log : Option Level) (r : Run α) (s : Session) : journaled log r s =
    (r { s.graph with journal := log.map fun level => { level } }).map fun (result, g) =>
      (result.map (·, g.journal.map (·.entries.toList)),
        { s with graph := { g with journal := none } }) := by
  unfold journaled onGraph RunOf.inside
  rw [RunOf.update_bind, RunOf.outcome_bind]
  change ((r { s.graph with journal := log.map fun level => { level } }).bind _).map _ = _
  cases r { s.graph with journal := log.map fun level => { level } } with
  | none => rfl
  | some ended =>
    obtain ⟨result, g⟩ := ended
    cases result <;> rfl

/-- Where nothing was noted there is nothing to hand over. -/
theorem journaled_silent {α : Type} {r : Run α} {a : α} {g : Graph}
    (ends : r { s.graph with journal := none } = some (.ok a, g)) (silent : g.journal = none) :
    ∃ s', journaled none r s = some (.ok (a, none), s') := by
  rw [journaled_eq]
  change ∃ s', (r { s.graph with journal := none }).map _ = _
  rw [ends]
  change ∃ s', some (Except.ok (a, g.journal.map _), _) = _
  rw [silent]
  exact ⟨_, rfl⟩

theorem call_unbound (absent : s.walks.lookup name = none) :
    call ask bound name term extra s = some (.error (.unboundWalk name), s) := by
  unfold call
  rw [RunOf.read_bind, absent]
  rfl

/-- A walk that is called ends with a reply, whether it fails or not. -/
theorem call_eq (found : s.walks.lookup name = some w) : call ask bound name term extra s =
    (language ask term >>= fun n s₁ => (Tour.descend ask extra w.plan bound n ⟨s₁.graph, w, #[]⟩).map
      fun (result, t) => (.ok (.walked result t.visits.toList), s₁.toured name t)) s := by
  unfold call
  rw [RunOf.read_bind, found]
  have each (n : NodeId) : (RunOf.inside (touring name w) do
        let result ← (Tour.follow ask extra bound n).outcome
        let visits ← .read (·.visits.toList)
        pure (.walked result visits) : Act Reply) = fun s₁ =>
      (Tour.descend ask extra w.plan bound n ⟨s₁.graph, w, #[]⟩).map
        fun (result, t) => (.ok (.walked result t.visits.toList), s₁.toured name t) := by
    funext s₁
    unfold RunOf.inside
    rw [RunOf.outcome_bind]
    change ((Tour.follow ask extra bound n ⟨s₁.graph, w, #[]⟩).bind _).map _ = _
    rw [Tour.follow_eq]
    cases Tour.descend ask extra w.plan bound n ⟨s₁.graph, w, #[]⟩ <;> rfl
  simp only [each]

end Session

def Source.Uses (raw : Prop) : Source → Prop
  | .grammar term _ => term.Uses raw
  | .parser _ => True

theorem Source.uses_true (source : Source) : source.Uses True := by
  cases source with
  | grammar term _ => exact term.uses_true
  | parser name => trivial

/-- The terms of the operation make nodes as they are only if that is allowed. -/
def Operation.Uses (raw : Prop) : Operation → Prop
  | .bind _ t | .list t _ | .inspect t | .children t | .describe t | .nullable t | .emptyLike t
  | .epsLike t | .forest t | .nodeCount t | .parser _ t _ | .trace _ t _ | .call _ t _ | .view t _ _
  | .render t _ _ => t.Uses raw
  | .same t u | .become t u => t.Uses raw ∧ u.Uses raw
  | .recognize _ source _ | .parse _ source _ | .residual _ source _ _ => source.Uses raw
  | _ => True

theorem Operation.uses_true (op : Operation) : op.Uses True := by
  cases op <;>
    first
    | trivial
    | exact Term.uses_true _
    | exact Source.uses_true _
    | exact ⟨Term.uses_true _, Term.uses_true _⟩

open Session (Act)

/-- A property that sequencing keeps, and that operations which overwrite no node have because
their parts have it. -/
structure Sparing (P : (α : Type) → (Ask → Act α) → Prop) (raw : Prop := True) : Prop where
  given : ∀ {α} (result : Except Fault α), P α fun _ => RunOf.ofExcept result
  read : ∀ {α} (p : Session → α), P α fun _ => RunOf.read p
  bind : ∀ {α β} {r : Ask → Act α} {f : Ask → α → Act β},
    P α r → (∀ a, P β fun ask => f ask a) → P β fun ask => r ask >>= f ask
  graph : ∀ {α} {r : Ask → Run α}, Assembled r raw → P α fun ask => Session.onGraph (r ask)
  journaled : ∀ {α} {r : Ask → Run α} (log : Option Level), Assembled r raw →
    P (α × Option (List (Level × String))) fun ask => Session.journaled log (r ask)
  name : ∀ x n, P Unit fun _ => Session.onGraph (.update (Graph.bind x n))
  parser : ∀ name parser, P Unit fun _ =>
    .update fun s => { s with parsers := s.parsers.put name parser }
  walk : ∀ name plan, P Unit fun _ => .update fun s => { s with walks := s.walks.put name { plan } }

/-- A property that sequencing keeps, and that operations have because their parts have it. -/
structure Operative (P : (α : Type) → (Ask → Act α) → Prop) : Prop extends Sparing P where
  become : ∀ n other, P Unit fun _ => .update (Session.become n other)

namespace Sparing

variable {P : (α : Type) → (Ask → Act α) → Prop} {raw : Prop} (h : Sparing P raw) {α : Type}
include h

theorem pure (a : α) : P α fun _ => pure a :=
  h.given (.ok a)

theorem fault (fault : Fault) : P α fun _ => throw fault :=
  h.given (.error fault)

/-- A question about the graph. -/
theorem query (q : Query) : P q.Answer fun ask => Session.onGraph (ask q) :=
  h.graph fun _ parts => parts.ask q

theorem reply {β : Type} {r : Ask → Act α} (f : α → β) (hr : P α r) :
    P β fun ask => (do return f (← r ask)) :=
  h.bind hr fun _ => h.pure _

theorem language {term : Term} (uses : term.Uses raw) :
    P NodeId fun ask => Session.language ask term :=
  h.graph fun _ parts => parts.bind (parts.build [] uses) parts.language

/-- What is done with the node of a term. -/
theorem onNode {f : Ask → NodeId → Act α} {term : Term} (uses : term.Uses raw)
    (each : ∀ n, P α fun ask => f ask n) :
    P α fun ask => (do f ask (← Session.language ask term)) :=
  h.bind (h.language uses) each

theorem resolve (compaction : Bool) {source : Source} (uses : source.Uses raw) :
    P (NodeId × Bool) fun ask => Session.resolve ask compaction source := by
  cases source with
  | grammar term _ => exact h.onNode uses fun _ => h.pure _
  | parser name =>
    refine h.bind (h.read _) fun found => ?_
    cases found
    · exact h.fault _
    · exact h.pure _

theorem recognize (symbols : List Value) {source : Source} (uses : source.Uses raw)
    (log : Option Level) : P Reply fun ask => Session.recognize ask symbols source log :=
  h.bind (h.resolve _ uses) fun (n, compaction) =>
    h.bind (h.journaled log fun _ parts => parts.recognize compaction symbols n) fun _ => h.pure _

theorem parse (symbols : List Value) {source : Source} (uses : source.Uses raw)
    (log : Option Level) : P Reply fun ask => Session.parse ask symbols source log :=
  h.bind (h.resolve _ uses) fun (n, compaction) =>
    h.bind (h.journaled log fun _ parts => parts.parse compaction symbols n) fun _ => h.pure _

theorem residual (symbols : List Value) {source : Source} (uses : source.Uses raw)
    (log : Option Level) (name : Option String) :
    P Reply fun ask => Session.residual ask symbols source log name := by
  refine h.bind (h.resolve _ uses) fun (n, compaction) =>
    h.bind (h.journaled log fun _ parts => parts.residual compaction symbols n) fun (r, _) => ?_
  cases name with
  | none => exact h.bind (h.read _) fun _ => h.pure _
  | some x => exact h.bind (h.name x r.node) fun _ => h.bind (h.read _) fun _ => h.pure _

theorem trace (compaction : Bool) (symbols : List Value) (n : NodeId) :
    P (List Stage) fun ask => Session.onGraph (Session.trace ask compaction symbols n) := by
  refine h.graph fun Q parts => ?_
  have stage (n : NodeId) : Q Stage fun ask => Session.stage ask n :=
    parts.bind (parts.read _) fun _ => parts.bind (parts.ask (.nullable n)) fun _ =>
      parts.bind (parts.ask (.emptyLike n)) fun _ => parts.bind (parts.ask (.epsLike n)) fun _ =>
      parts.bind (parts.ask (.forest n)) fun _ => parts.bind (parts.ask (.nodeCount n)) fun _ =>
      parts.pure _
  induction symbols generalizing n with
  | nil => exact parts.pure _
  | cons c rest ih =>
    exact parts.bind (parts.advance compaction c n) fun next => parts.bind (stage next) fun _ =>
      parts.bind (ih next) fun _ => parts.pure _

theorem view (showWitnesses available : Bool) (n : NodeId) :
    P Dot.Document fun _ => Session.view showWitnesses available n := by
  cases available
  · exact h.bind (h.fault _) fun _ => h.read _
  · exact h.bind (h.pure ()) fun _ => h.read _

theorem listing (n : NodeId) : P Reply fun _ => Session.listing n :=
  h.read _

/-- Every operation that is no walk and overwrites no node. -/
theorem operate (bound : Nat) {op : Operation} (uses : op.Uses raw)
    (still : ∀ name term extra, op ≠ .call name term extra)
    (sparing : ∀ term other, op ≠ .become term other) :
    P Reply fun ask => Session.operate ask bound op := by
  cases op with
  | bind name term => exact h.onNode uses fun n => h.bind (h.name name n) fun _ => h.listing n
  | list term force =>
    refine h.onNode uses fun n => ?_
    cases force
    · exact h.listing n
    · refine h.reply _ (h.graph fun Q parts => ?_)
      refine parts.bind (parts.survey (fun m => ?_) bound n) fun _ => parts.pure _
      exact parts.bind (parts.forceChildren m) fun _ => parts.bind (parts.read _) fun _ =>
        parts.pure _
  | inspect term =>
    exact h.onNode uses fun n => h.bind (h.graph fun _ parts => parts.read _) fun _ => h.pure _
  | children term =>
    refine h.onNode uses fun n => h.bind (h.graph fun _ parts => parts.children n) fun cs => ?_
    refine h.reply _ (h.graph fun _ parts => parts.mapM (fun c => ?_) cs)
    exact parts.bind (parts.read _) fun _ => parts.pure _
  | same first second => exact h.onNode uses.1 fun a => h.onNode uses.2 fun b => h.pure _
  | become term other => exact absurd rfl (sparing term other)
  | describe term =>
    exact h.onNode uses fun n => h.reply (fun node => Reply.text (Node.describe node))
      (h.graph fun _ parts => parts.read _)
  | nullable term => exact h.onNode uses fun n => h.reply Reply.truth (h.query (.nullable n))
  | emptyLike term => exact h.onNode uses fun n => h.reply Reply.truth (h.query (.emptyLike n))
  | epsLike term => exact h.onNode uses fun n => h.reply Reply.truth (h.query (.epsLike n))
  | forest term => exact h.onNode uses fun n => h.reply Reply.values (h.query (.forest n))
  | nodeCount term => exact h.onNode uses fun n => h.reply Reply.number (h.query (.nodeCount n))
  | recognize symbols source log => exact h.recognize symbols uses log
  | parse symbols source log => exact h.parse symbols uses log
  | residual symbols source log name => exact h.residual symbols uses log name
  | parser name term compaction =>
    exact h.onNode uses fun n => h.bind (h.parser name _) fun _ => h.pure _
  | trace symbols term compaction =>
    exact h.onNode uses fun n => h.reply Reply.stages (h.trace compaction symbols n)
  | walk name plan => exact h.bind (h.walk name plan) fun _ => h.pure _
  | call name term extra => exact absurd rfl (still name term extra)
  | union forests => exact h.reply Reply.values (h.given _)
  | cons | transform | label | checkRenderer | about => exact h.pure _
  | combine left right => exact h.reply Reply.values (h.given _)
  | apply transform w => exact h.reply Reply.value (h.given _)
  | view term showWitnesses available =>
    exact h.onNode uses fun n => h.reply (fun d => Reply.text (Dot.Document.text d))
      (h.view showWitnesses available n)
  | render term options available =>
    exact h.onNode uses fun n => h.bind (h.view true available n) fun _ => h.pure _
  | draw w style available =>
    cases available
    · exact h.bind (h.fault _) fun _ => h.bind (h.given _) fun _ => h.pure _
    · exact h.bind (h.pure ()) fun _ => h.bind (h.given _) fun _ => h.pure _

end Sparing

/-- Every operation that is no walk. -/
theorem Operative.operate {P : (α : Type) → (Ask → Act α) → Prop} (h : Operative P) (bound : Nat)
    {op : Operation} (still : ∀ name term extra, op ≠ .call name term extra) :
    P Reply fun ask => Session.operate ask bound op := by
  by_cases sparing : ∀ term other, op ≠ .become term other
  · exact h.toSparing.operate bound op.uses_true still sparing
  · push Not at sparing
    obtain ⟨term, other, rfl⟩ := sparing
    exact h.onNode term.uses_true fun n => h.onNode other.uses_true fun m =>
      h.bind (h.become n m) fun _ => h.listing n

end GrammarGraph
