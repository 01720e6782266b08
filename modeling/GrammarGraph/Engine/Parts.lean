import GrammarGraph.Engine
import GrammarGraph.Proofs.Forests

/-! What evaluators are made of. An evaluator asks questions, looks at the graph, and makes nodes
and cells, one thing after the other; a property of runs that these have, and that holds of a
sequence when it holds of its members, is one of every evaluator. Terms may also write notes and
complete definitions. -/
namespace GrammarGraph

/-- The operand is not a term that is to be evaluated later. -/
def Operand.Plain (o : Operand) : Prop :=
  ∀ body scope, o ≠ .deferred (.term body scope)

theorem Operand.plain_node (n : NodeId) : (Operand.node n).Plain :=
  fun _ _ same => nomatch same

theorem Operand.plain_ofChild (child : Option NodeId) : (Operand.ofChild child).Plain := by
  cases child <;> exact fun _ _ same => nomatch same

theorem Operand.plain_derivative (c : Value) (n : NodeId) (side : Side) :
    (Operand.deferred (.derivative c n side)).Plain :=
  fun _ _ same => nomatch same

theorem Operand.plain_later (n : NodeId) : (Compaction.later n).Plain :=
  fun _ _ same => nomatch same

open Operand (plain_node plain_ofChild plain_derivative plain_later)

/-- What constructors make: no second empty node, an eps node only with other witnesses than the
trivial ones, each of them once, and nothing in a slot on a side where the kind has no child. -/
structure Node.Canonical (node : Node) : Prop where
  empty : node.kind ≠ .empty
  eps : node.kind = .eps → Forest.isTrivial node.witnesses = false ∧ node.witnesses.Reduced
  vacant : ∀ side, side ∉ node.sides → node.slot side = .vacant

theorem Node.canonical_of_kind {node : Node} (empty : node.kind ≠ .empty) (eps : node.kind ≠ .eps)
    (vacant : ∀ side, side ∉ node.sides → node.slot side = .vacant) : node.Canonical :=
  ⟨empty, fun same => absurd same eps, vacant⟩

open Node (canonical_of_kind)

/-- What rewriting makes of such transforms is such a transform. -/
structure Transform.Closed (fit : Transform → Prop) : Prop where
  identity : fit .identity
  prepend : ∀ w, fit (.prepend w)
  append : ∀ w, fit (.append w)
  compose : ∀ {s t}, fit s → fit t → fit (.compose s t)

theorem Transform.Closed.all : Closed fun _ => True :=
  ⟨trivial, fun _ => trivial, fun _ => trivial, fun _ _ => trivial⟩

/-- A property that sequencing keeps, and that evaluators have because their parts have it. The
transforms of nodes that are looked at fit, and so must those of nodes that are made. -/
structure EvaluatorParts (P : (α : Type) → (Ask → Run α) → Prop) (fit : Transform → Prop) :
    Prop where
  fits : Transform.Closed fit
  given : ∀ {α} (result : Except Fault α), P α fun _ => RunOf.ofExcept result
  read : ∀ {α} (p : Graph → α), P α fun _ => RunOf.read p
  bind : ∀ {α β} {r : Ask → Run α} {f : Ask → α → Run β},
    P α r → (∀ a, P β fun ask => f ask a) → P β fun ask => r ask >>= f ask
  node : ∀ {β} (n : NodeId) {f : Ask → Node → Run β},
    (∀ node, fit node.transform → P β fun ask => f ask node) → P β fun ask => Run.node n >>= f ask
  spent : ∀ α, P α fun _ => .spent
  ask : ∀ q, P q.Answer fun ask => ask q
  make : ∀ {node}, node.Canonical → fit node.transform → P NodeId fun _ => Run.make node
  defer : ∀ {s : Suspension}, (Operand.deferred s).Plain → P CellId fun _ => Run.defer s

/-- The case that all transforms fit. -/
structure Compositional (P : (α : Type) → (Ask → Run α) → Prop) : Prop
    extends EvaluatorParts P fun _ => True where
  fits := .all
  node := fun {_} _ {_} next => bind (read _) fun node => next node True.intro

namespace EvaluatorParts

variable {P : (α : Type) → (Ask → Run α) → Prop} {fit : Transform → Prop} (h : EvaluatorParts P fit)
  {α β : Type}
include h

theorem pure (a : α) : P α fun _ => pure a :=
  h.given (.ok a)

theorem fault (fault : Fault) : P α fun _ => throw fault :=
  h.given (.error fault)

theorem either {a b : Ask → Run Bool} (ha : P Bool a) (hb : P Bool b) :
    P Bool fun ask => Run.either (a ask) (b ask) := by
  refine h.bind ha fun answer => ?_
  cases answer
  · exact hb
  · exact h.pure true

theorem both {a b : Ask → Run Bool} (ha : P Bool a) (hb : P Bool b) :
    P Bool fun ask => Run.both (a ask) (b ask) := by
  refine h.bind ha fun answer => ?_
  cases answer
  · exact h.pure false
  · exact hb

theorem mapM {f : Ask → α → Run β} (each : ∀ a, P β fun ask => f ask a) (as : List α) :
    P (List β) fun ask => as.mapM (f ask) := by
  induction as with
  | nil => exact h.pure []
  | cons a as ih =>
    simp only [List.mapM_cons]
    exact h.bind (each a) fun b => h.bind ih fun bs => h.pure (b :: bs)

theorem forM {f : Ask → α → Run Unit} (each : ∀ a, P Unit fun ask => f ask a) (as : List α) :
    P Unit fun ask => as.forM (f ask) := by
  induction as with
  | nil => exact h.pure ()
  | cons a as ih =>
    change P Unit fun ask => f ask a >>= fun _ => as.forM (f ask)
    exact h.bind (each a) fun _ => ih

theorem reuse {shortcut : Graph → Option NodeId} {make : Run NodeId} (made : P NodeId fun _ => make) :
    P NodeId fun _ => Grammar.reuse shortcut make := by
  refine h.bind (h.read shortcut) fun found => ?_
  cases found
  · exact made
  · exact h.pure _

theorem eps (ws : List Value) : P NodeId fun _ => Grammar.eps ws := by
  unfold Grammar.eps
  cases formed : Forest.ofWitnesses ws with
  | error fault => exact h.fault fault
  | ok forest =>
    change P NodeId fun _ => if Forest.isTrivial forest then Pure.pure NodeId.eps
      else Run.make { kind := .eps, witnesses := forest }
    split
    · exact h.pure _
    · next other =>
      exact h.make ⟨nofun, fun _ => ⟨eq_false_of_ne_true other, Forest.reduced_ofWitnesses formed⟩,
        fun side _ => by cases side <;> rfl⟩ h.fits.identity

section Slots

variable {a b : Operand} (first : P Slot fun _ => a.slot) (second : P Slot fun _ => b.slot)
include first

theorem single {node : Slot → Node} (canonical : ∀ slot, (node slot).Canonical)
    (fits : ∀ slot, fit (node slot).transform) : P NodeId fun _ => (do Run.make (node (← a.slot))) :=
  h.bind first fun slot => h.make (canonical slot) (fits slot)

theorem rep : P NodeId fun _ => Grammar.rep a := by
  refine h.reuse (h.single first (fun _ => canonical_of_kind nofun nofun fun
    | .first, out => absurd List.mem_cons_self out
    | .second, _ => rfl) fun _ => h.fits.identity)

theorem delta : P NodeId fun _ => Grammar.delta a := by
  refine h.reuse (h.single first (fun _ => canonical_of_kind nofun nofun fun
    | .first, out => absurd List.mem_cons_self out
    | .second, _ => rfl) fun _ => h.fits.identity)

theorem reduction {transform : Transform} (fits : fit transform) :
    P NodeId fun _ => Grammar.reduction a transform := by
  refine h.reuse (h.single first (fun _ => canonical_of_kind nofun nofun fun
    | .first, out => absurd List.mem_cons_self out
    | .second, _ => rfl) fun _ => fits)

include second

theorem pair {kind : Kind} (two : kind = .cat ∨ kind = .alt) :
    P NodeId fun _ => Grammar.pair kind a b := by
  refine h.bind first fun _ => h.bind second fun _ => h.make ?_ h.fits.identity
  rcases two with rfl | rfl <;>
    exact canonical_of_kind nofun nofun fun side out => absurd (by cases side <;> simp [Node.sides]) out

theorem cat : P NodeId fun _ => Grammar.cat a b :=
  h.reuse (h.pair first second (.inl rfl))

theorem alt : P NodeId fun _ => Grammar.alt a b :=
  h.reuse (h.pair first second (.inr rfl))

end Slots

theorem slot {o : Operand} (plain : o.Plain) : P Slot fun _ => o.slot := by
  cases o with
  | node n => exact h.pure _
  | deferred s => exact h.bind (h.defer plain) fun _ => h.pure _
  | other => exact h.fault _

theorem child (n : NodeId) (side : Side) : P NodeId fun ask => ask.child n side := by
  refine h.bind (h.ask (.child n side)) fun child => ?_
  split
  · exact h.pure _
  · exact h.fault _

/-- What is asked of a child. -/
theorem onChild {f : Ask → NodeId → Run α} (asked : ∀ c, P α fun ask => f ask c) (n : NodeId)
    (side : Side) : P α fun ask => (do f ask (← ask.child n side)) :=
  h.bind (h.child n side) asked

theorem children (n : NodeId) : P (List NodeId) fun ask => ask.children n :=
  h.bind (h.read _) fun node => h.mapM (h.child n) (Node.sides node)

theorem forceChildren (n : NodeId) : P Unit fun ask => ask.forceChildren n :=
  h.bind (h.read _) fun node =>
    h.forM (fun side => h.bind (h.ask (.child n side)) fun _ => h.pure ()) (Node.sides node)

theorem nullable (n : NodeId) : P Bool fun ask => Emptiness.nullable ask n := by
  have ofChild := h.onChild (fun c => h.ask (.nullable c)) n
  refine h.bind (h.read _) fun kind => ?_
  cases kind with
  | empty | char => exact h.pure false
  | eps | rep => exact h.pure true
  | delta | red => exact ofChild .first
  | alt => exact h.either (ofChild .first) (ofChild .second)
  | cat => exact h.both (ofChild .first) (ofChild .second)
  | placeholder | other => exact h.fault _

theorem emptyLike (n : NodeId) : P Bool fun ask => Emptiness.emptyLike ask n := by
  have ofChild := h.onChild (fun c => h.ask (.emptyLike c)) n
  refine h.bind (h.read _) fun kind => ?_
  cases kind with
  | empty => exact h.pure true
  | eps | char | rep => exact h.pure false
  | alt => exact h.both (ofChild .first) (ofChild .second)
  | cat => exact h.either (ofChild .first) (ofChild .second)
  | red => exact ofChild .first
  | delta => exact h.onChild (fun c => h.bind (h.ask (.nullable c)) fun _ => h.pure _) n .first
  | placeholder | other => exact h.fault _

theorem epsLike (n : NodeId) : P Bool fun ask => Emptiness.epsLike ask n := by
  have ofChild := h.onChild (fun c => h.ask (.epsLike c)) n
  refine h.bind (h.read _) fun kind => ?_
  cases kind with
  | empty | char => exact h.pure false
  | eps | delta => exact h.pure true
  | rep => exact h.onChild (fun c => h.either (h.ask (.emptyLike c)) (h.ask (.epsLike c))) n .first
  | alt =>
    have settled (c : NodeId) := h.either (h.ask (.epsLike c)) (h.ask (.emptyLike c))
    exact h.onChild (fun a => h.onChild (fun b => h.both (settled a) (settled b)) n .second) n .first
  | cat => exact h.both (ofChild .first) (ofChild .second)
  | red => exact ofChild .first
  | placeholder | other => exact h.fault _

theorem forest (n : NodeId) : P Forest fun ask => Extraction.forest ask n := by
  have ofChild := h.onChild (fun c => h.ask (.forest c)) n
  refine h.bind (h.read _) fun node => ?_
  dsimp only
  split
  · exact h.pure _
  · exact h.pure _
  · exact h.pure _
  · exact ofChild .first
  · exact h.pure _
  · exact h.bind (ofChild .first) fun _ => h.bind (ofChild .second) fun _ => h.given _
  · exact h.bind (ofChild .first) fun _ => h.bind (ofChild .second) fun _ => h.given _
  · exact h.bind (ofChild .first) fun _ => h.given _
  · exact h.fault _

theorem derive (c : Value) (n : NodeId) : P NodeId fun ask => Derivative.derive ask c n := by
  have later (side : Side) := h.slot (plain_derivative c n side)
  refine h.node n fun node fits => ?_
  dsimp only
  split
  · exact h.pure _
  · exact h.pure _
  · exact h.pure _
  · split
    · exact h.eps _
    · exact h.pure _
  · exact h.alt (later .first) (later .second)
  · refine h.bind (h.ask (.child n .first)) fun first =>
      h.bind (h.delta (h.slot (plain_ofChild first))) fun vanished =>
      h.bind (h.cat (h.slot (plain_node vanished)) (later .second)) fun skipping =>
      h.bind (h.ask (.child n .second)) fun second =>
      h.bind (h.cat (later .first) (h.slot (plain_ofChild second))) fun taking => ?_
    exact h.alt (h.slot (plain_node skipping)) (h.slot (plain_node taking))
  · exact h.cat (later .first) (h.slot (plain_node n))
  · exact h.reduction (later .first) fits
  · exact h.fault _

theorem settled? (n : NodeId) : P (Option Forest) fun ask => Compaction.settled? ask n := by
  refine h.bind (h.ask (.epsLike n)) fun answer => ?_
  cases answer
  · exact h.pure _
  · exact h.bind (h.ask (.forest n)) fun _ => h.pure _

theorem later (n : NodeId) : P Slot fun _ => (Compaction.later n).slot :=
  h.slot (plain_later n)

theorem compactAlt (a b : NodeId) : P NodeId fun ask => Compaction.alt ask a b := by
  refine h.bind (h.ask (.emptyLike a)) fun first => ?_
  cases first
  · refine h.bind (h.ask (.emptyLike b)) fun second => ?_
    cases second
    · exact h.alt (h.later a) (h.later b)
    · exact h.ask (.compact a)
  · exact h.ask (.compact b)

theorem compactCat (a b : NodeId) : P NodeId fun ask => Compaction.cat ask a b := by
  refine h.bind (h.settled? a) fun head => ?_
  split
  · exact h.pure _
  · exact h.reduction (h.later b) (h.fits.prepend _)
  · refine h.bind (h.settled? b) fun tail => ?_
    split
    · exact h.pure _
    · exact h.reduction (h.later a) (h.fits.append _)
    · exact h.cat (h.later a) (h.later b)

theorem compactRed (a : NodeId) {transform : Transform} (fits : fit transform) :
    P NodeId fun ask => Compaction.red ask a transform := by
  refine h.node a fun node nested => ?_
  split
  · exact h.onChild (fun k => h.reduction (h.later k) (h.fits.compose fits nested)) a .first
  · refine h.onChild (fun first => h.bind (h.settled? first) fun head => ?_) a .first
    split
    · exact h.onChild (fun rest => h.reduction (h.later rest)
        (h.fits.compose fits (h.fits.prepend _))) a .second
    · exact h.reduction (h.later a) fits
  · exact h.reduction (h.later a) fits

theorem compound (n : NodeId) : P NodeId fun ask => Compaction.compound ask n := by
  refine h.node n fun node fits => ?_
  split
  · exact h.onChild (fun a => h.rep (h.later a)) n .first
  · exact h.onChild (fun a => h.onChild (fun b => h.compactAlt a b) n .second) n .first
  · exact h.onChild (fun a => h.onChild (fun b => h.compactCat a b) n .second) n .first
  · exact h.onChild (fun a => h.compactRed a fits) n .first
  · exact h.fault _

theorem compact (n : NodeId) : P NodeId fun ask => Compaction.compact ask n := by
  refine h.bind (h.read _) fun kind => ?_
  split
  · exact h.pure _
  · exact h.pure _
  · exact h.pure _
  · refine h.bind (h.ask (.emptyLike n)) fun none => ?_
    cases none
    · refine h.bind (h.ask (.epsLike n)) fun settled => ?_
      cases settled
      · exact h.compound n
      · refine h.bind (h.ask (.forest n)) fun ws => ?_
        split
        · exact h.pure _
        · exact h.eps _
    · exact h.pure _

/-- What a cell computes that holds no term. -/
theorem compute {s : Suspension} (plain : (Operand.deferred s).Plain) :
    P Operand fun ask => Child.compute ask s := by
  cases s with
  | derivative c n side =>
    exact h.onChild (fun k => h.bind (h.ask (.derive c k)) fun _ => h.pure _) n side
  | compacted n => exact h.bind (h.ask (.compact n)) fun _ => h.pure _
  | term body scope => exact absurd rfl (plain body scope)

theorem survey {visit : Ask → NodeId → Run (Node × List NodeId)}
    (each : ∀ n, P _ fun ask => visit ask n) (bound : Nat) (root : NodeId) :
    P Survey fun ask => Survey.run (visit ask) bound root := by
  have explore (s : Survey) : P Survey fun ask => Survey.explore (visit ask) bound s := by
    induction bound generalizing s with
    | zero => exact h.pure s
    | succ bound ih =>
      unfold Survey.explore
      split
      · exact h.pure s
      · next n _ => exact h.bind (each n) fun seen => ih _
  refine h.bind (explore (.start root)) fun s => ?_
  split
  · exact h.spent _
  · exact h.pure s

theorem nodeCount (bound : Nat) (n : NodeId) : P Nat fun ask => Survey.nodeCount ask bound n :=
  h.bind (h.survey (fun n => h.bind (h.children n) fun _ => h.bind (h.read _) fun _ => h.pure _)
    bound n) fun _ => h.pure _

end EvaluatorParts

namespace Term

mutual

/-- Nodes are made as they are only if that is allowed, also where it is evaluated later. -/
def Uses (raw : Prop) : Term → Prop
  | .name _ | .empty | .trivial | .eps _ | .char _ | .value _ => True
  | .cat ts | .alt ts => UsesAll raw ts
  | .rep t | .delta t | .red t _ | .letrec _ t | .lazy t | .derive _ t | .compact t
  | .residual _ t _ | .child _ t => Uses raw t
  | .raw _ first second _ _ _ => raw ∧ UsesOption raw first ∧ UsesOption raw second
  | .ifNullable condition yes no => Uses raw condition ∧ Uses raw yes ∧ Uses raw no

def UsesAll (raw : Prop) : List Term → Prop
  | [] => True
  | t :: ts => Uses raw t ∧ UsesAll raw ts

def UsesOption (raw : Prop) : Option Term → Prop
  | none => True
  | some t => Uses raw t

end

mutual

theorem uses_true : ∀ t : Term, t.Uses True
  | .name _ | .empty | .trivial | .eps _ | .char _ | .value _ => by simp only [Uses]
  | .cat ts | .alt ts => by simp only [Uses]; exact usesAll_true ts
  | .rep t | .delta t | .red t _ | .letrec _ t | .lazy t | .derive _ t | .compact t
  | .residual _ t _ | .child _ t => by simp only [Uses]; exact uses_true t
  | .raw _ first second _ _ _ => by
    simp only [Uses]
    exact ⟨True.intro, usesOption_true first, usesOption_true second⟩
  | .ifNullable condition yes no => by
    simp only [Uses]
    exact ⟨uses_true condition, uses_true yes, uses_true no⟩

theorem usesAll_true : ∀ ts : List Term, UsesAll True ts
  | [] => by simp only [UsesAll]
  | t :: ts => by simp only [UsesAll]; exact ⟨uses_true t, usesAll_true ts⟩

theorem usesOption_true : ∀ t : Option Term, UsesOption True t
  | none => by simp only [UsesOption]
  | some t => by simp only [UsesOption]; exact uses_true t

end

mutual

/-- All transforms in the term fit, also where it is evaluated later. -/
def Fits (fit : Transform → Prop) : Term → Prop
  | .name _ | .empty | .trivial | .eps _ | .char _ | .value _ => True
  | .cat ts | .alt ts => FitsAll fit ts
  | .rep t | .delta t | .letrec _ t | .lazy t | .derive _ t | .compact t | .residual _ t _
  | .child _ t => Fits fit t
  | .red t transform => fit transform ∧ Fits fit t
  | .raw _ first second _ _ transform =>
    fit transform ∧ FitsOption fit first ∧ FitsOption fit second
  | .ifNullable condition yes no => Fits fit condition ∧ Fits fit yes ∧ Fits fit no

def FitsAll (fit : Transform → Prop) : List Term → Prop
  | [] => True
  | t :: ts => Fits fit t ∧ FitsAll fit ts

def FitsOption (fit : Transform → Prop) : Option Term → Prop
  | none => True
  | some t => Fits fit t

end

mutual

theorem fits_true : ∀ t : Term, t.Fits fun _ => True
  | .name _ | .empty | .trivial | .eps _ | .char _ | .value _ => by simp only [Fits]
  | .cat ts | .alt ts => by simp only [Fits]; exact fitsAll_true ts
  | .rep t | .delta t | .letrec _ t | .lazy t | .derive _ t | .compact t | .residual _ t _
  | .child _ t => by simp only [Fits]; exact fits_true t
  | .red t _ => by simp only [Fits]; exact ⟨True.intro, fits_true t⟩
  | .raw _ first second _ _ _ => by
    simp only [Fits]
    exact ⟨True.intro, fitsOption_true first, fitsOption_true second⟩
  | .ifNullable condition yes no => by
    simp only [Fits]
    exact ⟨fits_true condition, fits_true yes, fits_true no⟩

theorem fitsAll_true : ∀ ts : List Term, FitsAll (fun _ => True) ts
  | [] => by simp only [FitsAll]
  | t :: ts => by simp only [FitsAll]; exact ⟨fits_true t, fitsAll_true ts⟩

theorem fitsOption_true : ∀ t : Option Term, FitsOption (fun _ => True) t
  | none => by simp only [FitsOption]
  | some t => by simp only [FitsOption]; exact fits_true t

end

mutual

theorem Fits.mono {fit fit' : Transform → Prop} (le : ∀ transform, fit transform → fit' transform) :
    ∀ t : Term, t.Fits fit → t.Fits fit'
  | .name _ | .empty | .trivial | .eps _ | .char _ | .value _ => by simp only [Fits, imp_self]
  | .cat ts | .alt ts => by simp only [Fits]; exact FitsAll.mono le ts
  | .rep t | .delta t | .letrec _ t | .lazy t | .derive _ t | .compact t | .residual _ t _
  | .child _ t => by simp only [Fits]; exact Fits.mono le t
  | .red t transform => by simp only [Fits]; exact .imp (le transform) (Fits.mono le t)
  | .raw _ first second _ _ transform => by
    simp only [Fits]
    exact .imp (le transform) (.imp (FitsOption.mono le first) (FitsOption.mono le second))
  | .ifNullable condition yes no => by
    simp only [Fits]
    exact .imp (Fits.mono le condition) (.imp (Fits.mono le yes) (Fits.mono le no))

theorem FitsAll.mono {fit fit' : Transform → Prop}
    (le : ∀ transform, fit transform → fit' transform) :
    ∀ ts : List Term, FitsAll fit ts → FitsAll fit' ts
  | [] => by simp only [FitsAll, imp_self]
  | t :: ts => by simp only [FitsAll]; exact .imp (Fits.mono le t) (FitsAll.mono le ts)

theorem FitsOption.mono {fit fit' : Transform → Prop}
    (le : ∀ transform, fit transform → fit' transform) :
    ∀ t : Option Term, FitsOption fit t → FitsOption fit' t
  | none => by simp only [FitsOption, imp_self]
  | some t => by simp only [FitsOption]; exact Fits.mono le t

end

end Term

def Suspension.Uses (raw : Prop) : Suspension → Prop
  | .term body _ => body.Uses raw
  | _ => True

theorem Suspension.uses_true (s : Suspension) : s.Uses True := by
  cases s with
  | term body scope => exact body.uses_true
  | _ => trivial

def Suspension.Fits (fit : Transform → Prop) : Suspension → Prop
  | .term body _ => body.Fits fit
  | _ => True

theorem Suspension.fits_true (s : Suspension) : s.Fits fun _ => True := by
  cases s with
  | term body scope => exact body.fits_true
  | _ => trivial

def Operand.Uses (raw : Prop) : Operand → Prop
  | .deferred s => s.Uses raw
  | _ => True

def Operand.Fits (fit : Transform → Prop) : Operand → Prop
  | .deferred s => s.Fits fit
  | _ => True

/-- What an operand may be that a term is evaluated to. -/
def Operand.Apt (raw : Prop) (fit : Transform → Prop) (o : Operand) : Prop :=
  o.Uses raw ∧ o.Fits fit

theorem Operand.apt_node (raw : Prop) (fit : Transform → Prop) (n : NodeId) :
    (Operand.node n).Apt raw fit :=
  ⟨trivial, trivial⟩

open Operand (apt_node)

/-- A property that also terms have because of what they are made of. Where `raw` fails, these are
the terms that make no node as it is. -/
structure TermParts (P : (α : Type) → (Ask → Run α) → Prop) (raw : Prop) (fit : Transform → Prop) :
    Prop extends EvaluatorParts P fit where
  postpone : ∀ {body} scope, Term.Uses raw body → Term.Fits fit body →
    P CellId fun _ => Run.defer (.term body scope)
  note : ∀ level message, P Unit fun _ => .update (Graph.note level message)
  letrec : ∀ {body : Ask → NodeId → Run Operand}, (∀ n, P Operand fun ask => body ask n) →
    P NodeId fun ask => do
      let placeholder ← Run.make { kind := .placeholder }
      let body ← body ask placeholder
      Grammar.define placeholder body
  anyNode : raw → ∀ node : Node, fit node.transform → P NodeId fun _ => Run.make node

/-- The case that all transforms fit. -/
structure Constructive (P : (α : Type) → (Ask → Run α) → Prop) (raw : Prop := True) : Prop
    extends Compositional P, TermParts P raw fun _ => True

namespace TermParts

variable {P : (α : Type) → (Ask → Run α) → Prop} {raw : Prop} {fit : Transform → Prop}
  (h : TermParts P raw fit) {α β : Type}
include h

theorem operand {o : Operand} (apt : o.Apt raw fit) : P Slot fun _ => o.slot := by
  cases o with
  | node n => exact h.pure _
  | deferred s => cases s with
    | term body scope => exact h.bind (h.postpone scope apt.1 apt.2) fun _ => h.pure _
    | derivative c n side => exact h.slot (plain_derivative c n side)
    | compacted n => exact h.slot (plain_later n)
  | other => exact h.fault _

theorem combine (unit : NodeId) {join : Operand → Operand → Run NodeId}
    (joined : ∀ {a b : Operand}, a.Apt raw fit → b.Apt raw fit → P NodeId fun _ => join a b)
    {operands : List Operand} (apt : ∀ o ∈ operands, Operand.Apt raw fit o) :
    P NodeId fun _ => Grammar.combine unit join operands := by
  have folded (rest : List Operand) (apt : ∀ o ∈ rest, Operand.Apt raw fit o) (n : NodeId) :
      P NodeId fun _ => rest.foldlM (fun n operand => join (.node n) operand) n := by
    induction rest generalizing n with
    | nil => exact h.pure n
    | cons operand rest ih =>
      rw [List.forall_mem_cons] at apt
      simp only [List.foldlM_cons]
      exact h.bind (joined (apt_node raw fit n) apt.1) fun m => ih apt.2 m
  unfold Grammar.combine
  split
  · exact h.pure _
  · exact h.pure _
  · exact h.fault _
  · rw [List.forall_mem_cons, List.forall_mem_cons] at apt
    exact h.bind (joined apt.1 apt.2.1) fun n => folded _ apt.2.2 n

theorem whole (allowed : raw) {node : Node} (fits : fit node.transform)
    {first second : Option Operand} (first_apt : ∀ o ∈ first, Operand.Apt raw fit o)
    (second_apt : ∀ o ∈ second, Operand.Apt raw fit o) :
    P NodeId fun _ => Grammar.raw node first second := by
  have part (o : Option Operand) (apt : ∀ a ∈ o, Operand.Apt raw fit a) :
      P Slot fun _ => (o.map Operand.slot).getD (Pure.pure Slot.vacant) := by
    cases o with
    | none => exact h.pure _
    | some o => exact h.operand (apt o rfl)
  exact h.bind (part first first_apt) fun _ => h.bind (part second second_apt) fun _ =>
    h.anyNode allowed _ fits

theorem advance (compaction : Bool) (c : Value) (n : NodeId) :
    P NodeId fun ask => Parse.advance ask compaction c n := by
  refine h.bind (h.ask (.derive c n)) fun derived => ?_
  cases compaction
  · exact h.pure _
  · exact h.ask (.compact derived)

theorem report (position : Nat) (c : Value) (n : NodeId) :
    P Unit fun ask => Parse.report ask position c n := by
  refine h.bind (h.read _) fun admits => ?_
  cases admits
  · exact h.pure ()
  · exact h.bind (h.ask (.nodeCount n)) fun _ => h.note _ _

theorem residualFrom (compaction : Bool) (symbols : List Value) (position : Nat) (n : NodeId) :
    P Residual fun ask => Parse.residualFrom ask compaction position symbols n := by
  induction symbols generalizing position n with
  | nil => exact h.pure _
  | cons c rest ih =>
    unfold Parse.residualFrom
    refine h.bind (h.advance compaction c n) fun next => ?_
    split
    · exact h.bind (h.note _ _) fun _ => h.pure _
    · exact h.bind (h.report position c next) fun _ => ih _ next

theorem residual (compaction : Bool) (symbols : List Value) (n : NodeId) :
    P Residual fun ask => Parse.residual ask compaction symbols n :=
  h.residualFrom compaction symbols 0 n

theorem recognize (compaction : Bool) (symbols : List Value) (n : NodeId) :
    P (Bool × Nat) fun ask => Parse.recognize ask compaction symbols n :=
  h.bind (h.residual compaction symbols n) fun r => h.bind (h.ask (.nullable r.node)) fun _ =>
    h.bind (h.note _ _) fun _ => h.pure _

theorem parse (compaction : Bool) (symbols : List Value) (n : NodeId) :
    P (Forest × Nat) fun ask => Parse.parse ask compaction symbols n :=
  h.bind (h.residual compaction symbols n) fun r => h.bind (h.ask (.forest r.node)) fun _ =>
    h.bind (h.given _) fun _ => h.bind (h.note _ _) fun _ => h.pure _

theorem language (o : Operand) : P NodeId fun _ => o.language := by
  cases o with
  | node n => exact h.pure n
  | deferred | other => exact h.fault _

theorem resolve (scope : Scope) (x : String) : P NodeId fun _ => Term.resolve scope x := by
  unfold Term.resolve
  split
  · exact h.pure _
  · refine h.bind (h.read _) fun found => ?_
    cases found
    · exact h.fault _
    · exact h.pure _

omit h

mutual

/-- What follows a term is given an operand that uses no more than the term, and hands over no other
transforms. -/
theorem build_bind (h : TermParts P raw fit) (scope : Scope) :
    ∀ {t : Term}, t.Uses raw → t.Fits fit → ∀ {β : Type} {k : Ask → Operand → Run β},
      (∀ o, Operand.Apt raw fit o → P β fun ask => k ask o) →
        P β fun ask => t.build ask scope >>= k ask
  | .name x, _, _, _, _, next => by
    simp only [Term.build, bind_assoc, pure_bind]
    exact h.bind (h.resolve scope x) fun _ => next _ (apt_node ..)
  | .empty, _, _, _, _, next | .trivial, _, _, _, _, next | .value _, _, _, _, _, next => by
    simp only [Term.build, pure_bind]
    exact next _ ⟨trivial, trivial⟩
  | .lazy body, uses, fits, _, _, next => by
    rw [Term.Uses] at uses
    rw [Term.Fits] at fits
    simp only [Term.build, pure_bind]
    exact next _ ⟨uses, fits⟩
  | .eps ws, _, _, _, _, next => by
    simp only [Term.build, bind_assoc, pure_bind]
    exact h.bind (h.eps ws) fun _ => next _ (apt_node ..)
  | .char c, _, _, _, _, next => by
    simp only [Term.build, bind_assoc, pure_bind]
    exact h.bind (h.make (canonical_of_kind Kind.noConfusion Kind.noConfusion
      fun side _ => by cases side <;> rfl) h.fits.identity) fun _ => next _ (apt_node ..)
  | .cat ts, uses, fits, _, _, next => by
    rw [Term.Uses] at uses
    rw [Term.Fits] at fits
    simp only [Term.build, bind_assoc, pure_bind]
    exact buildAll_bind h scope uses fits fun operands apt =>
      h.bind (h.combine _ (fun a b => h.cat (h.operand a) (h.operand b)) apt) fun _ =>
        next _ (apt_node ..)
  | .alt ts, uses, fits, _, _, next => by
    rw [Term.Uses] at uses
    rw [Term.Fits] at fits
    simp only [Term.build, bind_assoc, pure_bind]
    exact buildAll_bind h scope uses fits fun operands apt =>
      h.bind (h.combine _ (fun a b => h.alt (h.operand a) (h.operand b)) apt) fun _ =>
        next _ (apt_node ..)
  | .rep t, uses, fits, _, _, next => by
    rw [Term.Uses] at uses
    rw [Term.Fits] at fits
    simp only [Term.build, bind_assoc, pure_bind]
    exact build_bind h scope uses fits fun o apt =>
      h.bind (h.rep (h.operand apt)) fun _ => next _ (apt_node ..)
  | .delta t, uses, fits, _, _, next => by
    rw [Term.Uses] at uses
    rw [Term.Fits] at fits
    simp only [Term.build, bind_assoc, pure_bind]
    exact build_bind h scope uses fits fun o apt =>
      h.bind (h.delta (h.operand apt)) fun _ => next _ (apt_node ..)
  | .red t transform, uses, fits, _, _, next => by
    rw [Term.Uses] at uses
    rw [Term.Fits] at fits
    simp only [Term.build, bind_assoc, pure_bind]
    exact build_bind h scope uses fits.2 fun o apt =>
      h.bind (h.reduction (h.operand apt) fits.1) fun _ => next _ (apt_node ..)
  | .letrec x body, uses, fits, _, _, next => by
    rw [Term.Uses] at uses
    rw [Term.Fits] at fits
    have inner (n : NodeId) : P Operand fun ask => body.build ask ((x, n) :: scope) := by
      simpa only [bind_pure] using
        build_bind h ((x, n) :: scope) uses fits (k := fun _ o => Pure.pure o) fun o _ => h.pure o
    have whole := h.bind (h.letrec inner) fun n => next (.node n) (apt_node ..)
    simp only [bind_assoc] at whole
    simp only [Term.build, bind_assoc, pure_bind]
    exact whole
  | .raw kind first second symbol ws transform, uses, fits, _, _, next => by
    rw [Term.Uses] at uses
    rw [Term.Fits] at fits
    simp only [Term.build, bind_assoc, pure_bind]
    exact buildOption_bind h scope uses.2.1 fits.2.1 fun _ apt =>
      buildOption_bind h scope uses.2.2 fits.2.2 fun _ apt' =>
        h.bind (h.whole uses.1 fits.1 apt apt') fun _ => next _ (apt_node ..)
  | .derive c t, uses, fits, _, _, next => by
    rw [Term.Uses] at uses
    rw [Term.Fits] at fits
    simp only [Term.build, bind_assoc, pure_bind]
    exact build_bind h scope uses fits fun o _ => h.bind (h.language o) fun n =>
      h.bind (h.ask (.derive c n)) fun _ => next _ (apt_node ..)
  | .compact t, uses, fits, _, _, next => by
    rw [Term.Uses] at uses
    rw [Term.Fits] at fits
    simp only [Term.build, bind_assoc, pure_bind]
    exact build_bind h scope uses fits fun o _ => h.bind (h.language o) fun n =>
      h.bind (h.ask (.compact n)) fun _ => next _ (apt_node ..)
  | .residual symbols t compaction, uses, fits, _, _, next => by
    rw [Term.Uses] at uses
    rw [Term.Fits] at fits
    simp only [Term.build, bind_assoc, pure_bind]
    exact build_bind h scope uses fits fun o _ => h.bind (h.language o) fun n =>
      h.bind (h.residual compaction symbols n) fun _ => next _ (apt_node ..)
  | .child side t, uses, fits, _, _, next => by
    rw [Term.Uses] at uses
    rw [Term.Fits] at fits
    simp only [Term.build, bind_assoc]
    refine build_bind h scope uses fits fun o _ => h.bind (h.language o) fun n =>
      h.bind (h.ask (.child n side)) fun child => ?_
    cases child with
    | none => exact h.fault _
    | some c => exact next (.node c) (apt_node ..)
  | .ifNullable condition yes no, uses, fits, _, _, next => by
    rw [Term.Uses] at uses
    rw [Term.Fits] at fits
    simp only [Term.build, bind_assoc]
    refine build_bind h scope uses.1 fits.1 fun o _ => h.bind (h.language o) fun n =>
      h.bind (h.ask (.nullable n)) fun answer => ?_
    cases answer
    · exact build_bind h scope uses.2.2 fits.2.2 next
    · exact build_bind h scope uses.2.1 fits.2.1 next

theorem buildAll_bind (h : TermParts P raw fit) (scope : Scope) :
    ∀ {ts : List Term}, Term.UsesAll raw ts → Term.FitsAll fit ts →
      ∀ {β : Type} {k : Ask → List Operand → Run β},
        (∀ os, (∀ o ∈ os, Operand.Apt raw fit o) → P β fun ask => k ask os) →
          P β fun ask => Term.buildAll ask scope ts >>= k ask
  | [], _, _, _, _, next => by
    simp only [Term.buildAll, pure_bind]
    exact next [] (by simp)
  | t :: ts, uses, fits, _, _, next => by
    rw [Term.UsesAll] at uses
    rw [Term.FitsAll] at fits
    simp only [Term.buildAll, bind_assoc, pure_bind]
    exact build_bind h scope uses.1 fits.1 fun o apt =>
      buildAll_bind h scope uses.2 fits.2 fun os all =>
        next (o :: os) (List.forall_mem_cons.mpr ⟨apt, all⟩)

theorem buildOption_bind (h : TermParts P raw fit) (scope : Scope) :
    ∀ {t : Option Term}, Term.UsesOption raw t → Term.FitsOption fit t →
      ∀ {β : Type} {k : Ask → Option Operand → Run β},
        (∀ x : Option Operand, (∀ o ∈ x, Operand.Apt raw fit o) → P β fun ask => k ask x) →
          P β fun ask => Term.buildOption ask scope t >>= k ask
  | none, _, _, _, _, next => by
    simp only [Term.buildOption, pure_bind]
    exact next none nofun
  | some t, uses, fits, _, _, next => by
    rw [Term.UsesOption] at uses
    rw [Term.FitsOption] at fits
    simp only [Term.buildOption, bind_assoc, pure_bind]
    exact build_bind h scope uses fits fun o apt =>
      next (some o) fun _ same => by cases same; exact apt

end

include h

theorem build (scope : Scope) {t : Term} (uses : t.Uses raw) (fits : t.Fits fit) :
    P Operand fun ask => t.build ask scope := by
  simpa only [bind_pure] using
    h.build_bind scope uses fits (k := fun _ o => Pure.pure o) fun o _ => h.pure o

theorem compute {s : Suspension} (uses : s.Uses raw) (fits : s.Fits fit) :
    P Operand fun ask => Child.compute ask s := by
  cases s with
  | derivative c n side => exact h.toEvaluatorParts.compute (plain_derivative c n side)
  | compacted n => exact h.toEvaluatorParts.compute (plain_later n)
  | term body scope => exact h.build scope uses fits

end TermParts

namespace Constructive

variable {P : (α : Type) → (Ask → Run α) → Prop} {raw : Prop} (h : Constructive P raw)
include h

theorem build (scope : Scope) {t : Term} (uses : t.Uses raw) :
    P Operand fun ask => t.build ask scope :=
  h.toTermParts.build scope uses t.fits_true

theorem compute {s : Suspension} (uses : s.Uses raw) : P Operand fun ask => Child.compute ask s :=
  h.toTermParts.compute uses s.fits_true

end Constructive

end GrammarGraph
