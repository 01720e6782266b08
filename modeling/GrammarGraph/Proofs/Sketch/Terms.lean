import GrammarGraph.Proofs.Sketch.Engine

/-! Sentences and terms in a sketch that differs from the larger graph in its nodes only. A party
that builds from its own names builds the same in both. -/
namespace GrammarGraph

mutual

/-- All names in the term are the party's own or bound in the term, and nothing in it waits for its
evaluation. -/
def Term.Own (owns : String → Prop) : Term → Prop
  | .name x => owns x
  | .empty | .trivial | .eps _ | .char _ | .value _ => True
  | .cat ts | .alt ts => Term.AllOwn owns ts
  | .rep t | .delta t | .red t _ | .derive _ t | .compact t | .residual _ t _ | .child _ t =>
    t.Own owns
  | .letrec x body => body.Own fun y => y = x ∨ owns y
  | .lazy _ => False
  | .raw _ first second _ _ _ => Term.OptionOwn owns first ∧ Term.OptionOwn owns second
  | .ifNullable condition yes no => condition.Own owns ∧ yes.Own owns ∧ no.Own owns

def Term.AllOwn (owns : String → Prop) : List Term → Prop
  | [] => True
  | t :: ts => t.Own owns ∧ Term.AllOwn owns ts

def Term.OptionOwn (owns : String → Prop) : Option Term → Prop
  | none => True
  | some t => t.Own owns

end

variable {K : Cast} {owns : String → Prop} {p q : Placing K} {n n' : NodeId}

namespace Placing

/-- The same names for nodes that are placed. -/
def Scopes (p : Placing K) : Scope → Scope → Prop :=
  List.Forall₂ fun a a' => a'.1 = a.1 ∧ p.At a.2 a'.2

def Residuals (p : Placing K) (r r' : Residual) : Prop :=
  p.At r.node r'.node ∧ r'.consumed = r.consumed

variable {scope scope' : Scope} {x : String}

theorem Le.scopes (le : p.Le q) (related : p.Scopes scope scope') : q.Scopes scope scope' :=
  related.imp fun _ _ h => ⟨h.1, le.node h.2⟩

theorem Scopes.lookup (related : p.Scopes scope scope') (x : String) :
    Option.Rel p.At (scope.lookup x) (scope'.lookup x) := by
  induction related with
  | nil => exact .none
  | @cons a a' _ _ first _ ih =>
    obtain ⟨y, n⟩ := a
    obtain ⟨y', n'⟩ := a'
    obtain rfl : y' = y := first.1
    rw [List.lookup_cons, List.lookup_cons]
    split
    · exact .some first.2
    · exact ih

end Placing

namespace Mirrors

variable {α α' : Type} {V : Placing K → α → α' → Prop} {r : Run α} {r' : Run α'}

/-- What the sketch tells may be used. -/
theorem knowing {P : Prop} (known : ∀ h g, Sketches p h g → P)
    (rest : P → Mirrors p V r r') : Mirrors p V r r' :=
  fun h g s => rest (known h g s) h g s

theorem note (level : Level) (message : String) {k : Unit → Run α} {k' : Unit → Run α'}
    (rest : Mirrors p V (k ()) (k' ())) :
    Mirrors p V (RunOf.update (Graph.note level message) >>= k)
      (RunOf.update (Graph.note level message) >>= k') :=
  update (fun _ g _ => .note p g level message) (fun _ _ s => s.note level message) rest

theorem combine {unit : NodeId} {join : Operand → Operand → Run NodeId}
    (onUnit : Mirrors p Placing.At (Pure.pure unit) (Pure.pure unit))
    (onJoin : ∀ {q} {x x' y y' : Operand}, p.Le q → q.Operands x x' → q.Operands y y' →
      Mirrors q Placing.At (join x y) (join x' y'))
    {xs xs' : List Operand} (related : List.Forall₂ p.Operands xs xs') :
    Mirrors p Placing.At (Grammar.combine unit join xs) (Grammar.combine unit join xs') := by
  have folded {ys ys' : List Operand} (all : List.Forall₂ p.Operands ys ys') :
      ∀ {q : Placing K} {n n' : NodeId}, p.Le q → q.At n n' → Mirrors q Placing.At
        (ys.foldlM (fun n operand => join (.node n) operand) n)
        (ys'.foldlM (fun n operand => join (.node n) operand) n') := by
    induction all with
    | nil => exact fun _ placed => pure placed
    | cons first _ ih =>
      intro q n n' le placed
      rw [List.foldlM_cons, List.foldlM_cons]
      exact bind (onJoin le placed (le.operands first)) fun q' m m' le' hm => ih (le.trans le') hm
  cases related with
  | nil => exact onUnit
  | @cons x x' _ _ first rest =>
    cases rest with
    | nil =>
      rcases Placing.operands_cases first with
        ⟨n, n', rfl, rfl, placed⟩ | ⟨s, s', rfl, rfl, _⟩ | ⟨name, rfl, rfl⟩
      · exact pure placed
      · exact fault _
      · exact fault _
    | cons second rest =>
      have started := bind (onJoin (.refl p) first second) fun q n n' le placed =>
        folded rest le placed
      rcases Placing.operands_cases first with
        ⟨n, n', rfl, rfl, _⟩ | ⟨s, s', rfl, rfl, _⟩ | ⟨name, rfl, rfl⟩ <;> exact started

theorem raw {p : Placing (.same owns)} (kind : Kind) (symbol : Value) (witnesses : Forest)
    (transform : Transform) {first first' second second' : Option Operand} (hf : Option.Rel p.Operands first first')
    (hs : Option.Rel p.Operands second second') :
    Mirrors p Placing.At (Grammar.raw { kind, symbol, witnesses, transform } first second)
      (Grammar.raw { kind, symbol, witnesses, transform } first' second') := by
  have part {q : Placing (.same owns)} {o o' : Option Operand} (related : Option.Rel q.Operands o o') :
      Mirrors q Placing.Slots ((o.map Operand.slot).getD (Pure.pure .vacant))
        ((o'.map Operand.slot).getD (Pure.pure .vacant)) := by
    cases related with
    | none => exact pure True.intro
    | some related => exact slot related
  refine bind (part hf) fun q y y' le hy => ?_
  refine bind (part (rel_imp hs le.operands)) fun q' z z' le' hz => make_node ?_
  exact ⟨rfl, le'.slots hy, hz, fun _ => rfl, rfl, rfl⟩

theorem define (placed : p.At n n') (compound : n ≠ .empty ∧ n ≠ .eps) {x x' : Operand}
    (related : p.Operands x x') :
    Mirrors p Placing.At (Grammar.define n x) (Grammar.define n' x') := by
  rcases Placing.operands_cases related with
    ⟨m, m', rfl, rfl, hm⟩ | ⟨s, s', rfl, rfl, _⟩ | ⟨name, rfl, rfl⟩
  · refine same (fun h g s => s.kind_eq hm) fun kind => ?_
    cases kind.isAtomic with
    | true => exact fault _
    | false =>
      exact update (fun _ _ _ => .become placed m') (fun _ _ s => s.become placed compound hm)
        (pure placed)
  · exact fault _
  · exact fault _

theorem language {x x' : Operand} (related : p.Operands x x') :
    Mirrors p Placing.At x.language x'.language := by
  rcases Placing.operands_cases related with
    ⟨m, m', rfl, rfl, hm⟩ | ⟨s, s', rfl, rfl, _⟩ | ⟨name, rfl, rfl⟩
  · exact pure hm
  · exact fault _
  · exact fault _

theorem resolve {scope scope' : Scope} (scopes : p.Scopes scope scope') {x : String}
    (named : scope.lookup x ≠ none ∨ K.owns x) :
    Mirrors p Placing.At (Term.resolve scope x) (Term.resolve scope' x) := by
  unfold Term.resolve
  have bound := scopes.lookup x
  generalize scope.lookup x = found at bound named ⊢
  generalize scope'.lookup x = found' at bound ⊢
  cases bound with
  | some placed => exact pure placed
  | none =>
    refine read (T := Option.Rel p.At) (fun _ _ s => s.names (named.resolve_left (· rfl)))
      fun found found' related => ?_
    cases related with
    | none => exact fault _
    | some placed => exact pure placed

theorem made {r r' : Run NodeId} (h : Mirrors p Placing.At r r') :
    Mirrors p Placing.Operands (do return .node (← r)) (do return .node (← r')) :=
  bind h fun _ _ _ _ placed => pure placed

end Mirrors

namespace Ask.Mirrored

open Mirrors (pure bind read given same fault knowing note made)

section

variable {ask ask' : Ask} (a : ask.Mirrored K ask')
include a

theorem advance (compaction : Bool) {c c' : Value} (key : K.Symbols c c') (placed : p.At n n') :
    Mirrors p Placing.At (Parse.advance ask compaction c n)
      (Parse.advance ask' compaction c' n') := by
  refine bind (a.derive key placed) fun q d d' le hd => ?_
  cases compaction with
  | true => exact a.evaluate .compact hd
  | false => exact pure hd

theorem report (position : Nat) (c : Value) (placed : p.At n n') :
    Mirrors p (fun _ _ _ => True) (Parse.report ask position c n)
      (Parse.report ask' position c n') := by
  refine same (fun h g s => by rw [Graph.admits, Graph.admits, s.journal]) fun admits => ?_
  cases admits with
  | true =>
    refine bind (a.nodeCount placed) fun q count count' le same => ?_
    obtain rfl : count = count' := same
    exact note _ _ (pure True.intro)
  | false => exact pure True.intro

variable {symbols : List Value} (keys : ∀ c ∈ symbols, K.Symbols c c)
include keys

theorem residualFrom (compaction : Bool) (position : Nat) (placed : p.At n n') :
    Mirrors p Placing.Residuals (Parse.residualFrom ask compaction position symbols n)
      (Parse.residualFrom ask' compaction position symbols n') := by
  induction symbols generalizing p position n n' with
  | nil => exact pure ⟨placed, rfl⟩
  | cons c rest ih =>
    unfold Parse.residualFrom
    have others := fun d member => keys d (List.mem_cons_of_mem c member)
    refine bind (a.advance compaction (keys c List.mem_cons_self) placed) fun q next next' le hn => ?_
    refine knowing (P := (next' == NodeId.empty) = (next == NodeId.empty)) (fun _ _ s => ?_)
      fun rejected => ?_
    · rw [Bool.eq_iff_iff, beq_iff_eq, beq_iff_eq]
      exact s.matching.eq_iff s.empty hn
    rw [rejected]
    split
    · exact note _ _ (pure ⟨hn, rfl⟩)
    · exact bind (a.report position c hn) fun q' _ _ le' _ => ih others _ (le'.node hn)

theorem residual (compaction : Bool) (placed : p.At n n') :
    Mirrors p Placing.Residuals (Parse.residual ask compaction symbols n)
      (Parse.residual ask' compaction symbols n') :=
  a.residualFrom keys compaction 0 placed

theorem recognize (compaction : Bool) (placed : p.At n n') :
    Mirrors p (fun _ => Eq) (Parse.recognize ask compaction symbols n)
      (Parse.recognize ask' compaction symbols n') := by
  refine bind (a.residual keys compaction placed) fun q r r' le hr => ?_
  refine bind (a.evaluate .nullable hr.1) fun q' accepted accepted' le' same => ?_
  obtain rfl : accepted = accepted' := same
  rw [hr.2]
  exact note _ _ (pure rfl)

theorem parse (faithful : K.Faithful) (compaction : Bool) (placed : p.At n n') :
    Mirrors p (fun _ => Eq) (Parse.parse ask compaction symbols n)
      (Parse.parse ask' compaction symbols n') := by
  refine bind (a.residual keys compaction placed) fun q r r' le hr => ?_
  refine bind (a.evaluate .forest hr.1) fun q' ws ws' le' same => ?_
  obtain rfl := faithful.forests same
  refine given (.same _) fun us us' same => ?_
  subst same
  rw [hr.2]
  exact note _ _ (pure rfl)

end

variable {ask ask' : Ask}

mutual

theorem build (a : ask.Mirrored (.same owns) ask') :
    ∀ (t : Term) {bound : String → Prop} {p : Placing (.same owns)} {scope scope' : Scope},
      t.Own bound → p.Scopes scope scope' → (∀ x, bound x → scope.lookup x ≠ none ∨ owns x) →
      Mirrors p Placing.Operands (t.build ask scope) (t.build ask' scope')
  | .name x, _, _, _, _, own, scopes, named => by
    simp only [Term.build]
    exact made (.resolve scopes (named x own))
  | .empty, _, _, _, _, _, _, _ => by
    simp only [Term.build]
    exact knowing (P := Placing.At _ _ _) (fun _ _ s => s.empty) fun placed => pure placed
  | .trivial, _, _, _, _, _, _, _ => by
    simp only [Term.build]
    exact knowing (P := Placing.At _ _ _) (fun _ _ s => s.eps) fun placed => pure placed
  | .eps ws, _, _, _, _, _, _, _ => by
    simp only [Term.build]
    exact made (.eps rfl)
  | .char c, _, _, _, _, _, _, _ => by
    simp only [Term.build]
    exact made (.char rfl)
  | .cat ts, _, _, _, _, own, scopes, named => by
    simp only [Term.build]
    refine bind (buildAll a ts own scopes named) fun q xs xs' le related => made ?_
    exact .combine .trivial (fun _ hx hy => .cat hx hy) related
  | .alt ts, _, _, _, _, own, scopes, named => by
    simp only [Term.build]
    refine bind (buildAll a ts own scopes named) fun q xs xs' le related => made ?_
    exact .combine .empty (fun _ hx hy => .alt hx hy) related
  | .rep t, _, _, _, _, own, scopes, named => by
    simp only [Term.build]
    exact bind (build a t own scopes named) fun _ _ _ _ hx => made (.rep hx)
  | .delta t, _, _, _, _, own, scopes, named => by
    simp only [Term.build]
    exact bind (build a t own scopes named) fun _ _ _ _ hx => made (.delta hx)
  | .red t transform, _, _, _, _, own, scopes, named => by
    simp only [Term.build]
    exact bind (build a t own scopes named) fun _ _ _ _ hx => made (.reduction hx rfl)
  | .letrec x body, bound, _, scope, _, own, scopes, named => by
    simp only [Term.build]
    refine bind (.make ⟨rfl, True.intro, True.intro, fun _ => rfl, rfl, rfl⟩)
      fun q n n' le placed => ?_
    obtain ⟨placed, compound⟩ := placed
    refine bind (build a body own (.cons ⟨rfl, placed⟩ (le.scopes scopes)) fun y own => ?_)
      fun q' operand operand' le' related => made (.define (le'.node placed) compound related)
    rw [List.lookup_cons]
    rcases own with rfl | own
    · exact .inl (by simp)
    · split
      · exact .inl (by simp)
      · exact named y own
  | .lazy _, _, _, _, _, own, _, _ => own.elim
  | .value v, _, _, _, _, _, _, _ => by
    simp only [Term.build]
    exact pure rfl
  | .raw kind first second symbol ws transform, _, _, _, _, own, scopes, named => by
    simp only [Term.build]
    refine bind (buildOption a first own.1 scopes named) fun q x x' le hx => ?_
    refine bind (buildOption a second own.2 (le.scopes scopes) named) fun q' y y' le' hy => ?_
    exact made (.raw kind symbol ws transform (rel_imp hx le'.operands) hy)
  | .derive c t, _, _, _, _, own, scopes, named => by
    simp only [Term.build]
    exact bind (build a t own scopes named) fun _ _ _ _ hx => bind (.language hx)
      fun _ _ _ _ hn => made (a.derive rfl hn)
  | .compact t, _, _, _, _, own, scopes, named => by
    simp only [Term.build]
    exact bind (build a t own scopes named) fun _ _ _ _ hx => bind (.language hx)
      fun _ _ _ _ hn => made (a.evaluate .compact hn)
  | .residual symbols t compaction, _, _, _, _, own, scopes, named => by
    simp only [Term.build]
    exact bind (build a t own scopes named) fun _ _ _ _ hx => bind (.language hx)
      fun _ _ _ _ hn => bind (a.residual (fun _ _ => rfl) compaction hn) fun _ _ _ _ hr =>
        pure hr.1
  | .child side t, _, _, _, _, own, scopes, named => by
    simp only [Term.build]
    refine bind (build a t own scopes named) fun _ _ _ _ hx => bind (.language hx)
      fun _ _ _ _ hn => bind (a.child? side hn) fun _ _ _ _ hc => ?_
    cases hc with
    | some placed => exact pure placed
    | none => exact fault _
  | .ifNullable condition yes no, _, _, _, _, own, scopes, named => by
    simp only [Term.build]
    refine bind (build a condition own.1 scopes named) fun _ _ _ le hx => bind (.language hx)
      fun _ _ _ le' hn => bind (a.evaluate .nullable hn) fun _ v v' le'' same => ?_
    obtain rfl : v = v' := same
    have scopes := ((le.trans le').trans le'').scopes scopes
    cases v with
    | true => exact build a yes own.2.1 scopes named
    | false => exact build a no own.2.2 scopes named

theorem buildAll (a : ask.Mirrored (.same owns) ask') :
    ∀ (ts : List Term) {bound : String → Prop} {p : Placing (.same owns)} {scope scope' : Scope},
      Term.AllOwn bound ts → p.Scopes scope scope' →
      (∀ x, bound x → scope.lookup x ≠ none ∨ owns x) →
      Mirrors p (fun q => List.Forall₂ q.Operands) (Term.buildAll ask scope ts)
        (Term.buildAll ask' scope' ts)
  | [], _, _, _, _, _, _, _ => by
    simp only [Term.buildAll]
    exact pure .nil
  | t :: ts, _, _, _, _, own, scopes, named => by
    simp only [Term.buildAll]
    refine bind (build a t own.1 scopes named) fun q x x' le hx => ?_
    refine bind (buildAll a ts own.2 (le.scopes scopes) named) fun q' xs xs' le' hxs => ?_
    exact pure (.cons (le'.operands hx) hxs)

theorem buildOption (a : ask.Mirrored (.same owns) ask') :
    ∀ (t : Option Term) {bound : String → Prop} {p : Placing (.same owns)} {scope scope' : Scope},
      Term.OptionOwn bound t → p.Scopes scope scope' →
      (∀ x, bound x → scope.lookup x ≠ none ∨ owns x) →
      Mirrors p (fun q => Option.Rel q.Operands) (Term.buildOption ask scope t)
        (Term.buildOption ask' scope' t)
  | none, _, _, _, _, _, _, _ => by
    simp only [Term.buildOption]
    exact pure .none
  | some t, _, _, _, _, own, scopes, named => by
    simp only [Term.buildOption]
    exact bind (build a t own scopes named) fun _ _ _ _ hx => pure (.some hx)

end

end Ask.Mirrored

end GrammarGraph
