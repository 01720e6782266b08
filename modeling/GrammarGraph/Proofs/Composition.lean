import GrammarGraph.Proofs.Evaluator
import GrammarGraph.Proofs.Regime.Keeping

/-! Compositions. The functions of a composition are listed in the order in which they are applied,
and no composition is among them: `compose` joins the lists of both, and rewriting makes its
transforms with `compose`. So how a composition was put together makes no difference, and it is
applied by one loop, which ends with the first function that fails. -/
namespace GrammarGraph

namespace Transform

/-- Functions, and what `compose` makes of them. -/
inductive Composed : Transform → Prop where
  | plain (name : String) (argument : Option Value) (function : Value → Except Fault Value) :
      Composed (.plain name argument function)
  | prepend (head : Value) : Composed (.prepend head)
  | append (tail : Value) : Composed (.append tail)
  | compose {outer inner : Transform} : Composed outer → Composed inner →
      Composed (outer.compose inner)

/-- None of the functions is a composition. -/
def Flat (t : Transform) : Prop :=
  ∀ part ∈ t.parts, ∀ parts, part ≠ .composition parts

theorem Flat.compose {outer inner : Transform} (first : inner.Flat) (second : outer.Flat) :
    (outer.compose inner).Flat :=
  fun part member => (List.mem_append.mp member).elim (first part) (second part)

/-- A transform that is no composition has no other function than itself. -/
theorem flat_of_parts {t : Transform} (alone : t.parts = [t])
    (function : ∀ parts, t ≠ .composition parts) : t.Flat := by
  intro part member
  rw [alone, List.mem_singleton] at member
  exact member ▸ function

theorem flat_closed : Closed Flat where
  identity := nofun
  prepend _ := flat_of_parts rfl nofun
  append _ := flat_of_parts rfl nofun
  compose outer inner := .compose inner outer

theorem Composed.flat {t : Transform} (composed : t.Composed) : t.Flat := by
  induction composed with
  | plain => exact flat_of_parts rfl nofun
  | prepend head => exact flat_closed.prepend head
  | append tail => exact flat_closed.append tail
  | compose _ _ outer inner => exact flat_closed.compose outer inner

theorem compose_assoc (f g h : Transform) :
    f.compose (g.compose h) = (f.compose g).compose h :=
  congrArg composition (List.append_assoc h.parts g.parts f.parts)

/-- The loop of a composition, where `call` is how a function is called. -/
def loop {m : Type → Type} [Monad m] (call : Transform → Value → m Value) :
    List Transform → Value → m Value
  | [], w => pure w
  | part :: parts, w => do loop call parts (← call part w)

theorem applyAll_eq_loop (parts : List Transform) (w : Value) :
    applyAll parts w = loop apply parts w := by
  induction parts generalizing w with
  | nil => rfl
  | cons part parts ih =>
    rw [applyAll, loop]
    exact bind_congr fun v => ih v

/-- Calls a function, and puts down first that it is called. -/
def noted (part : Transform) (w : Value) : RunOf (List Transform) Value := do
  .update (· ++ [part])
  .ofExcept (part.apply w)

/-- The functions that are called if `parts` are applied one after the other, beginning with `w`:
all of them, or those up to the first that fails. -/
structure Calls (parts : List Transform) (w : Value) (called : List Transform) : Prop where
  all : ∀ v, applyAll parts w = .ok v → called = parts
  upTo : ∀ fault, applyAll parts w = .error fault → ∃ before part v,
    called = before ++ [part] ∧ called <+: parts ∧
      applyAll before w = .ok v ∧ part.apply v = .error fault

namespace Calls

variable {part : Transform} {parts called : List Transform} {w v : Value} {fault : Fault}

theorem nil (w : Value) : Calls [] w [] :=
  ⟨fun _ _ => rfl, fun _ fails => nomatch fails⟩

theorem fails (failing : part.apply w = .error fault) : Calls (part :: parts) w [part] := by
  have whole : applyAll (part :: parts) w = .error fault := by rw [applyAll, failing]; rfl
  refine ⟨fun v ended => ?_, fun fault' ended => ?_⟩ <;> cases whole.symm.trans ended
  exact ⟨[], part, w, rfl, ⟨parts, rfl⟩, rfl, failing⟩

theorem cons (applied : part.apply w = .ok v) (h : Calls parts v called) :
    Calls (part :: parts) w (part :: called) := by
  have onward (parts : List Transform) : applyAll (part :: parts) w = applyAll parts v := by
    rw [applyAll, applied]
    rfl
  refine ⟨fun u ended => ?_, fun fault ended => ?_⟩
  · rw [h.all u ((onward parts).symm.trans ended)]
  · obtain ⟨before, failing, u, rfl, within, until_, fails⟩ :=
      h.upTo fault ((onward parts).symm.trans ended)
    exact ⟨part :: before, failing, u, rfl, List.prefix_cons_inj part |>.mpr within,
      (onward before).trans until_, fails⟩

end Calls

/-- The loop gives what `applyAll` gives and calls no function after one that fails. -/
theorem loop_noted (parts : List Transform) (w : Value) (log : List Transform) :
    ∃ called, loop noted parts w log = some (applyAll parts w, log ++ called) ∧
      Calls parts w called := by
  induction parts generalizing w log with
  | nil => exact ⟨[], by rw [List.append_nil]; rfl, .nil w⟩
  | cons part parts ih =>
    have turn : loop noted (part :: parts) w log =
        (RunOf.ofExcept (part.apply w) >>= loop noted parts) (log ++ [part]) := rfl
    cases applied : part.apply w with
    | error fault =>
      refine ⟨[part], ?_, .fails applied⟩
      rw [turn, applied, applyAll, applied]
      rfl
    | ok v =>
      obtain ⟨called, ends, calls⟩ := ih v (log ++ [part])
      refine ⟨part :: called, ?_, .cons applied calls⟩
      rw [turn, applied, RunOf.ok_bind, ends, applyAll, applied, List.append_assoc]
      rfl

end Transform

/-- The transforms of nodes fit, and so do those of terms that wait. -/
structure Graph.Fits (fit : Transform → Prop) (g : Graph) : Prop where
  node : ∀ n, fit (g.node n).transform
  suspended : ∀ {cell s}, g.suspension? cell = some s → s.Fits fit

namespace Graph.Fits

variable {fit : Transform → Prop} {g g' : Graph}

theorem initial (closed : Transform.Closed fit) : ({} : Graph).Fits fit where
  node n := by
    rcases n with _ | _ | n <;> exact closed.identity
  suspended known := by simp [Graph.suspension?] at known

theorem congr (h : g.Fits fit) (nodes : g'.nodes = g.nodes) (cells : g'.cells = g.cells) :
    g'.Fits fit where
  node n := by
    rw [Graph.node, nodes]
    exact h.node n
  suspended known := h.suspended (by rwa [Graph.suspension?, cells] at known)

theorem addNode (h : g.Fits fit) {node : Node} (fits : fit node.transform) :
    (g.addNode node).Fits fit where
  node n := by
    rw [Graph.node_addNode]
    split
    · exact fits
    · exact h.node n
  suspended := h.suspended

theorem addCell (h : g.Fits fit) {s : Suspension} (fits : s.Fits fit) : (g.addCell s).Fits fit where
  node := h.node
  suspended known := by
    rw [Graph.suspension_addCell] at known
    split at known
    · cases known
      exact fits
    · exact h.suspended known

theorem setForcing (h : g.Fits fit) (cell : CellId) (mark : Bool) :
    (g.setForcing cell mark).Fits fit where
  node := h.node
  suspended known := h.suspended (by rwa [Graph.suspension_setForcing] at known)

theorem setSlot (h : g.Fits fit) (n : NodeId) (side : Side) (x : Slot) :
    (g.setSlot n side x).Fits fit where
  node m := by
    rw [Node.transform_of_bare (g.bare_setSlot n side x m)]
    exact h.node m
  suspended := h.suspended

theorem become (h : g.Fits fit) (n other : NodeId) : (g.become n other).Fits fit where
  node m := by
    rcases g.node_become_cases n other m with ⟨-, same⟩ | same
    · exact same ▸ h.node other
    · exact same ▸ h.node m
  suspended := h.suspended

end Graph.Fits

def fitting (fit : Transform → Prop) : Regime Unit where
  Valid _ g := g.Fits fit
  Later _ _ _ _ := True
  refl _ _ := trivial
  trans _ _ := trivial

section

variable {fit : Transform → Prop} (closed : Transform.Closed fit)
include closed

theorem fitting_letrec {body : NodeId → Run Operand} (keeps : ∀ n, (fitting fit).Keeps (body n)) :
    (fitting fit).Keeps (do
      let placeholder ← Run.make { kind := .placeholder }
      let body ← body placeholder
      Grammar.define placeholder body) := by
  intro g valid result g' ends
  obtain ⟨built, g₁, building, ended⟩ := Grammar.letrec_cases ends
  obtain ⟨_, -, valid₁, -⟩ := keeps _ _ (Graph.Fits.addNode valid closed.identity) _ _ building
  rcases ended with rfl | ⟨k, -, -, rfl⟩
  · exact ⟨(), trivial, valid₁, fun _ _ => trivial⟩
  · exact ⟨(), trivial, Graph.Fits.become valid₁ _ k, fun _ _ => trivial⟩

theorem fitting_parts : TermParts
    (fun _ r => ∀ ask, (fitting fit).Answers ask → (fitting fit).Keeps (r ask)) True fit where
  toEvaluatorParts := Regime.parts closed (fun valid n => valid.node n)
    (fun _ fits => .make fun _ valid => ⟨trivial, valid.addNode fits⟩)
    fun {s} plain => .defer fun _ valid => ⟨trivial, valid.addCell <| by
      cases s with
      | term body scope => exact absurd rfl (plain body scope)
      | _ => trivial⟩
  postpone _ _ fits _ _ := .defer fun _ valid => ⟨trivial, valid.addCell fits⟩
  note _ _ _ _ := .update fun _ valid => ⟨trivial, valid.congr rfl rfl⟩
  letrec body ask h := fitting_letrec closed fun n => body n ask h
  anyNode _ _ fits _ _ := .make fun _ valid => ⟨trivial, valid.addNode fits⟩

theorem Regime.Answers.read_fitting {ask : Ask} (h : (fitting fit).Answers ask) (n : NodeId)
    (side : Side) : (fitting fit).Keeps (Child.read ask n side) := by
  intro g valid
  refine .imp (.child (Q := fun _ _ _ => True) (fun _ => trivial) ?_ valid)
    fun _ _ _ _ _ _ => trivial
  intro cell s slot suspended free result g₁ ends
  obtain ⟨_, -, valid₁, -⟩ := (fitting_parts closed).compute s.uses_true
    (Graph.Fits.suspended valid suspended) ask h _ (Graph.Fits.setForcing valid cell true) _ _ ends
  have valid₂ := Graph.Fits.setForcing valid₁ cell false
  exact ⟨(), trivial, valid₂, fun _ _ _ _ => ⟨trivial, valid₂.setSlot .., trivial⟩⟩

/-- Whatever is asked, within any bound, the transforms go on to fit. -/
theorem Engine.run_fitting : ∀ bound, (fitting fit).Answers (Engine.run bound)
  | 0 => fun _ _ _ => .spent
  | bound + 1 => (run_fitting bound).answer (fitting_parts closed).toEvaluatorParts
      (fun valid nodes cells _ => ⟨trivial, Graph.Fits.congr valid nodes cells⟩)
      ((run_fitting bound).read_fitting closed) bound

end

/-- Graphs that come about where the transforms that are handed over are composed of functions.
Those of nodes that are no reductions may be left out. -/
inductive Graph.Raised : Graph → Prop where
  | start : Raised {}
  | build {g g' : Graph} {t : Term} {scope : Scope} {bound : Nat} {result : Except Fault Operand} :
      Raised g → t.Fits (fun transform => transform = .identity ∨ transform.Composed) →
      t.build (Engine.run bound) scope g = some (result, g') → Raised g'
  | ask {g g' : Graph} {q : Query} {bound : Nat} {result : Except Fault q.Answer} :
      Raised g → Engine.run bound q g = some (result, g') → Raised g'
  | become {g : Graph} (n other : NodeId) : Raised g → Raised (g.become n other)
  | bind {g : Graph} (x : String) (n : NodeId) : Raised g → Raised (g.bind x n)
  | journal {g : Graph} (journal : Option Journal) : Raised g → Raised { g with journal }

theorem Graph.Raised.fits {g : Graph} (raised : g.Raised) : g.Fits Transform.Flat := by
  have closed := Transform.flat_closed
  induction raised with
  | start => exact .initial closed
  | @build g _ t _ bound _ _ composed ends ih =>
    have flat : t.Fits Transform.Flat := Term.Fits.mono (fun transform => by
      rintro (rfl | composed)
      · exact closed.identity
      · exact composed.flat) t composed
    obtain ⟨_, -, valid, -⟩ := (fitting_parts closed).build _ t.uses_true flat _
      (Engine.run_fitting closed bound) g ih _ _ ends
    exact valid
  | @ask g _ q bound _ _ ends ih =>
    obtain ⟨_, -, valid, -⟩ := Engine.run_fitting closed bound q g ih _ _ ends
    exact valid
  | become n other _ ih => exact ih.become n other
  | bind x n _ ih => exact ih.congr rfl rfl
  | journal journal _ ih => exact ih.congr rfl rfl

/-- Composition is associative on the nose. What is composed of functions lists these functions
alone, and so does every node of a graph to which only such transforms are handed over, whatever is
derived and compacted. A composition gives what its inner and then its outer transform give. It
calls its functions one after the other, and if one of them fails, it fails likewise and calls none
of those that are left. -/
theorem Transform.compositions_flat :
    (∀ f g h : Transform, f.compose (g.compose h) = (f.compose g).compose h) ∧
    (∀ t : Transform, t.Composed → t.Flat) ∧
    (∀ g : Graph, g.Raised → ∀ n, (g.node n).transform.Flat) ∧
    ∀ (f g : Transform) (w : Value),
      (f.compose g).apply w = g.apply w >>= f.apply ∧
      (f.compose g).apply w = loop apply (f.compose g).parts w ∧
      ∀ log, ∃ called,
        loop noted (f.compose g).parts w log = some ((f.compose g).apply w, log ++ called) ∧
        Calls (g.parts ++ f.parts) w called :=
  ⟨compose_assoc, fun _ composed => composed.flat, fun _ raised => raised.fits.node,
    fun f g w => ⟨apply_compose f g w, applyAll_eq_loop (g.parts ++ f.parts) w,
      loop_noted (g.parts ++ f.parts) w⟩⟩

/-- A pairing of what was paired already. -/
def Transform.around : Transform :=
  .compose (.append (.int 3)) (.prepend (.int 2))

/-- Two reductions that are compacted to one, which is then derived. -/
def Term.around : Term :=
  .derive (.int 1) (.compact (.red (.red (.char (.int 1)) (.prepend (.int 2))) (.append (.int 3))))

def Graph.around : Graph :=
  ((Term.around.build (Engine.run 4) [] {}).map Prod.snd).getD {}

/-- A function that fails, and one that would be next. -/
def Transform.interrupted : Transform :=
  .compose (.append (.int 4)) (.plain "fail" none fun _ => .error (.transform "fail"))

theorem Transform.compositions_flat_around :
    Graph.around.Raised ∧ (Graph.around.node 6).transform = around ∧
      (Graph.around.node 6).transform.Flat ∧
    around.Composed ∧ around.Flat ∧
    around.apply (.int 1) = .ok (.tuple [.tuple [.int 2, .int 1], .int 3]) ∧
    loop noted around.parts (.int 1) [] =
      some (around.apply (.int 1), [.prepend (.int 2), .append (.int 3)]) ∧
    ∃ before part v,
      loop noted (interrupted.compose around).parts (.int 1) [] =
        some (.error (.transform "fail"), before ++ [part]) ∧
      before ++ [part] <+: (interrupted.compose around).parts ∧
      applyAll before (.int 1) = .ok v ∧ part.apply v = .error (.transform "fail") := by
  have built : ∃ result, Term.around.build (Engine.run 4) [] {} =
      some (.ok result, Graph.around) := ⟨_, rfl⟩
  obtain ⟨result, built⟩ := built
  have fits : Term.around.Fits fun t => t = .identity ∨ t.Composed := by
    simp only [Term.around, Term.Fits, and_true]
    exact ⟨.inr (.append _), .inr (.prepend _)⟩
  have raised : Graph.around.Raised := .build .start fits built
  have composed : around.Composed := .compose (.append _) (.prepend _)
  obtain ⟨-, flat, nodes, applies⟩ := compositions_flat
  obtain ⟨called, looped, calls⟩ := (applies (.append (.int 3)) (.prepend (.int 2)) (.int 1)).2.2 []
  cases calls.all _ rfl
  obtain ⟨called, fails, calls⟩ := (applies interrupted around (.int 1)).2.2 []
  obtain ⟨before, part, v, rfl, within, until_, failing⟩ := calls.upTo _ rfl
  exact ⟨raised, rfl, nodes _ raised 6, composed, flat _ composed, rfl, looped,
    before, part, v, fails, within, until_, failing⟩

end GrammarGraph
