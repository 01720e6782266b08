import GrammarGraph.Proofs.Census.Building
import GrammarGraph.Proofs.Sketch.Slim
import GrammarGraph.Proofs.Unfilled.Benches

/-! What all witnesses have in common. If a property of the witnesses and symbols that a grammar
begins with is kept by pairing, all witnesses have it that come up later, in whatever order symbols
are taken, nodes rewritten and witnesses attached to others. A run on a graph mirrors itself, and
what it mirrors are things with the property: this is the diagonal of the comparison of a run in a
sketch with the one in the larger graph, and no induction of its own. -/
namespace GrammarGraph

open RunOf (Gives)

variable {P Q : Value → Prop} (closed : Forest.Closed P)

theorem Ended.self {α : Type} {Q : α → Prop} {result : Except Fault α}
    (h : ∀ a, result = .ok a → Q a) : Ended (fun a b => b = a ∧ Q a) result result := by
  cases result with
  | error fault => exact .fault fault
  | ok a => exact .value ⟨rfl, h a rfl⟩

theorem Forest.ofWitnesses_all {ws : List Value} (h : ∀ w ∈ ws, P w) {forest : Forest}
    (given : ofWitnesses ws = .ok forest) : ∀ w ∈ forest, P w := by
  obtain ⟨-, rfl⟩ := ofWitnesses_ok.mp given
  exact fun w member => h w (mem_of_mem_distinct member)

/-- Nothing takes the place of anything else, and what is taken and attached has the property. -/
def Cast.only : Cast where
  Symbols c c' := c' = c ∧ P c
  Forests ws ws' := ws' = ws ∧ ∀ w ∈ ws, P w
  Transforms t t' := t' = t ∧ t.Attaches P
  owns _ := False
  unites _ _ := true
  strict := True
  keys := by rintro _ _ _ _ ⟨rfl, -⟩ ⟨rfl, -⟩; rfl
  hashable := by rintro _ _ ⟨rfl, -⟩; rfl
  single := by rintro _ _ ⟨rfl, hc⟩; exact ⟨rfl, List.forall_mem_singleton.mpr hc⟩
  none := ⟨rfl, nofun⟩
  trivial := ⟨rfl, List.forall_mem_singleton.mpr closed.nothing⟩
  isTrivial := by rintro _ _ ⟨rfl, -⟩; rfl
  counts := by
    rintro _ ws ⟨rfl, hws⟩
    rcases ws with _ | ⟨u, _ | ⟨v, ws⟩⟩
    · exact .none
    · have hu := hws u List.mem_cons_self
      exact .one ⟨rfl, Transform.attaches_prepend hu⟩ ⟨rfl, Transform.attaches_append hu⟩
    · exact .more
  ofWitnesses := by rintro _ _ ⟨rfl, hws⟩; exact .self fun _ => Forest.ofWitnesses_all hws
  union := by
    rintro _ us _ vs - ⟨rfl, hus⟩ ⟨rfl, hvs⟩
    refine .self fun _ => Forest.ofWitnesses_all fun w member => ?_
    obtain ⟨ws, either, inside⟩ := List.mem_flatten.mp member
    rcases List.mem_pair.mp either with rfl | rfl
    · exact hus w inside
    · exact hvs w inside
  combine := by
    rintro _ _ _ _ ⟨rfl, hus⟩ ⟨rfl, hvs⟩
    exact .self fun _ => Forest.ofWitnesses_all (closed.zip hus hvs)
  image := by
    rintro _ _ _ _ ⟨rfl, ht⟩ ⟨rfl, hws⟩
    refine .self fun forest given w member => ?_
    obtain ⟨u, hu, applied⟩ := Transform.mem_image given member
    obtain ⟨v, applied', hv, -⟩ := ht.apply closed (hws u hu)
    cases applied'.symm.trans applied
    exact hv
  identity := ⟨rfl, Transform.attaches_identity⟩
  compose := by rintro _ _ _ _ ⟨rfl, hs⟩ ⟨rfl, ht⟩; exact ⟨rfl, hs.compose ht⟩
  unites_of_strict _ _ _ := rfl

namespace Cast

theorem only_faithful : (only closed).Faithful :=
  ⟨And.left, And.left, And.left⟩

theorem run_only (bound : Nat) : (Engine.run bound).Mirrored (only closed) (Engine.run bound) := by
  have mirrored := run_mirrored (only closed) bound
  rwa [run_of_strict True.intro] at mirrored

end Cast

namespace Construction

def Of (P : Value → Prop) : Construction → Prop
  | .char c => P c
  | .eps ws => ∀ w ∈ ws, P w
  | .red _ t => t.Attaches P
  | .cat _ | .alt _ | .rep _ | .delta _ => True

theorem mirrors {c : Construction} (of : c.Of P) {p : Placing (.only closed)}
    (placed : ∀ k ∈ c.operands, p.At k k) : Mirrors p Placing.At c.run c.run := by
  have operands {ks : List NodeId} (placed : ∀ k ∈ ks, p.At k k) :
      List.Forall₂ p.Operands (ks.map .node) (ks.map .node) :=
    List.forall₂_map_left_iff.mpr (List.forall₂_map_right_iff.mpr
      (List.forall₂_same.mpr placed))
  have operand {k : NodeId} (placed : ∀ j ∈ [k], p.At j j) : p.Operands (.node k) (.node k) :=
    placed k (List.mem_singleton_self k)
  cases c with
  | char c => exact .char ⟨rfl, of⟩
  | eps ws => exact .eps ⟨rfl, of⟩
  | cat ks => exact .combine .trivial (fun _ hx hy => .cat hx hy) (operands placed)
  | alt ks => exact .combine .empty (fun _ hx hy => .alt hx hy) (operands placed)
  | rep k => exact .rep (operand placed)
  | delta k => exact .delta (operand placed)
  | red k t => exact .reduction (operand placed) ⟨rfl, of⟩

end Construction

/-- What is come to from a node by derivatives with symbols in `P`, by rewriting and by reading
children, whatever is asked by such symbols in between; and the graph that there is then. -/
inductive Graph.Leads (P : Value → Prop) (g : Graph) (n : NodeId) : Graph → NodeId → Prop where
  | start : Leads P g n g n
  | derive {g₁ g₂ : Graph} {m d : NodeId} {c : Value} : Leads P g n g₁ m → P c →
      Gives (fun ask => ask.derive c m) g₁ d g₂ → Leads P g n g₂ d
  | compact {g₁ g₂ : Graph} {m k : NodeId} : Leads P g n g₁ m →
      Gives (fun ask => ask.compact m) g₁ k g₂ → Leads P g n g₂ k
  | child {g₁ g₂ : Graph} {m k : NodeId} (side : Side) : Leads P g n g₁ m →
      Gives (fun ask => ask.child? m side) g₁ (some k) g₂ → Leads P g n g₂ k
  | meanwhile {g₁ g₂ : Graph} {m : NodeId} {result : Except Fault Unit} (bound : Nat) (call : Call) :
      Leads P g n g₁ m → call.By P → call.node < g₁.nodes.size →
      call.run (Engine.run bound) g₁ = some (result, g₂) → Leads P g n g₂ m

namespace Bench

variable {apt : Construction → Prop} {permitted : Bench → Call → Prop} {b : Bench} {n m : NodeId}
  {g g' : Graph}

theorem Step.move {b' : Bench} (h : Step permitted b b') : b.Move b' := by
  cases h with
  | construct c built ends => exact .step (.construct c built ends)
  | begin ends => exact .step (.begin ends)
  | complete opened built ends => exact .step (.complete opened built ends)
  | call bound c _ lt ends => exact .step (.call bound c trivial lt ends)
  | journal journal => exact .step (.journal journal)

theorem Reached.attended (h : b.Reached permitted) : b.Attended := by
  induction h with
  | refl => exact .initial
  | tail _ step ih => exact (ih.move step.move).1

theorem Attended.kept (h : b.Attended) (suits : b.graph.Suits (.only closed)) {α : Type}
    {V : Placing (.only closed) → α → α → Prop} {r : Run α}
    (mirrors : Mirrors (.whole b.graph) V r r) {result : Except Fault α}
    (ends : r b.graph = some (result, g')) :
    g'.Suits (.only closed) ∧ ∃ q, Sketches q g' g' ∧ Ended (V q) result result :=
  suits.kept (Cast.only_faithful closed) h.landed h.poised.familiar (fun _ => id) mirrors ends

namespace Composed

/-- Every witness that a graph carries has the property, be it in a node, in a function that attaches
it or in a forest that is known. -/
theorem suits (of : ∀ c, apt c → c.Of P) (by_ : ∀ b c, permitted b c → c.By P)
    (h : b.Composed apt permitted) : b.graph.Suits (.only closed) := by
  induction h with
  | start =>
    refine (Sketches.initial (.only closed)).suits (Cast.only_faithful closed) (fun {n} lt => ?_)
      fun {c} lt => absurd lt (Nat.not_lt_zero c)
    exact ⟨n, rfl, Nat.le_one_iff_eq_zero_or_eq_one.mp (Nat.le_of_lt_succ lt)⟩
  | construct c composed fits built ends ih =>
    have attended := composed.reached.attended
    exact (attended.kept closed ih (c.mirrors closed (of c fits) fun k member =>
      ⟨rfl, attended.inside k (built k member)⟩) ends).1
  | begin composed ends ih =>
    have placeholder {p : Placing (.only closed)} :
        p.Nodes { kind := .placeholder } { kind := .placeholder } :=
      ⟨rfl, trivial, trivial, nofun, Cast.none _, Cast.identity _⟩
    exact (composed.reached.attended.kept closed ih (.make placeholder) ends).1
  | @complete b n body rest g composed opened built ends ih =>
    have attended := composed.reached.attended
    have unfilled := attended.opened n (by rw [opened]; exact List.mem_cons_self)
    have compound : n ≠ .empty ∧ n ≠ .eps :=
      ⟨fun atom => attended.poised.ne_atom unfilled.kind n (.inl atom) rfl,
        fun atom => attended.poised.ne_atom unfilled.kind n (.inr atom) rfl⟩
    let p : Placing (.only closed) := .whole b.graph
    have placed : p.At n n := ⟨rfl, unfilled.lt⟩
    have operand : p.Operands (.node body) (.node body) := ⟨rfl, attended.inside body built⟩
    exact (attended.kept closed ih (.define placed compound operand) ends).1
  | call bound c composed allowed lt ends ih =>
    have same (c : Value) (hc : P c) : (Cast.only closed).Symbols c c := ⟨rfl, hc⟩
    have mirrored := (Cast.run_only closed bound).call (Cast.only_faithful closed)
      (p := .whole _) ((by_ _ _ allowed).mono same) ⟨rfl, lt⟩
    exact (composed.reached.attended.kept closed ih mirrored ends).1
  | journal journal _ ih => exact { ih with }

/-- A question that may be asked is a step of the history, and the answer is right. -/
theorem asked (h : b.Composed apt permitted) {q : Query} (allowed : permitted b (.query q))
    (lt : q.node < b.graph.nodes.size) {a : q.Answer} (gives : Gives (fun ask => ask q) b.graph a g) :
    ({ b with graph := g } : Bench).Composed apt permitted ∧ ∃ plan M,
      Sound .membership (fun _ => ()) plan M g ∧ M.Answers .membership (fun _ => ()) g q a := by
  obtain ⟨least, ends⟩ := gives
  have ends := ends least (Nat.le_refl _)
  obtain ⟨_, sound⟩ := (h.reached.tended Worth.membership_embeds).now
  obtain ⟨M, -, sound', right⟩ :=
    Engine.run_honest Worth.membership_embeds least sound q lt _ _ ends
  exact ⟨.call least (.query q) h allowed lt (RunOf.bind_of_ok ends), _, M, sound', right a rfl⟩

/-- Wherever one is led to, it is by steps of the history, and to a node that is there. -/
theorem leads (h : b.Composed apt fun b c => b.opened = [] ∧ c.By Q) (complete : b.opened = [])
    (lt : n < b.graph.nodes.size) (leads : b.graph.Leads Q n g m) :
    ({ b with graph := g } : Bench).Composed apt (fun b c => b.opened = [] ∧ c.By Q) ∧
      m < g.nodes.size := by
  induction leads with
  | start => exact ⟨h, lt⟩
  | @derive _ _ m _ c _ by_ gives ih =>
    obtain ⟨composed, _, _, _, follows⟩ :=
      ih.1.asked (q := .derive c m) ⟨complete, by_⟩ ih.2 gives
    exact ⟨composed, follows.2.1⟩
  | @compact _ _ m _ _ gives ih =>
    obtain ⟨composed, _, _, _, bounds⟩ := ih.1.asked (q := .compact m) ⟨complete, trivial⟩ ih.2 gives
    exact ⟨composed, bounds.2.1⟩
  | @child _ _ m k side _ gives ih =>
    obtain ⟨composed, _, _, sound, slot⟩ :=
      ih.1.asked (q := .child m side) ⟨complete, trivial⟩ ih.2 gives
    have covers := sound.formed.covers m side
    rw [slot k rfl] at covers
    exact ⟨composed, covers⟩
  | @meanwhile g₁ _ _ _ bound call _ by_ below ends ih =>
    have grows := (ih.1.reached.attended.call below ends).2.size
    exact ⟨.call (b := { b with graph := g₁ }) bound call ih.1 ⟨complete, by_⟩ below ends,
      Nat.lt_of_lt_of_le ih.2 grows⟩

include closed in
/-- Every forest that is given, and every node that carries witnesses, has only such with the
property, wherever one is led to. -/
theorem witnesses (of : ∀ c, apt c → c.Of P) (total : ∀ c, apt c → c.Total)
    (symbols : ∀ c, Q c → P c) (h : b.Composed apt fun b c => b.opened = [] ∧ c.By Q)
    (complete : b.opened = []) (lt : n < b.graph.nodes.size) (leads : b.graph.Leads Q n g m) :
    (∃ ws g', Gives (fun ask => ask.forest m) g ws g' ∧ ∀ w ∈ ws, P w) ∧
      ∀ w ∈ (g.node m).witnesses, P w := by
  obtain ⟨composed, below⟩ := h.leads complete lt leads
  have suits := composed.suits closed of fun _ _ allowed => allowed.2.mono symbols
  refine ⟨?_, (suits.witnesses m).2⟩
  obtain ⟨C, roots, x, rested, -⟩ := (composed.mono total).rested (c := .query (.forest m))
    (fun _ _ => And.left) complete trivial
  obtain ⟨ws, g', gives, -⟩ := rested.query (.forest m) trivial below
  refine ⟨ws, g', gives, ?_⟩
  obtain ⟨least, ends⟩ := gives
  obtain ⟨-, q, -, related⟩ := composed.reached.attended.kept closed suits
    ((Cast.run_only closed least).evaluate .forest ⟨rfl, below⟩) (ends least (Nat.le_refl _))
  cases related with
  | value same => exact same.2

end Composed

end Bench

end GrammarGraph
