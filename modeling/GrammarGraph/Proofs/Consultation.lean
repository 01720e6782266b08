import GrammarGraph.Proofs.Reference

/-! Questions leave no trace in later answers, on benches without definitions. Whatever was asked
before fills slots, books and memos in place, and a journal that takes every message has all
children computed on the way; but what a node unfolds to stays, and that alone decides what is
left of a sentence and how every evaluator answers about it. -/
namespace GrammarGraph

open RunOf (Gives)

theorem Graph.Unfolds.mono {g g' : Graph} (evolves : g.Evolves g') {n : NodeId} {e : Tree}
    (h : g.Unfolds n e) : g'.Unfolds n e := by
  have kind {n : NodeId} {kind : Kind} (hk : (g.node n).kind = kind)
      (known : kind ≠ .placeholder) : (g'.node n).kind = kind := evolves.kind_eq hk known
  have bare {n : NodeId} {kind : Kind} (hk : (g.node n).kind = kind)
      (known : kind ≠ .placeholder) : (g'.node n).bare = (g.node n).bare :=
    evolves.bare n (Graph.lt_of_kind (hk ▸ known))
  have left {n k : NodeId} (held : (g.node n).first = .node k) : (g'.node n).first = .node k :=
    evolves.filled (show (g.node n).slot .first = .node k from held)
  have right {n k : NodeId} (held : (g.node n).second = .node k) : (g'.node n).second = .node k :=
    evolves.filled (show (g.node n).slot .second = .node k from held)
  induction h with
  | empty hk => exact .empty (kind hk (by decide))
  | eps hk =>
    rw [← Node.witnesses_of_bare (bare hk (by decide))]
    exact .eps (kind hk (by decide))
  | char hk =>
    rw [← Node.symbol_of_bare (bare hk (by decide))]
    exact .char (kind hk (by decide))
  | cat hk first second _ _ iha ihb =>
    exact .cat (kind hk (by decide)) (left first) (right second) iha ihb
  | alt hk first second _ _ iha ihb =>
    exact .alt (kind hk (by decide)) (left first) (right second) iha ihb
  | rep hk first _ ih => exact .rep (kind hk (by decide)) (left first) ih
  | delta hk first _ ih => exact .delta (kind hk (by decide)) (left first) ih
  | red hk first _ ih =>
    rw [← Node.transform_of_bare (bare hk (by decide))]
    exact .red (kind hk (by decide)) (left first) ih

theorem Tree.agrees_unique {i : Evaluator} (answer : i ≠ .compact) {e : Tree} {v v' : i.Result}
    (h : trees.agrees i e v) (h' : trees.agrees i e v') : v' = v := by
  cases i with
  | compact => exact absurd rfl answer
  | _ => exact Eq.trans h' (Eq.symm h)

theorem Gauge.Rested.evaluate_residual {x : Gauge Tree} {g : Graph} {n : NodeId} {e : Tree}
    (h : Rested trees x g) (denotes : x.Denotes g e n) (compaction : Bool) {symbols : List Value}
    (takes : ∀ c ∈ symbols, trees.takes c) (i : Evaluator) :
    (resting trees).Ends x g
      (fun ask => do i.ask ask (← Parse.residual ask compaction symbols n).node)
      fun x' g' v => ∃ w, w.sense = trees.left compaction symbols e ∧ x'.Fits trees g' w i v := by
  refine .bind (h.residualFrom compaction 0 denotes takes) fun x₁ g₁ r _ h₁ left => ?_
  refine .imp (Rested.evaluate h₁ i left.lt) fun x₂ g₂ v _ _ fits => ?_
  exact ⟨x₁ (.node r.node), left.sense, fits⟩

namespace Bench

variable {b b' : Bench} {P : Value → Prop} {n : NodeId} {s : List Value}

/-- Questions by symbols in `P` were asked and journals opened or closed, within any bounds and
whatever came of it; nothing was built. -/
inductive Consulted (P : Value → Prop) (b : Bench) : Bench → Prop where
  | refl : Consulted P b b
  | call {b' : Bench} {result : Except Fault Unit} {g : Graph} (bound : Nat) (c : Call) :
      Consulted P b b' → c.By P → c.node < b'.graph.nodes.size →
      c.run (Engine.run bound) b'.graph = some (result, g) → Consulted P b { b' with graph := g }
  | journal {b' : Bench} (journal : Option Journal) : Consulted P b b' →
      Consulted P b { b' with graph := { b'.graph with journal } }

theorem Consulted.built (h : b.Consulted P b') : b'.built = b.built := by
  induction h with
  | refl => rfl
  | call _ _ _ _ _ _ ih => exact ih
  | journal _ _ ih => exact ih

theorem Consulted.straight {apt : Construction → Prop} (h : b.Consulted P b')
    (straight : b.Straight apt P) : b'.Straight apt P := by
  induction h with
  | refl => exact straight
  | call bound c _ by_ lt ends ih => exact .call bound c ih by_ lt ends
  | journal journal _ ih => exact .journal journal ih

theorem Consulted.evolves {apt : Construction → Prop} (total : ∀ c, apt c → c.Total)
    (takes : ∀ c, P c → trees.admits c) (h : b.Consulted P b') (straight : b.Straight apt P) :
    b.graph.Evolves b'.graph := by
  induction h with
  | refl => exact .refl _
  | call bound c earlier by_ lt ends ih =>
    obtain ⟨x, rested⟩ := (earlier.straight straight).rested total takes
    obtain ⟨_, later, _⟩ :=
      (Gauge.Rested.serves bound).call rested (Call.By.mono takes by_) lt _ _ ends
    exact ih.trans later.evolves
  | journal _ _ ih => exact ih.trans (Graph.evolves_of_eq rfl rfl)

/-- The tree below a node decides what recognition, a parse and every evaluator answer about what
is left of a sentence. -/
theorem Straight.answers (h : b.Straight Construction.Total fun c => c.boolless = true)
    (built : b.built n) (compaction : Bool) (symbols : ∀ c ∈ s, c.Plain) :
    ∃ e, b.graph.Unfolds n e ∧
      (∃ consumed g, Gives (fun ask => Parse.recognize ask compaction s n) b.graph
        ((trees.left compaction s e).nullable, consumed) g) ∧
      (∃ consumed g, Gives (fun ask => Parse.parse ask compaction s n) b.graph
        (Forest.distinct (trees.left compaction s e).forest, consumed) g) ∧
      ∀ i, i ≠ .compact → ∃ v g,
        Gives (fun ask => do i.ask ask (← Parse.residual ask compaction s n).node) b.graph v g ∧
          trees.agrees i (trees.left compaction s e) v := by
  obtain ⟨x, rested⟩ := h.rested (fun _ total => total) fun c boolless hashable =>
    ⟨hashable, boolless⟩
  have denotes : x.Denotes b.graph (x (.node n)).sense n := ⟨(h.concrete built).1, rfl⟩
  refine ⟨_, rested.valid.unfolds (fun _ => h.concrete) built, ?_, ?_, fun i answer => ?_⟩
  · obtain ⟨⟨accepted, consumed⟩, g, gives, _, _, _, right⟩ :=
      rested.recognize denotes compaction symbols
    obtain rfl : accepted = _ := right
    exact ⟨consumed, g, gives⟩
  · obtain ⟨⟨ws, consumed⟩, g, gives, _, _, _, ws', given, same⟩ :=
      rested.parse denotes compaction symbols
    obtain rfl : ws' = _ := given
    obtain rfl : ws = _ := same
    exact ⟨consumed, g, gives⟩
  · obtain ⟨v, g, gives, _, _, _, w, left, fits⟩ :=
      rested.evaluate_residual denotes compaction symbols i
    refine ⟨v, g, gives, ?_⟩
    rw [← left]
    cases i with
    | compact => exact absurd rfl answer
    | _ => exact fits

/-- Whatever was asked before, whatever slots were filled by that, and with or without a journal
that takes every message: recognition, a parse and every evaluator on what is left of a sentence
end, and they answer as if nothing had been asked. -/
theorem answers_after_questions
    (straight : b.Straight Construction.Total fun c => c.boolless = true)
    (consulted : b.Consulted (fun c => c.boolless = true) b') (built : b.built n)
    (compaction : Bool) (symbols : ∀ c ∈ s, c.Plain) :
    (∃ accepted k k' g g',
      Gives (fun ask => Parse.recognize ask compaction s n) b.graph (accepted, k) g ∧
      Gives (fun ask => Parse.recognize ask compaction s n) b'.graph (accepted, k') g') ∧
    (∃ ws k k' g g', Gives (fun ask => Parse.parse ask compaction s n) b.graph (ws, k) g ∧
      Gives (fun ask => Parse.parse ask compaction s n) b'.graph (ws, k') g') ∧
    ∀ i : Evaluator, i ≠ .compact → ∃ v g g',
      Gives (fun ask => do i.ask ask (← Parse.residual ask compaction s n).node) b.graph v g ∧
      Gives (fun ask => do i.ask ask (← Parse.residual ask compaction s n).node) b'.graph v g' := by
  obtain ⟨e, unfolds, ⟨k, g, recognized⟩, ⟨j, f, parsed⟩, evaluated⟩ :=
    straight.answers built compaction symbols
  obtain ⟨e', unfolds', ⟨k', g', recognized'⟩, ⟨j', f', parsed'⟩, evaluated'⟩ :=
    (consulted.straight straight).answers (consulted.built ▸ built) compaction symbols
  have evolves := consulted.evolves (fun _ total => total)
    (fun c boolless hashable => ⟨hashable, boolless⟩) straight
  obtain rfl := (unfolds.mono evolves).unique unfolds'
  refine ⟨⟨_, k, k', g, g', recognized, recognized'⟩, ⟨_, j, j', f, f', parsed, parsed'⟩, ?_⟩
  intro i answer
  obtain ⟨v, h, gives, agrees⟩ := evaluated i answer
  obtain ⟨v', h', gives', agrees'⟩ := evaluated' i answer
  obtain rfl := Tree.agrees_unique answer agrees agrees'
  exact ⟨_, h, h', gives, gives'⟩

/-- A journal that takes every message is open. -/
def watchedPaired : Bench :=
  { paired with graph := { paired.graph with journal := some { level := .debug } } }

/-- A parse with the journal open, which computes all children on its way. -/
def consultedPaired : Bench :=
  let asked := (Call.parse true [.int 1, .int 1] 5).run (Engine.run 20) watchedPaired.graph
  { watchedPaired with graph := (asked.map Prod.snd).getD watchedPaired.graph }

theorem paired_consulted : paired.Consulted (fun c => c.boolless = true) consultedPaired := by
  have watched : paired.Consulted (fun c => c.boolless = true) watchedPaired := .journal _ .refl
  have by_ : (Call.parse true [.int 1, .int 1] 5).By fun c => c.boolless = true := by
    simp [Call.By, Value.boolless]
  have ends : ((Call.parse true [.int 1, .int 1] 5).run (Engine.run 20)
      watchedPaired.graph).isSome = true := by decide +kernel
  obtain ⟨⟨result, g⟩, ends⟩ := Option.isSome_iff_exists.mp ends
  have same : consultedPaired = { watchedPaired with graph := g } := by
    simp only [consultedPaired, ends]
    rfl
  rw [same]
  exact .call 20 _ watched by_ (by decide +kernel) ends

theorem answers_after_questions_paired :
    paired.Straight Construction.Total (fun c => c.boolless = true) ∧
    paired.Consulted (fun c => c.boolless = true) consultedPaired ∧ paired.built 5 ∧
    (∀ c ∈ [Value.int 1, .int 1], c.Plain) ∧
    paired.graph.nodes.size < consultedPaired.graph.nodes.size ∧
    ∃ ws k k' g g', Gives (fun ask => Parse.parse ask true [.int 1, .int 1] 5) paired.graph
        (ws, k) g ∧
      Gives (fun ask => Parse.parse ask true [.int 1, .int 1] 5) consultedPaired.graph
        (ws, k') g' := by
  have straight := paired_straight fun c => c.boolless = true
  have symbols : ∀ c ∈ [Value.int 1, .int 1], c.Plain := by
    simp [Value.Plain, Value.hashable, Value.boolless]
  obtain ⟨-, parsed, -⟩ :=
    answers_after_questions straight paired_consulted paired_built true symbols
  exact ⟨straight, paired_consulted, paired_built, symbols, by decide +kernel, parsed⟩

end Bench

end GrammarGraph
