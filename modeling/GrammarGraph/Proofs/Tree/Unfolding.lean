import GrammarGraph.Proofs.Gauge.Calls
import GrammarGraph.Proofs.Soundness
import GrammarGraph.Proofs.Tree.Rewriting
import GrammarGraph.Proofs.Tree.Yields

/-! Benches without definitions. Every node that a constructor made unfolds into one tree, and
an exact gauge of trees has that tree for it, whatever was asked in between. -/
namespace GrammarGraph

namespace Graph

inductive Unfolds (g : Graph) : NodeId → Tree → Prop where
  | empty : (g.node n).kind = .empty → Unfolds g n .empty
  | eps : (g.node n).kind = .eps → Unfolds g n (.eps (g.node n).witnesses)
  | char : (g.node n).kind = .char → Unfolds g n (.char (g.node n).symbol)
  | cat : (g.node n).kind = .cat → (g.node n).first = .node k → (g.node n).second = .node m →
      Unfolds g k a → Unfolds g m b → Unfolds g n (.cat a b)
  | alt : (g.node n).kind = .alt → (g.node n).first = .node k → (g.node n).second = .node m →
      Unfolds g k a → Unfolds g m b → Unfolds g n (.alt a b)
  | rep : (g.node n).kind = .rep → (g.node n).first = .node k → Unfolds g k a →
      Unfolds g n (.rep a)
  | delta : (g.node n).kind = .delta → (g.node n).first = .node k → Unfolds g k a →
      Unfolds g n (.delta a)
  | red : (g.node n).kind = .red → (g.node n).first = .node k → Unfolds g k a →
      Unfolds g n (.red a (g.node n).transform)

variable {g : Graph} {n : NodeId} {e e' : Tree}

theorem Unfolds.unique (h : g.Unfolds n e) (h' : g.Unfolds n e') : e = e' := by
  induction h generalizing e' with
  | empty kind | eps kind | char kind =>
    cases h' with
    | _ kind' =>
      first
        | rfl
        | cases kind.symm.trans kind'
  | rep kind first _ ih =>
    cases h' with
    | rep kind' first' inner =>
      cases first.symm.trans first'
      rw [ih inner]
    | _ kind' => cases kind.symm.trans kind'
  | delta kind first _ ih =>
    cases h' with
    | delta kind' first' inner =>
      cases first.symm.trans first'
      rw [ih inner]
    | _ kind' => cases kind.symm.trans kind'
  | red kind first _ ih =>
    cases h' with
    | red kind' first' inner =>
      cases first.symm.trans first'
      rw [ih inner]
    | _ kind' => cases kind.symm.trans kind'
  | cat kind first second _ _ iha ihb =>
    cases h' with
    | cat kind' first' second' ha hb =>
      cases first.symm.trans first'
      cases second.symm.trans second'
      rw [iha ha, ihb hb]
    | _ kind' => cases kind.symm.trans kind'
  | alt kind first second _ _ iha ihb =>
    cases h' with
    | alt kind' first' second' ha hb =>
      cases first.symm.trans first'
      cases second.symm.trans second'
      rw [iha ha, ihb hb]
    | _ kind' => cases kind.symm.trans kind'

end Graph

/-- A derivation from the graph is one from the tree below the node. -/
theorem Graph.Unfolds.yields_iff {g : Graph} {n : NodeId} {e : Tree} (h : g.Unfolds n e)
    {s : List Value} {w : Value} : e.Yields s w ↔ Derives .literal g.node n s w := by
  constructor
  · intro yields
    induction h generalizing s w with
    | empty => exact yields.elim
    | eps kind =>
      obtain ⟨rfl, member⟩ := yields
      exact .eps kind member
    | char kind =>
      obtain ⟨rfl, same⟩ := yields
      exact .char kind same rfl
    | cat kind first second _ _ iha ihb =>
      obtain ⟨p, q, u, v, rfl, rfl, yields, yields'⟩ := yields
      exact .cat kind first second (iha yields) (ihb yields')
    | alt kind first second _ _ iha ihb =>
      rcases yields with yields | yields
      · exact .alt .first kind first (iha yields)
      · exact .alt .second kind second (ihb yields)
    | rep kind first _ ih =>
      have rounds : Rounds .literal _ s w := yields
      clear yields
      induction rounds with
      | none => exact .repNone kind
      | more round _ rest => exact .repMore kind first (ih round) rest
    | delta kind first _ ih =>
      obtain ⟨rfl, yields⟩ := yields
      exact .delta kind first (ih yields)
    | red kind first _ ih =>
      obtain ⟨v, yields, applied⟩ := yields
      exact .red kind first (ih yields) applied
  · intro derives
    induction derives generalizing e with
    | eps hk hw =>
      cases h with
      | eps => exact ⟨rfl, hw⟩
      | _ kind => cases hk.symm.trans kind
    | char hk hs hw =>
      cases h with
      | char => exact ⟨congrArg (fun c => [c]) hw.symm, hw ▸ hs⟩
      | _ kind => cases hk.symm.trans kind
    | alt side hk ha _ ih =>
      cases h with
      | alt kind first second a b =>
        cases side with
        | first =>
          cases first.symm.trans ha
          exact .inl (ih a)
        | second =>
          cases second.symm.trans ha
          exact .inr (ih b)
      | _ kind => cases hk.symm.trans kind
    | cat hk ha hb _ _ iha ihb =>
      cases h with
      | cat kind first second a b =>
        cases first.symm.trans ha
        cases second.symm.trans hb
        exact ⟨_, _, _, _, rfl, rfl, iha a, ihb b⟩
      | _ kind => cases hk.symm.trans kind
    | repNone hk =>
      cases h with
      | rep => exact .none
      | _ kind => cases hk.symm.trans kind
    | repMore hk ha _ _ iha ihn =>
      cases h with
      | rep kind first a =>
        cases first.symm.trans ha
        exact .more (iha a) (ihn (.rep kind first a))
      | _ kind => cases hk.symm.trans kind
    | delta hk ha _ ih =>
      cases h with
      | delta kind first a =>
        cases first.symm.trans ha
        exact ⟨rfl, ih a⟩
      | _ kind => cases hk.symm.trans kind
    | red hk ha _ hw ih =>
      cases h with
      | red kind first a =>
        cases first.symm.trans ha
        exact ⟨_, ih a, hw⟩
      | _ kind => cases hk.symm.trans kind

theorem Gauge.Exact.unfolds {x : Gauge Tree} {g : Graph} (h : Exact trees x g)
    {built : NodeId → Prop} (concrete : ∀ n, built n → n < g.nodes.size ∧ (g.node n).Concrete built)
    {n : NodeId} (made : built n) : g.Unfolds n (x (.node n)).sense := by
  induction rank : (x (.node n)).rank using Nat.strong_induction_on generalizing n with
  | h r ih =>
    subst rank
    obtain ⟨lt, fixed⟩ := concrete n made
    have weighs := h.nodes n lt
    have child (side : Side) (member : side ∈ (g.node n).sides) :
        ∃ k, (g.node n).slot side = .node k ∧ g.Unfolds k (x ((g.node n).slot side)).sense := by
      obtain ⟨k, slot, made⟩ := fixed.child side member
      have lower := (weighs.slots side member).2
      rw [slot] at lower ⊢
      exact ⟨k, rfl, ih _ lower made rfl⟩
    rw [weighs.sense]
    change g.Unfolds n ((g.node n).tree fun side => (x ((g.node n).slot side)).sense)
    unfold Node.tree
    cases kind : (g.node n).kind with
    | placeholder => exact absurd kind weighs.complete
    | other name => exact absurd kind (weighs.known name)
    | empty => exact .empty kind
    | eps => exact .eps kind
    | char => exact .char kind
    | cat =>
      obtain ⟨k, first, ha⟩ := child _ (Node.mem_sides_of_pair (.inl kind) .first)
      obtain ⟨m, second, hb⟩ := child _ (Node.mem_sides_of_pair (.inl kind) .second)
      exact .cat kind first second ha hb
    | alt =>
      obtain ⟨k, first, ha⟩ := child _ (Node.mem_sides_of_pair (.inr kind) .first)
      obtain ⟨m, second, hb⟩ := child _ (Node.mem_sides_of_pair (.inr kind) .second)
      exact .alt kind first second ha hb
    | rep =>
      obtain ⟨k, first, ha⟩ := child _ (Node.mem_sides_of_single (.inl kind))
      exact .rep kind first ha
    | delta =>
      obtain ⟨k, first, ha⟩ := child _ (Node.mem_sides_of_single (.inr (.inl kind)))
      exact .delta kind first ha
    | red =>
      obtain ⟨k, first, ha⟩ := child _ (Node.mem_sides_of_single (.inr (.inr kind)))
      exact .red kind first ha

def Construction.Total : Construction → Prop
  | .red _ t => t.Total
  | _ => True

namespace Bench

open GrammarGraph.RunOf (Gives)

/-- Constructors of the kind `apt` were applied and questions by symbols in `P` were asked, but
no definition was begun. -/
inductive Straight (apt : Construction → Prop) (P : Value → Prop) : Bench → Prop where
  | start : Straight apt P {}
  | construct {b : Bench} {n : NodeId} {g : Graph} (c : Construction) : Straight apt P b → apt c →
      (∀ k ∈ c.operands, b.built k) → c.run b.graph = some (.ok n, g) → Straight apt P (b.grown g)
  | call {b : Bench} {result : Except Fault Unit} {g : Graph} (bound : Nat) (c : Call) :
      Straight apt P b → c.By P → c.node < b.graph.nodes.size →
      c.run (Engine.run bound) b.graph = some (result, g) → Straight apt P { b with graph := g }
  | journal {b : Bench} (journal : Option Journal) : Straight apt P b →
      Straight apt P { b with graph := { b.graph with journal } }

variable {apt : Construction → Prop} {P : Value → Prop} {b : Bench} {n : NodeId}

theorem Straight.reached (h : b.Straight apt P) : b.Reached fun _ c => c.By P := by
  induction h with
  | start => exact .refl
  | construct c _ _ built ends ih => exact .tail ih (.construct c built ends)
  | call bound c _ by_ lt ends ih => exact .tail ih (.call bound c by_ lt ends)
  | journal journal _ ih => exact .tail ih (.journal journal)

theorem Straight.concrete (h : b.Straight apt P) (built : b.built n) :
    n < b.graph.nodes.size ∧ (b.graph.node n).Concrete b.built := by
  obtain ⟨_, sound⟩ := (h.reached.tended Worth.membership_embeds).now
  exact ⟨(sound.made built).1, sound.concrete built⟩

/-- An exact gauge is kept in every sense that grants what constructors put into nodes. -/
theorem Straight.weighed {σ : Type} {S : Sense σ} [Gauge.Rules S] (total : ∀ c, apt c → c.Total)
    (grants : ∀ {ws given}, apt (.eps ws) → Forest.ofWitnesses ws = .ok given → S.grants given)
    (takes : ∀ c, P c → S.admits c) (h : b.Straight apt P) :
    ∃ x, Gauge.Rested S x b.graph := by
  induction h with
  | start => exact ⟨_, Gauge.initial_rested⟩
  | @construct b n g c straight hc built ends ih =>
    have tended := straight.reached.tended Worth.membership_embeds
    have laid := (c.laid tended.atoms.1 tended.atoms.2 built ends).1
    refine (laid.preserves (P := fun built g => (∀ k, built k → k < g.nodes.size) ∧
      ∃ x, Gauge.Rested S x g) (Nat.le_refl _) ⟨fun k made => ?_, ih⟩ ?_).2
    · exact made.elim (fun made => (straight.concrete made).1) And.right
    · intro built g node fit concrete ⟨below, x, rested⟩
      have eps (kind : node.kind = .eps) : S.grants node.witnesses := by
        obtain ⟨ws, rfl, given⟩ := fit.eps kind
        exact grants hc given
      have red (kind : node.kind = .red) : node.transform.Total := by
        obtain ⟨k, rfl⟩ := fit.red kind
        exact total _ hc
      obtain ⟨x', -, rested'⟩ := rested.lay concrete below fit.complete eps red
      refine ⟨fun k made => ?_, x', rested'⟩
      rw [Graph.nodes_addNode, Array.size_push]
      rcases made with made | rfl
      · exact Nat.lt_succ_of_lt (below k made)
      · exact Nat.lt_succ_self _
  | call bound c _ by_ lt ends ih =>
    obtain ⟨x, rested⟩ := ih
    obtain ⟨x', -, rested', -⟩ :=
      (Gauge.Rested.serves bound).call rested (Call.By.mono takes by_) lt _ _ ends
    exact ⟨x', rested'⟩
  | journal journal _ ih =>
    obtain ⟨x, rested⟩ := ih
    exact ⟨x, (rested.journal journal).2⟩

theorem Straight.rested (total : ∀ c, apt c → c.Total) (takes : ∀ c, P c → trees.admits c)
    (h : b.Straight apt P) : ∃ x, Gauge.Rested trees x b.graph := by
  refine h.weighed total (fun {ws given} _ ok => ?_) takes
  obtain ⟨hashable, same⟩ := Forest.ofWitnesses_ok.mp ok
  rw [same]
  exact ⟨Forest.hashable_distinct hashable, Forest.distinct_distinct ws⟩

/-- What a built node unfolds to decides what is left of a sentence, and with it the forest of
the residual and the answer of a parse. -/
theorem Straight.parse {s : List Value}
    (h : b.Straight Construction.Total fun c => c.boolless = true) (built : b.built n)
    (compaction : Bool) (symbols : ∀ c ∈ s, c.Plain) : ∃ e, b.graph.Unfolds n e ∧
      (e.Proper fun v => v.hashable = true) ∧
      (∃ g, Gives (fun ask => do ask.forest (← Parse.residual ask compaction s n).node) b.graph
        (trees.left compaction s e).forest g) ∧
      ∃ answer g, Gives (fun ask => Parse.parse ask compaction s n) b.graph answer g ∧
        answer.1 = Forest.distinct (trees.left compaction s e).forest := by
  obtain ⟨x, rested⟩ := h.rested (fun _ total => total) fun c boolless hashable =>
    ⟨hashable, boolless⟩
  refine ⟨_, rested.valid.unfolds (fun _ => h.concrete) built, rested.valid.proper _, ?_, ?_⟩
  · obtain ⟨ws, g, gives, _, _, _, given, _⟩ :=
      rested.forest_residual ⟨(h.concrete built).1, rfl⟩ compaction symbols
    obtain rfl : ws = _ := given
    exact ⟨g, gives⟩
  · obtain ⟨answer, g, gives, _, _, _, ws, given, same⟩ :=
      rested.parse ⟨(h.concrete built).1, rfl⟩ compaction symbols
    obtain rfl : ws = _ := given
    exact ⟨answer, g, gives, same⟩

end Bench

end GrammarGraph
