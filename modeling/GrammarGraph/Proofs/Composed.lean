import GrammarGraph.Proofs.Soundness

/-! Histories in which every constructor is of a certain kind. What holds of every node that such
a constructor makes holds of every built node, whatever definitions were completed and whatever
was asked in between. -/
namespace GrammarGraph.Bench

/-- Only constructors in `apt` were applied; definitions may be nested to any depth. -/
inductive Composed (apt : Construction → Prop) (permitted : Bench → Call → Prop) : Bench → Prop where
  | start : Composed apt permitted {}
  | construct {b : Bench} {n : NodeId} {g : Graph} (c : Construction) : Composed apt permitted b →
      apt c → (∀ k ∈ c.operands, b.built k) → c.run b.graph = some (.ok n, g) →
      Composed apt permitted (b.grown g)
  | begin {b : Bench} {n : NodeId} {g : Graph} : Composed apt permitted b →
      Run.make { kind := .placeholder } b.graph = some (.ok n, g) →
      Composed apt permitted { b.grown g with opened := n :: b.opened }
  | complete {b : Bench} {n body : NodeId} {rest : List NodeId} {g : Graph} :
      Composed apt permitted b → b.opened = n :: rest → b.built body →
      Grammar.define n (.node body) b.graph = some (.ok n, g) →
      Composed apt permitted { b with graph := g, opened := rest }
  | call {b : Bench} {result : Except Fault Unit} {g : Graph} (bound : Nat) (c : Call) :
      Composed apt permitted b → permitted b c → c.node < b.graph.nodes.size →
      c.run (Engine.run bound) b.graph = some (result, g) →
      Composed apt permitted { b with graph := g }
  | journal {b : Bench} (journal : Option Journal) : Composed apt permitted b →
      Composed apt permitted { b with graph := { b.graph with journal } }

variable {apt : Construction → Prop} {permitted : Bench → Call → Prop} {b : Bench} {n : NodeId}

theorem Composed.reached (h : b.Composed apt permitted) : b.Reached permitted := by
  induction h with
  | start => exact .refl
  | construct c _ _ built ends ih => exact .tail ih (.construct c built ends)
  | begin _ ends ih => exact .tail ih (.begin ends)
  | complete _ opened built ends ih => exact .tail ih (.complete opened built ends)
  | call bound c _ allowed lt ends ih => exact .tail ih (.call bound c allowed lt ends)
  | journal journal _ ih => exact .tail ih (.journal journal)

theorem Composed.lt (h : b.Composed apt permitted) (built : b.built n) :
    n < b.graph.nodes.size :=
  (h.reached.tended Worth.membership_embeds).lt built

theorem Composed.concrete (h : b.Composed apt permitted) (built : b.built n) :
    (b.graph.node n).Concrete b.built :=
  let ⟨_, sound⟩ := (h.reached.tended Worth.membership_embeds).now
  sound.concrete built

theorem Composed.mono {apt' : Construction → Prop} (le : ∀ c, apt c → apt' c)
    (h : b.Composed apt permitted) : b.Composed apt' permitted := by
  induction h with
  | start => exact .start
  | construct c _ hc built ends ih => exact .construct c ih (le c hc) built ends
  | begin _ ends ih => exact .begin ih ends
  | complete _ opened built ends ih => exact .complete ih opened built ends
  | call bound c _ allowed lt ends ih => exact .call bound c ih allowed lt ends
  | journal journal _ ih => exact .journal journal ih

/-- A call changes no built node. -/
theorem Tended.node_call (h : Tended .membership (fun _ => ()) b) {bound : Nat} {c : Call}
    {result : Except Fault Unit} {g : Graph} (lt : c.node < b.graph.nodes.size)
    (ends : c.run (Engine.run bound) b.graph = some (result, g)) (built : b.built n) :
    g.node n = b.graph.node n := by
  obtain ⟨_, sound⟩ := h.now
  obtain ⟨_, later, _⟩ :=
    Ask.Honest.call (Engine.run_honest Worth.membership_embeds bound) sound c lt result g ends
  exact sound.node_eq later.evolves built

/-- What the constructors see to in every node that they make holds of every built node. -/
theorem Composed.contents {P : Node → Prop}
    (atoms : ∀ k, k = .empty ∨ k = .eps → P (({} : Graph).node k))
    (placeholder : P { kind := .placeholder })
    (made : ∀ {c : Construction} {node : Node}, apt c → c.Fits node → P node)
    (h : b.Composed apt permitted) : ∀ n, b.built n → P (b.graph.node n) := by
  induction h with
  | start => exact atoms
  | @construct b n g c composed hc built ends ih =>
    have tended := composed.reached.tended Worth.membership_embeds
    have laid := (c.laid tended.atoms.1 tended.atoms.2 built ends).1
    refine fun k hk => ((laid.preserves (P := fun built g => ∀ k, built k →
      k < g.nodes.size ∧ P (g.node k)) (Nat.le_refl _) ?_ ?_) k hk).2
    · rintro k (built | ⟨le, lt⟩)
      · exact ⟨composed.lt built, ih k built⟩
      · exact absurd lt (Nat.not_lt_of_le le)
    · intro built g node fit _ known k hk
      rw [Graph.node_addNode, Graph.nodes_addNode, Array.size_push]
      rcases hk with hk | rfl
      · rw [if_neg (Nat.ne_of_lt (known k hk).1)]
        exact ⟨Nat.lt_succ_of_lt (known k hk).1, (known k hk).2⟩
      · rw [if_pos rfl]
        exact ⟨Nat.lt_succ_self _, made hc fit⟩
  | begin composed ends ih =>
    obtain ⟨rfl, rfl⟩ := Run.make_ok ends
    intro k built
    change P ((Graph.addNode _ _).node k)
    rw [Graph.node_addNode]
    split
    · exact placeholder
    · next other =>
      rcases built with built | ⟨le, -⟩
      · exact ih k built
      · rw [Graph.node_of_le le]
        exact placeholder
  | complete composed opened body ends ih =>
    obtain ⟨-, rfl⟩ := Grammar.define_ok ends
    have tended := composed.reached.tended Worth.membership_embeds
    have lt := tended.lt (tended.opened _ (opened ▸ List.mem_cons_self)).1
    intro k built
    rcases Graph.node_become_cases _ _ k with ⟨-, same⟩ | same <;> rw [same]
    · exact ih _ body
    · exact ih k built
  | call bound c composed _ lt ends ih =>
    have tended := composed.reached.tended Worth.membership_embeds
    intro k built
    rw [tended.node_call lt ends built]
    exact ih k built
  | journal journal _ ih => exact ih

theorem ones_composed (permitted : Bench → Call → Prop) (char : apt (.char (.int 1)))
    (cat : apt (.cat [3, 2])) (alt : apt (.alt [1, 4])) : ones.Composed apt permitted :=
  .complete (.construct (.alt [1, 4]) (.construct (.cat [3, 2]) (.construct (.char (.int 1))
    (.begin .start rfl) char (fun _ none => nomatch none) rfl)
    cat (by simp [grown, Construction.operands]) rfl)
    alt (by simp [grown, Construction.operands]) rfl)
    rfl (show Bench.built _ 5 by simp [grown]) rfl

end GrammarGraph.Bench
