import GrammarGraph.Proofs.Soundness.Constructors
import GrammarGraph.Proofs.History

/-! Building under the regime of soundness. Nodes that constructors make mean what can be
derived from them once all definitions are complete; the rules for such a node are the
rules of derivations. -/
namespace GrammarGraph

variable {ω : Type} {A : Worth ω} {embed : Value → ω} {plan : Blueprint} {M M' : Meaning ω}
  {g g' : Graph} {n : NodeId}

/-- The sentences that can be derived from a node, given by representatives. -/
def Derives.meaning (A : Worth ω) (look : NodeId → Node) (n : NodeId) (s : List Value) (w : ω) :
    Prop :=
  ∃ t : List Value, t.map Value.numeric = s ∧ Derives A look n t w

namespace Derives

variable {look : NodeId → Node} {part : Parts ω}

theorem again_meaning {a : NodeId} {c : Value} {s t : List Value} {u v : ω}
    (kind : (look n).kind = .rep) (slot : (look n).first = .node a)
    (first : Derives.meaning A look a (c :: s) u) (rest : Derives.meaning A look n t v) :
    Derives.meaning A look n (c :: s ++ t) (A.pair u v) := by
  obtain ⟨s', hs, first⟩ := first
  obtain ⟨t', rfl, rest⟩ := rest
  obtain ⟨d, s', rfl, rfl, rfl⟩ := List.map_eq_cons_iff.mp hs
  exact ⟨d :: s' ++ t', by simp, .repMore kind slot first rest⟩

theorem meaning_of_rule
    (parts : ∀ side ∈ (look n).sides, ∀ s w, part side s w →
      ∃ k, (look n).slot side = .node k ∧ Derives.meaning A look k s w)
    {s w} (h : Clause A part (look n) s w) : Derives.meaning A look n s w := by
  cases h with
  | eps kind hw => exact ⟨[], rfl, .eps kind hw⟩
  | char kind same hw => exact ⟨[_], rfl, .char kind same hw⟩
  | alt side kind hw =>
    have member := Node.mem_sides_of_pair (.inr kind) side
    obtain ⟨k, slot, t, rfl, d⟩ := parts side member _ _ hw
    exact ⟨t, rfl, .alt side kind slot d⟩
  | cat kind hu hv =>
    have member := Node.mem_sides_of_pair (.inl kind)
    obtain ⟨a, slot, s, rfl, d⟩ := parts .first (member .first) _ _ hu
    obtain ⟨b, slot', t, rfl, d'⟩ := parts .second (member .second) _ _ hv
    exact ⟨s ++ t, by simp, .cat kind slot slot' d d'⟩
  | rep kind rounds =>
    have member := Node.mem_sides_of_single (.inl kind)
    induction rounds with
    | none => exact ⟨[], rfl, .repNone kind⟩
    | more first _ ih =>
      obtain ⟨a, slot, first⟩ := parts .first member _ _ first
      exact again_meaning kind slot first ih
  | delta kind hw =>
    have member := Node.mem_sides_of_single (.inr (.inl kind))
    obtain ⟨a, slot, t, empty, d⟩ := parts .first member _ _ hw
    obtain rfl := List.map_eq_nil_iff.mp empty
    exact ⟨[], rfl, .delta kind slot d⟩
  | red kind hv image =>
    have member := Node.mem_sides_of_single (.inr (.inr kind))
    obtain ⟨a, slot, t, rfl, d⟩ := parts .first member _ _ hv
    exact ⟨t, rfl, .red kind slot d image⟩

theorem rule_of_atom (atomic : (look n).kind.isAtomic) {s w} (h : Derives.meaning A look n s w) :
    Clause A part (look n) s w := by
  obtain ⟨t, rfl, h⟩ := h
  cases h with
  | eps kind hw => exact .eps kind hw
  | char kind same hw => exact .char kind same hw
  | alt _ kind | cat kind | repNone kind | repMore kind | delta kind | red kind =>
    rw [kind] at atomic; cases atomic

end Derives

namespace Sound

/-- The children of a concrete node mean what can be derived from them. -/
theorem derives_parts (h : Sound A embed plan M g) {node : Node}
    (concrete : node.Concrete plan.made) {side : Side} (member : side ∈ node.sides) {s w}
    (hw : M.parts node side s w) :
    ∃ k, node.slot side = .node k ∧ Derives.meaning A plan.look k s w := by
  obtain ⟨k, slot, made⟩ := concrete.child side member
  refine ⟨k, slot, (h.denotes made s w).mp ?_⟩
  rwa [Meaning.parts, slot] at hw

theorem lay (h : Sound A embed plan M g) {node : Node} (concrete : node.Concrete plan.made)
    (look : node.kind = .placeholder ∨ plan.look g.nodes.size = node) :
    ∃ M', Sound A embed { plan with made := fun k => plan.made k ∨ k = g.nodes.size } M'
      (g.addNode node) := by
  have covers (side : Side) : g.Covers (node.slot side) := by
    by_cases member : side ∈ node.sides
    · obtain ⟨k, slot, made⟩ := concrete.child side member
      rw [slot]; exact (h.made made).1
    · rw [concrete.vacant side member]; exact True.intro
  have whole {m : List Value → ω → Prop} (hm : m = Derives.meaning A plan.look g.nodes.size)
      {s w} (hr : Clause A (M.parts node) node s w) : m s w := by
    obtain rfl := look.resolve_left hr.known
    rw [hm]
    exact Derives.meaning_of_rule (fun side member _ _ hw => h.derives_parts concrete member hw) hr
  have again {c s u t v} (kind : node.kind = .rep) (first : M.parts node .first (c :: s) u)
      (rest : Derives.meaning A plan.look g.nodes.size t v) :
      Derives.meaning A plan.look g.nodes.size (c :: s ++ t) (A.pair u v) := by
    obtain rfl := look.resolve_left (by rw [kind]; decide)
    obtain ⟨a, slot, first⟩ := h.derives_parts concrete (by simp [Node.sides, kind]) first
    exact Derives.again_meaning kind slot first rest
  have atom {s w} (atomic : node.kind.isAtomic) (known : node.kind ≠ .placeholder)
      (hw : Derives.meaning A plan.look g.nodes.size s w) : Clause A (M.parts node) node s w := by
    obtain rfl := look.resolve_left known
    exact Derives.rule_of_atom atomic hw
  obtain ⟨later, supports⟩ := h.supports.addNode h.formed covers (whole rfl) again atom
  have sound := h.grow later (h.formed.addNode covers) supports rfl rfl rfl rfl
  refine ⟨_, { sound with made := ?_, concrete := ?_, denotes := ?_ }⟩
  · rintro k (made | rfl)
    · exact sound.made made
    · rw [Graph.node_addNode, if_pos rfl, Graph.nodes_addNode, Array.size_push]
      exact ⟨Nat.lt_succ_self _, look.imp_right Eq.symm⟩
  · rintro k (made | rfl)
    · exact (sound.concrete made).mono fun _ => .inl
    · rw [Graph.node_addNode, if_pos rfl]
      exact concrete.mono fun _ => .inl
  · rintro k (made | rfl) s w
    · exact sound.denotes made s w
    · rw [Meaning.put_self]
      exact .rfl

/-- A placeholder may be filled with whatever its meaning supports. -/
theorem become (h : Sound A embed plan M g) {body : NodeId}
    (open_ : (g.node n).kind = .placeholder) (compound : (g.node body).kind.isAtomic = false)
    (made : plan.made n → plan.look n = g.node body ∧ (g.node body).Concrete plan.made)
    (rule : ∀ {s w}, Clause A (M.parts (g.node body)) (g.node body) s w → M (.node n) s w)
    (again : ∀ {c s u t v}, (g.node body).kind = .rep →
      M.parts (g.node body) .first (c :: s) u → M (.node n) t v →
      M (.node n) (c :: s ++ t) (A.pair u v)) :
    Sound A embed plan M (g.become n body) := by
  have kept {m : NodeId} (known : (g.node m).kind ≠ .placeholder) :
      (g.become n body).node m = g.node m := Graph.node_become_of_known body open_ known
  have at_ (m : NodeId) := g.node_become_cases n body m
  have known (m : NodeId) (hm : plan.made m) : m < (g.become n body).nodes.size ∧
      (((g.become n body).node m).kind = .placeholder ∨ (g.become n body).node m = plan.look m) := by
    rw [Graph.nodes_size_become]
    refine ⟨(h.made hm).1, ?_⟩
    rcases at_ m with ⟨rfl, same⟩ | same <;> rw [same]
    · exact .inr (made hm).1.symm
    · exact (h.made hm).2
  have concrete (m : NodeId) (hm : plan.made m) :
      ((g.become n body).node m).Concrete plan.made := by
    rcases at_ m with ⟨rfl, same⟩ | same <;> rw [same]
    · exact (made hm).2
    · exact h.concrete hm
  refine
    { formed := h.formed.become body open_
      supports := ⟨?_, ?_, ?_, ?_⟩
      made := known _
      concrete := concrete _
      denotes := h.denotes
      derivatives := fun hd => ?_
      nullable := fun hv yes => ?_
      forests := fun hw => ?_
      compacted := fun hm => ?_ }
  · intro m s w hr
    rcases at_ m with ⟨rfl, same⟩ | same <;> rw [same] at hr
    · exact rule hr
    · exact h.supports.node hr
  · intro m c s u t v kind first rest
    rcases at_ m with ⟨rfl, same⟩ | same <;> rw [same] at kind first
    · exact again kind first rest
    · exact h.supports.again kind first rest
  · intro m s w atomic known hw
    rcases at_ m with ⟨rfl, same⟩ | same <;> rw [same] at atomic known ⊢
    · rw [compound] at atomic; cases atomic
    · exact h.supports.atom atomic known hw
  · intro cell suspension s w hs hw
    refine h.supports.cell hs ?_
    cases suspension with
    | derivative c m side => rwa [Meaning.ofSuspension, kept (h.formed.derivative hs)] at hw
    | compacted m => exact hw
    | term => exact hw
  · obtain ⟨nlt, dlt, follows⟩ := h.derivatives (Memo.find?_forget hd)
    rw [Meaning.Follows, Graph.nodes_size_become]
    exact ⟨nlt, dlt, follows⟩
  · rw [Meaning.Nulls, Graph.nodes_size_become]
    exact h.nullable (Evaluation.knows_forget hv) yes
  · rw [Meaning.Witnesses, Graph.nodes_size_become]
    exact h.forests (Evaluation.knows_forget hw)
  · rw [Meaning.Bounds, Graph.nodes_size_become]
    exact h.compacted (Evaluation.knows_forget hm)

/-- Completing a definition changes no meaning: the placeholder meant from the start what its
contents will derive. -/
theorem complete (h : Sound A embed plan M g) {body : NodeId} (made : plan.made n)
    (open_ : (g.node n).kind = .placeholder) (builtBody : plan.made body)
    (compound : (g.node body).kind.isAtomic = false) (look : plan.look n = g.node body) :
    Sound A embed plan M (g.become n body) := by
  have concrete := h.concrete builtBody
  refine h.become open_ compound (fun _ => ⟨look, concrete⟩) (fun {s w} hr => ?_)
    fun {c s u t v} kind first rest => ?_
  · rw [← look] at hr concrete
    exact (h.denotes made s w).mpr (Derives.meaning_of_rule
      (fun side member _ _ hw => h.derives_parts concrete member hw) hr)
  · rw [← look] at kind first concrete
    obtain ⟨a, slot, first⟩ := h.derives_parts concrete (by simp [Node.sides, kind]) first
    exact (h.denotes made _ _).mpr
      (Derives.again_meaning kind slot first ((h.denotes made _ _).mp rest))

end Sound

end GrammarGraph
