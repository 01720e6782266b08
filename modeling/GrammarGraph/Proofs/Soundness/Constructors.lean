import GrammarGraph.Grammar
import GrammarGraph.Proofs.Constructors
import GrammarGraph.Proofs.Forests
import GrammarGraph.Proofs.Soundness.Regime

/-! Constructors under the regime of soundness. A node that is made means what its rule
gives, a cell what its suspension gives, and each constructor means no more than its
operands allow. -/
namespace GrammarGraph

variable {ω : Type} {A : Worth ω} {embed : Value → ω} {plan : Blueprint} {M M' : Meaning ω}
  {g g' : Graph}

namespace Meaning

/-- The slot is there and means no more than `P`. -/
def Confines (M : Meaning ω) (g : Graph) (x : Slot) (P : List Value → ω → Prop) : Prop :=
  g.Covers x ∧ ∀ s w, M x s w → P s w

/-- The operand may fill a slot and means no more than `P`. -/
def Offers (M : Meaning ω) (g : Graph) (P : List Value → ω → Prop) : Operand → Prop
  | .node n => M.Confines g (.node n) P
  | .deferred s => Graph.Formed.Allows g s ∧ ∀ t w, M.ofSuspension g s t w → P t w
  | .other _ => True

theorem Confines.imp {x : Slot} {P Q : List Value → ω → Prop} (h : M.Confines g x P)
    (hPQ : ∀ s w, P s w → Q s w) : M.Confines g x Q :=
  ⟨h.1, fun s w hw => hPQ s w (h.2 s w hw)⟩

theorem Later.confines (h : M.Later g M' g') {x : Slot} {P : List Value → ω → Prop}
    (k : M.Confines g x P) : M'.Confines g' x P :=
  ⟨h.evolves.covers k.1, fun s w hw => k.2 s w (by rwa [h.agree x k.1] at hw)⟩

theorem Later.allows (h : M.Later g M' g') {s : Suspension} (k : Graph.Formed.Allows g s) :
    Graph.Formed.Allows g' s := by
  cases s with
  | derivative c n side =>
    exact fun hk => k ((h.evolves.kind (Graph.lt_of_kind k)).symm.trans hk)
  | compacted n => exact Nat.lt_of_lt_of_le k h.evolves.size
  | term => exact k

theorem Later.offers (h : M.Later g M' g') {P : List Value → ω → Prop} {operand : Operand}
    (k : M.Offers g P operand) : M'.Offers g' P operand := by
  cases operand with
  | node n => exact h.confines k
  | deferred s => exact ⟨h.allows k.1, fun t w hw => k.2 t w (h.ofSuspension k.1 hw)⟩
  | other => trivial

/-- The meaning that is `m` at `x` and otherwise stays. -/
def put (M : Meaning ω) (x : Slot) (m : List Value → ω → Prop) : Meaning ω :=
  fun y => if y = x then m else M y

@[simp] theorem put_self (x : Slot) (m : List Value → ω → Prop) : M.put x m x = m :=
  if_pos rfl

theorem put_of_covers {x y : Slot} {m : List Value → ω → Prop} (fresh : ¬ g.Covers x)
    (hy : g.Covers y) : M.put x m y = M y :=
  if_neg (by rintro rfl; exact fresh hy)

/-- A new slot may mean anything. -/
theorem later_put {x : Slot} {m : List Value → ω → Prop} (formed : g.Formed)
    (evolves : g.Evolves g') (nodes : ∀ n < g.nodes.size, g'.node n = g.node n)
    (fresh : ¬ g.Covers x) : M.Later g (M.put x m) g' :=
  ⟨evolves, fun _ hy => put_of_covers fresh hy, fun n lt side _ _ hw => by
    rwa [nodes n lt, put_of_covers fresh (formed.covers n side)] at hw⟩

end Meaning

theorem Meaning.parts_congr {node : Node}
    (slots : ∀ side, M' (node.slot side) = M (node.slot side)) : M'.parts node = M.parts node :=
  funext slots

/-- A new node may have any meaning that its rule supports. -/
theorem Meaning.Supports.addNode (h : M.Supports A g) (formed : g.Formed) {node : Node}
    {m : List Value → ω → Prop} (covers : ∀ side, g.Covers (node.slot side))
    (rule : ∀ {s w}, Clause A (M.parts node) node s w → m s w)
    (again : ∀ {c s u t v}, node.kind = .rep → M.parts node .first (c :: s) u → m t v →
      m (c :: s ++ t) (A.pair u v))
    (atom : ∀ {s w}, node.kind.isAtomic → node.kind ≠ .placeholder → m s w →
      Clause A (M.parts node) node s w) :
    M.Later g (M.put (.node g.nodes.size) m) (g.addNode node) ∧
      (M.put (.node g.nodes.size) m).Supports A (g.addNode node) := by
  have fresh : ¬ g.Covers (.node g.nodes.size) := Nat.lt_irrefl _
  generalize put : M.put (.node g.nodes.size) m = M'
  have later : M.Later g M' (g.addNode node) := put ▸
    Meaning.later_put formed (g.addNode_evolves node)
      (fun _ lt => Graph.node_addNode_of_lt node lt) fresh
  have old (n : NodeId) : M'.parts (g.node n) = M.parts (g.node n) :=
    Meaning.parts_congr fun side => later.agree _ (formed.covers n side)
  have new : M'.parts node = M.parts node :=
    Meaning.parts_congr fun side => later.agree _ (covers side)
  have made : M' (.node g.nodes.size) = m := put ▸ Meaning.put_self _ _
  refine ⟨later, ?_, ?_, ?_, ?_⟩
  · intro n s w hr
    rw [Graph.node_addNode] at hr
    split at hr
    · next last =>
      rw [new] at hr
      rw [last, made]
      exact rule hr
    · next other =>
      have moved : Slot.node n ≠ .node g.nodes.size := fun same => other (Slot.node.inj same)
      rw [← put, show M.put _ m (.node n) = M (.node n) from if_neg moved]
      rw [old] at hr
      exact h.node hr
  · intro n c s u t v kind first rest
    rw [Graph.node_addNode] at kind first
    split at kind
    · next last =>
      rw [last, made] at rest ⊢
      rw [if_pos last, new] at first
      exact again kind first rest
    · next other =>
      rw [if_neg other, old] at first
      rw [later.node (Graph.lt_of_kind (by rw [kind]; decide))] at rest ⊢
      exact h.again kind first rest
  · intro n s w atomic known hw
    rw [Graph.node_addNode] at atomic known ⊢
    split at atomic
    · next last =>
      rw [last, made] at hw
      rw [if_pos last] at known ⊢
      rw [new]
      exact atom atomic known hw
    · next other =>
      rw [if_neg other] at known ⊢
      rw [later.node (Graph.lt_of_kind known)] at hw
      rw [old]
      exact h.atom atomic known hw
  · intro cell suspension s w hs hw
    rw [later.agree (.deferred cell) (Graph.lt_of_suspension hs)]
    exact h.cell hs (later.ofSuspension (formed.allows hs) hw)

namespace Sound

theorem addNode (h : Sound A embed plan M g) {node : Node}
    (covers : ∀ side, g.Covers (node.slot side)) :
    let M' := M.put (.node g.nodes.size) (Clause A (M.parts node) node)
    M.Later g M' (g.addNode node) ∧ Sound A embed plan M' (g.addNode node) := by
  have again {c s u t v} (kind : node.kind = .rep) (first : M.parts node .first (c :: s) u)
      (rest : Clause A (M.parts node) node t v) :
      Clause A (M.parts node) node (c :: s ++ t) (A.pair u v) := by
    cases rest with
    | rep _ rest => exact .rep kind (.more first rest)
    | _ => simp_all
  obtain ⟨later, supports⟩ := h.supports.addNode h.formed covers (fun hr => hr) again
    (fun _ _ hw => hw)
  exact ⟨later, h.grow later (h.formed.addNode covers) supports rfl rfl rfl rfl⟩

theorem addCell (h : Sound A embed plan M g) {suspension : Suspension}
    (allowed : Graph.Formed.Allows g suspension) :
    let M' := M.put (.deferred g.cells.size) (M.ofSuspension g suspension)
    M.Later g M' (g.addCell suspension) ∧ Sound A embed plan M' (g.addCell suspension) := by
  intro M'
  have fresh : ¬ g.Covers (.deferred g.cells.size) := Nat.lt_irrefl _
  have later : M.Later g M' (g.addCell suspension) :=
    Meaning.later_put h.formed (g.addCell_evolves suspension) (fun _ _ => rfl) fresh
  have old (n : NodeId) : M'.parts (g.node n) = M.parts (g.node n) :=
    Meaning.parts_congr fun side => later.agree _ (h.formed.covers n side)
  have made : M' (.deferred g.cells.size) = M.ofSuspension g suspension := Meaning.put_self _ _
  have node (n : NodeId) : M' (.node n) = M (.node n) := if_neg fun same => by cases same
  refine ⟨later, h.grow later (h.formed.addCell allowed) ⟨?_, ?_, ?_, ?_⟩ rfl rfl rfl rfl⟩
  · intro n s w hr
    rw [node]
    rw [Graph.node_addCell, old] at hr
    exact h.supports.node hr
  · intro n c s u t v kind first rest
    rw [node] at rest ⊢
    rw [Graph.node_addCell] at kind
    rw [Graph.node_addCell, old] at first
    exact h.supports.again kind first rest
  · intro n s w atomic known hw
    rw [node] at hw
    rw [Graph.node_addCell, old]
    exact h.supports.atom atomic known hw
  · intro cell s t w hs hw
    rw [Graph.suspension_addCell] at hs
    split at hs
    · next last =>
      cases hs
      rw [last, made]
      exact later.ofSuspension allowed hw
    · rw [later.agree (.deferred cell) (Graph.lt_of_suspension hs)]
      exact h.supports.cell hs (later.ofSuspension (h.formed.allows hs) hw)

variable {P Q : List Value → ω → Prop}

theorem make (h : Sound A embed plan M g) {node : Node} (part : Parts ω)
    (slots : ∀ side, M.Confines g (node.slot side) (part side)) :
    (soundness A embed plan).After M g (Run.make node) fun M' g' n =>
      M'.Confines g' (.node n) (Clause A part node) := by
  obtain ⟨later, sound⟩ := h.addNode fun side => (slots side).1
  refine .read (.update later (.pure sound ⟨?_, fun s w hw => ?_⟩))
  · rw [Graph.Covers, Graph.nodes_addNode, Array.size_push]
    exact Nat.lt_succ_self _
  · rw [Meaning.put_self] at hw
    exact hw.mono rfl fun side => (slots side).2

theorem slot (h : Sound A embed plan M g) {operand : Operand} (offered : M.Offers g P operand) :
    (soundness A embed plan).After M g operand.slot fun M' g' x => M'.Confines g' x P := by
  cases operand with
  | node n => exact .pure h offered
  | other => exact .fault h
  | deferred s =>
    obtain ⟨later, sound⟩ := h.addCell offered.1
    refine .bind (Q := fun M' g' cell => M'.Confines g' (.deferred cell) P)
      (.read (.update later (.pure sound ⟨?_, fun t w hw => ?_⟩)))
      fun _ _ _ _ sound' confined => .pure sound' confined
    · rw [Graph.Covers, Graph.cells_size_addCell]
      exact Nat.lt_succ_self _
    · rw [Meaning.put_self] at hw
      exact offered.2 t w hw

theorem empty_confines (h : Sound A embed plan M g) : M.Confines g (.node .empty) P := by
  refine ⟨h.formed.empty_lt, fun s w hw => ?_⟩
  have kind := h.formed.empty
  have := h.supports.atom (by rw [kind]; rfl) (by rw [kind]; decide) hw
  cases this <;> simp_all

theorem pair (h : Sound A embed plan M g) (kind : Kind) {a b : Operand} (first : M.Offers g P a)
    (second : M.Offers g Q b) :
    (soundness A embed plan).After M g (Grammar.pair kind a b) fun M' g' n =>
      M'.Confines g' (.node n) (Clause A (.of P Q) { kind }) := by
  refine .bind (h.slot first) fun M₁ g₁ x later₁ h₁ hx => ?_
  refine .bind (h₁.slot (later₁.offers second)) fun M₂ g₂ y later₂ h₂ hy => ?_
  refine .imp (h₂.make (.of P Q) fun side => ?_) fun M' g' n _ _ hn =>
    hn.imp fun s w hw => ?_
  · cases side with
    | first => exact later₂.confines hx
    | second => exact hy
  · refine hw.mono ?_ fun _ _ _ h => h
    rfl

/-- A new node with one child. -/
theorem single (h : Sound A embed plan M g) (node : Node) {a : Operand} (offered : M.Offers g P a)
    (second : node.second = .vacant) :
    (soundness A embed plan).After M g (do Run.make { node with first := ← a.slot })
      fun M' g' n => M'.Confines g' (.node n) (Clause A (.of P fun _ _ => True) node) := by
  refine .bind (h.slot offered) fun M₁ g₁ x later₁ h₁ hx => ?_
  refine .imp (h₁.make (.of P fun _ _ => True) fun side => ?_) fun M' g' n _ _ hn =>
    hn.imp fun s w hw => ?_
  · cases side with
    | first => exact hx
    | second => exact ⟨by simp [Node.slot, second, Graph.Covers], fun _ _ _ => trivial⟩
  · refine hw.mono ?_ fun _ _ _ h => h
    rfl

theorem alt (h : Sound A embed plan M g) {a b : Operand} (first : M.Offers g P a)
    (second : M.Offers g Q b) :
    (soundness A embed plan).After M g (Grammar.alt a b) fun M' g' n =>
      M'.Confines g' (.node n) fun s w => P s w ∨ Q s w := by
  refine .reuse h (fun n found => ?_) fun _ => ?_
  · obtain ⟨_, _, rfl, rfl, ⟨-, rfl⟩ | ⟨-, -, rfl⟩⟩ := Grammar.altShortcut_cases found
    · exact second.imp fun _ _ => .inr
    · exact first.imp fun _ _ => .inl
  · refine .imp (h.pair .alt first second) fun _ _ _ _ _ hn => hn.imp fun s w hw => ?_
    cases hw with
    | alt side _ hw =>
      cases side with
      | first => exact .inl hw
      | second => exact .inr hw
    | _ => contradiction

/-- Not both parts are concrete, so that neither is dropped for being trivial. -/
theorem cat (h : Sound A embed plan M g) {a b : Operand} (first : M.Offers g P a)
    (second : M.Offers g Q b) (later : a.node? = none ∨ b.node? = none) :
    (soundness A embed plan).After M g (Grammar.cat a b) fun M' g' n =>
      M'.Confines g' (.node n) fun s w =>
        ∃ s₁ s₂ u v, s = s₁ ++ s₂ ∧ w = A.pair u v ∧ P s₁ u ∧ Q s₂ v := by
  refine .reuse h (fun n found => ?_) fun _ => ?_
  · obtain ⟨-, rfl⟩ | ⟨_, _, rfl, rfl, -⟩ := Grammar.catShortcut_cases found
    · exact h.empty_confines
    · cases later <;> contradiction
  · refine .imp (h.pair .cat first second) fun _ _ _ _ _ hn => hn.imp fun s w hw => ?_
    cases hw with
    | cat _ hu hv => exact ⟨_, _, _, _, rfl, rfl, hu, hv⟩
    | _ => contradiction

theorem rep (h : Sound A embed plan M g) {suspension : Suspension}
    (offered : M.Offers g P (.deferred suspension)) :
    (soundness A embed plan).After M g (Grammar.rep (.deferred suspension)) fun M' g' n =>
      M'.Confines g' (.node n) (Rounds A P) := by
  refine .reuse h (fun n found => ?_) fun _ => ?_
  · cases found
  · refine .imp (h.single { kind := .rep } offered rfl) fun _ _ _ _ _ hn =>
      hn.imp fun s w hw => ?_
    cases hw with
    | rep _ hw => exact hw
    | _ => contradiction

theorem delta (h : Sound A embed plan M g) {a : Operand} (offered : M.Offers g P a) :
    (soundness A embed plan).After M g (Grammar.delta a) fun M' g' n =>
      M'.Confines g' (.node n) fun s w => s = [] ∧ P [] w := by
  refine .reuse h (fun n found => ?_) fun _ => ?_
  · obtain ⟨-, rfl⟩ | ⟨rfl, kind⟩ := Grammar.deltaShortcut_cases found
    · exact h.empty_confines
    · refine ⟨offered.1, fun s w hw => ?_⟩
      have := h.supports.atom (by rw [kind]; rfl) (by rw [kind]; decide) hw
      cases this with
      | eps => exact ⟨rfl, offered.2 _ _ hw⟩
      | _ => simp_all
  · refine .imp (h.single { kind := .delta } offered rfl) fun _ _ _ _ _ hn =>
      hn.imp fun s w hw => ?_
    cases hw with
    | delta _ hw => exact ⟨rfl, hw⟩
    | _ => contradiction

theorem reduction (h : Sound A embed plan M g) {a : Operand} (offered : M.Offers g P a)
    (transform : Transform) :
    (soundness A embed plan).After M g (Grammar.reduction a transform) fun M' g' n =>
      M'.Confines g' (.node n) fun s w => ∃ v, P s v ∧ A.image transform v w := by
  refine .reuse h (fun n found => ?_) fun _ => ?_
  · obtain ⟨-, rfl⟩ := Grammar.redShortcut_cases found
    exact h.empty_confines
  · refine .imp (h.single { kind := .red, transform } offered rfl) fun _ _ _ _ _ hn =>
      hn.imp fun s w hw => ?_
    cases hw with
    | red _ hv hw => exact ⟨_, hv, hw⟩
    | _ => contradiction

/-- A new eps node means no more than its witnesses. -/
theorem eps (h : Sound A embed plan M g) (embeds : A.Embeds embed) {ws : List Value}
    (some_ : ws ≠ []) :
    (soundness A embed plan).After M g (Grammar.eps ws) fun M' g' n =>
      M'.Confines g' (.node n) fun s w => s = [] ∧ ∃ v ∈ ws, w = embed v := by
  unfold Grammar.eps
  refine .given h fun forest given => ?_
  have nonempty : forest ≠ [] := (Forest.ofWitnesses_eq_nil given).not.mpr some_
  have origin {u : ω} (hu : A.eps forest u) : ∃ v ∈ ws, u = embed v := by
    obtain ⟨v, member, rfl⟩ := embeds.eps_origin nonempty hu
    exact ⟨v, Forest.mem_of_mem_ofWitnesses given member, rfl⟩
  split
  · next trivial =>
    refine .pure h ⟨h.formed.eps_lt, fun s w hw => ?_⟩
    have kind := h.formed.eps
    have := h.supports.atom (by rw [kind]; rfl) (by rw [kind]; decide) hw
    cases this with
    | eps _ hw =>
      rw [h.formed.trivial] at hw
      obtain ⟨v, member, rfl⟩ := embeds.eps_origin (List.cons_ne_nil _ _) hw
      rw [List.mem_singleton.mp member]
      exact ⟨rfl, _, Forest.mem_of_mem_ofWitnesses given (Forest.nothing_mem trivial), rfl⟩
    | _ => simp_all
  · refine .imp (h.make (fun _ _ _ => True) fun side => ?_) fun M' g' n _ _ hn =>
      hn.imp fun s w hw => ?_
    · exact ⟨by cases side <;> exact True.intro, fun _ _ _ => True.intro⟩
    · cases hw with
      | eps _ hw => exact ⟨rfl, origin hw⟩
      | _ => contradiction

end Sound

end GrammarGraph
