import GrammarGraph.Proofs.Evaluator
import GrammarGraph.Proofs.Regime.Keeping

/-! What is known while definitions are not complete. No rule can be applied to an unfilled
placeholder, so the answer that a node takes more symbols, which no cycle gives, is only known of a
node that is filled; and if the node is a reduction, the node that it reduces is filled as well,
since that one was asked too. This is all that compaction relies on where it looks at a node without
asking about it. -/
namespace GrammarGraph

/-- The node is filled, and so is what it reduces. -/
structure Graph.Seen (g : Graph) (n : NodeId) : Prop where
  filled : (g.node n).kind ≠ .placeholder
  reduced : (g.node n).kind = .red →
    ∃ m, (g.node n).slot .first = .node m ∧ (g.node m).kind ≠ .placeholder

/-- Only of nodes that are seen it is known that they take more symbols. -/
def Graph.Sighted (g : Graph) : Prop :=
  ∀ n, g.epsLike.Knows n false → g.Seen n

/-- What the answer of an evaluator about `n` shows. -/
def Evaluator.Shows (g : Graph) (n : NodeId) : (i : Evaluator) → i.Result → Prop
  | .epsLike, settled => settled = false → g.Seen n
  | .forest, _ | .nullable, _ | .emptyLike, _ | .compact, _ => True

def Query.Shows (g : Graph) : (q : Query) → q.Answer → Prop
  | .child n side, k => ∀ m, k = some m → (g.node n).slot side = .node m
  | .epsLike n, settled => settled = false → g.Seen n
  | _, _ => True

namespace Graph

variable {g g' : Graph} {n p body : NodeId}

theorem Seen.evolves (h : g.Seen n) (evolves : g.Evolves g') : g'.Seen n where
  filled := by rw [evolves.kind (lt_of_kind h.filled)]; exact h.filled
  reduced kind := by
    rw [evolves.kind (lt_of_kind h.filled)] at kind
    obtain ⟨m, slot, filled⟩ := h.reduced kind
    refine ⟨m, evolves.filled slot, ?_⟩
    rw [evolves.kind (lt_of_kind filled)]
    exact filled

/-- Placeholders that are filled were not seen. -/
theorem Seen.become (h : g.Seen n) (unfilled : (g.node p).kind = .placeholder) :
    (g.become p body).Seen n := by
  have kept {m : NodeId} (filled : (g.node m).kind ≠ .placeholder) :
      (g.become p body).node m = g.node m := node_become_of_known body unfilled filled
  refine ⟨by rw [kept h.filled]; exact h.filled, fun kind => ?_⟩
  rw [kept h.filled] at kind ⊢
  obtain ⟨m, slot, filled⟩ := h.reduced kind
  exact ⟨m, slot, by rw [kept filled]; exact filled⟩

namespace Sighted

variable (h : g.Sighted)
include h

theorem congr (evolves : g.Evolves g') (same : g'.epsLike = g.epsLike) : g'.Sighted :=
  fun n known => (h n (same ▸ known)).evolves evolves

theorem setForcing (cell : CellId) (mark : Bool) : (g.setForcing cell mark).Sighted :=
  fun n known => ⟨(h n known).filled, (h n known).reduced⟩

theorem become (unfilled : (g.node p).kind = .placeholder) : (g.become p body).Sighted :=
  fun n known => (h n (Evaluation.knows_forget known)).become unfilled

theorem modify {i : Evaluator} {f : Evaluation i.Result → Evaluation i.Result}
    (known : ∀ m u, (f (i.of g)).Knows m u → (i.of g).Knows m u ∨ i.Shows g m u) :
    (i.held.modify f g).Sighted := by
  intro n recorded
  refine Seen.evolves (g := g) ?_ (Evaluator.evolves_modify f)
  cases i with
  | epsLike => exact (known n false recorded).elim (h n) fun shows => shows rfl
  | forest | nullable | emptyLike | compact => exact h n recorded

end Sighted

end Graph

/-- The evaluators see what they give answers about. -/
def sighted : Regime Unit where
  Valid _ g := g.Sighted
  Later _ g _ g' := g.Evolves g'
  refl _ := .refl
  trans := .trans

/-- What is asked is answered in sight, and the answers show what they should. -/
def Ask.Sighted (ask : Ask) : Prop :=
  ∀ q g, g.Sighted → sighted.After () g (ask q) fun _ g' a => q.Shows g' a

theorem Ask.Sighted.answers {ask : Ask} (h : ask.Sighted) : sighted.Answers ask :=
  fun q g valid => (h q g valid).imp fun _ _ _ _ _ _ => trivial

theorem sighted_letrec {body : NodeId → Run Operand} (keeps : ∀ n, sighted.Keeps (body n)) :
    sighted.Keeps (do
      let placeholder ← Run.make { kind := .placeholder }
      let body ← body placeholder
      Grammar.define placeholder body) := by
  intro g valid result g' ends
  obtain ⟨built, g₁, building, ended⟩ := Grammar.letrec_cases ends
  have grown := Graph.addNode_evolves (g := g) { kind := .placeholder }
  obtain ⟨_, within, valid₁, -⟩ := keeps _ _ (valid.congr grown rfl) _ _ building
  have whole := grown.trans within
  rcases ended with rfl | ⟨k, -, -, rfl⟩
  · exact ⟨(), whole, valid₁, fun _ _ => trivial⟩
  · refine ⟨(), whole.become (Nat.le_refl _) k, Graph.Sighted.become valid₁ ?_, fun _ _ => trivial⟩
    have there : g.nodes.size < (g.addNode { kind := .placeholder }).nodes.size := by
      rw [Graph.nodes_addNode, Array.size_push]
      exact Nat.lt_succ_self _
    rw [within.kind there, Graph.node_addNode, if_pos rfl]

theorem Graph.Sighted.keep {g g' : Graph} (valid : g.Sighted) (evolves : g.Evolves g')
    (same : g'.epsLike = g.epsLike) : g.Evolves g' ∧ g'.Sighted :=
  ⟨evolves, valid.congr evolves same⟩

theorem sighted_constructive :
    Constructive fun _ r => ∀ ask, sighted.Answers ask → sighted.Keeps (r ask) where
  toCompositional := Regime.compositional
    (fun _ => .make fun g valid => valid.keep (g.addNode_evolves _) rfl)
    fun _ => .defer fun g valid => valid.keep (g.addCell_evolves _) rfl
  postpone _ _ _ _ _ := .defer fun g valid => valid.keep (g.addCell_evolves _) rfl
  note _ _ _ _ := .update fun g valid => valid.keep (g.evolves_of_eq rfl rfl) rfl
  letrec body ask h := sighted_letrec fun n => body n ask h
  anyNode _ node _ _ _ := .make fun g valid => valid.keep (g.addNode_evolves node) rfl

namespace Ask.Sighted

variable {ask : Ask} {g : Graph} (h : ask.Sighted) (valid : g.Sighted)
include h valid

theorem child (n : NodeId) (side : Side) :
    sighted.After () g (ask.child n side) fun _ g' k => (g'.node n).slot side = .node k := by
  refine .bind (h (.child n side) g valid) fun _ g' k _ valid' slot => ?_
  cases k with
  | some k => exact .pure valid' (slot k rfl)
  | none => exact .fault valid'

/-- A node that takes more symbols was looked at, and what it reduces was asked about. -/
theorem epsLike (n : NodeId) :
    sighted.After () g (Emptiness.epsLike ask n)
      fun _ g' settled => settled = false → g'.Seen n := by
  have keeps := sighted_constructive.toCompositional.epsLike n ask h.answers g valid
  cases kind : (g.node n).kind with
  | placeholder =>
    refine .read (f := fun g => (g.node n).kind) ?_
    rw [kind]
    exact .fault valid
  | red =>
    refine .read (f := fun g => (g.node n).kind) ?_
    rw [kind]
    refine .bind (h.child valid n .first) fun _ g₁ k later valid₁ slot => ?_
    refine .imp (h (.epsLike k) g₁ valid₁) fun _ g₂ settled later' _ shows no => ?_
    exact ⟨by rw [(later.trans later').kind_eq kind Kind.noConfusion]; exact Kind.noConfusion,
      fun _ => ⟨k, later'.filled slot, (shows no).filled⟩⟩
  | _ =>
    refine keeps.imp fun _ g' settled later _ _ _ => ?_
    have kind' := later.kind_eq kind Kind.noConfusion
    exact ⟨by rw [kind']; exact Kind.noConfusion, fun red => nomatch kind'.symm.trans red⟩

omit valid in
theorem read (n : NodeId) (side : Side) (valid : g.Sighted) :
    sighted.After () g (Child.read ask n side) fun _ g' k =>
      ∀ m, k = some m → (g'.node n).slot side = .node m := by
  refine .child (Q := fun _ g' m => (g'.node n).slot side = .node m) (fun slot => slot) ?_ valid
  intro cell s slot suspended free result g₁ ends
  have lt := Graph.lt_of_suspension suspended
  have nlt : n < g.nodes.size := Graph.lt_of_slot fun vacant => by rw [slot] at vacant; cases vacant
  obtain ⟨_, within, valid₁, -⟩ :=
    sighted_constructive.compute s.uses_true ask h.answers _ (valid.setForcing cell true) _ _ ends
  have unmarked := within.unmarked lt free
  have valid₂ := valid₁.setForcing cell false
  refine ⟨(), unmarked, valid₂, fun _ _ k _ => ?_⟩
  have placed := within.placed lt slot k
  exact ⟨unmarked.trans placed, Graph.Sighted.congr valid₂ placed rfl,
    Graph.slot_setSlot_self side _ (Nat.lt_of_lt_of_le nlt unmarked.size)⟩

theorem evaluate (i : Evaluator) (n : NodeId) :
    sighted.After () g (Evaluation.demand i.held (i.default n) (i.body ask n) n)
      fun _ g' v => i.Shows g' n v := by
  refine .evaluation (Q := fun _ g v => i.Shows g n v) (fun {_ g v} valid known => ?_)
    (fun {_ g f} valid known => ?_) (fun {_ g f v} shows => ?_) (fun _ valid' => ?_)
    (fun _ valid' => ?_) valid
  · cases i with
    | epsLike => rintro rfl; exact valid n known
    | _ => trivial
  · refine ⟨Evaluator.evolves_modify f, Graph.Sighted.modify valid fun m u recorded => ?_⟩
    exact (known m u recorded).imp_right fun ⟨here, shows⟩ => here ▸ shows
  · cases i with
    | epsLike => exact fun no => (shows no).evolves (Evaluator.evolves_modify f)
    | _ => trivial
  · cases i with
    | epsLike => exact .pure valid' nofun
    | _ => exact .pure valid' trivial
  · cases i with
    | epsLike => exact h.epsLike valid' n
    | forest => exact sighted_constructive.toCompositional.body .forest n ask h.answers _ valid'
    | nullable => exact sighted_constructive.toCompositional.body .nullable n ask h.answers _ valid'
    | emptyLike =>
      exact sighted_constructive.toCompositional.body .emptyLike n ask h.answers _ valid'
    | compact => exact sighted_constructive.toCompositional.body .compact n ask h.answers _ valid'

omit valid in
theorem answer (bound : Nat) : Ask.Sighted (Engine.answer bound ask)
  | .child n side, _, valid => h.read n side valid
  | .nullable n, _, valid => h.evaluate valid .nullable n
  | .forest n, _, valid => h.evaluate valid .forest n
  | .emptyLike n, _, valid => h.evaluate valid .emptyLike n
  | .epsLike n, _, valid => h.evaluate valid .epsLike n
  | .compact n, _, valid => h.evaluate valid .compact n
  | .derive c n, _, valid => by
    refine .memo (Q := fun _ _ _ => True) (fun _ _ => trivial) (fun {_ g f} valid _ => ?_)
      (fun {_ g d} valid _ => ?_) (fun _ => trivial) (fun _ valid =>
      sighted_constructive.toCompositional.derive c n ask h.answers _ valid) valid
    all_goals exact valid.keep (g.evolves_of_eq rfl rfl) rfl
  | .nodeCount n, g, valid =>
    sighted_constructive.toCompositional.nodeCount bound n ask h.answers g valid

end Ask.Sighted

/-- Within any bound, evaluators see what they give answers about. -/
theorem Engine.run_sighted : ∀ bound, (Engine.run bound).Sighted
  | 0 => fun _ _ _ => .spent
  | bound + 1 => (run_sighted bound).answer bound

end GrammarGraph
