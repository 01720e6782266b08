import GrammarGraph.Proofs.Evaluator
import GrammarGraph.Proofs.Failure
import GrammarGraph.Proofs.Outcomes
import GrammarGraph.Proofs.Regime.Keeping

/-! Canonical graphs: there is one empty node and one trivial eps node, and every forest lists
different witnesses. Constructors, evaluators and the derivative keep a graph canonical, and so do
terms that make no node as it is. No run leaves the canonical graphs on its way, either: it ends in
the same way if questions are answered at canonical graphs only. -/
namespace GrammarGraph

namespace RunOf

variable {σ τ α β : Type} {I : σ → Prop} {r r' : RunOf σ α} {f f' : α → RunOf σ β}
  {Q : α → Prop} {S : β → Prop}

/-- From the states in order, `r'` ends as `r` does, with a state in order, and what is given has the
property. -/
def Stays (I : σ → Prop) (r r' : RunOf σ α) (Q : α → Prop) : Prop :=
  ∀ s result s', I s → r s = some (result, s') →
    r' s = some (result, s') ∧ I s' ∧ ∀ a, result = .ok a → Q a

namespace Stays

theorem imp {Q' : α → Prop} (h : Stays I r r' Q) (weaker : ∀ a, Q a → Q' a) : Stays I r r' Q' := by
  intro s result s' start ends
  obtain ⟨same, order, given⟩ := h _ _ _ start ends
  exact ⟨same, order, fun a ok => weaker a (given a ok)⟩

theorem ofExcept {result : Except Fault α} (h : ∀ a, result = .ok a → Q a) :
    Stays I (.ofExcept result) (.ofExcept result) Q := by
  rintro s _ _ start ⟨⟩
  exact ⟨rfl, start, h⟩

theorem pure {a : α} (h : Q a) : Stays I (pure a) (pure a) Q := by
  rintro s _ _ start ⟨⟩
  exact ⟨rfl, start, fun _ same => by cases same; exact h⟩

theorem read {p : σ → α} (h : ∀ s, I s → Q (p s)) : Stays I (.read p) (.read p) Q := by
  rintro s _ _ start ⟨⟩
  exact ⟨rfl, start, fun a same => by cases same; exact h s start⟩

theorem update {p : σ → σ} (h : ∀ s, I s → I (p s)) :
    Stays I (.update p) (.update p) fun _ => True := by
  rintro s _ _ start ⟨⟩
  exact ⟨rfl, h s start, fun _ _ => trivial⟩

theorem spent : Stays I (.spent : RunOf σ α) .spent Q :=
  fun _ _ _ _ ends => nomatch ends

theorem bind (hr : Stays I r r' Q) (hf : ∀ a, Q a → Stays I (f a) (f' a) S) :
    Stays I (r >>= f) (r' >>= f') S := by
  intro s result s' start ends
  rw [bind_run] at ends ⊢
  obtain ⟨⟨first, s₁⟩, began, ends⟩ := Option.bind_eq_some_iff.mp ends
  obtain ⟨same, order, given⟩ := hr _ _ _ start began
  rw [same, Option.bind_some]
  cases first with
  | error fault =>
    cases ends
    exact ⟨rfl, order, fun _ none => nomatch none⟩
  | ok a => exact hf a (given a rfl) _ _ _ order ends

theorem outcome (h : Stays I r r' Q) :
    Stays I r.outcome r'.outcome fun result => ∀ a, result = .ok a → Q a := by
  intro s result s' start ends
  obtain ⟨⟨ended, s₁⟩, ran, same⟩ := Option.map_eq_some_iff.mp ends
  cases same
  obtain ⟨same, order, given⟩ := h _ _ _ start ran
  exact ⟨Option.map_eq_some_iff.mpr ⟨_, same, rfl⟩, order, fun _ ok => by cases ok; exact given⟩

theorem inside {J : τ → Prop} {part : Held σ τ} {r r' : RunOf τ α} (into : ∀ s, I s → J (part.get s))
    (back : ∀ s t, I s → J t → I (part.modify (fun _ => t) s)) (h : Stays J r r' Q) :
    Stays I (.inside part r) (.inside part r') Q := by
  intro s result s' start ends
  obtain ⟨⟨ended, t⟩, ran, same⟩ := Option.map_eq_some_iff.mp ends
  cases same
  obtain ⟨same, order, given⟩ := h _ _ _ (into s start) ran
  exact ⟨Option.map_eq_some_iff.mpr ⟨_, same, rfl⟩, back s t start order, given⟩

end Stays

end RunOf

namespace Evaluation

variable {σ α : Type} {Q : α → Prop} {e : Evaluation α} {n : Nat} {v : α}

structure Each (Q : α → Prop) (e : Evaluation α) : Prop where
  stored : ∀ {n v}, e.stored.get? n = some v → Q v
  provisional : ∀ {n entry}, e.provisional.get? n = some entry → Q entry.value

namespace Each

theorem reliedOn (h : e.Each Q) (depth : Nat) : (e.reliedOn depth).Each Q :=
  ⟨h.stored, h.provisional⟩

theorem enter (h : e.Each Q) (n : Nat) : (e.enter n).Each Q :=
  ⟨h.stored, h.provisional⟩

theorem leave (h : e.Each Q) (n : Nat) : (e.leave n).Each Q := by
  refine ⟨h.stored, fun {m entry} known => ?_⟩
  suffices kept : ∀ (ns : List Nat) (t : Table (Provisional α)),
      (∀ {m entry}, t.get? m = some entry → Q entry.value) →
        ∀ {m entry}, (ns.foldl Table.erase t).get? m = some entry → Q entry.value from
    kept e.pending _ h.provisional known
  intro ns
  induction ns with
  | nil => exact fun _ all => all
  | cons n ns ih =>
    refine fun t all => ih (t.erase n) fun {m entry} there => ?_
    rw [Table.get?_erase] at there
    split at there
    · cases there
    · exact all there

theorem postpone (h : e.Each Q) (n : Nat) (given : Q v) (lowlink : Nat) :
    (e.postpone n v lowlink).Each Q := by
  refine ⟨h.stored, fun {m entry} known => ?_⟩
  change (e.provisional.insert n ⟨v, lowlink⟩).get? m = some entry at known
  rw [Table.get?_insert] at known
  split at known
  · cases known
    exact given
  · exact h.provisional known

theorem store (h : e.Each Q) (n : Nat) (given : Q v) : (e.store n v).Each Q := by
  refine ⟨fun {m u} known => ?_, h.provisional⟩
  rw [stored_store] at known
  split at known
  · cases known
    exact given
  · exact h.stored known

theorem forget (h : e.Each Q) (n : Nat) : (e.forget n).Each Q := by
  refine ⟨fun {m u} known => ?_, h.provisional⟩
  change (e.stored.erase n).get? m = some u at known
  rw [Table.get?_erase] at known
  split at known
  · cases known
  · exact h.stored known

theorem trivial (e : Evaluation α) : e.Each fun _ => True :=
  ⟨fun _ => True.intro, fun _ => True.intro⟩

end Each

end Evaluation

namespace RunOf.Stays

variable {σ α : Type} {I : σ → Prop} {Q : α → Prop} {default b b' : RunOf σ α}

/-- A value that is evaluated, where the books hold values with the property. -/
theorem evaluation {held : Held σ (Evaluation α)} {n : Nat}
    (books : ∀ s, I s → (held.get s).Each Q)
    (change : ∀ s f, I s → (f (held.get s)).Each Q → I (held.modify f s))
    (given : Stays I default default Q) (body : Stays I b b' Q) :
    Stays I (Evaluation.demand held default b n) (Evaluation.demand held default b' n) Q := by
  intro s result s' start ends
  have entered : I (held.modify (Evaluation.enter n) s) := change s _ start ((books s start).enter n)
  have left {s₁ : σ} (order : I s₁) : I (held.modify (Evaluation.leave n) s₁) :=
    change s₁ _ order ((books s₁ order).leave n)
  have relied (depth : Nat) : I (held.modify (Evaluation.reliedOn depth) s) :=
    change s _ start ((books s start).reliedOn depth)
  have same : (held.get s).Fresh n → b (held.modify (Evaluation.enter n) s) =
      b' (held.modify (Evaluation.enter n) s) := by
    intro fresh
    cases Evaluation.demanded ends with
    | stored stored => cases fresh.stored.symm.trans stored
    | active _ active => cases fresh.active.symm.trans active
    | provisional _ _ provisional => cases fresh.provisional.symm.trans provisional
    | failed _ ran | postponed _ ran | computed _ ran =>
      exact ran.trans (body _ _ _ entered ran).1.symm
  refine ⟨(Evaluation.demand_congr same).symm.trans ends, ?_⟩
  cases Evaluation.demanded ends with
  | stored stored => exact ⟨start, fun _ ok => by cases ok; exact (books s start).stored stored⟩
  | active _ _ asked =>
    obtain ⟨-, order, had⟩ := given _ _ _ (relied _) asked
    exact ⟨order, had⟩
  | provisional _ _ provisional =>
    exact ⟨relied _, fun _ ok => by cases ok; exact (books s start).provisional provisional⟩
  | failed _ ran =>
    obtain ⟨-, order, -⟩ := body _ _ _ entered ran
    exact ⟨left order, fun _ none => nomatch none⟩
  | postponed _ ran _ =>
    obtain ⟨-, order, had⟩ := body _ _ _ entered ran
    have v := had _ rfl
    exact ⟨change _ _ (left order) ((books _ (left order)).postpone n v _), fun _ ok => by
      cases ok; exact v⟩
  | computed _ ran _ =>
    obtain ⟨-, order, had⟩ := body _ _ _ entered ran
    have v := had _ rfl
    exact ⟨change _ _ (left order) ((books _ (left order)).store n v), fun _ ok => by
      cases ok; exact v⟩

/-- A value that is remembered, where the books are of no matter. -/
theorem memo {held : Held σ (Memo α)} {name : String} {n : Nat} {key : Value}
    (change : ∀ s f, I s → I (held.modify f s)) (body : Stays I b b' Q) :
    Stays I (Memo.demand held name b n key) (Memo.demand held name b' n key) fun _ => True := by
  intro s result s' start ends
  have started := change s (Memo.start n key) start
  have same : key.hashable = true → (held.get s).find? n key = none →
      (held.get s).isStarted n key = false →
        b (held.modify (Memo.start n key) s) = b' (held.modify (Memo.start n key) s) := by
    intro hashable absent idle
    cases Memo.demanded ends with
    | unhashable other => cases hashable.symm.trans other
    | finished _ found => cases absent.symm.trans found
    | started _ _ busy => cases idle.symm.trans busy
    | failed _ _ _ ran | computed _ _ _ ran => exact ran.trans (body _ _ _ started ran).1.symm
  refine ⟨(Memo.demand_congr same).symm.trans ends, ?_, fun _ _ => trivial⟩
  cases Memo.demanded ends with
  | unhashable | finished | started => exact start
  | failed _ _ _ ran => exact change _ _ (body _ _ _ started ran).2.1
  | computed _ _ _ ran => exact change _ _ (change _ _ (body _ _ _ started ran).2.1)

end RunOf.Stays

namespace Graph

/-- Only the first two nodes are empty and trivial, all forests list different witnesses, and no term
waits that would make a node as it is. -/
structure Canonical (g : Graph) : Prop where
  empty : ∀ n, (g.node n).kind = .empty ↔ n = NodeId.empty
  trivial : ∀ n, (g.node n).isTrivial = true ↔ n = NodeId.eps
  witnesses : ∀ {n}, (g.node n).kind = .eps → (g.node n).witnesses.Reduced
  forests : g.forests.Each Forest.Reduced
  suspended : ∀ {cell s}, g.suspension? cell = some s → s.Uses False

end Graph

theorem Node.isTrivial_of_bare {node node' : Node} (same : node'.bare = node.bare) :
    node'.isTrivial = node.isTrivial := by
  rw [isTrivial, isTrivial, kind_of_bare same, witnesses_of_bare same]

theorem Node.Canonical.not_trivial {node : Node} (h : node.Canonical) : node.isTrivial = false := by
  rw [isTrivial, Bool.and_eq_false_iff, beq_eq_false_iff_ne]
  by_cases eps : node.kind = .eps
  · exact .inr (h.eps eps).1
  · exact .inl eps

theorem NodeId.ne_of_two_le {n : NodeId} (le : 2 ≤ n) : n ≠ NodeId.empty ∧ n ≠ NodeId.eps := by
  constructor <;> rintro rfl <;> exact absurd le (by decide)

namespace Graph.Canonical

variable {g g' : Graph} {n : NodeId}

theorem initial : ({} : Graph).Canonical where
  empty n := by
    rcases n with _ | _ | n
    · simp [Graph.node]
    · simp [Graph.node]
    · simp [Graph.node, default]
  trivial n := by
    rcases n with _ | _ | n
    · simp [Graph.node, Node.isTrivial]
    · simp [Graph.node, Node.isTrivial, Forest.isTrivial, Value.isNothing]
    · simp [Graph.node, Node.isTrivial, default]
  witnesses {n} kind := by
    rcases n with _ | _ | n
    · cases kind
    · exact ⟨List.pairwise_singleton _ _, by simp [Graph.node, Value.hashable, Value.hashableAll]⟩
    · simp [Graph.node, default] at kind
  forests := ⟨fun known => by simp at known, fun known => by simp at known⟩
  suspended known := by simp [Graph.suspension?] at known

theorem room (h : g.Canonical) : 2 ≤ g.nodes.size := by
  have there : (g.node NodeId.eps).kind ≠ .placeholder := fun other => by
    have kind := (h.trivial NodeId.eps).mpr rfl
    rw [Node.isTrivial, other] at kind
    cases kind
  exact Graph.lt_of_kind there

/-- What slots hold is of no matter, nor what is known beside the forests. -/
theorem congr (h : g.Canonical) (bare : ∀ n, (g'.node n).bare = (g.node n).bare)
    (forests : g'.forests = g.forests)
    (suspended : ∀ {cell s}, g'.suspension? cell = some s →
      g.suspension? cell = some s ∨ s.Uses False) : g'.Canonical where
  empty n := by rw [Node.kind_of_bare (bare n), h.empty]
  trivial n := by rw [Node.isTrivial_of_bare (bare n), h.trivial]
  witnesses {n} kind := by
    rw [Node.kind_of_bare (bare n)] at kind
    rw [Node.witnesses_of_bare (bare n)]
    exact h.witnesses kind
  forests := forests ▸ h.forests
  suspended known := (suspended known).elim h.suspended id

theorem addNode (h : g.Canonical) {node : Node} (canonical : node.Canonical) :
    (g.addNode node).Canonical where
  empty n := by
    rw [Graph.node_addNode]
    split
    · next new => exact iff_of_false canonical.empty (NodeId.ne_of_two_le (new ▸ h.room)).1
    · exact h.empty n
  trivial n := by
    rw [Graph.node_addNode]
    split
    · next new =>
      exact iff_of_false (by simp [canonical.not_trivial]) (NodeId.ne_of_two_le (new ▸ h.room)).2
    · exact h.trivial n
  witnesses {n} kind := by
    rw [Graph.node_addNode] at kind ⊢
    split at kind
    · next new => rw [if_pos new]; exact (canonical.eps kind).2
    · next old => rw [if_neg old]; exact h.witnesses kind
  forests := h.forests
  suspended := h.suspended

theorem addCell (h : g.Canonical) {s : Suspension} (uses : s.Uses False) :
    (g.addCell s).Canonical := by
  refine h.congr (fun _ => rfl) rfl fun {cell s'} known => ?_
  rw [Graph.suspension_addCell] at known
  split at known
  · cases known
    exact .inr uses
  · exact .inl known

theorem setForcing (h : g.Canonical) (cell : CellId) (mark : Bool) :
    (g.setForcing cell mark).Canonical :=
  h.congr (fun _ => rfl) rfl fun known => .inl (by rwa [Graph.suspension_setForcing] at known)

theorem setSlot (h : g.Canonical) (n : NodeId) (side : Side) (x : Slot) :
    (g.setSlot n side x).Canonical :=
  h.congr (g.bare_setSlot n side x) rfl .inl

/-- A definition is completed by a node that is no atom. -/
theorem become (h : g.Canonical) {m : NodeId} (le : 2 ≤ n)
    (compound : (g.node m).kind.isAtomic = false) : (g.become n m).Canonical := by
  have other : m ≠ NodeId.empty ∧ m ≠ NodeId.eps := by
    refine ⟨fun same => ?_, fun same => ?_⟩
    · rw [(h.empty m).mpr same] at compound
      cases compound
    · have kind := (h.trivial m).mpr same
      rw [Node.isTrivial, Bool.and_eq_true, beq_iff_eq] at kind
      rw [kind.1] at compound
      cases compound
  have at_ (k : NodeId) := g.node_become_cases n m k
  refine ⟨fun k => ?_, fun k => ?_, fun {k} kind => ?_, h.forests.forget n, h.suspended⟩
  · rcases at_ k with ⟨rfl, same⟩ | same <;> rw [same]
    · rw [h.empty m]
      exact iff_of_false other.1 (NodeId.ne_of_two_le le).1
    · exact h.empty k
  · rcases at_ k with ⟨rfl, same⟩ | same <;> rw [same]
    · rw [h.trivial m]
      exact iff_of_false other.2 (NodeId.ne_of_two_le le).2
    · exact h.trivial k
  · rcases at_ k with ⟨_, same⟩ | same <;> rw [same] at kind ⊢ <;> exact h.witnesses kind

end Graph.Canonical

open RunOf (Stays Calls)

/-- What is asked for is a forest of different witnesses, if it is a forest. -/
def Query.Reduced : (q : Query) → q.Answer → Prop
  | .forest _, ws => Forest.Reduced ws
  | _, _ => True

def Evaluator.Reduced : (i : Evaluator) → i.Result → Prop
  | .forest, ws => Forest.Reduced ws
  | _, _ => True

namespace Graph.Canonical

variable {g : Graph} {i : Evaluator}

theorem books (h : g.Canonical) (i : Evaluator) : (i.of g).Each i.Reduced := by
  cases i with
  | forest => exact h.forests
  | _ => exact .trivial _

theorem modify (h : g.Canonical) {f : Evaluation i.Result → Evaluation i.Result}
    (each : (f (i.of g)).Each i.Reduced) : (i.held.modify f g).Canonical := by
  cases i with
  | forest => exact ⟨h.empty, h.trivial, h.witnesses, each, h.suspended⟩
  | _ => exact h.congr (fun _ => rfl) rfl .inl

end Graph.Canonical

/-- Where the graph is canonical, both answer in the same way, and leave it so. -/
def Ask.Stays (ask others : Ask) : Prop :=
  ∀ q, RunOf.Stays Graph.Canonical (ask q) (others q) q.Reduced

/-- What is made of constructors and questions stays canonical. -/
theorem canonical_constructive : Constructive (fun _ r => ∀ ask others, Ask.Stays ask others →
    Stays Graph.Canonical (r ask) (r others) fun _ => True) False where
  given _ _ _ _ := .ofExcept fun _ _ => trivial
  read _ _ _ _ := .read fun _ _ => trivial
  bind hr hf ask others h := .bind (hr ask others h) fun a _ => hf a ask others h
  spent _ _ _ _ := .spent
  ask q _ _ h := (h q).imp fun _ _ => trivial
  make canonical _ _ _ _ := .bind (.read (Q := fun _ => True) fun _ _ => trivial) fun _ _ =>
    .bind (.update fun _ h => h.addNode canonical) fun _ _ => .pure trivial
  defer {s} plain _ _ _ := by
    refine .bind (.read (Q := fun _ => True) fun _ _ => trivial) fun _ _ =>
      .bind (.update fun _ h => h.addCell ?_) fun _ _ => .pure trivial
    cases s with
    | term body scope => exact absurd rfl (plain body scope)
    | _ => trivial
  postpone _ uses _ _ _ _ := .bind (.read (Q := fun _ => True) fun _ _ => trivial) fun _ _ =>
    .bind (.update fun _ h => h.addCell uses) fun _ _ => .pure trivial
  note _ _ _ _ _ := .update fun _ h => h.congr (fun _ => rfl) rfl .inl
  letrec {body} each ask others h := by
    have made : Stays Graph.Canonical (Run.make { kind := .placeholder })
        (Run.make { kind := .placeholder }) (2 ≤ ·) :=
      .bind (.read (Q := (2 ≤ ·)) fun _ h => h.room) fun _ le =>
        .bind (.update fun _ h => h.addNode (Node.canonical_of_kind nofun nofun
          fun side _ => by cases side <;> rfl)) fun _ _ => .pure le
    refine .bind made fun n le => .bind (each n ask others h) fun o _ => ?_
    cases o with
    | deferred | other => exact .ofExcept fun _ _ => trivial
    | node m =>
      intro g result g' canonical ends
      have ends : (do
          if (g.node m).kind.isAtomic then throw (.bodyKind (g.node m).kind)
          .update (Graph.become n m)
          pure n : Run NodeId) g = some (result, g') := ends
      refine ⟨ends, ?_, fun _ _ => trivial⟩
      split at ends
      · cases ends
        exact canonical
      · next compound =>
        cases ends
        exact canonical.become le (eq_false_of_ne_true compound)
  anyNode none := none.elim

namespace Ask.Stays

variable {ask others : Ask} (h : ask.Stays others)
include h

/-- The rule for forests gives different witnesses. -/
theorem forest (n : NodeId) : RunOf.Stays Graph.Canonical (Extraction.forest ask n)
    (Extraction.forest others n) Forest.Reduced := by
  have ofChild (side : Side) : RunOf.Stays Graph.Canonical (do ask.forest (← ask.child n side))
      (do others.forest (← others.child n side)) Forest.Reduced :=
    .bind (canonical_constructive.child n side ask others h) fun c _ => h (.forest c)
  have looked : RunOf.Stays Graph.Canonical (Run.node n) (Run.node n)
      fun node => node.kind = .eps → node.witnesses.Reduced :=
    .read fun _ canonical => canonical.witnesses
  refine .bind looked fun node reduced => ?_
  dsimp only
  split
  · exact .pure ⟨.nil, nofun⟩
  · exact .pure ⟨.nil, nofun⟩
  · next eps => exact .pure (reduced eps)
  · exact ofChild .first
  · exact .pure ⟨List.pairwise_singleton _ _, by simp [Value.hashable, Value.hashableAll]⟩
  · exact .bind (ofChild .first) fun _ _ => .bind (ofChild .second) fun _ _ =>
      .ofExcept fun _ => Forest.reduced_ofWitnesses
  · exact .bind (ofChild .first) fun _ _ => .bind (ofChild .second) fun _ _ =>
      .ofExcept fun _ => Forest.reduced_ofWitnesses
  · exact .bind (ofChild .first) fun _ _ => .ofExcept fun _ => Transform.reduced_image
  · exact .ofExcept fun _ none => nomatch none

theorem evaluate (i : Evaluator) (n : NodeId) : RunOf.Stays Graph.Canonical
    (Evaluation.demand i.held (i.default n) (i.body ask n) n)
    (Evaluation.demand i.held (i.default n) (i.body others n) n) i.Reduced := by
  refine .evaluation (fun _ canonical => canonical.books i)
    (fun _ _ canonical each => canonical.modify each) ?_ ?_
  · cases i with
    | forest => exact .pure ⟨.nil, nofun⟩
    | _ => exact .pure trivial
  · cases i with
    | forest => exact h.forest n
    | nullable => exact canonical_constructive.nullable n ask others h
    | emptyLike => exact canonical_constructive.emptyLike n ask others h
    | epsLike => exact canonical_constructive.epsLike n ask others h
    | compact => exact canonical_constructive.compact n ask others h

/-- A child is read. -/
theorem read (n : NodeId) (side : Side) : RunOf.Stays Graph.Canonical (Child.read ask n side)
    (Child.read others n side) fun _ => True := by
  intro g result g' canonical ends
  have computes {cell : CellId} {s : Suspension} (suspended : g.suspension? cell = some s) :
      RunOf.Stays Graph.Canonical (Child.compute ask s) (Child.compute others s) fun _ => True :=
    canonical_constructive.compute (canonical.suspended suspended) ask others h
  have marked (cell : CellId) := canonical.setForcing cell true
  have same {cell : CellId} {s : Suspension} (slot : (g.node n).slot side = .deferred cell)
      (suspended : g.suspension? cell = some s) (free : g.isForcing cell = false) :
      Child.compute ask s (g.setForcing cell true) =
        Child.compute others s (g.setForcing cell true) := by
    cases ran : Child.compute ask s (g.setForcing cell true) with
    | none =>
      rw [Child.read_eq slot suspended free, RunOf.bind_run, Child.force_eq, ran] at ends
      cases ends
    | some _ => exact (computes suspended _ _ _ (marked cell) ran).1.symm
  refine ⟨(Child.read_congr same).symm.trans ends, ?_, fun _ _ => trivial⟩
  cases Child.read_outcome ends with
  | vacant | node | lost | busy => exact canonical
  | failed _ suspended _ ran | refused _ suspended _ ran =>
    exact (computes suspended _ _ _ (marked _) ran).2.1.setForcing _ false
  | computed _ suspended _ ran =>
    exact ((computes suspended _ _ _ (marked _) ran).2.1.setForcing _ false).setSlot n side _

theorem answer (bound : Nat) : Ask.Stays (Engine.answer bound ask) (Engine.answer bound others)
  | .child n side => h.read n side
  | .nullable n => h.evaluate .nullable n
  | .forest n => h.evaluate .forest n
  | .emptyLike n => h.evaluate .emptyLike n
  | .epsLike n => h.evaluate .epsLike n
  | .compact n => h.evaluate .compact n
  | .derive c n => .memo (fun _ _ canonical => canonical.congr (fun _ => rfl) rfl .inl)
    (canonical_constructive.derive c n ask others h)
  | .nodeCount n => canonical_constructive.nodeCount bound n ask others h

omit h

/-- What is answered elsewhere than at canonical graphs is of no matter. -/
theorem except (h : ask.Stays ask) {q : Query} {g : Graph} (out : ¬ g.Canonical)
    (alike : ∀ q' g', ¬ (q' = q ∧ g' = g) → others q' g' = ask q' g') : ask.Stays others := by
  intro q' g' result g'' canonical ends
  obtain ⟨-, kept⟩ := h q' g' result g'' canonical ends
  exact ⟨(alike q' g' fun same => out (same.2 ▸ canonical)).trans ends, kept⟩

end Ask.Stays

namespace Engine

theorem run_stays : ∀ bound, Ask.Stays (run bound) (run bound)
  | 0 => fun _ => .spent
  | bound + 1 => (run_stays bound).answer bound

end Engine

/-- A run that stays canonical asks its questions at canonical graphs. -/
theorem RunOf.Calls.canonical {σ α : Type} {I : σ → Prop} {r : Ask → RunOf σ α} {Q : α → Prop}
    {bound : Nat} {s : σ} {q : Query} {g : Graph} (calls : Calls r (Engine.run bound) s q g)
    (stays : ∀ others, Ask.Stays (Engine.run bound) others → Stays I (r (Engine.run bound)) (r others) Q)
    (start : I s) : g.Canonical := by
  by_contra out
  obtain ⟨result, s', -, none⟩ := calls.marked (P := fun _ _ => False)
    fun others alike result s' ends =>
      .inl (stays others ((Engine.run_stays bound).except out alike) _ _ _ start ends).1
  exact none

end GrammarGraph
