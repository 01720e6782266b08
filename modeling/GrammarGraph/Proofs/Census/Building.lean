import GrammarGraph.Proofs.Census.Calls
import GrammarGraph.Proofs.Composed
import GrammarGraph.Proofs.Tree.Unfolding

/-! A census along a history. What constructors make lies on level 0, and so does a definition when
it is completed; the placeholder of one that is open has no results that could be lost. -/
namespace GrammarGraph

/-- A census of a graph on which is being built. Between `built` and the nodes on level 0 there
may be others, such as those of an earlier call. -/
structure Grounded (C : Finset Value) (roots : Finset NodeId) (x : Census) (built : NodeId → Prop)
    (opened : List NodeId) (g : Graph) : Prop where
  counted : Counted C roots x g
  still : g.Still
  built : ∀ k, built k → k < g.nodes.size ∧ x.level k = 0
  opened : ∀ k < g.nodes.size, (g.node k).kind = .placeholder → k ∈ opened

open Census (Later Rested)

variable {C : Finset Value} {roots : Finset NodeId} {x : Census} {built : NodeId → Prop}
  {opened : List NodeId} {g : Graph} {n body : NodeId}

namespace Graph.Still

theorem addNode (h : g.Still) (node : Node) : (g.addNode node).Still :=
  ⟨h.forcing, h.started, fun i k => by rw [Evaluator.of_addNode]; exact h.active i k,
    fun i k => by rw [Evaluator.of_addNode]; exact h.provisional i k⟩

theorem become (h : g.Still) (n body : NodeId) : (g.become n body).Still :=
  ⟨h.forcing, h.started, fun i k => by rw [Evaluator.of_become]; exact h.active i k,
    fun i k => by rw [Evaluator.of_become]; exact h.provisional i k⟩

end Graph.Still

theorem Graph.derivative_become (open_ : (g.node n).kind = .placeholder) {m : NodeId} (c : Value)
    (known : (g.node m).kind ≠ .placeholder) :
    (g.become n body).derivatives.find? m c = g.derivatives.find? m c :=
  Memo.find?_forget_of_ne (Graph.ne_of_open open_ known)

theorem Graph.compacted_become (open_ : (g.node n).kind = .placeholder) {m : NodeId}
    (known : (g.node m).kind ≠ .placeholder) :
    (g.become n body).compacted.stored.get? m = g.compacted.stored.get? m :=
  Evaluation.stored_forget.trans (if_neg (Graph.ne_of_open open_ known))

theorem Graph.done_or_engaged_become (open_ : (g.node n).kind = .placeholder) {o : Origin}
    {m : NodeId} (parent : o.parent? = some m) (known : (g.node m).kind ≠ .placeholder)
    (status : g.Done o ∨ g.Engaged o) :
    (g.become n body).Done o ∨ (g.become n body).Engaged o := by
  cases o with
  | built => cases parent
  | derived c k part =>
    obtain rfl : k = m := Option.some.inj parent
    exact status.imp_left (Exists.imp fun _ => (Graph.derivative_become open_ c known).trans)
  | compacted k =>
    obtain rfl : k = m := Option.some.inj parent
    exact status.imp_left (Exists.imp fun _ => (Graph.compacted_become open_ known).trans)

theorem Counted.become (h : Counted C roots x g) (open_ : (g.node n).kind = .placeholder)
    (level : x.level body = x.level n) (compound : (g.node body).kind.isAtomic = false) :
    Counted C roots x (g.become n body) := by
  have vacant (side : Side) : (g.node n).slot side = .vacant :=
    (h.describes n).vacant side (by simp [Node.sides, open_])
  have size : (g.become n body).nodes.size = g.nodes.size := Graph.nodes_size_become n body
  have kept {m : NodeId} (known : (g.node m).kind ≠ .placeholder) :
      (g.become n body).node m = g.node m := Graph.node_become_of_known body open_ known
  have at_ (m : NodeId) := g.node_become_cases n body m
  have below {l : Nat} {y : Slot} (fits : x.Below g l y) : x.Below (g.become n body) l y :=
    fits.congr size fun _ => rfl
  have extends_ : g.Extends (g.become n body) :=
    .become body open_ vacant fun found => (h.derivatives found).1
  exact
    { formed := h.formed.become body open_
      atoms := h.atoms
      describes := fun m => by
        rcases at_ m with ⟨rfl, same⟩ | same
        · rw [same, ← level]
          exact (h.describes body).imp below
        · rw [same]
          exact (h.describes m).imp below
      asked := fun {cell s} suspended => by
        have asked := h.asked suspended
        cases s with
        | derivative c m side =>
          refine ⟨?_, asked.2⟩
          rw [kept asked.allows]
          exact asked.1
        | compacted m => exact Nat.lt_of_lt_of_eq asked size.symm
        | term => exact asked
      sole := fun m none => by
        rcases at_ m with ⟨_, same⟩ | same <;> rw [same] at none
        · rw [none] at compound
          cases compound
        · exact h.sole m none
      built := fun m lt => h.built m (size ▸ lt)
      made := fun m lt k parent => by
        obtain ⟨known, level, counts, status⟩ := h.made m (size ▸ lt) k parent
        exact ⟨by rw [kept known]; exact known, level, counts,
          Graph.done_or_engaged_become open_ parent known status⟩
      unique := fun m mlt k klt => h.unique m (size ▸ mlt) k (size ▸ klt)
      derivatives := fun found => by
        obtain ⟨known, lt, level, derivative⟩ := h.derivatives (Memo.find?_forget found)
        rw [kept known, size]
        exact ⟨known, lt, level, extends_.derivative derivative⟩
      results := fun i {m v} known => by
        rw [Evaluator.of_become] at known
        obtain ⟨complete, records⟩ := h.results i (Evaluation.knows_forget known)
        rw [kept complete]
        exact ⟨complete, records.evolves complete extends_ fun _ _ => rfl⟩
      orderly := fun i => by
        rw [Evaluator.of_become]
        exact (h.orderly i).forget n }

namespace Grounded

theorem initial : Grounded ∅ {.empty, .eps} ⟨fun _ => 0, fun _ => .built⟩
    (fun n => n = .empty ∨ n = .eps) [] {} := by
  have atomic := Graph.atomic_initial
  have two {n : NodeId} (lt : n < ({} : Graph).nodes.size) : n = .empty ∨ n = .eps :=
    Nat.le_one_iff_eq_zero_or_eq_one.mp (Nat.le_of_lt_succ lt)
  have vacant (n : NodeId) (side : Side) := Graph.slot_initial n side
  have described (n : NodeId) :
      (⟨fun _ => 0, fun _ => .built⟩ : Census).Describes {} 0 (({} : Graph).node n) :=
    { known := fun name other => by
        have := atomic n
        rw [other] at this
        cases this
      slots := fun side member => by
        rw [Node.sides_of_atomic (atomic n)] at member
        cases member
      vacant := fun side _ => vacant n side
      below := fun side => by
        rw [vacant]
        trivial
      eps := fun kind => by
        rw [Graph.node_initial] at kind ⊢
        split at kind
        · cases kind
        · next other =>
          split at kind
          · next same =>
            rw [if_neg other, if_pos same]
            exact Forest.hashable_trivial
          · cases kind
      red := fun kind => by
        have := atomic n
        rw [kind] at this
        cases this }
  have counted : Counted ∅ {.empty, .eps} ⟨fun _ => 0, fun _ => .built⟩ {} :=
    { formed := Graph.initial_formed
      atoms := ⟨rfl, rfl⟩
      describes := described
      asked := fun suspended => by
        rw [Graph.suspension_initial] at suspended
        cases suspended
      sole := fun n none => by
        rw [Graph.node_initial] at none
        split at none
        · next same => exact same
        · split at none <;> cases none
      built := fun n lt _ => by
        refine ⟨?_, rfl⟩
        rcases two lt with rfl | rfl <;> simp
      made := fun n _ m parent => nomatch parent
      unique := fun m _ n _ _ other => absurd rfl other
      derivatives := fun found => nomatch found
      results := fun i n v known => by
        rcases known with stored | ⟨p, provisional, _⟩
        · cases i <;> cases stored
        · cases i <;> cases provisional
      orderly := fun i => by
        refine ⟨fun {m d} known => ?_, fun {m d} known => ?_, fun {m p} known => ?_,
          fun {d frame m} there => ?_⟩
        · cases i <;> cases known
        · cases i <;> cases known
        · cases i <;> cases known
        · cases i <;> cases there }
  refine ⟨counted, ⟨fun cell => by simp [Graph.isForcing], rfl, fun i n => by cases i <;> rfl,
    fun i n => by cases i <;> rfl⟩, fun n atom => ⟨?_, rfl⟩, fun n lt open_ => ?_⟩
  · rcases atom with rfl | rfl <;> decide
  · rcases two lt with rfl | rfl <;> cases open_

variable (h : Grounded C roots x built opened g)
include h

theorem lay (node : Node) (concrete : node.Concrete built) (some_ : node.kind ≠ .empty)
    (eps : node.kind = .eps → ∀ w ∈ node.witnesses, w.hashable = true)
    (red : node.kind = .red → node.transform.Total)
    (complete : node.kind = .placeholder → g.nodes.size ∈ opened) :
    ∃ roots' x', Grounded C roots' x' (fun k => built k ∨ k = g.nodes.size) opened
      (g.addNode node) := by
  have admits : x.Admits g 0 node := by
    refine ⟨⟨concrete.kind, fun side member => ?_, concrete.vacant, fun side => ?_, eps, red⟩, some_⟩
    · obtain ⟨k, slot, _⟩ := concrete.child side member
      rw [slot]
      exact Slot.noConfusion
    · by_cases member : side ∈ node.sides
      · obtain ⟨k, slot, made⟩ := concrete.child side member
        rw [slot]
        exact ⟨(h.built k made).1, Nat.le_of_eq (h.built k made).2⟩
      · rw [concrete.vacant side member]
        trivial
  have counted := (h.counted.mono (Finset.Subset.refl C)
    (Finset.subset_insert g.nodes.size roots)).addNode admits
      (.built (Finset.mem_insert_self _ _))
  refine ⟨_, _, counted, h.still.addNode node, fun k made => ?_, fun k lt open_ => ?_⟩
  · rw [Graph.nodes_addNode, Array.size_push]
    rcases made with made | rfl
    · obtain ⟨lt, zero⟩ := h.built k made
      exact ⟨Nat.lt_succ_of_lt lt, (if_neg (Nat.ne_of_lt lt)).trans zero⟩
    · exact ⟨Nat.lt_succ_self _, if_pos rfl⟩
  · rw [Graph.node_addNode] at open_
    split at open_
    · next new => exact new ▸ complete open_
    · next other =>
      rw [Graph.nodes_addNode, Array.size_push] at lt
      exact h.opened k (Nat.lt_of_le_of_ne (Nat.le_of_lt_succ lt) other) open_

theorem laid {g' : Graph} {c : Construction} (total : c.Total)
    (laid : Laid c.Fits built g.nodes.size g g') :
    ∃ roots' x', Grounded C roots' x' (fun k => built k ∨ g.nodes.size ≤ k ∧ k < g'.nodes.size)
      opened g' := by
  refine laid.preserves (P := fun built g => ∃ roots' x', Grounded C roots' x' built opened g)
    (Nat.le_refl _) ⟨roots, x, { h with built := fun k made => ?_ }⟩
    fun {_ _ node} fit concrete ⟨_, _, grounded⟩ =>
      grounded.lay node concrete fit.some_ (fun kind => ?_) (fun kind => ?_)
        fun open_ => absurd open_ fit.complete
  · exact h.built k (made.resolve_right fun range =>
      Nat.lt_irrefl _ (Nat.lt_of_le_of_lt range.1 range.2))
  · obtain ⟨ws, -, given⟩ := fit.eps kind
    obtain ⟨hashable, same⟩ := Forest.ofWitnesses_ok.mp given
    rw [same]
    exact Forest.hashable_distinct hashable
  · obtain ⟨m, rfl⟩ := fit.red kind
    exact total

/-- A definition is completed: its placeholder takes over what the body is. -/
theorem become {rest : List NodeId} (opens : opened = n :: rest) (made : built n)
    (open_ : (g.node n).kind = .placeholder) (bodyMade : built body)
    (compound : (g.node body).kind.isAtomic = false) :
    Grounded C roots x built rest (g.become n body) := by
  have zero : x.level body = x.level n := (h.built body bodyMade).2.trans (h.built n made).2.symm
  refine ⟨h.counted.become open_ zero compound, h.still.become n body, fun k made => ?_,
    fun k klt unknown => ?_⟩
  · rw [Graph.nodes_size_become]
    exact h.built k made
  · rw [Graph.nodes_size_become] at klt
    rw [Graph.node_become body (h.built n made).1] at unknown
    split at unknown
    · rw [unknown] at compound
      cases compound
    · next other =>
      have member := h.opened k klt unknown
      rw [opens] at member
      exact (List.mem_cons.mp member).resolve_left other

/-- Where no definition is open, queries can be answered. -/
theorem rested (complete : opened = []) : Rested C roots x g := by
  refine ⟨⟨h.counted, fun k lt open_ => ?_, fun _ is => nomatch is⟩, h.still⟩
  have member := h.opened k lt open_
  rw [complete] at member
  cases member

/-- Something was asked. The census then knows the symbols of that as well. -/
theorem call (complete : opened = []) {bound : Nat} {c : Call} (lt : c.node < g.nodes.size)
    {result : Except Fault Unit} {g' : Graph}
    (ends : c.run (Engine.run bound) g = some (result, g')) :
    ∃ C' x', Grounded C' roots x' built opened g' := by
  classical
  have more : Rested (C ∪ Census.symbols c) roots x g :=
    (h.rested complete).mono Finset.subset_union_left (Finset.Subset.refl roots)
  have bears : c.By (Census.Bears (C ∪ Census.symbols c)) :=
    (Census.by_symbols c).mono (Q := Census.Bears _) fun _ known _ =>
      Finset.mem_union_right C known
  obtain ⟨x', later, rested, -⟩ := (Rested.serves bound).call more bears lt _ _ ends
  refine ⟨_, x', rested.valid.counted, rested.still, fun k made => ?_, fun k klt open_ => ?_⟩
  · obtain ⟨lt, zero⟩ := h.built k made
    exact ⟨later.lt lt, (later.level k lt).trans zero⟩
  · exact absurd open_ (rested.valid.complete k klt)

theorem journal (journal : Option Journal) :
    Grounded C roots x built opened { g with journal } :=
  { h with
    counted := h.counted.journal journal
    still := h.still.journal journal }

end Grounded

/-- Whatever was asked while no definition was open, a census is kept. -/
theorem Bench.Composed.grounded {b : Bench} {permitted : Bench → Call → Prop}
    (closed : ∀ b c, permitted b c → b.opened = []) (h : b.Composed Construction.Total permitted) :
    ∃ C roots x, Grounded C roots x b.built b.opened b.graph := by
  induction h with
  | start => exact ⟨_, _, _, .initial⟩
  | @construct b n g c composed total built ends ih =>
    obtain ⟨C, roots, x, grounded⟩ := ih
    have tended := composed.reached.tended Worth.membership_embeds
    obtain ⟨roots', x', grounded'⟩ :=
      grounded.laid total (c.laid tended.atoms.1 tended.atoms.2 built ends).1
    exact ⟨C, roots', x', grounded'⟩
  | @begin b n g composed ends ih =>
    obtain ⟨C, roots, x, grounded⟩ := ih
    obtain ⟨rfl, rfl⟩ := Run.make_ok ends
    have widened : Grounded C roots x b.built (b.graph.nodes.size :: b.opened) b.graph :=
      { grounded with
        opened := fun k lt open_ => List.mem_cons_of_mem _ (grounded.opened k lt open_) }
    obtain ⟨roots', x', grounded'⟩ := widened.lay { kind := .placeholder }
      ⟨fun _ => Kind.noConfusion, fun _ none => (nomatch none), fun side _ => by cases side <;> rfl⟩
      Kind.noConfusion (fun kind => (nomatch kind)) (fun kind => (nomatch kind))
      fun _ => List.mem_cons_self
    refine ⟨C, roots', x', { grounded' with built := fun k made => grounded'.built k ?_ }⟩
    refine made.imp_right fun range => ?_
    have lt := range.2
    rw [Graph.nodes_addNode, Array.size_push] at lt
    exact Nat.le_antisymm (Nat.le_of_lt_succ lt) range.1
  | @complete b n body rest g composed opened built ends ih =>
    obtain ⟨C, roots, x, grounded⟩ := ih
    obtain ⟨compound, rfl⟩ := Grammar.define_ok ends
    have tended := composed.reached.tended Worth.membership_embeds
    obtain ⟨made, open_⟩ := tended.opened n (by rw [opened]; exact List.mem_cons_self)
    exact ⟨C, roots, x, grounded.become opened made open_ built compound⟩
  | @call b result g bound c composed allowed lt ends ih =>
    obtain ⟨C, roots, x, grounded⟩ := ih
    obtain ⟨C', x', grounded'⟩ := grounded.call (closed b c allowed) lt ends
    exact ⟨C', roots, x', grounded'⟩
  | journal journal _ ih =>
    obtain ⟨C, roots, x, grounded⟩ := ih
    exact ⟨C, roots, x, grounded.journal journal⟩

/-- There is a census that knows all symbols of a call. -/
theorem Bench.Composed.rested {b : Bench} {permitted : Bench → Call → Prop}
    (h : b.Composed Construction.Total permitted) (closed : ∀ b c, permitted b c → b.opened = [])
    (complete : b.opened = []) {c : Call} (hashable : c.By fun s => s.hashable = true) :
    ∃ C roots x, Rested C roots x b.graph ∧ c.By (Census.Takes C) := by
  obtain ⟨C, roots, x, grounded⟩ := h.grounded closed
  obtain ⟨C', rested, takes⟩ := (grounded.rested complete).takes hashable
  exact ⟨C', roots, x, rested, takes⟩

/-- A straight bench is one on which no definition was ever opened. -/
theorem Bench.Straight.composed {b : Bench} {apt : Construction → Prop} {P : Value → Prop}
    (h : b.Straight apt P) :
    b.Composed apt (fun b c => b.opened = [] ∧ c.By P) ∧ b.opened = [] := by
  induction h with
  | start => exact ⟨.start, rfl⟩
  | construct c _ hc built ends ih => exact ⟨.construct c ih.1 hc built ends, ih.2⟩
  | call bound c _ by_ lt ends ih => exact ⟨.call bound c ih.1 ⟨ih.2, by_⟩ lt ends, ih.2⟩
  | journal journal _ ih => exact ⟨.journal journal ih.1, ih.2⟩

theorem Bench.Straight.census {b : Bench} {apt : Construction → Prop} {P : Value → Prop}
    (total : ∀ c, apt c → c.Total) (h : b.Straight apt P) {c : Call}
    (hashable : c.By fun s => s.hashable = true) :
    ∃ C roots x, Rested C roots x b.graph ∧ c.By (Census.Takes C) :=
  (h.composed.1.mono total).rested (fun _ _ allowed => allowed.1) h.composed.2 hashable

end GrammarGraph
