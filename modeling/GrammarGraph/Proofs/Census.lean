import Mathlib.Data.Finset.Card
import GrammarGraph.Proofs.Census.Books
import GrammarGraph.Proofs.Exactness.Layers
import GrammarGraph.Proofs.Exactness.Rewrites
import GrammarGraph.Proofs.Totality

/-! A census of the nodes of a graph that may have cycles. Constructors make nodes on level 0; a
derivative, and what a node is rewritten into, lie one level above the node. Slots lead to no
higher level, and a deferred slot to a computation about a node on a lower level. Each node was
made for the derivative of one node by one symbol, or for the rewriting of one node, and such a
computation makes its nodes only once: so there are finitely many nodes on each level, however
much is unfolded later. -/
namespace GrammarGraph

/-- What a node was made for. -/
inductive Origin where
  | built
  /-- One of the nodes of the derivative of `node`, with the representative of the symbol. -/
  | derived (symbol : Value) (node : NodeId) (part : Nat)
  | compacted (node : NodeId)

def Origin.parent? : Origin → Option NodeId
  | .built => none
  | .derived _ n _ | .compacted n => some n

structure Census where
  level : NodeId → Nat
  origin : NodeId → Origin

namespace Suspension

def source : Suspension → NodeId
  | .derivative _ n _ | .compacted n => n
  | .term _ _ => .empty

/-- The computation is about a node that is there, by a symbol in `C`. -/
def Asked (C : Finset Value) (g : Graph) : Suspension → Prop
  | .derivative c n side => side ∈ (g.node n).sides ∧ c.hashable = true ∧ c.numeric ∈ C
  | .compacted n => n < g.nodes.size
  | .term _ _ => False

variable {C C' : Finset Value} {g g' : Graph} {s : Suspension}

theorem Asked.allows (h : s.Asked C g) : Graph.Formed.Allows g s := by
  cases s with
  | derivative c n side => exact Node.complete_of_mem_sides h.1
  | compacted n => exact h
  | term => exact h

theorem Asked.lt (h : s.Asked C g) : s.source < g.nodes.size := by
  cases s with
  | derivative c n side => exact Graph.lt_of_kind h.allows
  | compacted n => exact h
  | term => exact h.elim

theorem Asked.evolves (h : s.Asked C g) (evolves : g.Evolves g') : s.Asked C g' := by
  cases s with
  | derivative c n side =>
    have kind : (g'.node n).kind = (g.node n).kind := evolves.kind (Asked.lt h)
    refine ⟨?_, h.2⟩
    rw [Node.sides, kind]
    exact h.1
  | compacted n => exact Nat.lt_of_lt_of_le h evolves.size
  | term => exact h

end Suspension

def Graph.Done (g : Graph) : Origin → Prop
  | .built => True
  | .derived c n _ => ∃ d, g.derivatives.find? n c = some d
  | .compacted n => ∃ m, g.compacted.stored.get? n = some m

/-- The computation is in progress. Building is never over. -/
def Graph.Engaged (g : Graph) : Origin → Prop
  | .built => True
  | .derived c n _ => g.derivatives.isStarted n c = true
  | .compacted n => ∃ d, g.compacted.active.get? n = some d

theorem Graph.done_or_engaged_congr {g g' : Graph} (derivatives : g'.derivatives = g.derivatives)
    (compacted : g'.compacted = g.compacted) (o : Origin) :
    g'.Done o ∨ g'.Engaged o ↔ g.Done o ∨ g.Engaged o := by
  cases o <;> simp only [Graph.Done, Graph.Engaged, derivatives, compacted]

/-- What is known once `n` was rewritten into `m`: that is the empty node, or `n` is known not to
be empty. -/
def Graph.Refuted (g : Graph) (n m : NodeId) : Prop :=
  m = .empty ∨ (g.node n).kind = .eps ∨ (g.node n).kind = .char ∨
    g.emptyLike.stored.get? n = some false

/-- A derivative by a symbol in `C` has at most four nodes of its own. -/
def Origin.Counts (C : Finset Value) : Origin → Prop
  | .derived c _ part => c ∈ C ∧ part < 4
  | _ => True

namespace Census

/-- The slot can be one of a node on level `l`. -/
def Below (x : Census) (g : Graph) (l : Nat) : Slot → Prop
  | .vacant => True
  | .node k => k < g.nodes.size ∧ x.level k ≤ l
  | .deferred cell => ∃ s, g.suspension? cell = some s ∧ x.level s.source < l

/-- What an evaluator may give for a node on level `l`. -/
def Fits (x : Census) (g : Graph) (l : Nat) : (i : Evaluator) → i.Result → Prop
  | .compact, m => m < g.nodes.size ∧ x.level m ≤ l + 1
  | .forest, ws => ∀ w ∈ ws, w.hashable = true
  | _, _ => True

/-- What an evaluator may find out about `n`. -/
def Records (x : Census) (g : Graph) (n : NodeId) : (i : Evaluator) → i.Result → Prop
  | .compact, m => m < g.nodes.size ∧ x.level m ≤ x.level n + 1 ∧ g.Refuted n m ∧ g.Rewrites n m
  | .forest, ws => ∀ w ∈ ws, w.hashable = true
  | .epsLike, v => ((g.node n).kind = .delta → v = true) ∧ (v = false → g.Anchored n)
  | _, _ => True

theorem Records.fits {x : Census} {g : Graph} {n : NodeId} {i : Evaluator} {v : i.Result}
    (h : x.Records g n i v) : x.Fits g (x.level n) i v := by
  cases i with
  | compact => exact ⟨h.1, h.2.1⟩
  | forest => exact h
  | _ => trivial

theorem Records.evolves {x x' : Census} {g g' : Graph} {n : NodeId} {i : Evaluator} {v : i.Result}
    (h : x.Records g n i v) (known : (g.node n).kind ≠ .placeholder) (extends_ : g.Extends g')
    (level : ∀ k < g.nodes.size, x'.level k = x.level k) : x'.Records g' n i v := by
  cases i with
  | compact =>
    obtain ⟨lt, low, refuted, rewrites⟩ := h
    refine ⟨Nat.lt_of_lt_of_le lt extends_.size, ?_, ?_, extends_.rewrites rewrites⟩
    · rw [level _ lt, level _ (Graph.lt_of_kind known)]
      exact low
    · rw [Graph.Refuted, extends_.kind_same known]
      exact refuted.imp_right (Or.imp_right (Or.imp_right (extends_.results .emptyLike known)))
  | epsLike =>
    refine ⟨fun delta => h.1 ?_, fun no => extends_.anchored (h.2 no)⟩
    rwa [← extends_.kind_same known]
  | _ => exact h

/-- What the census says of a node on level `l`. -/
structure Describes (x : Census) (g : Graph) (l : Nat) (node : Node) : Prop where
  known : ∀ name, node.kind ≠ .other name
  slots : ∀ side ∈ node.sides, node.slot side ≠ .vacant
  vacant : ∀ side ∉ node.sides, node.slot side = .vacant
  below : ∀ side, x.Below g l (node.slot side)
  eps : node.kind = .eps → ∀ w ∈ node.witnesses, w.hashable = true
  red : node.kind = .red → node.transform.Total

/-- The node can be a new one on level `l`. -/
structure Admits (x : Census) (g : Graph) (l : Nat) (node : Node) : Prop
    extends Describes x g l node where
  some_ : node.kind ≠ .empty

theorem Describes.imp {x x' : Census} {g g' : Graph} {l : Nat} {node : Node}
    (h : x.Describes g l node) (below : ∀ {y}, x.Below g l y → x'.Below g' l y) :
    x'.Describes g' l node :=
  { h with below := fun side => below (h.below side) }

def join (x : Census) (g : Graph) (l : Nat) (o : Origin) : Census where
  level n := if n = g.nodes.size then l else x.level n
  origin n := if n = g.nodes.size then o else x.origin n

def Vacant (x : Census) (g : Graph) (o : Origin) : Prop :=
  ∀ n < g.nodes.size, x.origin n ≠ o

end Census

/-- A new node on level `l` can have been made for `o`. -/
inductive Census.Born (C : Finset Value) (roots : Finset NodeId) (x : Census) (g : Graph) :
    Nat → Origin → Prop where
  | built : g.nodes.size ∈ roots → Born C roots x g 0 .built
  | made {o : Origin} {m : NodeId} : o.parent? = some m → (g.node m).kind ≠ .placeholder →
      o.Counts C → g.Engaged o → x.Vacant g o → Born C roots x g (x.level m + 1) o

namespace Census

variable {C : Finset Value} {roots : Finset NodeId} {g : Graph} {n : NodeId} {o : Origin}

theorem join_of_lt (x : Census) (l : Nat) (o : Origin) (lt : n < g.nodes.size) :
    (x.join g l o).level n = x.level n ∧ (x.join g l o).origin n = x.origin n :=
  ⟨if_neg (Nat.ne_of_lt lt), if_neg (Nat.ne_of_lt lt)⟩

theorem join_cases (x : Census) (l : Nat) (o : Origin) (node : Node) (n : NodeId) :
    (n = g.nodes.size ∧ (g.addNode node).node n = node ∧
      (x.join g l o).level n = l ∧ (x.join g l o).origin n = o) ∨
    (n ≠ g.nodes.size ∧ (g.addNode node).node n = g.node n ∧
      (x.join g l o).level n = x.level n ∧ (x.join g l o).origin n = x.origin n) := by
  rw [Graph.node_addNode, join]
  by_cases new : n = g.nodes.size <;> simp [new]

theorem Born.vacant {x : Census} {l : Nat} (born : x.Born C roots g l o) (some_ : o ≠ .built) :
    x.Vacant g o := by
  cases born with
  | built => exact absurd rfl some_
  | made _ _ _ _ vacant => exact vacant

end Census

/-- The census is right about the graph. Symbols come from `C`, and only the nodes in `roots` were
built. -/
structure Counted (C : Finset Value) (roots : Finset NodeId) (x : Census) (g : Graph) : Prop where
  formed : g.Formed
  atoms : x.level .empty = 0 ∧ x.level .eps = 0
  describes : ∀ n, x.Describes g (x.level n) (g.node n)
  asked : ∀ {cell s}, g.suspension? cell = some s → s.Asked C g
  sole : ∀ n, (g.node n).kind = .empty → n = .empty
  built : ∀ n < g.nodes.size, x.origin n = .built → n ∈ roots ∧ x.level n = 0
  made : ∀ n < g.nodes.size, ∀ m, (x.origin n).parent? = some m →
    (g.node m).kind ≠ .placeholder ∧ x.level n = x.level m + 1 ∧ (x.origin n).Counts C ∧
      (g.Done (x.origin n) ∨ g.Engaged (x.origin n))
  unique : ∀ m < g.nodes.size, ∀ n < g.nodes.size, x.origin m = x.origin n →
    x.origin n ≠ .built → m = n
  derivatives : ∀ {n c d}, g.derivatives.find? n c = some d →
    (g.node n).kind ≠ .placeholder ∧ d < g.nodes.size ∧ x.level d ≤ x.level n + 1 ∧
      g.Derivative (fun _ => True) c n d
  results : ∀ i {n v}, (Evaluator.of i g).Knows n v →
    (g.node n).kind ≠ .placeholder ∧ x.Records g n i v
  orderly : ∀ i, (Evaluator.of i g).Orderly

/-- A depth first visit of nodes on one level by one evaluator, from a certain depth on. -/
structure Visit where
  evaluator : Evaluator
  floor : Nat
  level : Nat

/-- The depth below which a visit leaves the frames of an evaluator as they are. -/
def Visit.base (visit : Option Visit) (i : Evaluator) (e : Evaluation i.Result) : Nat :=
  match visit with
  | some v => if v.evaluator = i then min v.floor e.frames.size else e.frames.size
  | none => e.frames.size

/-- What the visit left unfinished lies on its level and leans on no frame below its floor. -/
structure Visit.Holds (visit : Visit) (x : Census) (g : Graph) : Prop where
  floor : visit.floor ≤ (visit.evaluator.of g).frames.size
  upright : (visit.evaluator.of g).Upright visit.floor
  active : ∀ {n d}, (visit.evaluator.of g).active.get? n = some d → n < g.nodes.size ∧
    visit.level ≤ x.level n ∧ (x.level n = visit.level → visit.floor ≤ d)
  provisional : ∀ {n p}, (visit.evaluator.of g).provisional.get? n = some p → n < g.nodes.size ∧
    visit.level ≤ x.level n ∧ (x.level n = visit.level → visit.floor ≤ p.lowlink)

namespace Census

/-- The census stays as it is, and what was in progress stays so. New nodes were made for what
was not in progress before, but for those in `own`. -/
structure Later (visit : Option Visit) (own : Origin → Prop) (x : Census) (g : Graph) (x' : Census)
    (g' : Graph) : Prop where
  evolves : g.Evolves g'
  extends_ : g.Extends g'
  level : ∀ n < g.nodes.size, x'.level n = x.level n
  origin : ∀ n < g.nodes.size, x'.origin n = x.origin n
  forcing : ∀ cell, g'.isForcing cell = g.isForcing cell
  started : g'.derivatives.inProgress = g.derivatives.inProgress
  /-- What is in progress gets no result from elsewhere. -/
  pending : ∀ {n c}, g.derivatives.isStarted n c = true →
    g'.derivatives.find? n c = g.derivatives.find? n c
  books : ∀ i : Evaluator, (i.of g).Above (Visit.base visit i (i.of g)) (i.of g')
  fresh : ∀ n, g.nodes.size ≤ n → n < g'.nodes.size → g.Engaged (x'.origin n) → own (x'.origin n)

/-- Nothing of its own: a computation that is asked for as a whole. -/
abbrev nothing : Origin → Prop := fun _ => False

variable {visit : Option Visit} {own : Origin → Prop} {x x' x'' : Census} {g g' g'' : Graph}
  {C : Finset Value} {roots : Finset NodeId} {n : NodeId} {l : Nat} {o : Origin}

theorem base_congr (visit : Option Visit) {i : Evaluator} {e e' : Evaluation i.Result}
    (size : e'.frames.size = e.frames.size) : Visit.base visit i e' = Visit.base visit i e := by
  unfold Visit.base
  rw [size]

theorem base_le (visit : Option Visit) (i : Evaluator) (e : Evaluation i.Result) :
    Visit.base visit i e ≤ e.frames.size := by
  unfold Visit.base
  split
  · split
    · exact Nat.min_le_right ..
    · exact Nat.le_refl _
  · exact Nat.le_refl _

theorem engaged_congr (started : g'.derivatives.inProgress = g.derivatives.inProgress)
    (active : ∀ n, g'.compacted.active.get? n = g.compacted.active.get? n) :
    g'.Engaged o ↔ g.Engaged o := by
  cases o with
  | built => exact .rfl
  | derived c n part => rw [Graph.Engaged, Graph.Engaged, Memo.isStarted, started]; rfl
  | compacted n => rw [Graph.Engaged, Graph.Engaged, active]

namespace Later

theorem refl (visit : Option Visit) (own : Origin → Prop) (x : Census) (g : Graph) :
    Later visit own x g x g :=
  ⟨.refl g, .refl g, fun _ _ => rfl, fun _ _ => rfl, fun _ => rfl, rfl,
    fun _ => rfl, fun _ => .refl _ _, fun _ le lt => absurd lt (Nat.not_lt_of_le le)⟩

theorem engaged (h : Later visit own x g x' g') : g'.Engaged o ↔ g.Engaged o :=
  engaged_congr h.started (h.books .compact).active

theorem trans (h : Later visit own x g x' g') (k : Later visit own x' g' x'' g'') :
    Later visit own x g x'' g'' where
  evolves := h.evolves.trans k.evolves
  extends_ := h.extends_.trans k.extends_
  level n lt := (k.level n (Nat.lt_of_lt_of_le lt h.evolves.size)).trans (h.level n lt)
  origin n lt := (k.origin n (Nat.lt_of_lt_of_le lt h.evolves.size)).trans (h.origin n lt)
  forcing cell := (k.forcing cell).trans (h.forcing cell)
  started := k.started.trans h.started
  pending started := (k.pending (by rwa [Memo.isStarted, h.started])).trans (h.pending started)
  books i := (h.books i).trans (base_congr visit (h.books i).size ▸ k.books i)
  fresh n le lt engaged := by
    rcases Nat.lt_or_ge n g'.nodes.size with old | new
    · rw [k.origin n old] at engaged ⊢
      exact h.fresh n le old engaged
    · exact k.fresh n new lt (h.engaged.mpr engaged)

/-- A computation that is asked for as a whole is one in any visit. -/
theorem loosen (h : Later none nothing x g x' g') : Later visit own x g x' g' :=
  { h with
    books := fun i => (h.books i).mono (base_le visit i _)
    fresh := fun n le lt engaged => (h.fresh n le lt engaged).elim }

variable (h : Later visit own x g x' g')
include h

theorem lt (lt : n < g.nodes.size) : n < g'.nodes.size :=
  Nat.lt_of_lt_of_le lt h.evolves.size

theorem kind (lt : n < g.nodes.size) : (g'.node n).kind = (g.node n).kind :=
  h.evolves.kind lt

theorem sides (lt : n < g.nodes.size) : (g'.node n).sides = (g.node n).sides := by
  simp only [Node.sides, h.kind lt]

theorem vacant (k : x.Vacant g o) (engaged : g.Engaged o) (other : ¬ own o) : x'.Vacant g' o := by
  intro n lt same
  rcases Nat.lt_or_ge n g.nodes.size with old | new
  · exact k n old ((h.origin n old).symm.trans same)
  · have made := h.fresh n new lt
    rw [same] at made
    exact other (made engaged)

end Later

/-- What lies below a level stays below it where levels stay and the graph evolves. -/
theorem Below.evolves (evolves : g.Evolves g') (level : ∀ n < g.nodes.size, x'.level n = x.level n)
    (source : ∀ {cell s}, g.suspension? cell = some s → s.source < g.nodes.size) {y : Slot}
    (h : x.Below g l y) : x'.Below g' l y := by
  cases y with
  | vacant => trivial
  | node k => exact ⟨Nat.lt_of_lt_of_le h.1 evolves.size, by rw [level k h.1]; exact h.2⟩
  | deferred cell =>
    obtain ⟨s, suspended, lower⟩ := h
    refine ⟨s, (evolves.suspension cell (Graph.lt_of_suspension suspended)).trans suspended, ?_⟩
    rwa [level _ (source suspended)]

theorem Below.congr (size : g'.nodes.size = g.nodes.size)
    (cells : ∀ cell, g'.suspension? cell = g.suspension? cell) {y : Slot} (h : x.Below g l y) :
    x.Below g' l y := by
  cases y with
  | vacant => trivial
  | node k => exact ⟨size ▸ h.1, h.2⟩
  | deferred cell =>
    obtain ⟨s, suspended, lower⟩ := h
    exact ⟨s, (cells cell).trans suspended, lower⟩

theorem Below.covers {y : Slot} (h : x.Below g l y) : g.Covers y := by
  cases y with
  | vacant => trivial
  | node k => exact h.1
  | deferred cell =>
    obtain ⟨s, suspended, _⟩ := h
    exact Graph.lt_of_suspension suspended

/-- The census is right, no definition is open, and a visit holds if there is one. -/
structure Valid (C : Finset Value) (roots : Finset NodeId) (visit : Option Visit) (x : Census)
    (g : Graph) : Prop where
  counted : Counted C roots x g
  complete : g.Complete
  visit : ∀ v, visit = some v → v.Holds x g

/-- The regime of a census while the visit goes on. -/
def counting (C : Finset Value) (roots : Finset NodeId) (visit : Option Visit)
    (own : Origin → Prop) : Regime Census where
  Valid := Valid C roots visit
  Later := Later visit own
  refl := .refl visit own
  trans := .trans

end Census

namespace Counted

open Census (Later)

variable {visit : Option Visit} {own : Origin → Prop} {x x' : Census} {g g' : Graph}
  {C C' : Finset Value} {roots roots' : Finset NodeId} {n : NodeId} {l : Nat} {o : Origin}

theorem source_lt (h : Counted C roots x g) {cell : CellId} {s : Suspension}
    (suspended : g.suspension? cell = some s) : s.source < g.nodes.size :=
  (h.asked suspended).lt

theorem mono (h : Counted C roots x g) (symbols : C ⊆ C') (nodes : roots ⊆ roots') :
    Counted C' roots' x g := by
  refine { h with
    asked := fun {cell s} suspended => ?_
    built := fun n lt origin => ?_
    made := fun n lt m parent => ?_ }
  · have asked := h.asked suspended
    cases s with
    | derivative c n side => exact ⟨asked.1, asked.2.1, symbols asked.2.2⟩
    | compacted n => exact asked
    | term => exact asked
  · exact (h.built n lt origin).imp_left fun member => nodes member
  · obtain ⟨complete, level, counts, status⟩ := h.made n lt m parent
    refine ⟨complete, level, ?_, status⟩
    cases origin : x.origin n with
    | derived c m part =>
      rw [origin] at counts
      exact ⟨symbols counts.1, counts.2⟩
    | _ => trivial

theorem books (h : Counted C roots x g) (nodes : g'.nodes = g.nodes)
    (cells : ∀ cell, g'.suspension? cell = g.suspension? cell)
    (covered : g'.cells.size = g.cells.size)
    (status : ∀ n < g.nodes.size, g.Done (x.origin n) ∨ g.Engaged (x.origin n) →
      g'.Done (x.origin n) ∨ g'.Engaged (x.origin n))
    (derivatives : ∀ {n c d}, g'.derivatives.find? n c = some d →
      (g.node n).kind ≠ .placeholder ∧ d < g.nodes.size ∧ x.level d ≤ x.level n + 1 ∧
        g.Derivative (fun _ => True) c n d)
    (results : ∀ i {n v}, (Evaluator.of i g').Knows n v →
      (g.node n).kind ≠ .placeholder ∧ x.Records g n i v)
    (extends_ : g.Extends g')
    (orderly : ∀ i, (Evaluator.of i g').Orderly) : Counted C roots x g' := by
  have node := Graph.node_congr nodes
  have size : g'.nodes.size = g.nodes.size := by rw [nodes]
  have kept {n : NodeId} (lt : n < g'.nodes.size) : n < g.nodes.size := size ▸ lt
  exact
    { formed := h.formed.congr nodes cells covered
      atoms := h.atoms
      describes := fun n => by
        rw [node]
        exact (h.describes n).imp (.congr size cells)
      asked := fun {cell s} suspended => by
        have asked := h.asked ((cells cell).symm.trans suspended)
        cases s with
        | derivative c n side =>
          refine ⟨?_, asked.2⟩
          rw [node]
          exact asked.1
        | compacted n => exact Nat.lt_of_lt_of_eq asked size.symm
        | term => exact asked
      sole := fun n => by
        rw [node]
        exact h.sole n
      built := fun n lt => h.built n (kept lt)
      made := fun n lt m parent => by
        rw [node]
        obtain ⟨complete, level, counts, status'⟩ := h.made n (kept lt) m parent
        exact ⟨complete, level, counts, status n (kept lt) status'⟩
      unique := fun m mlt n nlt => h.unique m (kept mlt) n (kept nlt)
      derivatives := fun found => by
        rw [node, size]
        obtain ⟨complete, lt, low, derivative⟩ := derivatives found
        exact ⟨complete, lt, low, extends_.derivative derivative⟩
      results := fun i {n v} known => by
        obtain ⟨complete, records⟩ := results i known
        rw [node]
        exact ⟨complete, records.evolves complete extends_ fun _ _ => rfl⟩
      orderly := orderly }

theorem mark (h : Counted C roots x g) (cell : CellId) (mark : Bool) :
    Counted C roots x (g.setForcing cell mark) :=
  h.books rfl (Graph.suspension_setForcing cell mark) (Graph.cells_size_setForcing cell mark)
    (fun _ _ status => status) h.derivatives
    (fun i _ _ known => h.results i (Evaluator.of_setForcing (i := i) cell mark ▸ known))
    (.setForcing cell mark) fun i => by rw [Evaluator.of_setForcing]; exact h.orderly i

/-- What was there is described as before, and so is the new node as it was admitted. -/
theorem described_addNode (h : Counted C roots x g) {node : Node} (admits : x.Admits g l node)
    (o : Origin) (n : NodeId) : (x.join g l o).Describes (g.addNode node)
      ((x.join g l o).level n) ((g.addNode node).node n) := by
  have below {l' : Nat} {y : Slot} (fits : x.Below g l' y) :
      (x.join g l o).Below (g.addNode node) l' y :=
    fits.evolves (g.addNode_evolves node) (fun _ lt => (x.join_of_lt l o lt).1) h.source_lt
  rcases x.join_cases (g := g) l o node n with ⟨_, same, level, _⟩ | ⟨_, same, level, _⟩
  · rw [same, level]
    exact admits.toDescribes.imp below
  · rw [same, level]
    exact (h.describes n).imp below

theorem addNode (h : Counted C roots x g) {node : Node} (admits : x.Admits g l node)
    (born : x.Born C roots g l o) : Counted C roots (x.join g l o) (g.addNode node) := by
  have evolves := g.addNode_evolves node
  have extends_ := Graph.Extends.addNode g node
  have kept {n : NodeId} (lt : n < g.nodes.size) := x.join_of_lt l o lt
  have at_ (n : NodeId) := x.join_cases (g := g) l o node n
  have old {n : NodeId} (lt : n < (g.addNode node).nodes.size) (other : n ≠ g.nodes.size) :
      n < g.nodes.size := by
    rw [Graph.nodes_addNode, Array.size_push] at lt
    exact Nat.lt_of_le_of_ne (Nat.le_of_lt_succ lt) other
  have complete {n : NodeId} (known : (g.node n).kind ≠ .placeholder) :
      ((g.addNode node).node n).kind ≠ .placeholder := by
    rwa [Graph.node_addNode_of_lt node (Graph.lt_of_kind known)]
  exact
    { formed := h.formed.addNode fun side => (admits.below side).covers
      atoms := ⟨(kept h.formed.empty_lt).1.trans h.atoms.1, (kept h.formed.eps_lt).1.trans h.atoms.2⟩
      describes := h.described_addNode admits o
      asked := fun suspended => (h.asked suspended).evolves evolves
      sole := fun n none => by
        rcases at_ n with ⟨_, same, _⟩ | ⟨_, same, _⟩ <;> rw [same] at none
        · exact absurd none admits.some_
        · exact h.sole n none
      built := fun n lt origin => by
        rcases at_ n with ⟨rfl, _, level, this⟩ | ⟨other, _, level, this⟩ <;> rw [this] at origin
        · cases born with
          | built member => exact ⟨member, level⟩
          | made parent => rw [origin] at parent; cases parent
        · rw [level]
          exact h.built n (old lt other) origin
      made := fun n lt m parent => by
        rcases at_ n with ⟨_, _, level, this⟩ | ⟨other, _, level, this⟩ <;> rw [this] at parent ⊢
        · cases born with
          | built => cases parent
          | @made o m' parent' known counts engaged _ =>
            obtain rfl := Option.some.inj (parent'.symm.trans parent)
            rw [level, (kept (Graph.lt_of_kind known)).1]
            refine ⟨complete known, rfl, counts, .inr ?_⟩
            cases o <;> exact engaged
        · obtain ⟨known, level', counts, status⟩ := h.made n (old lt other) m parent
          rw [level, (kept (Graph.lt_of_kind known)).1]
          exact ⟨complete known, level', counts, (Graph.done_or_engaged_congr rfl rfl _).mpr status⟩
      unique := fun m mlt n nlt same origin => by
        rcases at_ m with ⟨newm, _, _, thism⟩ | ⟨otherm, _, _, thism⟩ <;>
          rcases at_ n with ⟨newn, _, _, thisn⟩ | ⟨othern, _, _, thisn⟩ <;>
          rw [thism, thisn] at same <;> rw [thisn] at origin
        · rw [newm, newn]
        · exact absurd same.symm (born.vacant (same ▸ origin) n (old nlt othern))
        · exact absurd same (born.vacant origin m (old mlt otherm))
        · exact h.unique m (old mlt otherm) n (old nlt othern) same origin
      derivatives := fun found => by
        obtain ⟨known, lt, level, derivative⟩ := h.derivatives found
        rw [(kept lt).1, (kept (Graph.lt_of_kind known)).1]
        exact ⟨complete known, Nat.lt_of_lt_of_le lt evolves.size, level,
          extends_.derivative derivative⟩
      results := fun i {n v} known => by
        rw [Evaluator.of_addNode] at known
        obtain ⟨known, records⟩ := h.results i known
        exact ⟨complete known, records.evolves known extends_ fun _ lt => (kept lt).1⟩
      orderly := fun i => by
        rw [Evaluator.of_addNode]
        exact h.orderly i }

theorem addCell (h : Counted C roots x g) {s : Suspension} (asked : s.Asked C g) :
    Counted C roots x (g.addCell s) := by
  have evolves := g.addCell_evolves s
  have extends_ := Graph.Extends.addCell g s
  exact
    { formed := h.formed.addCell asked.allows
      atoms := h.atoms
      describes := fun n =>
        (h.describes n).imp fun below => below.evolves evolves (fun _ _ => rfl) h.source_lt
      asked := fun {cell s'} suspended => by
        rw [Graph.suspension_addCell] at suspended
        split at suspended
        · cases suspended
          exact asked.evolves evolves
        · exact (h.asked suspended).evolves evolves
      sole := h.sole
      built := h.built
      made := fun n lt m parent => by
        obtain ⟨known, level, counts, status⟩ := h.made n lt m parent
        exact ⟨known, level, counts, (Graph.done_or_engaged_congr rfl rfl _).mpr status⟩
      unique := h.unique
      derivatives := fun found =>
        (h.derivatives found).imp_right (And.imp_right (And.imp_right extends_.derivative))
      results := fun i {n v} known => by
        rw [Evaluator.of_addCell] at known
        obtain ⟨known, records⟩ := h.results i known
        exact ⟨known, records.evolves known extends_ fun _ _ => rfl⟩
      orderly := fun i => by
        rw [Evaluator.of_addCell]
        exact h.orderly i }

theorem setSlot (h : Counted C roots x g) {k : NodeId} {side : Side} {cell : CellId}
    (slot : (g.node n).slot side = .deferred cell) (free : g.isForcing cell = false)
    {s : Suspension} (suspended : g.suspension? cell = some s) (settled : g.Settled s k)
    (lt : k < g.nodes.size) (low : x.level k ≤ x.level n) :
    Counted C roots x (g.setSlot n side (.node k)) := by
  have evolves := Graph.setSlot_evolves (k := k) slot free
  have extends_ := Graph.Extends.setSlot (.inr ⟨cell, s, slot, suspended, settled⟩)
  have at_ := g.slot_setSlot_cases n side (.node k)
  have bare := g.bare_setSlot n side (.node k)
  have kind (m : NodeId) := Node.kind_of_bare (bare m)
  have sides := g.sides_setSlot n side (.node k)
  have size : (g.setSlot n side (.node k)).nodes.size = g.nodes.size := Graph.nodes_size_setSlot ..
  have kept {m : NodeId} (lt : m < (g.setSlot n side (.node k)).nodes.size) : m < g.nodes.size :=
    size ▸ lt
  have described (m : NodeId) :
      x.Describes (g.setSlot n side (.node k)) (x.level m) ((g.setSlot n side (.node k)).node m) :=
    { known := by
        rw [kind]
        exact (h.describes m).known
      slots := fun other member => by
        rw [sides] at member
        rcases at_ m other with same | ⟨_, _, new⟩
        · rw [same]
          exact (h.describes m).slots other member
        · rw [new]
          exact Slot.noConfusion
      vacant := fun other out => by
        rw [sides] at out
        rcases at_ m other with same | ⟨rfl, rfl, _⟩
        · rw [same]
          exact (h.describes m).vacant other out
        · rw [(h.describes m).vacant other out] at slot
          cases slot
      below := fun other => by
        rcases at_ m other with same | ⟨rfl, _, new⟩
        · rw [same]
          exact ((h.describes m).below other).evolves evolves (fun _ _ => rfl) h.source_lt
        · rw [new]
          exact ⟨Nat.lt_of_lt_of_eq lt size.symm, low⟩
      eps := by
        rw [kind, Node.witnesses_of_bare (bare m)]
        exact (h.describes m).eps
      red := by
        rw [kind, Node.transform_of_bare (bare m)]
        exact (h.describes m).red }
  exact
    { formed := h.formed.setSlot lt
      atoms := h.atoms
      describes := described
      asked := fun suspended => (h.asked suspended).evolves evolves
      sole := fun m => by
        rw [kind]
        exact h.sole m
      built := fun m lt => h.built m (kept lt)
      made := fun m lt p parent => by
        rw [kind]
        obtain ⟨known, level, counts, status⟩ := h.made m (kept lt) p parent
        exact ⟨known, level, counts, (Graph.done_or_engaged_congr rfl rfl _).mpr status⟩
      unique := fun m mlt m' mlt' => h.unique m (kept mlt) m' (kept mlt')
      derivatives := fun found => by
        rw [kind, size]
        exact (h.derivatives found).imp_right (And.imp_right (And.imp_right extends_.derivative))
      results := fun i {m v} known => by
        rw [Evaluator.of_setSlot] at known
        rw [kind]
        obtain ⟨known, records⟩ := h.results i known
        exact ⟨known, records.evolves known extends_ fun _ _ => rfl⟩
      orderly := fun i => by
        rw [Evaluator.of_setSlot]
        exact h.orderly i }

end Counted

end GrammarGraph
