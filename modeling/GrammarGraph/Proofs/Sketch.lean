import GrammarGraph.Proofs.Formed
import GrammarGraph.Proofs.Sketch.Placing

/-! Sketches of a part of a graph. The nodes and the cells of a sketch are those of the larger
graph where they are placed, and the books of the two agree about them. What goes on in a sketch
goes on in the larger graph as well, and there it changes nothing but what is placed. -/
namespace GrammarGraph

structure Graph.HasAtoms (g : Graph) : Prop where
  empty : g.node .empty = { kind := .empty }
  eps : g.node .eps = { kind := .eps, witnesses := Forest.trivial }

theorem Graph.HasAtoms.of_node {g g' : Graph} (h : g.HasAtoms)
    (kept : ∀ n, n = NodeId.empty ∨ n = NodeId.eps → g'.node n = g.node n) : g'.HasAtoms :=
  ⟨(kept _ (.inl rfl)).trans h.empty, (kept _ (.inr rfl)).trans h.eps⟩

namespace Evaluator

def ofEmpty : (i : Evaluator) → i.Result
  | .forest => []
  | .nullable => false
  | .emptyLike => true
  | .epsLike => false
  | .compact => .empty

def ofEps : (i : Evaluator) → i.Result
  | .forest => Forest.trivial
  | .nullable => true
  | .emptyLike => false
  | .epsLike => true
  | .compact => .eps

/-- What the evaluator gives for the nodes that are always there. -/
def atom (i : Evaluator) (n : NodeId) : Option i.Result :=
  if n = .empty then some i.ofEmpty else if n = .eps then some i.ofEps else none

variable {i : Evaluator} {n : NodeId}

theorem atom_eq_none : i.atom n = none ↔ n ≠ .empty ∧ n ≠ .eps := by
  unfold atom
  by_cases empty : n = .empty
  · simp [empty]
  · by_cases eps : n = .eps <;> simp [empty, eps]

theorem eq_of_atom {v : i.Result} (known : i.atom n = some v) : n = .empty ∨ n = .eps := by
  by_contra other
  cases (atom_eq_none.mpr (not_or.mp other)).symm.trans known

theorem body_atom (ask : Ask) {g : Graph} {v : i.Result} (atoms : g.HasAtoms)
    (known : i.atom n = some v) : i.body ask n g = some (.ok v, g) := by
  have empty := atoms.empty
  have eps := atoms.eps
  unfold atom at known
  split at known
  · next same =>
    cases known
    subst same
    cases i <;>
      simp only [body, Extraction.forest, Emptiness.nullable, Emptiness.emptyLike,
        Emptiness.epsLike, Compaction.compact, Run.node, Run.kind, RunOf.read_bind, empty] <;> rfl
  · split at known
    · next same =>
      cases known
      subst same
      cases i <;>
        simp only [body, Extraction.forest, Emptiness.nullable, Emptiness.emptyLike,
          Emptiness.epsLike, Compaction.compact, Run.node, Run.kind, RunOf.read_bind, eps] <;> rfl
    · cases known

end Evaluator

/-- The derivatives of the nodes that are always there. -/
def Derivative.atom (n : NodeId) : Option NodeId :=
  if n = .empty ∨ n = .eps then some .empty else none

theorem Derivative.atom_eq_none {n : NodeId} : atom n = none ↔ n ≠ .empty ∧ n ≠ .eps := by
  rw [atom, ← not_or]
  split
  · next atom => exact ⟨nofun, fun other => absurd atom other⟩
  · next other => exact ⟨fun _ => other, fun _ => rfl⟩

theorem Derivative.eq_of_atom {n d : NodeId} (known : atom n = some d) :
    (n = .empty ∨ n = .eps) ∧ d = .empty := by
  unfold atom at known
  split at known
  · next atom => exact ⟨atom, (Option.some.inj known).symm⟩
  · cases known

theorem Derivative.derive_atom {ask : Ask} {g : Graph} {n d : NodeId} {c : Value}
    (atoms : g.HasAtoms) (known : atom n = some d) : derive ask c n g = some (.ok d, g) := by
  obtain ⟨rfl | rfl, rfl⟩ := eq_of_atom known
  · simp only [derive, Run.node, RunOf.read_bind, atoms.empty]
    rfl
  · simp only [derive, Run.node, RunOf.read_bind, atoms.eps]
    rfl

variable {K : Cast}

/-- What a run may have done to a graph of which it knew what `p` places: it made nodes and cells,
which `q` places, and it changed only what `p` places. -/
structure Step (p q : Placing K) (g g' : Graph) : Prop where
  le : p.Le q
  size : g.nodes.size ≤ g'.nodes.size
  cellsSize : g.cells.size ≤ g'.cells.size
  fresh : ∀ {n n'}, q.At n n' → p.At n n' ∨ g.nodes.size ≤ n'
  freshCells : ∀ {c c'}, q.AtCell c c' → p.AtCell c c' ∨ g.cells.size ≤ c'
  covers : ∀ {n}, g.nodes.size ≤ n → n < g'.nodes.size → q.Covers n
  coversCells : ∀ {c}, g.cells.size ≤ c → c < g'.cells.size → q.CoversCell c
  node : ∀ {n}, n < g.nodes.size → ¬ p.Covers n → g'.node n = g.node n
  cell : ∀ {c}, c < g.cells.size → ¬ p.CoversCell c → g'.cells[c]? = g.cells[c]?
  stored : ∀ i {n}, n < g.nodes.size → ¬ p.Covers n →
    (Evaluator.of i g').stored.get? n = (Evaluator.of i g).stored.get? n
  derived : ∀ {n} c, n < g.nodes.size → ¬ p.Covers n →
    g'.derivatives.find? n c = g.derivatives.find? n c
  names : ∀ {x}, ¬ K.owns x → g'.names.lookup x = g.names.lookup x
  /-- No journal is opened. -/
  silent : g.journal = none → g'.journal = none

namespace Step

variable {p q r : Placing K} {g g₁ g₂ : Graph} {i : Evaluator} {n n' : NodeId} {c c' : CellId}

/-- Where nothing is made, nothing is left to be placed. -/
theorem covered {P : Nat → Prop} {size size' : Nat} (same : size' = size) {n : Nat} (le : size ≤ n)
    (lt : n < size') : P n :=
  absurd (same ▸ lt) (Nat.not_lt_of_le le)

theorem refl (p : Placing K) (g : Graph) : Step p p g g :=
  ⟨.refl p, Nat.le_refl _, Nat.le_refl _, .inl, .inl, covered rfl, covered rfl, fun _ _ => rfl,
    fun _ _ => rfl, fun _ _ _ _ => rfl, fun _ _ _ => rfl, fun _ => rfl, id⟩

theorem trans (h : Step p q g g₁) (k : Step q r g₁ g₂) : Step p r g g₂ := by
  have out {n : NodeId} (lt : n < g.nodes.size) (free : ¬ p.Covers n) :
      n < g₁.nodes.size ∧ ¬ q.Covers n := by
    refine ⟨Nat.lt_of_lt_of_le lt h.size, fun ⟨m, placed⟩ => ?_⟩
    rcases h.fresh placed with old | new
    · exact free ⟨m, old⟩
    · exact absurd lt (Nat.not_lt_of_le new)
  have outCells {c : CellId} (lt : c < g.cells.size) (free : ¬ p.CoversCell c) :
      c < g₁.cells.size ∧ ¬ q.CoversCell c := by
    refine ⟨Nat.lt_of_lt_of_le lt h.cellsSize, fun ⟨m, placed⟩ => ?_⟩
    rcases h.freshCells placed with old | new
    · exact free ⟨m, old⟩
    · exact absurd lt (Nat.not_lt_of_le new)
  exact {
    le := h.le.trans k.le
    size := Nat.le_trans h.size k.size
    cellsSize := Nat.le_trans h.cellsSize k.cellsSize
    fresh := fun placed => (k.fresh placed).elim h.fresh fun new => .inr (Nat.le_trans h.size new)
    freshCells := fun placed =>
      (k.freshCells placed).elim h.freshCells fun new => .inr (Nat.le_trans h.cellsSize new)
    covers := fun {n} le lt => by
      by_cases before : n < g₁.nodes.size
      · exact (h.covers le before).imp fun _ => k.le.node
      · exact k.covers (Nat.le_of_not_lt before) lt
    coversCells := fun {c} le lt => by
      by_cases before : c < g₁.cells.size
      · exact (h.coversCells le before).imp fun _ => k.le.cell
      · exact k.coversCells (Nat.le_of_not_lt before) lt
    node := fun lt free => (k.node (out lt free).1 (out lt free).2).trans (h.node lt free)
    cell := fun lt free =>
      (k.cell (outCells lt free).1 (outCells lt free).2).trans (h.cell lt free)
    stored := fun i _ lt free =>
      (k.stored i (out lt free).1 (out lt free).2).trans (h.stored i lt free)
    derived := fun c lt free =>
      (k.derived c (out lt free).1 (out lt free).2).trans (h.derived c lt free)
    names := fun foreign => (k.names foreign).trans (h.names foreign)
    silent := k.silent ∘ h.silent }

theorem modify {f : Evaluation i.Result → Evaluation i.Result}
    (kept : ∀ n, ¬ p.Covers n → (f (i.of g)).stored.get? n = (i.of g).stored.get? n) :
    Step p p g (i.held.modify f g) where
  le := .refl p
  size := Nat.le_of_eq (by rw [Evaluator.nodes_modify])
  cellsSize := Nat.le_of_eq (by rw [Evaluator.cells_modify])
  fresh := .inl
  freshCells := .inl
  covers := covered (by rw [Evaluator.nodes_modify])
  coversCells := covered (by rw [Evaluator.cells_modify])
  node _ _ := Graph.node_congr (Evaluator.nodes_modify f) _
  cell _ _ := by rw [Evaluator.cells_modify]
  stored j n _ free := by
    by_cases same : j = i
    · subst same
      rw [Evaluator.of_modify, kept n free]
    · rw [Evaluator.of_modify_of_ne f same]
  derived _ _ _ := by rw [Evaluator.derivatives_modify]
  names _ := by cases i <;> rfl
  silent none := by cases i <;> exact none

theorem record {f : Memo NodeId → Memo NodeId}
    (kept : ∀ n c, ¬ p.Covers n → (f g.derivatives).find? n c = g.derivatives.find? n c) :
    Step p p g (Held.derivatives.modify f g) :=
  ⟨.refl p, Nat.le_refl _, Nat.le_refl _, .inl, .inl, covered rfl, covered rfl, fun _ _ => rfl,
    fun _ _ => rfl, fun _ _ _ _ => by rw [Evaluator.of_derivatives], fun c _ free => kept _ c free, fun _ => rfl,
    id⟩

theorem setForcing (placed : p.AtCell c c') (mark : Bool) : Step p p g (g.setForcing c' mark) where
  le := .refl p
  size := Nat.le_refl _
  cellsSize := Nat.le_of_eq (by rw [Graph.cells_size_setForcing])
  fresh := .inl
  freshCells := .inl
  covers := covered rfl
  coversCells := covered (Graph.cells_size_setForcing ..)
  node _ _ := rfl
  cell {d} _ free := by
    have other : c' ≠ d := fun same => free ⟨c, same ▸ placed⟩
    simp only [Graph.setForcing, Array.getElem?_modify, if_neg other]
  stored _ _ _ _ := by rw [Evaluator.of_setForcing]
  derived _ _ _ := rfl
  names _ := rfl
  silent := id

theorem setSlot (placed : p.At n n') (lt : n' < g.nodes.size) (side : Side) (y : Slot) :
    Step p p g (g.setSlot n' side y) where
  le := .refl p
  size := Nat.le_of_eq (by rw [Graph.nodes_size_setSlot])
  cellsSize := Nat.le_refl _
  fresh := .inl
  freshCells := .inl
  covers := covered (Graph.nodes_size_setSlot ..)
  coversCells := covered rfl
  node {m} _ free := by
    rw [Graph.node_setSlot side y lt, if_neg (Placing.ne_of_not_covers placed free)]
  cell _ _ := rfl
  stored _ _ _ _ := by rw [Evaluator.of_setSlot]
  derived _ _ _ := rfl
  names _ := rfl
  silent := id

theorem addNode (p : Placing K) (n : NodeId) (g : Graph) (node : Node) :
    Step p (p.push n g.nodes.size) g (g.addNode node) where
  le := .push p n _
  size := by rw [Graph.nodes_addNode, Array.size_push]; exact Nat.le_succ _
  cellsSize := Nat.le_refl _
  fresh placed := placed.imp_right fun new => Nat.le_of_eq new.2.symm
  freshCells := .inl
  covers {m} le lt := by
    rw [Graph.nodes_addNode, Array.size_push] at lt
    exact ⟨n, .inr ⟨rfl, Nat.le_antisymm (Nat.le_of_lt_succ lt) le⟩⟩
  coversCells := covered rfl
  node lt _ := Graph.node_addNode_of_lt node lt
  cell _ _ := rfl
  stored _ _ _ _ := by rw [Evaluator.of_addNode]
  derived _ _ _ := rfl
  names _ := rfl
  silent := id

theorem addCell (p : Placing K) (c : CellId) (g : Graph) (x : Suspension) :
    Step p (p.pushCell c g.cells.size) g (g.addCell x) where
  le := .pushCell p c _
  size := Nat.le_refl _
  cellsSize := by rw [Graph.cells_size_addCell]; exact Nat.le_succ _
  fresh := .inl
  freshCells placed := placed.imp_right fun new => Nat.le_of_eq new.2.symm
  covers := covered rfl
  coversCells {d} le lt := by
    rw [Graph.cells_size_addCell] at lt
    exact ⟨c, .inr ⟨rfl, Nat.le_antisymm (Nat.le_of_lt_succ lt) le⟩⟩
  node _ _ := rfl
  cell {d} lt _ := by
    change (g.cells.push _)[d]? = _
    rw [Array.getElem?_push, if_neg (Nat.ne_of_lt lt)]
  stored _ _ _ _ := by rw [Evaluator.of_addCell]
  derived _ _ _ := rfl
  names _ := rfl
  silent := id

theorem become (placed : p.At n n') (other : NodeId) : Step p p g (g.become n' other) where
  le := .refl p
  size := Nat.le_of_eq (by rw [Graph.nodes_size_become])
  cellsSize := Nat.le_refl _
  fresh := .inl
  freshCells := .inl
  covers := covered (Graph.nodes_size_become ..)
  coversCells := covered rfl
  node {m} _ free := Graph.node_become_of_ne other (Placing.ne_of_not_covers placed free)
  cell _ _ := rfl
  stored i m _ free := by
    rw [Evaluator.of_become]
    change ((i.of g).stored.erase n').get? m = _
    rw [Table.get?_erase, if_neg (Placing.ne_of_not_covers placed free)]
  derived {m} c _ free := Memo.find?_forget_of_ne (Placing.ne_of_not_covers placed free)
  names _ := rfl
  silent := id

theorem bind {x : String} (owned : K.owns x) (m : NodeId) : Step p p g (g.bind x m) where
  le := .refl p
  size := Nat.le_refl _
  cellsSize := Nat.le_refl _
  fresh := .inl
  freshCells := .inl
  covers := covered rfl
  coversCells := covered rfl
  node _ _ := rfl
  cell _ _ := rfl
  stored _ _ _ _ := by rw [Evaluator.of_bind]
  derived _ _ _ := rfl
  names {y} foreign := by
    have other : (y == x) = false := beq_eq_false_iff_ne.mpr fun same => foreign (same ▸ owned)
    change ((x, m) :: g.names).lookup y = _
    rw [List.lookup_cons, other]
  silent := id

theorem note (p : Placing K) (g : Graph) (level : Level) (message : String) :
    Step p p g (g.note level message) :=
  ⟨.refl p, Nat.le_refl _, Nat.le_refl _, .inl, .inl, covered rfl, covered rfl, fun _ _ => rfl,
    fun _ _ => rfl, fun _ _ _ _ => by rw [Graph.note, Evaluator.of_journal], fun _ _ _ => rfl, fun _ => rfl,
    fun none => by rw [Graph.note, none]; rfl⟩

/-- A journal that was opened for the run is closed again. -/
theorem journaled {journal : Option Journal} (step : Step p q { g with journal } g₁) :
    Step p q g { g₁ with journal := none } :=
  ⟨step.le, step.size, step.cellsSize, step.fresh, step.freshCells, step.covers, step.coversCells,
    step.node, step.cell,
    fun i n lt free => by
      rw [Evaluator.of_journal (g := g₁), step.stored i lt free, Evaluator.of_journal (g := g)],
    step.derived, step.names, fun _ => rfl⟩

end Step

/-- The graph `h` is a sketch of what lies in `g` where `p` says. -/
structure Sketches (p : Placing K) (h g : Graph) : Prop where
  matching : Matching p.At
  matchingCells : Matching p.AtCell
  inside : ∀ {n n'}, p.At n n' → n < h.nodes.size ∧ n' < g.nodes.size
  insideCells : ∀ {c c'}, p.AtCell c c' → c < h.cells.size ∧ c' < g.cells.size
  empty : p.At .empty .empty
  eps : p.At .eps .eps
  atoms : h.HasAtoms
  atoms' : g.HasAtoms
  nodes : ∀ {n n'}, p.At n n' → p.Nodes (h.node n) (g.node n')
  cells : ∀ {c c'}, p.AtCell c c' → Option.Rel p.Cells h.cells[c]? g.cells[c']?
  books : ∀ i : Evaluator, Evaluation.Agrees p.At (p.Results i) i.atom (i.of h) (i.of g)
  derivatives : Memo.Agrees p.At p.At K.Symbols Derivative.atom h.derivatives g.derivatives
  known : ∀ i : Evaluator, (i.of h).Within h.nodes.size ∧ (i.of g).Within g.nodes.size
  derived : h.derivatives.Within h.nodes.size ∧ g.derivatives.Within g.nodes.size
  names : ∀ {x}, K.owns x → Option.Rel p.At (h.names.lookup x) (g.names.lookup x)
  journal : g.journal = h.journal

namespace Sketches

variable {p q : Placing K} {h g : Graph} {n n' m m' : NodeId} {c c' : CellId}

/-- Nothing is placed but the atoms. -/
theorem initial (K : Cast) : Sketches (K := K)
    ⟨fun n n' => n' = n ∧ (n = .empty ∨ n = .eps), fun _ _ => False⟩ {} {} := by
  have matching : Matching fun n n' : NodeId => n' = n ∧ (n = .empty ∨ n = .eps) :=
    ⟨fun hn hm => hm.1.trans hn.1.symm, fun hn hm => hm.1.symm.trans hn.1⟩
  have same {i : Evaluator} : i.of {} = {} := by cases i <;> rfl
  exact {
    matching := matching
    matchingCells := ⟨fun none => none.elim, fun none => none.elim⟩
    inside := by rintro _ _ ⟨rfl, rfl | rfl⟩ <;> exact ⟨by decide, by decide⟩
    insideCells := fun none => none.elim
    empty := ⟨rfl, .inl rfl⟩
    eps := ⟨rfl, .inr rfl⟩
    atoms := ⟨rfl, rfl⟩
    atoms' := ⟨rfl, rfl⟩
    nodes := by
      rintro _ _ ⟨rfl, rfl | rfl⟩
      · exact ⟨rfl, True.intro, True.intro, Kind.noConfusion, K.none, K.identity⟩
      · exact ⟨rfl, True.intro, True.intro, Kind.noConfusion, K.trivial, K.identity⟩
    cells := fun none => none.elim
    books := fun i => by rw [same]; exact .initial matching
    derivatives := .initial matching K.keys
    known := fun i => by rw [same]; exact ⟨fun n _ => .initial n, fun n _ => .initial n⟩
    derived := ⟨fun n _ => Memo.find?_initial n, fun n _ => Memo.find?_initial n⟩
    names := fun _ => .none
    journal := rfl }

section

variable (s : Sketches p h g)
include s

/-- Nodes are atoms together. -/
theorem ne_atom (placed : p.At n n') (ne : n ≠ .empty ∧ n ≠ .eps) : n' ≠ .empty ∧ n' ≠ .eps :=
  ⟨fun same => ne.1 (s.matching.left s.empty (same ▸ placed)),
    fun same => ne.2 (s.matching.left s.eps (same ▸ placed))⟩

theorem at_atom (atom : n = .empty ∨ n = .eps) : p.At n n := by
  rcases atom with rfl | rfl
  · exact s.empty
  · exact s.eps

/-- An atom lies where it is in the sketch. -/
theorem eq_of_atom (atom : n = .empty ∨ n = .eps) (placed : p.At n n') : n' = n :=
  s.matching.right (s.at_atom atom) placed

/-- What is above the sketch is no atom. -/
theorem ne_atom_of_le (le : h.nodes.size ≤ n) : n ≠ .empty ∧ n ≠ .eps :=
  ⟨fun same => absurd (s.inside s.empty).1 (Nat.not_lt_of_le (same ▸ le)),
    fun same => absurd (s.inside s.eps).1 (Nat.not_lt_of_le (same ▸ le))⟩

/-- Only the books change. -/
theorem rebook {h' g' : Graph} (nodes : h'.nodes = h.nodes) (nodes' : g'.nodes = g.nodes)
    (cells : h'.cells = h.cells) (cells' : g'.cells = g.cells)
    (names : h'.names = h.names) (names' : g'.names = g.names)
    (journal : h'.journal = h.journal) (journal' : g'.journal = g.journal)
    (books : ∀ i : Evaluator, Evaluation.Agrees p.At (p.Results i) i.atom (i.of h') (i.of g'))
    (derivatives : Memo.Agrees p.At p.At K.Symbols Derivative.atom h'.derivatives g'.derivatives)
    (known : ∀ i : Evaluator, (i.of h').Within h.nodes.size ∧ (i.of g').Within g.nodes.size)
    (derived : h'.derivatives.Within h.nodes.size ∧ g'.derivatives.Within g.nodes.size) :
    Sketches p h' g' where
  matching := s.matching
  matchingCells := s.matchingCells
  inside := by rw [nodes, nodes']; exact s.inside
  insideCells := by rw [cells, cells']; exact s.insideCells
  empty := s.empty
  eps := s.eps
  atoms := s.atoms.of_node fun n _ => Graph.node_congr nodes n
  atoms' := s.atoms'.of_node fun n _ => Graph.node_congr nodes' n
  nodes := by
    intro n n'
    rw [Graph.node_congr nodes, Graph.node_congr nodes']
    exact s.nodes
  cells := by rw [cells, cells']; exact s.cells
  books := books
  derivatives := derivatives
  known := by rw [nodes, nodes']; exact known
  derived := by rw [nodes, nodes']; exact derived
  names := by rw [names, names']; exact s.names
  journal := by rw [journal, journal', s.journal]

theorem modify {i : Evaluator} {f f' : Evaluation i.Result → Evaluation i.Result}
    (agrees : Evaluation.Agrees p.At (p.Results i) i.atom (f (i.of h)) (f' (i.of g)))
    (known : (f (i.of h)).Within h.nodes.size ∧ (f' (i.of g)).Within g.nodes.size) :
    Sketches p (i.held.modify f h) (i.held.modify f' g) := by
  refine s.rebook (Evaluator.nodes_modify f) (Evaluator.nodes_modify f')
    (Evaluator.cells_modify f) (Evaluator.cells_modify f') (by cases i <;> rfl) (by cases i <;> rfl)
    (by cases i <;> rfl) (by cases i <;> rfl) (fun j => ?_)
    (by rw [Evaluator.derivatives_modify, Evaluator.derivatives_modify]; exact s.derivatives)
    (fun j => ?_)
    (by rw [Evaluator.derivatives_modify, Evaluator.derivatives_modify]; exact s.derived)
  · by_cases same : j = i
    · subst same
      rw [Evaluator.of_modify, Evaluator.of_modify]
      exact agrees
    · rw [Evaluator.of_modify_of_ne f same, Evaluator.of_modify_of_ne f' same]
      exact s.books j
  · by_cases same : j = i
    · subst same
      rw [Evaluator.of_modify, Evaluator.of_modify]
      exact known
    · rw [Evaluator.of_modify_of_ne f same, Evaluator.of_modify_of_ne f' same]
      exact s.known j

theorem record {f f' : Memo NodeId → Memo NodeId}
    (agrees : Memo.Agrees p.At p.At K.Symbols Derivative.atom (f h.derivatives) (f' g.derivatives))
    (derived : (f h.derivatives).Within h.nodes.size ∧ (f' g.derivatives).Within g.nodes.size) :
    Sketches p (Held.derivatives.modify f h) (Held.derivatives.modify f' g) :=
  s.rebook rfl rfl rfl rfl rfl rfl rfl rfl
    (fun i => by rw [Evaluator.of_derivatives, Evaluator.of_derivatives]; exact s.books i) agrees
    (fun i => by rw [Evaluator.of_derivatives, Evaluator.of_derivatives]; exact s.known i) derived

theorem setForcing (placed : p.AtCell c c') (mark : Bool) :
    Sketches p (h.setForcing c mark) (g.setForcing c' mark) where
  matching := s.matching
  matchingCells := s.matchingCells
  inside := s.inside
  insideCells := by
    rw [Graph.cells_size_setForcing, Graph.cells_size_setForcing]
    exact s.insideCells
  empty := s.empty
  eps := s.eps
  atoms := s.atoms.of_node fun _ _ => rfl
  atoms' := s.atoms'.of_node fun _ _ => rfl
  nodes := s.nodes
  cells {d d'} hd := by
    simp only [Graph.setForcing, Array.getElem?_modify]
    rw [if_congr (eq_comm.trans (s.matchingCells.eq_iff placed hd) |>.trans eq_comm) rfl rfl]
    exact rel_modify (s.cells hd) fun agrees => ⟨agrees.suspension, rfl⟩
  books i := by rw [Evaluator.of_setForcing, Evaluator.of_setForcing]; exact s.books i
  derivatives := s.derivatives
  known i := by rw [Evaluator.of_setForcing, Evaluator.of_setForcing]; exact s.known i
  derived := s.derived
  names := s.names
  journal := s.journal

theorem setSlot (placed : p.At n n') (ne : n ≠ .empty ∧ n ≠ .eps) (side : Side) {y y' : Slot}
    (slots : p.Slots y y') : Sketches p (h.setSlot n side y) (g.setSlot n' side y') := by
  obtain ⟨lt, lt'⟩ := s.inside placed
  have node (m : NodeId) := Graph.node_setSlot side y lt m
  have node' (m : NodeId) := Graph.node_setSlot side y' lt' m
  exact {
    matching := s.matching
    matchingCells := s.matchingCells
    inside := by rw [Graph.nodes_size_setSlot, Graph.nodes_size_setSlot]; exact s.inside
    insideCells := s.insideCells
    empty := s.empty
    eps := s.eps
    atoms := s.atoms.of_node fun m atom => by
      have other : m ≠ n := by rintro rfl; exact atom.elim ne.1 ne.2
      rw [node, if_neg other]
    atoms' := s.atoms'.of_node fun m atom => by
      have other : m ≠ n' := by
        rintro rfl
        exact atom.elim (s.ne_atom placed ne).1 (s.ne_atom placed ne).2
      rw [node', if_neg other]
    nodes := fun {m m'} hm => by
      rw [node, node']
      by_cases same : m = n
      · rw [if_pos same, if_pos ((s.matching.eq_iff placed hm).mpr same)]
        exact (s.nodes placed).setSlot side slots
      · rw [if_neg same, if_neg fun same' => same ((s.matching.eq_iff placed hm).mp same')]
        exact s.nodes hm
    cells := s.cells
    books := fun i => by rw [Evaluator.of_setSlot, Evaluator.of_setSlot]; exact s.books i
    derivatives := s.derivatives
    known := fun i => by
      rw [Evaluator.of_setSlot, Evaluator.of_setSlot, Graph.nodes_size_setSlot,
        Graph.nodes_size_setSlot]
      exact s.known i
    derived := by
      rw [Graph.nodes_size_setSlot, Graph.nodes_size_setSlot]
      exact s.derived
    names := s.names
    journal := s.journal }

/-- A node is added to both. -/
theorem addNode {node node' : Node} (nodes : p.Nodes node node') :
    Sketches (p.push h.nodes.size g.nodes.size) (h.addNode node) (g.addNode node') := by
  have le : p.Le (p.push h.nodes.size g.nodes.size) := .push p _ _
  have matching : Matching (p.push h.nodes.size g.nodes.size).At := by
    refine ⟨?_, ?_⟩
    · rintro n n' m' (old | ⟨rfl, rfl⟩) (old' | ⟨same, rfl⟩)
      · exact s.matching.right old old'
      · exact absurd (same ▸ (s.inside old).1) (Nat.lt_irrefl _)
      · exact absurd (s.inside old').1 (Nat.lt_irrefl _)
      · rfl
    · rintro n n' m (old | ⟨rfl, rfl⟩) (old' | ⟨rfl, same⟩)
      · exact s.matching.left old old'
      · exact absurd (same ▸ (s.inside old).2) (Nat.lt_irrefl _)
      · exact absurd (s.inside old').2 (Nat.lt_irrefl _)
      · rfl
  have new {n n' : NodeId} (placed : (p.push h.nodes.size g.nodes.size).At n n') :
      p.At n n' ∨ h.nodes.size ≤ n ∧ g.nodes.size ≤ n' :=
    placed.imp_right fun same => ⟨Nat.le_of_eq same.1.symm, Nat.le_of_eq same.2.symm⟩
  exact {
    matching := matching
    matchingCells := s.matchingCells
    inside := fun placed => by
      rw [Graph.nodes_addNode, Graph.nodes_addNode, Array.size_push, Array.size_push]
      rcases placed with old | ⟨rfl, rfl⟩
      · exact (s.inside old).imp Nat.lt_succ_of_lt Nat.lt_succ_of_lt
      · exact ⟨Nat.lt_succ_self _, Nat.lt_succ_self _⟩
    insideCells := s.insideCells
    empty := .inl s.empty
    eps := .inl s.eps
    atoms := s.atoms.of_node fun m atom => Graph.node_addNode_of_lt node
      (atom.elim (fun same => same ▸ (s.inside s.empty).1) fun same => same ▸ (s.inside s.eps).1)
    atoms' := s.atoms'.of_node fun m atom => Graph.node_addNode_of_lt node'
      (atom.elim (fun same => same ▸ (s.inside s.empty).2) fun same => same ▸ (s.inside s.eps).2)
    nodes := fun placed => by
      rcases placed with old | ⟨rfl, rfl⟩
      · rw [Graph.node_addNode_of_lt node (s.inside old).1,
          Graph.node_addNode_of_lt node' (s.inside old).2]
        exact le.nodes (s.nodes old)
      · rw [Graph.node_addNode, Graph.node_addNode, if_pos rfl, if_pos rfl]
        exact le.nodes nodes
    cells := fun placed => rel_imp (s.cells placed) le.cells
    books := fun i => by
      rw [Evaluator.of_addNode, Evaluator.of_addNode]
      refine (s.books i).grow matching le.node (fun {n n'} placed => ?_) le.results
      refine (new placed).imp_right fun ⟨here, there⟩ => ?_
      obtain ⟨notEmpty, notEps⟩ := s.ne_atom_of_le here
      exact ⟨(s.known i).1 n here, (s.known i).2 n' there, Evaluator.atom_eq_none.mpr ⟨notEmpty, notEps⟩⟩
    derivatives := by
      refine s.derivatives.grow matching le.node (fun {n n'} placed => ?_) le.node
      refine (new placed).imp_right fun ⟨here, there⟩ => ?_
      obtain ⟨notEmpty, notEps⟩ := s.ne_atom_of_le here
      exact ⟨s.derived.1 n here, s.derived.2 n' there, Derivative.atom_eq_none.mpr ⟨notEmpty, notEps⟩⟩
    known := fun i => by
      rw [Evaluator.of_addNode, Evaluator.of_addNode, Graph.nodes_addNode, Graph.nodes_addNode,
        Array.size_push, Array.size_push]
      exact ⟨(s.known i).1.mono (Nat.le_succ _), (s.known i).2.mono (Nat.le_succ _)⟩
    derived := by
      rw [Graph.nodes_addNode, Graph.nodes_addNode, Array.size_push, Array.size_push]
      exact ⟨s.derived.1.mono (Nat.le_succ _), s.derived.2.mono (Nat.le_succ _)⟩
    names := fun owned => rel_imp (s.names owned) le.node
    journal := s.journal }

/-- A cell is added to both. -/
theorem addCell {x x' : Suspension} (suspensions : p.Suspensions x x') :
    Sketches (p.pushCell h.cells.size g.cells.size) (h.addCell x) (g.addCell x') := by
  have le : p.Le (p.pushCell h.cells.size g.cells.size) := .pushCell p _ _
  exact {
    matching := s.matching
    matchingCells := by
      refine ⟨?_, ?_⟩
      · rintro n n' m' (old | ⟨rfl, rfl⟩) (old' | ⟨same, rfl⟩)
        · exact s.matchingCells.right old old'
        · exact absurd (same ▸ (s.insideCells old).1) (Nat.lt_irrefl _)
        · exact absurd (s.insideCells old').1 (Nat.lt_irrefl _)
        · rfl
      · rintro n n' m (old | ⟨rfl, rfl⟩) (old' | ⟨rfl, same⟩)
        · exact s.matchingCells.left old old'
        · exact absurd (same ▸ (s.insideCells old).2) (Nat.lt_irrefl _)
        · exact absurd (s.insideCells old').2 (Nat.lt_irrefl _)
        · rfl
    inside := s.inside
    insideCells := fun placed => by
      rw [Graph.cells_size_addCell, Graph.cells_size_addCell]
      rcases placed with old | ⟨rfl, rfl⟩
      · exact (s.insideCells old).imp Nat.lt_succ_of_lt Nat.lt_succ_of_lt
      · exact ⟨Nat.lt_succ_self _, Nat.lt_succ_self _⟩
    empty := s.empty
    eps := s.eps
    atoms := s.atoms.of_node fun _ _ => rfl
    atoms' := s.atoms'.of_node fun _ _ => rfl
    nodes := fun placed => le.nodes (s.nodes placed)
    cells := fun {c c'} placed => by
      change Option.Rel _ (h.cells.push _)[c]? (g.cells.push _)[c']?
      rw [Array.getElem?_push, Array.getElem?_push]
      rcases placed with old | ⟨rfl, rfl⟩
      · rw [if_neg (Nat.ne_of_lt (s.insideCells old).1),
          if_neg (Nat.ne_of_lt (s.insideCells old).2)]
        exact rel_imp (s.cells old) le.cells
      · rw [if_pos rfl, if_pos rfl]
        exact .some ⟨le.suspensions suspensions, rfl⟩
    books := fun i => by
      rw [Evaluator.of_addCell, Evaluator.of_addCell]
      exact s.books i
    derivatives := s.derivatives
    known := fun i => by rw [Evaluator.of_addCell, Evaluator.of_addCell]; exact s.known i
    derived := s.derived
    names := s.names
    journal := s.journal }

/-- A node takes over the contents of another, in both. -/
theorem become (placed : p.At n n') (ne : n ≠ .empty ∧ n ≠ .eps) (other : p.At m m') :
    Sketches p (h.become n m) (g.become n' m') := by
  obtain ⟨lt, lt'⟩ := s.inside placed
  have ne' := s.ne_atom placed ne
  exact {
    matching := s.matching
    matchingCells := s.matchingCells
    inside := by rw [Graph.nodes_size_become, Graph.nodes_size_become]; exact s.inside
    insideCells := s.insideCells
    empty := s.empty
    eps := s.eps
    atoms := s.atoms.of_node fun k atom =>
      Graph.node_become_of_ne m (by rintro rfl; exact atom.elim ne.1 ne.2)
    atoms' := s.atoms'.of_node fun k atom =>
      Graph.node_become_of_ne m' (by rintro rfl; exact atom.elim ne'.1 ne'.2)
    nodes := fun {k k'} hk => by
      rw [Graph.node_become m lt, Graph.node_become m' lt']
      by_cases same : k = n
      · rw [if_pos same, if_pos ((s.matching.eq_iff placed hk).mpr same)]
        exact s.nodes other
      · rw [if_neg same, if_neg fun same' => same ((s.matching.eq_iff placed hk).mp same')]
        exact s.nodes hk
    cells := s.cells
    books := fun i => by
      rw [Evaluator.of_become, Evaluator.of_become]
      exact (s.books i).forget placed (Evaluator.atom_eq_none.mpr ne)
    derivatives := s.derivatives.forget placed (Derivative.atom_eq_none.mpr ne)
    known := fun i => by
      rw [Evaluator.of_become, Evaluator.of_become, Graph.nodes_size_become,
        Graph.nodes_size_become]
      exact ⟨(s.known i).1.forget n, (s.known i).2.forget n'⟩
    derived := by
      rw [Graph.nodes_size_become, Graph.nodes_size_become]
      exact ⟨s.derived.1.forget n, s.derived.2.forget n'⟩
    names := s.names
    journal := s.journal }

theorem bind (x : String) (placed : p.At n n') : Sketches p (h.bind x n) (g.bind x n') := by
  refine { s with
    atoms := s.atoms.of_node fun _ _ => rfl
    atoms' := s.atoms'.of_node fun _ _ => rfl
    books := fun i => by rw [Evaluator.of_bind, Evaluator.of_bind]; exact s.books i
    known := fun i => by rw [Evaluator.of_bind, Evaluator.of_bind]; exact s.known i
    names := fun {y} owned => ?_ }
  change Option.Rel p.At (((x, n) :: h.names).lookup y) (((x, n') :: g.names).lookup y)
  rw [List.lookup_cons, List.lookup_cons]
  split
  · exact .some placed
  · exact s.names owned

theorem withJournal (journal : Option Journal) :
    Sketches p { h with journal } { g with journal } :=
  { s with
    atoms := s.atoms.of_node fun _ _ => rfl
    atoms' := s.atoms'.of_node fun _ _ => rfl
    books := fun i => by
      rw [Evaluator.of_journal (g := h), Evaluator.of_journal (g := g)]
      exact s.books i
    known := fun i => by
      rw [Evaluator.of_journal (g := h), Evaluator.of_journal (g := g)]
      exact s.known i
    journal := rfl }

theorem note (level : Level) (message : String) :
    Sketches p (h.note level message) (g.note level message) := by
  unfold Graph.note
  rw [s.journal]
  exact s.withJournal _

end

end Sketches

end GrammarGraph
