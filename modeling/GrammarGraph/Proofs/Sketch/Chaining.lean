import Mathlib.Logic.Relation
import GrammarGraph.Proofs.Sketch.Slim

/-! Sketches of sketches. A sketch of a sketch of a graph is a sketch of the graph, and whether one
graph at rest is a sketch of a part of another can be decided. So if a run leads from a sketch to a
graph in which the sketch is found again, then it can be repeated. -/
namespace GrammarGraph

open Relation (Comp)

theorem rel_trans {α β γ : Type} {R : α → β → Prop} {S : β → γ → Prop} {T : α → γ → Prop}
    {a : Option α} {b : Option β} {c : Option γ} (h : Option.Rel R a b) (k : Option.Rel S b c)
    (imp : ∀ {x y z}, R x y → S y z → T x z) : Option.Rel T a c := by
  cases h with
  | none => cases k; exact .none
  | some h =>
    cases k with
    | some k => exact .some (imp h k)

theorem Matching.comp {At At' : Nat → Nat → Prop} (h : Matching At) (k : Matching At') :
    Matching (Comp At At') where
  right := by
    rintro n n' m' ⟨k₁, h₁, h₂⟩ ⟨k₂, h₃, h₄⟩
    obtain rfl := h.right h₁ h₃
    exact k.right h₂ h₄
  left := by
    rintro n n' m ⟨k₁, h₁, h₂⟩ ⟨k₂, h₃, h₄⟩
    obtain rfl := k.left h₂ h₄
    exact h.left h₁ h₃

/-- No node is being evaluated. -/
theorem Evaluation.Agrees.comp {α : Type} {At At' : Nat → Nat → Prop} {V V' W : α → α → Prop}
    {atom : Nat → Option α} {e e' e'' : Evaluation α} (h : Agrees At V atom e e')
    (k : Agrees At' V' atom e' e'') (still : e.frames.size = 0)
    (same : ∀ {n n'}, At n n' → atom n' = atom n)
    (values : ∀ {u v w}, V u v → V' v w → W u w) : Agrees (Comp At At') W atom e e'' where
  matching := h.matching.comp k.matching
  atoms := by
    rintro n n' v ⟨m, hn, hm⟩ known
    exact ⟨(h.atoms hn known).1, (k.atoms hm ((same hn).trans known)).2⟩
  entries := by
    rintro n n' ⟨m, hn, hm⟩ other
    have first := h.entries hn other
    have second := k.entries hm ((same hn).trans other)
    exact ⟨rel_trans first.stored second.stored values, second.active.trans first.active,
      rel_trans first.provisional second.provisional fun a b =>
        ⟨values a.value b.value, b.lowlink.trans a.lowlink⟩⟩
  size := k.size.trans h.size
  frames d := by
    rw [Array.getElem?_eq_none (by omega), Array.getElem?_eq_none (by rw [k.size, h.size]; omega)]
    exact .none

namespace Material

/-- The sketch stands for itself. -/
def itself : Material where
  symbol := .int 1
  Apt w := w.hashable = true
  closed := Forest.hashable_closed
  hashable := id
  apt := rfl
  solid := rfl

variable {M : Material} {w w' w'' c c' : Value} {ws ws' ws'' : Forest} {t t' t'' : Transform}

theorem Akin.trans (h : itself.Akin w w') (k : M.Akin w' w'') : M.Akin w w'' :=
  ⟨h.hashable, k.apt, k.nothing.trans h.nothing⟩

theorem Slim.trans (h : itself.Slim ws ws') (k : M.Slim ws' ws'') : M.Slim ws ws'' := by
  cases h with
  | none => exact k
  | one akin =>
    cases k with
    | one akin' => exact .one (akin.trans akin')

theorem Alike.trans (h : itself.Alike t t') (k : M.Alike t' t'') : M.Alike t t'' :=
  ⟨h.hashable, k.apt, k.adds.trans h.adds⟩

theorem Stands.trans (h : itself.Stands c c') (k : M.Stands c' w) : M.Stands c w :=
  ⟨h.one, k.symbol, k.apt⟩

/-- Of what stands for the symbol, the one stands between. -/
theorem Stands.between (h : M.Stands c c') : itself.Stands c (.int 1) ∧ M.Stands (.int 1) c' :=
  ⟨⟨h.one, Value.same_refl _, rfl⟩, ⟨Value.same_refl _, h.symbol, h.apt⟩⟩

instance : Decidable (itself.Akin w w') :=
  decidable_of_iff (w.hashable = true ∧ w'.hashable = true ∧ w'.isNothing = w.isNothing)
    ⟨fun h => ⟨h.1, h.2.1, h.2.2⟩, fun h => ⟨h.hashable, h.apt, h.nothing⟩⟩

instance : Decidable (itself.Slim ws ws') :=
  match ws, ws' with
  | [], [] => isTrue .none
  | [w], [w'] => decidable_of_iff (itself.Akin w w') ⟨.one, fun h => by cases h; assumption⟩
  | [], _ :: _ | _ :: _, [] | [_], _ :: _ :: _ | _ :: _ :: _, _ => isFalse fun h => by cases h

instance : Decidable (itself.Stands c c') :=
  decidable_of_iff (c.same (.int 1) = true ∧ c'.same (.int 1) = true ∧ c'.hashable = true)
    ⟨fun h => ⟨h.1, h.2.1, h.2.2⟩, fun h => ⟨h.one, h.symbol, h.apt⟩⟩

instance {P : Value → Prop} [DecidablePred P] : Decidable (t.Attaches P) :=
  inferInstanceAs (Decidable (∀ part ∈ t.parts, ∃ w ∈ part.attached?, P w))

instance : Decidable (itself.Alike t t') :=
  decidable_of_iff (t.Attaches (fun w => w.hashable = true) ∧
      t'.Attaches (fun w => w.hashable = true) ∧ t'.adds = t.adds)
    ⟨fun h => ⟨h.1, h.2.1, h.2.2⟩, fun h => ⟨h.hashable, h.apt, h.adds⟩⟩

end Material

namespace Placing

variable {M : Material} {p : Placing (.slim .itself)} {q : Placing (.slim M)}

def comp (p : Placing (.slim .itself)) (q : Placing (.slim M)) : Placing (.slim M) :=
  ⟨Comp p.At q.At, Comp p.AtCell q.AtCell⟩

theorem Slots.comp {y y' y'' : Slot} (h : p.Slots y y') (k : q.Slots y' y'') :
    (p.comp q).Slots y y'' := by
  cases y <;> cases y' <;> cases y'' <;>
    first | exact True.intro | exact h.elim | exact k.elim | exact ⟨_, h, k⟩

theorem Suspensions.comp {x x' x'' : Suspension} (h : p.Suspensions x x')
    (k : q.Suspensions x' x'') : (p.comp q).Suspensions x x'' := by
  cases x <;> cases x' <;> cases x'' <;>
    first | exact h.elim | exact k.elim | exact ⟨_, h, k⟩
          | exact ⟨h.1.trans k.1, ⟨_, h.2.1, k.2.1⟩, k.2.2.trans h.2.2⟩

theorem Nodes.comp {node node' node'' : Node} (h : p.Nodes node node') (k : q.Nodes node' node'') :
    (p.comp q).Nodes node node'' where
  kind := k.kind.trans h.kind
  first := h.first.comp k.first
  second := h.second.comp k.second
  symbol kind := (h.symbol kind).trans (k.symbol (h.kind.trans kind))
  witnesses := h.witnesses.trans k.witnesses
  transform := h.transform.trans k.transform

theorem Cells.comp {cell cell' cell'' : Cell} (h : p.Cells cell cell') (k : q.Cells cell' cell'') :
    (p.comp q).Cells cell cell'' :=
  ⟨h.suspension.comp k.suspension, k.forcing.trans h.forcing⟩

theorem Results.comp {i : Evaluator} {u v w : i.Result} (h : p.Results i u v)
    (k : q.Results i v w) : (p.comp q).Results i u w := by
  cases i
  case forest => exact Material.Slim.trans h k
  case compact => exact ⟨_, h, k⟩
  all_goals exact Eq.trans h k

end Placing

namespace Sketches

variable {M : Material} {p : Placing (.slim .itself)} {q : Placing (.slim M)} {h h' g : Graph}

/-- A sketch, at rest, of a sketch of a graph. -/
theorem comp (s : Sketches p h h') (t : Sketches q h' g)
    (still : ∀ i : Evaluator, (i.of h).frames.size = 0) (none : h.derivatives.inProgress = []) :
    Sketches (p.comp q) h g := by
  have atom {n n' : NodeId} (placed : p.At n n') : (n = .empty ∨ n = .eps) ∧ n' = n ∨
      (n ≠ .empty ∧ n ≠ .eps) ∧ n' ≠ .empty ∧ n' ≠ .eps := by
    by_cases atom : n = .empty ∨ n = .eps
    · exact .inl ⟨atom, s.eq_of_atom atom placed⟩
    · exact .inr ⟨not_or.mp atom, s.ne_atom placed (not_or.mp atom)⟩
  have atoms (i : Evaluator) {n n' : NodeId} (placed : p.At n n') : i.atom n' = i.atom n := by
    rcases atom placed with ⟨-, rfl⟩ | ⟨other, other'⟩
    · rfl
    · rw [Evaluator.atom_eq_none.mpr other, Evaluator.atom_eq_none.mpr other']
  have derived {n n' : NodeId} (placed : p.At n n') : Derivative.atom n' = Derivative.atom n := by
    rcases atom placed with ⟨-, rfl⟩ | ⟨other, other'⟩
    · rfl
    · rw [Derivative.atom_eq_none.mpr other, Derivative.atom_eq_none.mpr other']
  exact {
    matching := s.matching.comp t.matching
    matchingCells := s.matchingCells.comp t.matchingCells
    inside := fun ⟨_, hn, hm⟩ => ⟨(s.inside hn).1, (t.inside hm).2⟩
    insideCells := fun ⟨_, hn, hm⟩ => ⟨(s.insideCells hn).1, (t.insideCells hm).2⟩
    empty := ⟨_, s.empty, t.empty⟩
    eps := ⟨_, s.eps, t.eps⟩
    atoms := s.atoms
    atoms' := t.atoms'
    nodes := fun ⟨_, hn, hm⟩ => (s.nodes hn).comp (t.nodes hm)
    cells := fun ⟨_, hn, hm⟩ => rel_trans (s.cells hn) (t.cells hm) .comp
    books := fun i => (s.books i).comp (t.books i) (still i) (atoms i) .comp
    derivatives := {
      matching := s.matching.comp t.matching
      keys := Material.Stands.same
      atoms := by
        rintro n n' c c' d ⟨m, hn, hm⟩ key known
        exact ⟨(s.derivatives.atoms hn key.between.1 known).1,
          (t.derivatives.atoms hm key.between.2 ((derived hn).trans known)).2⟩
      entries := by
        rintro n n' c c' ⟨m, hn, hm⟩ key other
        exact rel_trans (s.derivatives.entries hn key.between.1 other)
          (t.derivatives.entries hm key.between.2 ((derived hn).trans other))
          fun a b => ⟨_, a, b⟩
      started := by
        have started := s.derivatives.started
        have started' := t.derivatives.started
        rw [none] at started ⊢
        rw [List.forall₂_nil_left_iff.mp started] at started'
        rw [List.forall₂_nil_left_iff.mp started']
        exact .nil
      compound := by
        rw [none]
        exact fun _ member => (List.not_mem_nil member).elim }
    known := fun i => ⟨(s.known i).1, (t.known i).2⟩
    derived := ⟨s.derived.1, t.derived.2⟩
    names := fun impossible => impossible.elim
    journal := t.journal.trans s.journal }

end Sketches

instance decidableRel {α β : Type} {R : α → β → Prop} [∀ a b, Decidable (R a b)] {a : Option α}
    {b : Option β} : Decidable (Option.Rel R a b) :=
  match a, b with
  | none, none => isTrue .none
  | some a, some b => decidable_of_iff (R a b) ⟨.some, fun h => by cases h; assumption⟩
  | none, some _ | some _, none => isFalse fun h => by cases h

instance {P : Evaluator → Prop} [DecidablePred P] : Decidable (∀ i, P i) :=
  decidable_of_iff (P .forest ∧ P .nullable ∧ P .emptyLike ∧ P .epsLike ∧ P .compact)
    ⟨fun h i => by cases i; exacts [h.1, h.2.1, h.2.2.1, h.2.2.2.1, h.2.2.2.2],
      fun h => ⟨h _, h _, h _, h _, h _⟩⟩

instance {α : Type} {V : α → α → Prop} [∀ v v', Decidable (V v v')] {e e' : Evaluation α}
    {n n' : Nat} : Decidable (Evaluation.Entry V e e' n n') :=
  have (a a' : Provisional α) : Decidable (a.Agrees V a') :=
    decidable_of_iff (V a.value a'.value ∧ a'.lowlink = a.lowlink)
      ⟨fun h => ⟨h.1, h.2⟩, fun h => ⟨h.value, h.lowlink⟩⟩
  decidable_of_iff (Option.Rel V (e.stored.get? n) (e'.stored.get? n') ∧
      e'.active.get? n' = e.active.get? n ∧
      Option.Rel (Provisional.Agrees V) (e.provisional.get? n) (e'.provisional.get? n'))
    ⟨fun h => ⟨h.1, h.2.1, h.2.2⟩, fun h => ⟨h.stored, h.active, h.provisional⟩⟩

namespace Placing

/-- The nodes and the cells lie where the lists say. -/
def ofPairs (nodes cells : List (Nat × Nat)) : Placing (.slim .itself) :=
  ⟨fun n n' => (n, n') ∈ nodes, fun c c' => (c, c') ∈ cells⟩

variable {nodes cells : List (Nat × Nat)}

instance {n n' : NodeId} : Decidable ((ofPairs nodes cells).At n n') :=
  inferInstanceAs (Decidable ((n, n') ∈ nodes))

instance {y y' : Slot} : Decidable ((ofPairs nodes cells).Slots y y') :=
  match y, y' with
  | .vacant, .vacant => isTrue True.intro
  | .node n, .node n' => inferInstanceAs (Decidable ((n, n') ∈ nodes))
  | .deferred c, .deferred c' => inferInstanceAs (Decidable ((c, c') ∈ cells))
  | .vacant, .node _ | .vacant, .deferred _ | .node _, .vacant | .node _, .deferred _
  | .deferred _, .vacant | .deferred _, .node _ => isFalse id

instance {x x' : Suspension} : Decidable ((ofPairs nodes cells).Suspensions x x') :=
  match x, x' with
  | .derivative c n side, .derivative c' n' side' =>
    inferInstanceAs (Decidable (Material.itself.Stands c c' ∧ (n, n') ∈ nodes ∧ side' = side))
  | .compacted n, .compacted n' => inferInstanceAs (Decidable ((n, n') ∈ nodes))
  | .term .., _ | .derivative .., .compacted _ | .derivative .., .term .. | .compacted _, .term ..
  | .compacted _, .derivative .. => isFalse id

instance {node node' : Node} : Decidable ((ofPairs nodes cells).Nodes node node') :=
  decidable_of_iff (node'.kind = node.kind ∧ (ofPairs nodes cells).Slots node.first node'.first ∧
      (ofPairs nodes cells).Slots node.second node'.second ∧
      (node.kind = .char → Material.itself.Stands node.symbol node'.symbol) ∧
      Material.itself.Slim node.witnesses node'.witnesses ∧
      Material.itself.Alike node.transform node'.transform)
    ⟨fun h => ⟨h.1, h.2.1, h.2.2.1, h.2.2.2.1, h.2.2.2.2.1, h.2.2.2.2.2⟩,
      fun h => ⟨h.kind, h.first, h.second, h.symbol, h.witnesses, h.transform⟩⟩

instance {cell cell' : Cell} : Decidable ((ofPairs nodes cells).Cells cell cell') :=
  decidable_of_iff ((ofPairs nodes cells).Suspensions cell.suspension cell'.suspension ∧
    cell'.forcing = cell.forcing) ⟨fun h => ⟨h.1, h.2⟩, fun h => ⟨h.suspension, h.forcing⟩⟩

instance {i : Evaluator} {v v' : i.Result} : Decidable ((ofPairs nodes cells).Results i v v') :=
  match i with
  | .forest => inferInstanceAs (Decidable (Material.itself.Slim v v'))
  | .compact => inferInstanceAs (Decidable ((v, v') ∈ nodes))
  | .nullable | .emptyLike | .epsLike => inferInstanceAs (Decidable (v = v'))

end Placing

/-- Nothing is in progress in the graph, and no journal is kept. -/
structure Graph.AtRest (h : Graph) : Prop where
  frames : ∀ i : Evaluator, (i.of h).frames.size = 0
  started : h.derivatives.inProgress.length = 0
  silent : h.journal = none

instance {h : Graph} : Decidable h.AtRest :=
  decidable_of_iff ((∀ i : Evaluator, (i.of h).frames.size = 0) ∧
      h.derivatives.inProgress.length = 0 ∧ h.journal = none)
    ⟨fun all => ⟨all.1, all.2.1, all.2.2⟩, fun atRest => ⟨atRest.frames, atRest.started, atRest.silent⟩⟩

namespace Placing

/-- A node of `h'` is like the one of `h` that is to lie there, and as much is known about it. -/
structure Finds (p : Placing (.slim .itself)) (h h' : Graph) (x : NodeId × NodeId) : Prop where
  inside : x.1 < h.nodes.size ∧ x.2 < h'.nodes.size
  contents : p.Nodes (h.node x.1) (h'.node x.2)
  entries : x.1 ≠ .empty ∧ x.1 ≠ .eps → ∀ i : Evaluator,
    Evaluation.Entry (p.Results i) (i.of h) (i.of h') x.1 x.2
  derived : x.1 ≠ .empty ∧ x.1 ≠ .eps →
    Option.Rel p.At (h.derivatives.find? x.1 (.int 1)) (h'.derivatives.find? x.2 (.int 1))

structure FindsCell (p : Placing (.slim .itself)) (h h' : Graph) (x : CellId × CellId) : Prop where
  inside : x.1 < h.cells.size ∧ x.2 < h'.cells.size
  cells : Option.Rel p.Cells h.cells[x.1]? h'.cells[x.2]?

variable {nodes cells : List (Nat × Nat)} {h h' : Graph} {x : Nat × Nat}

instance : Decidable ((ofPairs nodes cells).Finds h h' x) :=
  decidable_of_iff ((x.1 < h.nodes.size ∧ x.2 < h'.nodes.size) ∧
      (ofPairs nodes cells).Nodes (h.node x.1) (h'.node x.2) ∧
      (x.1 ≠ NodeId.empty ∧ x.1 ≠ NodeId.eps → ∀ i : Evaluator,
        Evaluation.Entry ((ofPairs nodes cells).Results i) (i.of h) (i.of h') x.1 x.2) ∧
      (x.1 ≠ NodeId.empty ∧ x.1 ≠ NodeId.eps → Option.Rel (ofPairs nodes cells).At
        (h.derivatives.find? x.1 (.int 1)) (h'.derivatives.find? x.2 (.int 1))))
    ⟨fun all => ⟨all.1, all.2.1, all.2.2.1, all.2.2.2⟩,
      fun finds => ⟨finds.inside, finds.contents, finds.entries, finds.derived⟩⟩

instance : Decidable ((ofPairs nodes cells).FindsCell h h' x) :=
  decidable_of_iff ((x.1 < h.cells.size ∧ x.2 < h'.cells.size) ∧
      Option.Rel (ofPairs nodes cells).Cells h.cells[x.1]? h'.cells[x.2]?)
    ⟨fun all => ⟨all.1, all.2⟩, fun finds => ⟨finds.inside, finds.cells⟩⟩

end Placing

/-- The graph `h'` holds, where the lists say, what the graph `h` holds. This can be decided. -/
structure Graph.Resembles (nodes cells : List (Nat × Nat)) (h h' : Graph) : Prop where
  atRest : h.AtRest ∧ h'.AtRest
  atoms : (NodeId.empty, NodeId.empty) ∈ nodes ∧ (NodeId.eps, NodeId.eps) ∈ nodes
  matching : ∀ x ∈ nodes, ∀ y ∈ nodes, x.1 = y.1 ↔ x.2 = y.2
  matchingCells : ∀ x ∈ cells, ∀ y ∈ cells, x.1 = y.1 ↔ x.2 = y.2
  finds : ∀ x ∈ nodes, (Placing.ofPairs nodes cells).Finds h h' x
  findsCell : ∀ x ∈ cells, (Placing.ofPairs nodes cells).FindsCell h h' x

instance {nodes cells : List (Nat × Nat)} {h h' : Graph} : Decidable (h.Resembles nodes cells h') :=
  decidable_of_iff ((h.AtRest ∧ h'.AtRest) ∧
      ((NodeId.empty, NodeId.empty) ∈ nodes ∧ (NodeId.eps, NodeId.eps) ∈ nodes) ∧
      (∀ x ∈ nodes, ∀ y ∈ nodes, x.1 = y.1 ↔ x.2 = y.2) ∧
      (∀ x ∈ cells, ∀ y ∈ cells, x.1 = y.1 ↔ x.2 = y.2) ∧
      (∀ x ∈ nodes, (Placing.ofPairs nodes cells).Finds h h' x) ∧
      ∀ x ∈ cells, (Placing.ofPairs nodes cells).FindsCell h h' x)
    ⟨fun all => ⟨all.1, all.2.1, all.2.2.1, all.2.2.2.1, all.2.2.2.2.1, all.2.2.2.2.2⟩,
      fun found => ⟨found.atRest, found.atoms, found.matching, found.matchingCells, found.finds,
        found.findsCell⟩⟩

/-- Two sketches of any graphs, the first of which resembles a part of the second. -/
theorem Sketches.ofPairs {M M' : Material} {p : Placing (.slim M)} {p' : Placing (.slim M')}
    {h h' g g' : Graph} {nodes cells : List (Nat × Nat)} (s : Sketches p h g)
    (s' : Sketches p' h' g') (found : h.Resembles nodes cells h') :
    Sketches (.ofPairs nodes cells) h h' := by
  have matching : Matching (Placing.ofPairs nodes cells).At :=
    ⟨fun hn hm => (found.matching _ hm _ hn).mp rfl, fun hn hm => (found.matching _ hm _ hn).mpr rfl⟩
  have fixed {n n' : NodeId} (atom : n = .empty ∨ n = .eps) (placed : (n, n') ∈ nodes) : n' = n := by
    rcases atom with rfl | rfl
    · exact matching.right found.atoms.1 placed
    · exact matching.right found.atoms.2 placed
  exact {
    matching := matching
    matchingCells := ⟨fun hn hm => (found.matchingCells _ hm _ hn).mp rfl,
      fun hn hm => (found.matchingCells _ hm _ hn).mpr rfl⟩
    inside := fun placed => (found.finds _ placed).inside
    insideCells := fun placed => (found.findsCell _ placed).inside
    empty := found.atoms.1
    eps := found.atoms.2
    atoms := s.atoms
    atoms' := s'.atoms
    nodes := fun placed => (found.finds _ placed).contents
    cells := fun placed => (found.findsCell _ placed).cells
    books := fun i => {
      matching := matching
      atoms := fun {n n' v} placed known => by
        have atom := Evaluator.eq_of_atom known
        obtain rfl := fixed atom placed
        exact ⟨((s.books i).atoms (s.at_atom atom) known).1,
          ((s'.books i).atoms (s'.at_atom atom) known).1⟩
      entries := fun placed other =>
        (found.finds _ placed).entries (Evaluator.atom_eq_none.mp other) i
      size := by rw [found.atRest.1.frames, found.atRest.2.frames]
      frames := fun d => by
        rw [Array.getElem?_eq_none (by rw [found.atRest.1.frames]; exact Nat.zero_le d),
          Array.getElem?_eq_none (by rw [found.atRest.2.frames]; exact Nat.zero_le d)]
        exact .none }
    derivatives := {
      matching := matching
      keys := Material.Stands.same
      atoms := fun {n n' c c' d} placed key known => by
        obtain ⟨atom, -⟩ := Derivative.eq_of_atom known
        obtain rfl := fixed atom placed
        have first := s.derivatives.atoms (s.at_atom atom) Material.Stands.self known
        have second := s'.derivatives.atoms (s'.at_atom atom) Material.Stands.self known
        unfold Memo.Settles
        rw [Memo.find?_congr key.one, Memo.find?_congr key.symbol]
        exact ⟨first.1, second.1⟩
      entries := fun placed key other => by
        rw [Memo.find?_congr key.one, Memo.find?_congr key.symbol]
        exact (found.finds _ placed).derived (Derivative.atom_eq_none.mp other)
      started := by
        rw [List.length_eq_zero_iff.mp found.atRest.1.started,
          List.length_eq_zero_iff.mp found.atRest.2.started]
        exact .nil
      compound := by
        rw [List.length_eq_zero_iff.mp found.atRest.1.started]
        exact fun _ member => (List.not_mem_nil member).elim }
    known := fun i => ⟨(s.known i).1, (s'.known i).1⟩
    derived := ⟨s.derived.1, s'.derived.1⟩
    names := fun impossible => impossible.elim
    journal := found.atRest.2.silent.trans found.atRest.1.silent.symm }

end GrammarGraph
