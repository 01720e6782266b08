import GrammarGraph.Compaction
import GrammarGraph.Proofs.Sketch.Mirror

/-! Constructors in a sketch. What they look at, the kinds of their operands and whether one is
trivial, is the same in the larger graph, so they find the same node there or make one that takes
the place of the new one. -/
namespace GrammarGraph

variable {K : Cast} {p q : Placing K} {h g : Graph} {n n' : NodeId} {x x' y y' : Operand}

namespace Sketches

variable (s : Sketches p h g)
include s

theorem kind_eq (placed : p.At n n') : (g.node n').kind = (h.node n).kind :=
  (s.nodes placed).kind

theorem kind?_eq (related : p.Operands x x') : x'.kind? g = x.kind? h := by
  rcases Placing.operands_cases related with
    ⟨n, n', rfl, rfl, placed⟩ | ⟨s, s', rfl, rfl, _⟩ | ⟨name, rfl, rfl⟩
  · exact congrArg some (s.kind_eq placed)
  · rfl
  · rfl

theorem catShortcut (hx : p.Operands x x') (hy : p.Operands y y') :
    Option.Rel p.At (Grammar.catShortcut h x y) (Grammar.catShortcut g x' y') := by
  unfold Grammar.catShortcut
  rw [s.kind?_eq hx, s.kind?_eq hy]
  split
  · exact .some s.empty
  · rcases Placing.operands_cases hx with
      ⟨a, a', rfl, rfl, ha⟩ | ⟨_, _, rfl, rfl, _⟩ | ⟨_, rfl, rfl⟩
    · rcases Placing.operands_cases hy with
        ⟨b, b', rfl, rfl, hb⟩ | ⟨_, _, rfl, rfl, _⟩ | ⟨_, rfl, rfl⟩
      · dsimp only
        rw [(s.nodes ha).isTrivial, (s.nodes hb).isTrivial]
        split
        · exact .some hb
        · split
          · exact .some ha
          · exact .none
      · exact .none
      · exact .none
    · exact .none
    · exact .none

theorem altShortcut (hx : p.Operands x x') (hy : p.Operands y y') :
    Option.Rel p.At (Grammar.altShortcut h x y) (Grammar.altShortcut g x' y') := by
  unfold Grammar.altShortcut
  rcases Placing.operands_cases hx with
    ⟨a, a', rfl, rfl, ha⟩ | ⟨_, _, rfl, rfl, _⟩ | ⟨_, rfl, rfl⟩
  · rcases Placing.operands_cases hy with
      ⟨b, b', rfl, rfl, hb⟩ | ⟨_, _, rfl, rfl, _⟩ | ⟨_, rfl, rfl⟩
    · dsimp only
      rw [s.kind_eq ha, s.kind_eq hb]
      split
      · exact .some hb
      · split
        · exact .some ha
        · exact .none
    · exact .none
    · exact .none
  · exact .none
  · exact .none

theorem repShortcut (hx : p.Operands x x') :
    Option.Rel p.At (Grammar.repShortcut h x) (Grammar.repShortcut g x') := by
  unfold Grammar.repShortcut
  rw [s.kind?_eq hx]
  split
  · exact .some s.eps
  · exact .some s.eps
  · exact Placing.operands_node? hx
  · exact .none

theorem deltaShortcut (hx : p.Operands x x') :
    Option.Rel p.At (Grammar.deltaShortcut h x) (Grammar.deltaShortcut g x') := by
  unfold Grammar.deltaShortcut
  rw [s.kind?_eq hx]
  split
  · exact .some s.empty
  · exact .some s.empty
  · exact Placing.operands_node? hx
  · exact .none

theorem redShortcut (hx : p.Operands x x') :
    Option.Rel p.At (Grammar.redShortcut h x) (Grammar.redShortcut g x') := by
  unfold Grammar.redShortcut
  rw [s.kind?_eq hx]
  split
  · exact .some s.empty
  · exact .none

end Sketches

namespace Mirrors

theorem empty : Mirrors p Placing.At (Pure.pure NodeId.empty) (Pure.pure NodeId.empty) :=
  fun _ g s => .ended (.refl p g) s (.value s.empty)

theorem trivial : Mirrors p Placing.At (Pure.pure NodeId.eps) (Pure.pure NodeId.eps) :=
  fun _ g s => .ended (.refl p g) s (.value s.eps)

/-- A node is made and handed over. -/
theorem make_node {node node' : Node} (nodes : p.Nodes node node') :
    Mirrors p Placing.At (Run.make node) (Run.make node') := by
  intro h g s
  exact .ended (.addNode p h.nodes.size g node') (s.addNode nodes) (.value (.inr ⟨rfl, rfl⟩))

theorem slot (related : p.Operands x x') : Mirrors p Placing.Slots x.slot x'.slot := by
  rcases Placing.operands_cases related with
    ⟨n, n', rfl, rfl, placed⟩ | ⟨s, s', rfl, rfl, suspensions⟩ | ⟨name, rfl, rfl⟩
  · exact pure placed
  · exact bind (defer suspensions) fun q c c' le placed => pure placed
  · exact fault _

theorem reuse {shortcut shortcut' : Graph → Option NodeId} {make make' : Run NodeId}
    (old : ∀ h g, Sketches p h g → Option.Rel p.At (shortcut h) (shortcut' g))
    (new : Mirrors p Placing.At make make') :
    Mirrors p Placing.At (Grammar.reuse shortcut make) (Grammar.reuse shortcut' make') := by
  refine read (T := Option.Rel p.At) old fun found found' related => ?_
  cases related with
  | none => exact new
  | some placed => exact pure placed

theorem pair {kind : Kind} (other : kind ≠ .char) (hx : p.Operands x x') (hy : p.Operands y y') :
    Mirrors p Placing.At (Grammar.pair kind x y) (Grammar.pair kind x' y') := by
  refine bind (slot hx) fun q first first' le hf => ?_
  refine bind (slot (le.operands hy)) fun q' second second' le' hs => make_node ?_
  exact ⟨rfl, le'.slots hf, hs, fun char => absurd char other, K.none, K.identity⟩

theorem cat (hx : p.Operands x x') (hy : p.Operands y y') :
    Mirrors p Placing.At (Grammar.cat x y) (Grammar.cat x' y') :=
  reuse (fun _ _ s => s.catShortcut hx hy) (pair Kind.noConfusion hx hy)

theorem alt (hx : p.Operands x x') (hy : p.Operands y y') :
    Mirrors p Placing.At (Grammar.alt x y) (Grammar.alt x' y') :=
  reuse (fun _ _ s => s.altShortcut hx hy) (pair Kind.noConfusion hx hy)

theorem rep (hx : p.Operands x x') : Mirrors p Placing.At (Grammar.rep x) (Grammar.rep x') :=
  reuse (fun _ _ s => s.repShortcut hx) (bind (slot hx) fun _ _ _ _ hs => make_node
    ⟨rfl, hs, True.intro, Kind.noConfusion, K.none, K.identity⟩)

theorem delta (hx : p.Operands x x') : Mirrors p Placing.At (Grammar.delta x) (Grammar.delta x') :=
  reuse (fun _ _ s => s.deltaShortcut hx) (bind (slot hx) fun _ _ _ _ hs => make_node
    ⟨rfl, hs, True.intro, Kind.noConfusion, K.none, K.identity⟩)

theorem reduction (hx : p.Operands x x') {t t' : Transform} (ht : K.Transforms t t') :
    Mirrors p Placing.At (Grammar.reduction x t) (Grammar.reduction x' t') :=
  reuse (fun _ _ s => s.redShortcut hx) (bind (slot hx) fun _ _ _ _ hs => make_node
    ⟨rfl, hs, True.intro, Kind.noConfusion, K.none, ht⟩)

theorem eps {ws ws' : Forest} (related : K.Forests ws ws') :
    Mirrors p Placing.At (Grammar.eps ws) (Grammar.eps ws') := by
  refine given (K.ofWitnesses related) fun us us' related => ?_
  rw [K.isTrivial related]
  split
  · exact trivial
  · exact make_node ⟨rfl, True.intro, True.intro, Kind.noConfusion, related, K.identity⟩

theorem char {c c' : Value} (symbols : K.Symbols c c') :
    Mirrors p Placing.At (Grammar.char c) (Grammar.char c') :=
  make_node ⟨rfl, True.intro, True.intro, fun _ => symbols, K.none, K.identity⟩

end Mirrors

end GrammarGraph
