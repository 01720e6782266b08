import GrammarGraph.Proofs.Formed

/-! Meanings of slots. A meaning relates sentences, given by the representatives of their
symbols, to what their derivations are worth. It supports a graph if it is closed under the
rules: whatever the slots of a node give, the node gives, and what is promised to a deferred
slot, the slot gives. Answers of evaluators are then checked against a meaning that is fixed
when a node is made, although slots are filled later. -/
namespace GrammarGraph

abbrev Meaning (ω : Type) := Slot → List Value → ω → Prop

variable {ω : Type}

/-- How a worth ties in with the witnesses that evaluators compute. -/
structure Worth.Embeds (A : Worth ω) (embed : Value → ω) : Prop where
  nothing : embed .nothing = A.nothing
  pair : ∀ v w, embed (Forest.cons v w) = A.pair (embed v) (embed w)
  eps : ∀ {ws w}, w ∈ ws → A.eps ws (embed w)
  eps_origin : ∀ {ws u}, ws ≠ [] → A.eps ws u → ∃ w ∈ ws, u = embed w
  symbol : ∀ c, A.symbol c (embed c)
  image : ∀ {t v w}, t.apply v = .ok w → A.image t (embed v) (embed w)
  image_prepend : ∀ {h u v}, A.image (.prepend h) u v → v = A.pair (embed h) u
  image_append : ∀ {h u v}, A.image (.append h) u v → v = A.pair u (embed h)
  image_compose : ∀ {t t' u v}, A.image (.compose t t') u v → ∃ m, A.image t' u m ∧ A.image t m v

/-- Every eps node and every transform gives something. -/
def Worth.Plentiful (A : Worth ω) : Prop :=
  (∀ ws, ∃ w, A.eps ws w) ∧ ∀ t v, ∃ w, A.image t v w

/-- The rounds of a repetition, each of which takes at least one symbol. -/
inductive Rounds (A : Worth ω) (inner : List Value → ω → Prop) : List Value → ω → Prop where
  | none : Rounds A inner [] A.nothing
  | more : inner (c :: s) u → Rounds A inner t v → Rounds A inner (c :: s ++ t) (A.pair u v)

theorem Rounds.mono {A : Worth ω} {inner inner' : List Value → ω → Prop}
    (h : ∀ s w, inner s w → inner' s w) {s w} (r : Rounds A inner s w) : Rounds A inner' s w := by
  induction r with
  | none => exact .none
  | more first _ ih => exact .more (h _ _ first) ih

abbrev Parts (ω : Type) := Side → List Value → ω → Prop

def Parts.of (P Q : List Value → ω → Prop) : Parts ω
  | .first => P
  | .second => Q

/-- What a node gives when its slots give `part`. -/
inductive Clause (A : Worth ω) (part : Parts ω) (node : Node) : List Value → ω → Prop where
  | eps : node.kind = .eps → A.eps node.witnesses w → Clause A part node [] w
  | char : node.kind = .char → node.symbol.same c = true → A.symbol c w →
      Clause A part node [c.numeric] w
  | alt (side : Side) : node.kind = .alt → part side s w → Clause A part node s w
  | cat : node.kind = .cat → part .first s u → part .second t v →
      Clause A part node (s ++ t) (A.pair u v)
  | rep : node.kind = .rep → Rounds A (part .first) s w → Clause A part node s w
  | delta : node.kind = .delta → part .first [] w → Clause A part node [] w
  | red : node.kind = .red → part .first s v → A.image node.transform v w →
      Clause A part node s w

namespace Clause

variable {A : Worth ω} {part part' : Parts ω} {node node' : Node} {s : List Value} {w : ω}

theorem mono (bare : node'.bare = node.bare)
    (slot : ∀ side s w, part side s w → part' side s w) (h : Clause A part node s w) :
    Clause A part' node' s w := by
  have kind := Node.kind_of_bare bare
  cases h with
  | eps hk hw => exact .eps (kind.trans hk) (Node.witnesses_of_bare bare ▸ hw)
  | char hk hs hw => exact .char (kind.trans hk) (Node.symbol_of_bare bare ▸ hs) hw
  | alt side hk h => exact .alt side (kind.trans hk) (slot side _ _ h)
  | cat hk h h' => exact .cat (kind.trans hk) (slot .first _ _ h) (slot .second _ _ h')
  | rep hk h => exact .rep (kind.trans hk) (h.mono (slot .first))
  | delta hk h => exact .delta (kind.trans hk) (slot .first _ _ h)
  | red hk h hw =>
    exact .red (kind.trans hk) (slot .first _ _ h) (Node.transform_of_bare bare ▸ hw)

theorem known (h : Clause A part node s w) : node.kind ≠ .placeholder := by
  cases h <;> simp_all

theorem atomic (atomic : node.kind.isAtomic) (bare : node'.bare = node.bare)
    (h : Clause A part node s w) : Clause A part' node' s w := by
  have kind := Node.kind_of_bare bare
  cases h with
  | eps hk hw => exact .eps (kind.trans hk) (Node.witnesses_of_bare bare ▸ hw)
  | char hk hs hw => exact .char (kind.trans hk) (Node.symbol_of_bare bare ▸ hs) hw
  | alt _ hk | cat hk | rep hk | delta hk | red hk => rw [hk] at atomic; cases atomic

end Clause

def Meaning.parts (M : Meaning ω) (node : Node) : Parts ω :=
  fun side => M (node.slot side)

/-- The meaning of what a deferred slot will compute. -/
def Meaning.ofSuspension (M : Meaning ω) (g : Graph) : Suspension → List Value → ω → Prop
  | .derivative c n side => fun s w => M ((g.node n).slot side) (c.numeric :: s) w
  | .compacted n => M (.node n)
  | .term _ _ => fun _ _ => False

/-- The meaning supports the nodes and cells of the graph. -/
structure Meaning.Supports (A : Worth ω) (M : Meaning ω) (g : Graph) : Prop where
  node : ∀ {n s w}, Clause A (M.parts (g.node n)) (g.node n) s w → M (.node n) s w
  /-- One more round before what a repetition means. -/
  again : ∀ {n c s u t v}, (g.node n).kind = .rep → M.parts (g.node n) .first (c :: s) u →
    M (.node n) t v → M (.node n) (c :: s ++ t) (A.pair u v)
  /-- Atoms mean no more than their rule. -/
  atom : ∀ {n s w}, (g.node n).kind.isAtomic → (g.node n).kind ≠ .placeholder →
    M (.node n) s w → Clause A (M.parts (g.node n)) (g.node n) s w
  cell : ∀ {cell suspension s w}, g.suspension? cell = some suspension →
    M.ofSuspension g suspension s w → M (.deferred cell) s w

variable {A : Worth ω} {M : Meaning ω} {g g' : Graph}

theorem Meaning.ofSuspension_congr (nodes : g'.nodes = g.nodes) (s : Suspension) :
    M.ofSuspension g' s = M.ofSuspension g s := by
  cases s <;> simp [Meaning.ofSuspension, Graph.node_congr nodes]

end GrammarGraph
