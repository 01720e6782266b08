import Mathlib.Logic.Relation
import GrammarGraph.Proofs.Exactness.Deriving
import GrammarGraph.Proofs.Exactness.Reading

/-! Meanings with deferred slots: a node gives what has a derivation once some children have
been read. What a node gives after a symbol, its derivative gives: the children that the
derivation needs are read one after the other, along the derivation. -/
namespace GrammarGraph

open GrammarGraph.Graph (Promises)

namespace Graph

def Reads (g g' : Graph) : Prop :=
  ∃ bound n side child, side ∈ (g.node n).sides ∧
    Engine.run bound (.child n side) g = some (.ok child, g')

/-- Any number of children are read. -/
def Forces : Graph → Graph → Prop :=
  Relation.ReflTransGen Reads

/-- The least relation between sentences and their worths at a node, where a deferred slot
stands for the node that it holds once it is read. -/
def Means (A : Worth ω) (g : Graph) (n : NodeId) (s : List Value) (w : ω) : Prop :=
  ∃ g', g.Forces g' ∧ Derives A g'.node n s w

/-- Nothing is being computed. -/
structure Idle (g : Graph) : Prop where
  forcing : ∀ cell, g.isForcing cell = false
  started : g.derivatives.inProgress = []

end Graph

variable {P : Value → Prop} {layer layer' : NodeId → Nat} {g g' g₁ : Graph} {c : Value}
  {n d : NodeId}

theorem Graph.Idle.busy (h : g.Idle) (low low' : Nat) : Busy layer g low low' where
  forcing _ held := by rw [h.forcing] at held; cases held
  started member := by rw [h.started] at member; cases member

namespace Layered

theorem Later.idle (later : Later layer g layer' g') (h : g.Idle) : g'.Idle :=
  ⟨fun cell => (later.forcing cell).trans (h.forcing cell), later.started.trans h.started⟩

/-- Between queries: the graph is in order, complete and idle. -/
structure Settled (P : Value → Prop) (layer : NodeId → Nat) (g : Graph) : Prop where
  layered : Layered P layer g
  complete : g.Complete
  idle : g.Idle

/-- What comes of a settled graph by reading children. -/
structure Forced (P : Value → Prop) (g : Graph) (layer' : NodeId → Nat) (g' : Graph) : Prop where
  settled : Settled P layer' g'
  forces : g.Forces g'
  extends_ : g.Extends g'

theorem Forced.refl (h : Settled P layer g) : Forced P g layer g :=
  ⟨h, .refl, .refl g⟩

theorem Forced.trans {g'' : Graph} (h : Forced P g layer g') (k : Forced P g' layer' g'') :
    Forced P g layer' g'' :=
  ⟨k.settled, h.forces.trans k.forces, h.extends_.trans k.extends_⟩

variable (hashable : ∀ c, P c → c.hashable = true)
include hashable

theorem Settled.child (h : Settled P layer g) {side : Side} (member : side ∈ (g.node n).sides) :
    (layering P).Ends layer g (fun ask => ask (.child n side)) fun _ g' k => g'.Read n side k :=
  (answers hashable (layer n)).child ⟨h.layered, h.complete⟩
    (Graph.lt_of_mem_sides member) member rfl (h.idle.busy _ _)

theorem Settled.derive (h : Settled P layer g) (lt : n < g.nodes.size) (hp : P c) :
    (layering P).Ends layer g (fun ask => ask (.derive c n)) fun _ g' d =>
      g'.derivatives.find? n c = some d :=
  (answers hashable (layer n)).derive ⟨h.layered, h.complete⟩ lt hp rfl (h.idle.busy _ _)

theorem Settled.reads (h : Settled P layer g) (reads : g.Reads g') :
    ∃ layer', Later layer g layer' g' ∧ Settled P layer' g' := by
  obtain ⟨bound, n, side, child, member, ends⟩ := reads
  obtain ⟨_, _, ⟨least, gives⟩, layer', later, valid, _⟩ := h.child hashable member
  cases Engine.run_unique ends (gives least (Nat.le_refl _))
  exact ⟨layer', later, valid.1, valid.2, later.idle h.idle⟩

theorem Settled.forces (h : Settled P layer g) (forces : g.Forces g') :
    ∃ layer', Forced P g layer' g' := by
  induction forces with
  | refl => exact ⟨layer, .refl h⟩
  | tail _ reads ih =>
    obtain ⟨layer₁, first⟩ := ih
    obtain ⟨layer₂, later, settled⟩ := first.settled.reads hashable reads
    exact ⟨layer₂, first.trans ⟨settled, .single reads, later.extends_⟩⟩

/-- The derivative of a child, once it is read where it is promised. -/
theorem Settled.fetch (h : Settled P layer g) {side : Side} (other : Side) {a : NodeId}
    (member : other ∈ (g.node d).sides) (promised : Promises P g c n side ((g.node d).slot other))
    (slot : (g.node n).slot side = .node a) :
    ∃ layer' g' k, Forced P g layer' g' ∧ (g'.node d).slot other = .node k ∧
      g'.derivatives.find? a c = some k := by
  obtain ⟨_, g', ⟨least, gives⟩, layer', later, valid, k, rfl, filled⟩ := h.child hashable member
  have promised := later.extends_.promises _ promised
  rw [filled] at promised
  obtain ⟨j, slot', found⟩ := promised
  obtain rfl := Slot.node.inj (slot'.symm.trans (later.extends_.filled _ slot))
  exact ⟨layer', g', k, ⟨⟨valid.1, valid.2, later.idle h.idle⟩,
    .single ⟨least, d, other, some k, member, gives least (Nat.le_refl _)⟩, later.extends_⟩, filled,
    found⟩

end Layered

namespace Graph

variable {A : Worth ω} {s : List Value} {w : ω}

theorem Derivative.kind_cat (h : Derivative P g c n d) (kind : (g.node n).kind = .cat) :
    ∃ a b v skip take, (g.node n).first = .node a ∧ (g.node n).second = .node b ∧
      Vanishes g a v ∧ Skips P g c n v skip ∧ Takes P g c n b take ∧ Joins g skip take d := by
  cases h with
  | cat _ first second vanishes skips takes joins =>
    exact ⟨_, _, _, _, _, first, second, vanishes, skips, takes, joins⟩
  | _ => simp_all

theorem kind_of_derives (h : Derives A g.node n s w) : (g.node n).kind ≠ .empty := by
  cases h <;> simp_all

theorem not_nil_of_char (kind : (g.node n).kind = .char) (h : Derives A g.node n s w) :
    s ≠ [] := by
  cases h <;> simp_all

theorem Vanishes.derives_nothing {a v : NodeId} (h : Vanishes g a v)
    (d : Derives A g.node a [] w) : Derives A g.node v [] w := by
  cases h with
  | nothing kind =>
    rcases kind with kind | kind
    · exact absurd kind (kind_of_derives d)
    · exact absurd rfl (not_nil_of_char kind d)
  | itself _ same => exact same ▸ d
  | delta kind slot => exact .delta kind slot d

theorem Joins.derives {a b : NodeId} (h : Joins g a b d)
    (part : Derives A g.node a s w ∨ Derives A g.node b s w) : Derives A g.node d s w := by
  cases h with
  | second kind same =>
    exact same ▸ part.resolve_left fun d => kind_of_derives d kind
  | first kind same =>
    exact same ▸ part.resolve_right fun d => kind_of_derives d kind
  | alt kind first second =>
    rcases part with part | part
    · exact .alt .first kind first part
    · exact .alt .second kind second part

end Graph

open Layered (Settled Forced)

/-- What the node gives after the symbol is owed by its derivative: from every settled graph
on, children can be read so that the derivative gives it. -/
def Owed (P : Value → Prop) (A : Worth ω) (g₁ : Graph) (n : NodeId) (c : Value)
    (s : List Value) (w : ω) : Prop :=
  ∀ {layer g d}, Settled P layer g → g₁.Extends g → g.derivatives.find? n c = some d →
    ∃ layer' g', Forced P g layer' g' ∧ Derives A g'.node d s w

namespace Owed

variable {A : Worth ω} {s t : List Value} {u v w : ω} {a b : NodeId} {side : Side}

/-- A promised child, once it is read and then made to give what it owes. -/
theorem fetch (hashable : ∀ c, P c → c.hashable = true) (owed : Owed P A g₁ a c s w)
    (settled : Settled P layer g) (since : g₁.Extends g) (other : Side)
    (member : other ∈ (g.node d).sides) (promised : Promises P g c n side ((g.node d).slot other))
    (slot : (g.node n).slot side = .node a) :
    ∃ layer' g' k, Forced P g layer' g' ∧ (g'.node d).slot other = .node k ∧
      Derives A g'.node k s w := by
  obtain ⟨layer₂, g₂, k, forced, filled, found⟩ :=
    settled.fetch hashable other member promised slot
  obtain ⟨layer₃, g₃, forced', derives⟩ :=
    owed forced.settled (since.trans forced.extends_) found
  exact ⟨layer₃, g₃, k, forced.trans forced', forced'.extends_.filled _ filled, derives⟩

theorem char (attests : Graph.Attests P A) (kind : (g₁.node n).kind = .char)
    (same : (g₁.node n).symbol.same c = true) (worth : A.symbol c w) (hp : P c) :
    Owed P A g₁ n c [] w := by
  intro layer g d settled since found
  have kind' := since.kind kind (by decide)
  have symbol := Node.symbol_of_bare (since.bare n (by simp [kind]))
  refine ⟨layer, g, .refl settled, ?_⟩
  cases (settled.layered.memo found).2.2.2 with
  | taken _ _ kindEps ws hp' equal =>
    exact .eps kindEps (ws ▸ (attests hp hp' equal).mpr worth)
  | mismatch _ other =>
    rw [symbol, same] at other
    cases other
  | _ => simp_all

variable (hashable : ∀ c, P c → c.hashable = true)
include hashable

theorem alt (kind : (g₁.node n).kind = .alt) (slot : (g₁.node n).slot side = .node a)
    (owed : Owed P A g₁ a c s w) : Owed P A g₁ n c s w := by
  intro layer g d settled since found
  have kind' := since.kind kind (by decide)
  cases (settled.layered.memo found).2.2.2 with
  | alt _ kindAlt promised =>
    have member : side ∈ (g.node d).sides := by cases side <;> simp [Node.sides, kindAlt]
    obtain ⟨layer', g', k, forced, filled, derives⟩ :=
      owed.fetch hashable settled since side member (promised side) (since.filled _ slot)
    exact ⟨layer', g', forced, .alt side (forced.extends_.kind kindAlt (by decide)) filled derives⟩
  | _ => simp_all

theorem red (kind : (g₁.node n).kind = .red) (slot : (g₁.node n).first = .node a)
    (image : A.image (g₁.node n).transform v w) (owed : Owed P A g₁ a c s v) :
    Owed P A g₁ n c s w := by
  intro layer g d settled since found
  have kind' := since.kind kind (by decide)
  cases (settled.layered.memo found).2.2.2 with
  | red _ kindRed same promised =>
    obtain ⟨layer', g', k, forced, filled, derives⟩ :=
      owed.fetch hashable settled since .first (by simp [Node.sides, kindRed]) promised
        (since.filled .first slot)
    refine ⟨layer', g', forced, .red (forced.extends_.kind kindRed (by decide)) filled derives ?_⟩
    rw [Node.transform_of_bare (forced.extends_.bare d (by simp [kindRed])), same,
      Node.transform_of_bare (since.bare n (by simp [kind]))]
    exact image
  | _ => simp_all

theorem rep (kind : (g₁.node n).kind = .rep) (slot : (g₁.node n).first = .node a)
    (owed : Owed P A g₁ a c s u) (rest : Derives A g₁.node n t v) :
    Owed P A g₁ n c (s ++ t) (A.pair u v) := by
  intro layer g d settled since found
  have kind' := since.kind kind (by decide)
  cases (settled.layered.memo found).2.2.2 with
  | rep _ kindCat promised second =>
    obtain ⟨layer', g', k, forced, filled, derives⟩ :=
      owed.fetch hashable settled since .first (by simp [Node.sides, kindCat]) promised
        (since.filled .first slot)
    exact ⟨layer', g', forced, .cat (forced.extends_.kind kindCat (by decide)) filled
      (forced.extends_.filled .second second) derives
      ((since.trans forced.extends_).derives rest)⟩
  | _ => simp_all

/-- The first part gives nothing and the second part takes the symbol. -/
theorem skip (kind : (g₁.node n).kind = .cat) (first : (g₁.node n).first = .node a)
    (second : (g₁.node n).second = .node b) (left : Derives A g₁.node a [] u)
    (owed : Owed P A g₁ b c s v) : Owed P A g₁ n c s (A.pair u v) := by
  intro layer g d settled since found
  obtain ⟨a', b', vanished, skip, take, first', second', vanishes, skips, takes, joins⟩ :=
    (settled.layered.memo found).2.2.2.kind_cat (since.kind kind (by decide))
  have slot := since.filled .second second
  obtain rfl := Slot.node.inj ((since.filled .first first).symm.trans first')
  have nothing := vanishes.derives_nothing (since.derives left)
  cases skips with
  | nothing empty => exact absurd empty (Graph.kind_of_derives nothing)
  | cat kindCat firstSkip promised =>
    obtain ⟨layer', g', k, forced, filled, derives⟩ :=
      owed.fetch hashable settled since .second (by simp [Node.sides, kindCat]) promised slot
    have both := Derives.cat (forced.extends_.kind kindCat (by decide))
      (forced.extends_.filled .first firstSkip) filled (forced.extends_.derives nothing) derives
    exact ⟨layer', g', forced, (forced.extends_.joins joins).derives (.inl both)⟩

/-- The first part takes the symbol and the second part follows. -/
theorem take (kind : (g₁.node n).kind = .cat) (first : (g₁.node n).first = .node a)
    (second : (g₁.node n).second = .node b) (right : Derives A g₁.node b t v)
    (owed : Owed P A g₁ a c s u) : Owed P A g₁ n c (s ++ t) (A.pair u v) := by
  intro layer g d settled since found
  obtain ⟨a', b', vanished, skip, take, first', second', vanishes, skips, takes, joins⟩ :=
    (settled.layered.memo found).2.2.2.kind_cat (since.kind kind (by decide))
  have slot := since.filled .first first
  obtain rfl := Slot.node.inj ((since.filled .second second).symm.trans second')
  cases takes with
  | nothing empty => exact absurd empty (Graph.kind_of_derives (since.derives right))
  | cat kindCat promised secondTake =>
    obtain ⟨layer', g', k, forced, filled, derives⟩ :=
      owed.fetch hashable settled since .first (by simp [Node.sides, kindCat]) promised slot
    have both := Derives.cat (forced.extends_.kind kindCat (by decide)) filled
      (forced.extends_.filled .second secondTake) derives
      ((since.trans forced.extends_).derives right)
    exact ⟨layer', g', forced, (forced.extends_.joins joins).derives (.inr both)⟩

end Owed

/-- What a node gives after a symbol, its derivative gives once the children are read that
the derivation needs. -/
theorem Derives.owed {A : Worth ω} {t : List Value} {w : ω}
    (hashable : ∀ c, P c → c.hashable = true) (attests : Graph.Attests P A)
    (h : Derives A g₁.node n t w) :
    ∀ {c s}, t = c :: s → P c → Owed P A g₁ n c s w := by
  induction h with
  | eps => rintro c s ⟨⟩
  | repNone => rintro c s ⟨⟩
  | delta => rintro c s ⟨⟩
  | char kind same worth =>
    rintro c s ⟨⟩ hp
    exact Owed.char attests kind same worth hp
  | alt side kind slot _ ih =>
    rintro c s rfl hp
    exact Owed.alt hashable kind slot (ih rfl hp)
  | red kind slot _ image ih =>
    rintro c s rfl hp
    exact Owed.red hashable kind slot image (ih rfl hp)
  | repMore kind slot _ rest ih _ =>
    rintro c s ⟨⟩ hp
    exact Owed.rep hashable kind slot (ih rfl hp) rest
  | @cat _ _ _ s₁ _ _ _ kind first second left right ihLeft ihRight =>
    -- The symbol is the second part's where the first part gives nothing.
    cases s₁ with
    | nil =>
      rintro c s rfl hp
      exact Owed.skip hashable kind first second left (ihRight rfl hp)
    | cons c₁ s₁ =>
      rintro c s ⟨⟩ hp
      exact Owed.take hashable kind first second right (ihLeft rfl hp)

end GrammarGraph
