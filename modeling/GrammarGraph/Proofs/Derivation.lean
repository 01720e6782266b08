import GrammarGraph.Graph
import GrammarGraph.Value.Equality

/-! Derivations of sentences from the nodes of a graph. A rule follows only the slots that
hold nodes; deferred slots give nothing until they are filled. What a derivation is worth
is a parameter, so that membership and witnesses obey the same rules. -/
namespace GrammarGraph

structure Worth (ω : Type) where
  /-- What the empty sentence may be worth under an eps node with these witnesses. -/
  eps : Forest → ω → Prop
  /-- What one taken symbol may be worth. -/
  symbol : Value → ω → Prop
  nothing : ω
  pair : ω → ω → ω
  image : Transform → ω → ω → Prop

namespace Worth

def membership : Worth Unit where
  eps _ _ := True
  symbol _ _ := True
  nothing := ()
  pair _ _ := ()
  image _ _ _ := True

/-- A derivation is worth its witness; that of a symbol equals the symbol. -/
def witness : Worth Value where
  eps ws w := w ∈ ws
  symbol c w := c.same w = true
  nothing := .nothing
  pair := Forest.cons
  image t v w := t.apply v = .ok w

/-- Witnesses again, but that of a symbol is the very symbol. -/
def literal : Worth Value :=
  { witness with symbol := fun c w => w = c }

end Worth

/-- `Derives A look n s w`: the sentence `s` has a derivation from `n` that is worth `w`. -/
inductive Derives (A : Worth ω) (look : NodeId → Node) : NodeId → List Value → ω → Prop where
  | eps : (look n).kind = .eps → A.eps (look n).witnesses w → Derives A look n [] w
  | char : (look n).kind = .char → (look n).symbol.same c = true → A.symbol c w →
      Derives A look n [c] w
  | alt (side : Side) : (look n).kind = .alt → (look n).slot side = .node a →
      Derives A look a s w → Derives A look n s w
  | cat : (look n).kind = .cat → (look n).first = .node a → (look n).second = .node b →
      Derives A look a s u → Derives A look b t v → Derives A look n (s ++ t) (A.pair u v)
  | repNone : (look n).kind = .rep → Derives A look n [] A.nothing
  /-- The first round of a repetition takes at least one symbol. -/
  | repMore : (look n).kind = .rep → (look n).first = .node a →
      Derives A look a (c :: s) u → Derives A look n t v →
      Derives A look n (c :: s ++ t) (A.pair u v)
  | delta : (look n).kind = .delta → (look n).first = .node a →
      Derives A look a [] w → Derives A look n [] w
  | red : (look n).kind = .red → (look n).first = .node a →
      Derives A look a s v → A.image (look n).transform v w → Derives A look n s w

def Graph.Accepts (g : Graph) (n : NodeId) (s : List Value) : Prop :=
  Derives .membership g.node n s ()

/-- The least relation between sentences and their witnesses at a node. -/
def Graph.Yields (g : Graph) (n : NodeId) (s : List Value) (w : Value) : Prop :=
  Derives .witness g.node n s w

def Node.bare (node : Node) : Node :=
  { node with first := .vacant, second := .vacant }

namespace Node

variable {node node' : Node} (same : node'.bare = node.bare)
include same

theorem kind_of_bare : node'.kind = node.kind := by
  simpa [bare] using congrArg Node.kind same

theorem symbol_of_bare : node'.symbol = node.symbol := by
  simpa [bare] using congrArg Node.symbol same

theorem witnesses_of_bare : node'.witnesses = node.witnesses := by
  simpa [bare] using congrArg Node.witnesses same

theorem transform_of_bare : node'.transform = node.transform := by
  simpa [bare] using congrArg Node.transform same

end Node

namespace Derives

variable {A : Worth ω} {look look' : NodeId → Node} {n : NodeId} {s t : List Value} {w : ω}

/-- A derivation stays one where nodes keep their contents and slots are only filled. -/
theorem mono (bare : ∀ n, (look n).kind ≠ .placeholder → (look' n).bare = (look n).bare)
    (slot : ∀ n side k, (look n).slot side = .node k → (look' n).slot side = .node k)
    (h : Derives A look n s w) : Derives A look' n s w := by
  have kept {n kind} (hk : (look n).kind = kind) (known : kind ≠ .placeholder) :
      (look' n).bare = (look n).bare := bare n (hk ▸ known)
  induction h with
  | eps hk hw =>
    have same := kept hk (by decide)
    exact .eps (Node.kind_of_bare same ▸ hk) (Node.witnesses_of_bare same ▸ hw)
  | char hk hs hw =>
    have same := kept hk (by decide)
    exact .char (Node.kind_of_bare same ▸ hk) (Node.symbol_of_bare same ▸ hs) hw
  | alt side hk ha _ ih =>
    exact .alt side (Node.kind_of_bare (kept hk (by decide)) ▸ hk) (slot _ _ _ ha) ih
  | cat hk ha hb _ _ iha ihb =>
    exact .cat (Node.kind_of_bare (kept hk (by decide)) ▸ hk) (slot _ .first _ ha)
      (slot _ .second _ hb) iha ihb
  | repNone hk => exact .repNone (Node.kind_of_bare (kept hk (by decide)) ▸ hk)
  | repMore hk ha _ _ iha ihn =>
    exact .repMore (Node.kind_of_bare (kept hk (by decide)) ▸ hk) (slot _ .first _ ha) iha ihn
  | delta hk ha _ ih =>
    exact .delta (Node.kind_of_bare (kept hk (by decide)) ▸ hk) (slot _ .first _ ha) ih
  | red hk ha _ hw ih =>
    have same := kept hk (by decide)
    exact .red (Node.kind_of_bare same ▸ hk) (slot _ .first _ ha) ih
      (Node.transform_of_bare same ▸ hw)

end Derives

def Alike (s t : List Value) : Prop :=
  s.map Value.numeric = t.map Value.numeric

/-- Symbols that are equal may be worth the same. -/
def Worth.Fair (A : Worth ω) : Prop :=
  ∀ c d w, c.same d = true → A.symbol c w → A.symbol d w

theorem Worth.membership_fair : Worth.membership.Fair :=
  fun _ _ _ _ _ => trivial

theorem Worth.witness_fair : Worth.witness.Fair :=
  fun _ _ _ same hw => Value.same_trans (Value.same_symm same) hw

namespace Derives

variable {A : Worth ω} {look : NodeId → Node} {n : NodeId} {s t : List Value} {w : ω}

/-- Which of several equal symbols a sentence holds makes no difference. -/
theorem alike (fair : A.Fair) (h : Derives A look n s w) :
    ∀ {t}, Alike s t → Derives A look n t w := by
  induction h with
  | eps hk hw =>
    intro t st
    obtain rfl : t = [] := by simpa [Alike, eq_comm] using st
    exact .eps hk hw
  | char hk hs hw =>
    intro t st
    obtain ⟨d, rfl, hd⟩ : ∃ d, t = [d] ∧ d.numeric = _ := List.map_eq_singleton_iff.mp st.symm
    have same := (Value.same_iff _ d).mpr hd.symm
    exact .char hk (Value.same_trans hs same) (fair _ _ _ same hw)
  | alt side hk ha _ ih => exact fun st => .alt side hk ha (ih st)
  | cat hk ha hb _ _ iha ihb =>
    intro t st
    obtain ⟨t₁, t₂, rfl, h₁, h₂⟩ := List.map_eq_append_iff.mp (st.symm.trans List.map_append)
    exact .cat hk ha hb (iha h₁.symm) (ihb h₂.symm)
  | repNone hk =>
    intro t st
    obtain rfl : t = [] := by simpa [Alike, eq_comm] using st
    exact .repNone hk
  | repMore hk ha _ _ iha ihn =>
    intro t st
    obtain ⟨t₁, t₂, rfl, h₁, h₂⟩ := List.map_eq_append_iff.mp (st.symm.trans List.map_append)
    obtain ⟨d, t₁, rfl, -, -⟩ := List.map_eq_cons_iff.mp h₁
    exact .repMore hk ha (iha h₁.symm) (ihn h₂.symm)
  | delta hk ha _ ih =>
    intro t st
    obtain rfl : t = [] := by simpa [Alike, eq_comm] using st
    exact .delta hk ha (ih rfl)
  | red hk ha _ hw ih => exact fun st => .red hk ha (ih st) hw

end Derives

end GrammarGraph
