import GrammarGraph.Extraction
import GrammarGraph.Fault
import GrammarGraph.Proofs.Forests
import GrammarGraph.Proofs.Regime

/-! What may take the place of what. Two runs on different graphs are compared up to symbols,
forests and transforms that stand for each other; a cast says which do, and what the rules of the
evaluators need of that. -/
namespace GrammarGraph

/-- Two runs end with the same fault, or with values that are related. -/
inductive Ended {α β : Type} (R : α → β → Prop) : Except Fault α → Except Fault β → Prop where
  | fault (fault : Fault) : Ended R (.error fault) (.error fault)
  | value {a : α} {b : β} : R a b → Ended R (.ok a) (.ok b)

theorem Ended.same {α : Type} (result : Except Fault α) : Ended Eq result result := by
  cases result with
  | error fault => exact .fault fault
  | ok a => exact .value rfl

theorem Ended.eq {α : Type} {result result' : Except Fault α} (h : Ended Eq result result') :
    result = result' := by
  cases h with
  | fault => rfl
  | value same => rw [same]

/-- How many witnesses there are: none, one that may be attached to others, or more. -/
inductive Counts (Transforms : Transform → Transform → Prop) : Forest → Forest → Prop where
  | none : Counts Transforms [] []
  | one {w w' : Value} : Transforms (.prepend w) (.prepend w') →
      Transforms (.append w) (.append w') → Counts Transforms [w] [w']
  | more {u v u' v' : Value} {ws ws' : Forest} :
      Counts Transforms (u :: v :: ws) (u' :: v' :: ws')

structure Cast where
  Symbols : Value → Value → Prop
  Forests : Forest → Forest → Prop
  Transforms : Transform → Transform → Prop
  /-- The names that both runs may use. -/
  owns : String → Prop
  /-- Forests whose union the first run may form. -/
  unites : Forest → Forest → Bool
  /-- The first run forms every union, so it ends if the second one does. -/
  strict : Prop
  keys : ∀ {c c' d d'}, Symbols c c' → Symbols d d' → c'.same d' = c.same d
  hashable : ∀ {c c'}, Symbols c c' → c'.hashable = c.hashable
  single : ∀ {c c'}, Symbols c c' → Forests [c] [c']
  none : Forests [] []
  trivial : Forests Forest.trivial Forest.trivial
  isTrivial : ∀ {ws ws'}, Forests ws ws' → Forest.isTrivial ws' = Forest.isTrivial ws
  counts : ∀ {ws ws'}, Forests ws ws' → Counts Transforms ws ws'
  ofWitnesses : ∀ {ws ws'}, Forests ws ws' →
    Ended Forests (Forest.ofWitnesses ws) (Forest.ofWitnesses ws')
  union : ∀ {us us' vs vs'}, unites us vs = true → Forests us us' → Forests vs vs' →
    Ended Forests (Forest.union [us, vs]) (Forest.union [us', vs'])
  combine : ∀ {us us' vs vs'}, Forests us us' → Forests vs vs' →
    Ended Forests (Forest.combine us vs) (Forest.combine us' vs')
  image : ∀ {t t' ws ws'}, Transforms t t' → Forests ws ws' →
    Ended Forests (t.image ws) (t'.image ws')
  identity : Transforms .identity .identity
  compose : ∀ {s s' t t'}, Transforms s s' → Transforms t t' →
    Transforms (.compose s t) (.compose s' t')
  unites_of_strict : strict → ∀ us vs, unites us vs = true

/-- Nothing but the thing itself takes its place. -/
structure Cast.Faithful (K : Cast) : Prop where
  symbols : ∀ {c c'}, K.Symbols c c' → c' = c
  forests : ∀ {ws ws'}, K.Forests ws ws' → ws' = ws
  transforms : ∀ {t t'}, K.Transforms t t' → t' = t

namespace Cast

def same (owns : String → Prop) : Cast where
  Symbols := Eq
  Forests := Eq
  Transforms := Eq
  owns := owns
  unites _ _ := true
  strict := True
  keys := by rintro _ _ _ _ rfl rfl; rfl
  hashable := by rintro _ _ rfl; rfl
  single := by rintro _ _ rfl; rfl
  none := rfl
  trivial := rfl
  isTrivial := by rintro _ _ rfl; rfl
  counts := by
    rintro ws _ rfl
    rcases ws with _ | ⟨u, _ | ⟨v, ws⟩⟩
    · exact .none
    · exact .one rfl rfl
    · exact .more
  ofWitnesses := by rintro _ _ rfl; exact .same _
  union := by rintro _ _ _ _ - rfl rfl; exact .same _
  combine := by rintro _ _ _ _ rfl rfl; exact .same _
  image := by rintro _ _ _ _ rfl rfl; exact .same _
  identity := rfl
  compose := by rintro _ _ _ _ rfl rfl; rfl
  unites_of_strict _ _ _ := rfl

theorem same_faithful (owns : String → Prop) : (same owns).Faithful :=
  ⟨Eq.symm, Eq.symm, Eq.symm⟩

/-- The rule for forests, for the first run. -/
def forest (K : Cast) (ask : Ask) (n : NodeId) : Run Forest := do
  let ofChild (side : Side) : Run Forest := do ask.forest (← ask.child n side)
  match ← Run.kind n with
  | .alt =>
    let first ← ofChild .first
    let second ← ofChild .second
    if K.unites first second then RunOf.ofExcept (Forest.union [first, second]) else .spent
  | _ => Extraction.forest ask n

theorem forest_of_strict {K : Cast} (strict : K.strict) (ask : Ask) (n : NodeId) :
    K.forest ask n = Extraction.forest ask n := by
  funext g
  unfold Cast.forest Extraction.forest
  simp only [K.unites_of_strict strict, if_true, Run.kind, Run.node, RunOf.read_bind]
  cases kind : (g.node n).kind <;> simp only [RunOf.read_bind, kind]

end Cast

end GrammarGraph
