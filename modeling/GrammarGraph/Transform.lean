import GrammarGraph.Forest

/-! Functions on witnesses that a reduction applies. A composition holds its parts
innermost first and holds no composition itself, so `compose` is associative on the
nose. -/
namespace GrammarGraph

inductive Transform where
  /-- Any function, known by a name and perhaps an argument. -/
  | plain (name : String) (argument : Option Value) (function : Value → Except Fault Value)
  /-- The witness with `head` paired in front. -/
  | prepend (head : Value)
  /-- The witness with `tail` paired behind. -/
  | append (tail : Value)
  | composition (parts : List Transform)

namespace Transform

mutual

def apply : Transform → Value → Except Fault Value
  | .plain _ _ function, w => function w
  | .prepend head, w => .ok (Forest.cons head w)
  | .append tail, w => .ok (Forest.cons w tail)
  | .composition parts, w => applyAll parts w

def applyAll : List Transform → Value → Except Fault Value
  | [], w => .ok w
  | part :: parts, w => do applyAll parts (← apply part w)

end

/-- The functions that a transform applies one after the other. -/
def parts : Transform → List Transform
  | .composition parts => parts
  | t => [t]

/-- Applies `inner` and then `outer`. -/
def compose (outer inner : Transform) : Transform :=
  .composition (inner.parts ++ outer.parts)

/-- What nodes carry that are no reductions. -/
abbrev identity : Transform := .composition []

instance : Inhabited Transform := ⟨identity⟩

/-- The image of a forest. Each result is checked before the next witness is taken. -/
def image (t : Transform) (ws : Forest) : Except Fault Forest := do
  let ws ← ws.mapM fun w => do (← t.apply w).hashed
  pure (Forest.distinct ws)

end Transform

end GrammarGraph
