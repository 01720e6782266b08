import GrammarGraph.Fault
import GrammarGraph.Value

/-! Witnesses and forests. A forest lists the distinct witnesses of one match in order;
the order matters, because a concatenation pairs two forests position by position. -/
namespace GrammarGraph

abbrev Forest := List Value

def Value.hashed (v : Value) : Except Fault Value :=
  if v.hashable then .ok v else .error .unhashable

namespace Forest

/-- Adds a witness at the end unless an equal one is there. -/
def insert (forest : Forest) (w : Value) : Forest :=
  if forest.any (·.same w) then forest else forest ++ [w]

/-- The first of each class of equal witnesses, in order. -/
def distinct (ws : List Value) : Forest :=
  ws.foldl insert []

def ofWitnesses (ws : List Value) : Except Fault Forest := do
  let ws ← ws.mapM Value.hashed
  pure (distinct ws)

def union (forests : List Forest) : Except Fault Forest :=
  ofWitnesses forests.flatten

def collapse : Value → Value
  | .tuple [w] => w
  | w => w

/-- An operand as its share of a pair: nothing at all, or one element. -/
def share (w : Value) : List Value :=
  if w.isNothing then [] else [collapse w]

/-- The witness of a concatenation from the witnesses of its parts. -/
def cons (left right : Value) : Value :=
  .tuple (share left ++ share right)

/-- Pairs two forests position by position, up to the end of the shorter. -/
def combine (left right : Forest) : Except Fault Forest :=
  ofWitnesses (List.zipWith cons left right)

abbrev trivial : Forest := [.nothing]

def isTrivial : Forest → Bool
  | [w] => w.isNothing
  | _ => false

end Forest

end GrammarGraph
