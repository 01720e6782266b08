import GrammarGraph.Graph

/-! Constructors of grammars. Each looks for a node that already stands for its result
before it makes a new one; only concrete operands are looked at, so no deferred operand
is computed here. -/
namespace GrammarGraph

namespace Operand

def node? : Operand → Option NodeId
  | .node n => some n
  | _ => none

def kind? (g : Graph) (operand : Operand) : Option Kind :=
  operand.node?.map fun n => (g.node n).kind

def slot : Operand → Run Slot
  | .node n => pure (.node n)
  | .deferred suspension => do return .deferred (← Run.defer suspension)
  | .other typeName => throw (.operandType typeName)

end Operand

namespace Grammar

/-- An empty part empties the whole; a trivial part leaves the other. -/
def catShortcut (g : Graph) (first second : Operand) : Option NodeId :=
  if first.kind? g == some .empty || second.kind? g == some .empty then some .empty
  else match first, second with
    | .node a, .node b =>
      if (g.node a).isTrivial then some b
      else if (g.node b).isTrivial then some a
      else none
    | _, _ => none

/-- An empty side leaves the other. -/
def altShortcut (g : Graph) (first second : Operand) : Option NodeId :=
  match first, second with
  | .node a, .node b =>
    if (g.node a).kind == .empty then some b
    else if (g.node b).kind == .empty then some a
    else none
  | _, _ => none

/-- Repeating at most the empty sentence gives the empty sentence, and repeating twice is
repeating once. -/
def repShortcut (g : Graph) (operand : Operand) : Option NodeId :=
  match operand.kind? g with
  | some .empty | some .eps => some .eps
  | some .rep => operand.node?
  | _ => none

def deltaShortcut (g : Graph) (operand : Operand) : Option NodeId :=
  match operand.kind? g with
  | some .empty | some .char => some .empty
  | some .eps => operand.node?
  | _ => none

def redShortcut (g : Graph) (operand : Operand) : Option NodeId :=
  if operand.kind? g == some .empty then some .empty else none

/-- The node that is already there, or else a new one. -/
def reuse (shortcut : Graph → Option NodeId) (make : Run NodeId) : Run NodeId := do
  match ← .read shortcut with
  | some n => pure n
  | none => make

def char (symbol : Value) : Run NodeId :=
  Run.make { kind := .char, symbol }

/-- The language of the empty sentence with the given witnesses. -/
def eps (witnesses : List Value) : Run NodeId := do
  let witnesses ← RunOf.ofExcept (Forest.ofWitnesses witnesses)
  if Forest.isTrivial witnesses then pure .eps
  else Run.make { kind := .eps, witnesses }

def pair (kind : Kind) (first second : Operand) : Run NodeId := do
  let first ← first.slot
  let second ← second.slot
  Run.make { kind, first, second }

def cat (first second : Operand) : Run NodeId :=
  reuse (catShortcut · first second) (pair .cat first second)

def alt (first second : Operand) : Run NodeId :=
  reuse (altShortcut · first second) (pair .alt first second)

def rep (operand : Operand) : Run NodeId :=
  reuse (repShortcut · operand) do
    Run.make { kind := .rep, first := ← operand.slot }

def delta (operand : Operand) : Run NodeId :=
  reuse (deltaShortcut · operand) do
    Run.make { kind := .delta, first := ← operand.slot }

/-- The witnesses of the operand after `transform`. -/
def reduction (operand : Operand) (transform : Transform) : Run NodeId :=
  reuse (redShortcut · operand) do
    Run.make { kind := .red, first := ← operand.slot, transform }

/-- Combines any number of operands from the left. -/
def combine (unit : NodeId) (join : Operand → Operand → Run NodeId) :
    List Operand → Run NodeId
  | [] => pure unit
  | [.node n] => pure n
  | [_] => throw .loneOperand
  | first :: second :: rest => do
    let start ← join first second
    rest.foldlM (fun n operand => join (.node n) operand) start

def catAll : List Operand → Run NodeId :=
  combine .eps cat

def altAll : List Operand → Run NodeId :=
  combine .empty alt

/-- A node of any kind, without any simplification. -/
def raw (node : Node) (first second : Option Operand) : Run NodeId := do
  let first ← (first.map Operand.slot).getD (pure .vacant)
  let second ← (second.map Operand.slot).getD (pure .vacant)
  Run.make { node with first, second }

/-- Completes a definition: the placeholder takes over what its body evaluated to. -/
def define (placeholder : NodeId) : Operand → Run NodeId
  | .node body => do
    let kind ← Run.kind body
    if kind.isAtomic then throw (.bodyKind kind)
    .update (Graph.become placeholder body)
    pure placeholder
  | operand => throw (.bodyType operand.typeName)

end Grammar

end GrammarGraph
