import GrammarGraph.Run
import GrammarGraph.Table

/-! Recursive functions on the nodes of a graph that may have cycles. A node that is
asked for again while its value is being computed is answered with a default. A value
that leaned on such a default further up is provisional: it serves until the node that
it leaned on is finished and is then forgotten. Only values that lean on nothing
unfinished are stored. -/
namespace GrammarGraph

/-- The record of one unfinished node. -/
structure Frame where
  /-- The depth of the outermost unfinished node that this one leaned on so far. -/
  lowlink : Nat
  /-- The nodes whose provisional values end with this frame. -/
  pending : List Nat

structure Provisional (α : Type) where
  value : α
  lowlink : Nat

structure Evaluation (α : Type) where
  stored : Table α := {}
  /-- The depths of the unfinished nodes. -/
  active : Table Nat := {}
  frames : Array Frame := #[]
  provisional : Table (Provisional α) := {}
deriving Inhabited

/-- What is known about a node when it is asked for. -/
inductive Standing (α : Type) where
  | stored (value : α)
  | active (depth : Nat)
  | provisional (entry : Provisional α)
  | fresh (depth : Nat)

namespace Evaluation

def standing (e : Evaluation α) (n : Nat) : Standing α :=
  match e.stored.get? n with
  | some value => .stored value
  | none => match e.active.get? n with
    | some depth => .active depth
    | none => match e.provisional.get? n with
      | some entry => .provisional entry
      | none => .fresh e.frames.size

def reliedOn (depth : Nat) (e : Evaluation α) : Evaluation α :=
  { e with frames := e.frames.modify (e.frames.size - 1) fun frame =>
      { frame with lowlink := min frame.lowlink depth } }

def enter (n : Nat) (e : Evaluation α) : Evaluation α :=
  { e with
    active := e.active.insert n e.frames.size
    frames := e.frames.push ⟨e.frames.size, []⟩ }

def lowlink (e : Evaluation α) : Nat :=
  e.frames.back?.elim 0 Frame.lowlink

def pending (e : Evaluation α) : List Nat :=
  e.frames.back?.elim [] Frame.pending

/-- Ends the innermost frame, which is that of `n`, with what expires together with it. -/
def leave (n : Nat) (e : Evaluation α) : Evaluation α :=
  let expired := e.pending
  { e with
    active := e.active.erase n
    provisional := expired.foldl Table.erase e.provisional
    frames := e.frames.pop }

/-- Keeps a value until the frame at depth `lowlink` ends. -/
def postpone (n : Nat) (value : α) (lowlink : Nat) (e : Evaluation α) : Evaluation α :=
  reliedOn lowlink { e with
    provisional := e.provisional.insert n ⟨value, lowlink⟩
    frames := e.frames.modify lowlink fun frame => { frame with pending := n :: frame.pending } }

def store (n : Nat) (value : α) (e : Evaluation α) : Evaluation α :=
  { e with stored := e.stored.insert n value }

def forget (n : Nat) (e : Evaluation α) : Evaluation α :=
  { e with stored := e.stored.erase n }

/-- The value of `n` under the function whose body at `n` is `body`. -/
def demand (held : Held σ (Evaluation α)) (default : RunOf σ α) (body : RunOf σ α)
    (n : Nat) : RunOf σ α := do
  match ← .read fun s => (held.get s).standing n with
  | .stored value => pure value
  | .active depth =>
    .update (held.modify (reliedOn depth))
    default
  | .provisional entry =>
    .update (held.modify (reliedOn entry.lowlink))
    pure entry.value
  | .fresh depth =>
    .update (held.modify (enter n))
    let result ← body.outcome
    let lowlink ← .read fun s => (held.get s).lowlink
    .update (held.modify (leave n))
    let value ← RunOf.ofExcept result
    if lowlink < depth then
      .update (held.modify (postpone n value lowlink))
    else
      .update (held.modify (store n value))
    pure value

/-- The function whose body at a node is `step`, given the function itself for the nodes
that the body asks for, as far as `bound` calls deep. -/
def solve (held : Held σ (Evaluation α)) (default : Nat → RunOf σ α)
    (step : (Nat → RunOf σ α) → Nat → RunOf σ α) : Nat → Nat → RunOf σ α
  | 0, _ => .spent
  | bound + 1, n => demand held (default n) (step (solve held default step bound) n) n

end Evaluation

end GrammarGraph
