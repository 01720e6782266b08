import GrammarGraph.Forest
import GrammarGraph.Run
import GrammarGraph.Table

/-! Results kept for a node and a key, for functions that never need their own result.
Only finished results are kept; a call for what is still in progress is a fault. -/
namespace GrammarGraph

structure Memo (ρ : Type) where
  finished : Table (List (Value × ρ)) := {}
  inProgress : List (Nat × Value) := []
deriving Inhabited

/-- How far the result for a node and a key has come. -/
inductive Progress (ρ : Type) where
  | finished (result : ρ)
  | started
  | absent

namespace Memo

/-- Equal keys share their result. -/
def find? (m : Memo ρ) (n : Nat) (key : Value) : Option ρ :=
  ((m.finished.get? n).getD []).findSome? fun (known, result) =>
    if known.same key then some result else none

def isStarted (m : Memo ρ) (n : Nat) (key : Value) : Bool :=
  m.inProgress.any fun (node, known) => node == n && known.same key

def progress (m : Memo ρ) (n : Nat) (key : Value) : Progress ρ :=
  match m.find? n key with
  | some result => .finished result
  | none => if m.isStarted n key then .started else .absent

def start (n : Nat) (key : Value) (m : Memo ρ) : Memo ρ :=
  { m with inProgress := (n, key) :: m.inProgress }

def stop (n : Nat) (key : Value) (m : Memo ρ) : Memo ρ :=
  { m with inProgress := m.inProgress.eraseP fun (node, known) => node == n && known.same key }

def finish (n : Nat) (key : Value) (result : ρ) (m : Memo ρ) : Memo ρ :=
  { m with finished := m.finished.insert n ((key, result) :: (m.finished.get? n).getD []) }

def forget (n : Nat) (m : Memo ρ) : Memo ρ :=
  { m with finished := m.finished.erase n }

/-- The result of the function `name` for `n` and `key`, computed by `body` if need be. -/
def demand (held : Held σ (Memo ρ)) (name : String) (body : RunOf σ ρ) (n : Nat)
    (key : Value) : RunOf σ ρ := do
  let key ← RunOf.ofExcept key.hashed
  match ← .read fun s => (held.get s).progress n key with
  | .finished result => pure result
  | .started => throw (.reentered name)
  | .absent =>
    .update (held.modify (start n key))
    let result ← body.outcome
    .update (held.modify (stop n key))
    let result ← RunOf.ofExcept result
    .update (held.modify (finish n key result))
    pure result

/-- The function `name` whose body at a node is `step`, given the function itself for the
nodes that the body asks for with the same key, as far as `bound` calls deep. -/
def solve (held : Held σ (Memo ρ)) (name : String)
    (step : (Nat → RunOf σ ρ) → Nat → RunOf σ ρ) (key : Value) : Nat → Nat → RunOf σ ρ
  | 0, _ => .spent
  | bound + 1, n => demand held name (step (solve held name step key bound) n) n key

end Memo

end GrammarGraph
