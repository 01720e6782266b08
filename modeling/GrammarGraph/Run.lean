import GrammarGraph.Fault

/-! Computations on a state, which may end with a fault or use up the bound they were
given. The state outlives a fault. -/
namespace GrammarGraph

abbrev RunOf (σ α : Type) := ExceptT Fault (StateT σ Option) α

/-- A part of a larger state. -/
structure Held (σ τ : Type) where
  get : σ → τ
  modify : (τ → τ) → σ → σ

namespace RunOf

/-- The computation that has no bound left. -/
def spent : RunOf σ α :=
  fun _ => none

def read (f : σ → α) : RunOf σ α :=
  fun s => some (.ok (f s), s)

def update (f : σ → σ) : RunOf σ Unit :=
  fun s => some (.ok (), f s)

def ofExcept (result : Except Fault α) : RunOf σ α :=
  fun s => some (result, s)

/-- Runs `r` and hands over how it ended, so that the state can be tidied either way. -/
def outcome (r : RunOf σ α) : RunOf σ (Except Fault α) :=
  fun s => (r s).map fun (result, s) => (.ok result, s)

/-- A computation on a part of the state. -/
def inside (held : Held σ τ) (r : RunOf τ α) : RunOf σ α :=
  fun s => (r (held.get s)).map fun (result, t) => (result, held.modify (fun _ => t) s)

end RunOf

end GrammarGraph
