import Mathlib.Logic.Relation
import GrammarGraph.Proofs.Exactness.Promises

/-! Compacted nodes as they stand in a graph. A deferred slot waits for what its child is
compacted to; once it is filled, it holds the node that is stored for that child. Which node a
node is compacted to follows, kind by kind, from such slots. An alternative with an empty side is
compacted to what its other side is; where such alternatives only led to one another, nothing
could be consumed, so they are never gone through in a circle. -/
namespace GrammarGraph

namespace Graph

def Awaits (g : Graph) (n : NodeId) : Slot → Prop
  | .vacant => False
  | .node k => g.Settled (.compacted n) k
  | .deferred cell => g.suspension? cell = some (.compacted n)

def Judged (g : Graph) (n : NodeId) (empty : Bool) : Prop :=
  (g.node n).kind ≠ .placeholder ∧ g.emptyLike.stored.get? n = some empty

/-- Of the alternative `n` only `k` is left: the other side is empty. -/
inductive Passes (g : Graph) (n : NodeId) : NodeId → Prop where
  | first {a b : NodeId} : (g.node n).kind = .alt → (g.node n).first = .node a →
      (g.node n).second = .node b → g.Judged b true → Passes g n a
  | second {a b : NodeId} : (g.node n).kind = .alt → (g.node n).first = .node a →
      (g.node n).second = .node b → g.Judged a true → Passes g n b

/-- From side to side that is not empty, alternatives lead to something else. -/
inductive Anchored (g : Graph) : NodeId → Prop where
  | other {n : NodeId} : (g.node n).kind ≠ .alt → (g.node n).kind ≠ .placeholder → Anchored g n
  | alt {n k : NodeId} (side : Side) : (g.node n).kind = .alt → (g.node n).slot side = .node k →
      g.Judged k false → Anchored g k → Anchored g n

/-- The node `m` is made the way `n` is compacted. -/
inductive Rewrites (g : Graph) : NodeId → NodeId → Prop where
  | itself {n : NodeId} : (g.node n).kind = .empty ∨ (g.node n).kind = .eps ∨
      (g.node n).kind = .char → Rewrites g n n
  | nothing {n : NodeId} : Rewrites g n .empty
  | settled {n m : NodeId} : (g.node m).kind = .eps → Rewrites g n m
  | rep {n m k : NodeId} : (g.node n).kind = .rep → (g.node n).first = .node k →
      (g.node m).kind = .rep → g.Awaits k (g.node m).first → Rewrites g n m
  | alt {n m a b : NodeId} : (g.node n).kind = .alt → (g.node n).first = .node a →
      (g.node n).second = .node b → (g.node m).kind = .alt → g.Awaits a (g.node m).first →
      g.Awaits b (g.node m).second → Rewrites g n m
  | passes {n m k : NodeId} : g.Passes n k → Rewrites g k m → Rewrites g n m
  | cat {n m a b : NodeId} : (g.node n).kind = .cat → (g.node n).first = .node a →
      (g.node n).second = .node b → (g.node m).kind = .cat → g.Awaits a (g.node m).first →
      g.Awaits b (g.node m).second → Rewrites g n m
  | head {n m a b : NodeId} {w : Value} : (g.node n).kind = .cat → (g.node n).first = .node a →
      (g.node n).second = .node b → (g.node m).kind = .red →
      (g.node m).transform = .prepend w → g.Awaits b (g.node m).first → Rewrites g n m
  | tail {n m a b : NodeId} {w : Value} : (g.node n).kind = .cat → (g.node n).first = .node a →
      (g.node n).second = .node b → (g.node m).kind = .red →
      (g.node m).transform = .append w → g.Awaits a (g.node m).first → Rewrites g n m
  | red {n m k : NodeId} : (g.node n).kind = .red → (g.node n).first = .node k →
      (g.node m).kind = .red → (g.node m).transform = (g.node n).transform →
      g.Awaits k (g.node m).first → Rewrites g n m
  | nested {n m k j : NodeId} : (g.node n).kind = .red → (g.node n).first = .node k →
      (g.node k).kind = .red → (g.node k).first = .node j → (g.node m).kind = .red →
      (g.node m).transform = .compose (g.node n).transform (g.node k).transform →
      g.Awaits j (g.node m).first → Rewrites g n m
  | headed {n m k a b : NodeId} {w : Value} : (g.node n).kind = .red →
      (g.node n).first = .node k → (g.node k).kind = .cat → (g.node k).first = .node a →
      (g.node k).second = .node b → (g.node m).kind = .red →
      (g.node m).transform = .compose (g.node n).transform (.prepend w) →
      g.Awaits b (g.node m).first → Rewrites g n m

variable {g g' : Graph} {n m k : NodeId}

/-- What is left of an anchored alternative is the side that is not empty. -/
theorem Anchored.acc (h : g.Anchored n) : Acc (fun k n => g.Passes n k) n := by
  induction h with
  | other kind =>
    refine ⟨_, fun k passes => ?_⟩
    cases passes with
    | first alt => exact absurd alt kind
    | second alt => exact absurd alt kind
  | @alt n k side kind slot judged _ ih =>
    refine ⟨_, fun j passes => ?_⟩
    have apart {o : NodeId} (empty : g.Judged o true) : o ≠ k := by
      rintro rfl
      cases empty.2.symm.trans judged.2
    cases passes with
    | first _ first second empty =>
      cases side with
      | first => exact Slot.node.inj (slot.symm.trans first) ▸ ih
      | second => exact absurd (Slot.node.inj (second.symm.trans slot)) (apart empty)
    | second _ first second empty =>
      cases side with
      | first => exact absurd (Slot.node.inj (first.symm.trans slot)) (apart empty)
      | second => exact Slot.node.inj (slot.symm.trans second) ▸ ih

/-- Alternatives of which one side is left are not gone through in a circle. -/
theorem Anchored.not_circular (h : g.Anchored n) : ¬ Relation.TransGen g.Passes n n := by
  have acc := h.acc.transGen
  clear h
  induction acc with
  | intro n _ ih => exact fun circle => ih n (Relation.transGen_swap.mpr circle) circle

namespace Extends

variable (h : g.Extends g')
include h

theorem awaits (side : Side) (awaited : g.Awaits n ((g.node m).slot side)) :
    g'.Awaits n ((g'.node m).slot side) := by
  have there : (g.node m).slot side ≠ .vacant := fun vacant => by rw [vacant] at awaited; exact awaited
  rcases h.slot m side there with same | ⟨cell, k, old, new, settled⟩
  · rw [same]
    cases slot : (g.node m).slot side with
    | vacant => exact absurd slot there
    | node k =>
      rw [slot] at awaited
      have given : g.Settled (.compacted n) k := awaited
      exact h.settled given
    | deferred cell =>
      rw [slot] at awaited
      exact h.suspension awaited
  · rw [old] at awaited
    rw [new]
    exact settled _ awaited

theorem judged {empty : Bool} (judged : g.Judged n empty) : g'.Judged n empty :=
  ⟨by rw [h.kind_same judged.1]; exact judged.1, h.results .emptyLike judged.1 judged.2⟩

theorem passes (passes : g.Passes n k) : g'.Passes n k := by
  cases passes with
  | first kind first second empty =>
    exact .first (h.kind kind (by decide)) (h.filled .first first) (h.filled .second second)
      (h.judged empty)
  | second kind first second empty =>
    exact .second (h.kind kind (by decide)) (h.filled .first first) (h.filled .second second)
      (h.judged empty)

theorem anchored (anchored : g.Anchored n) : g'.Anchored n := by
  induction anchored with
  | other kind known => exact .other (h.kind_same known ▸ kind) (h.kind_same known ▸ known)
  | alt side kind slot judged _ ih =>
    exact .alt side (h.kind kind (by decide)) (h.filled side slot) (h.judged judged) ih

theorem transform {transform : Transform} (kind : (g.node m).kind = .red)
    (same : (g.node m).transform = transform) : (g'.node m).transform = transform :=
  (Node.transform_of_bare (h.bare m (by rw [kind]; decide))).trans same

theorem rewrites (rewrites : g.Rewrites n m) : g'.Rewrites n m := by
  induction rewrites with
  | itself kind =>
    exact .itself (kind.imp (h.kind · (by decide))
      (Or.imp (h.kind · (by decide)) (h.kind · (by decide))))
  | nothing => exact .nothing
  | settled kind => exact .settled (h.kind kind (by decide))
  | rep kind slot kind' awaited =>
    exact .rep (h.kind kind (by decide)) (h.filled .first slot) (h.kind kind' (by decide))
      (h.awaits .first awaited)
  | alt kind first second kind' awaited awaited' =>
    exact .alt (h.kind kind (by decide)) (h.filled .first first) (h.filled .second second)
      (h.kind kind' (by decide)) (h.awaits .first awaited) (h.awaits .second awaited')
  | passes passes _ ih => exact .passes (h.passes passes) ih
  | cat kind first second kind' awaited awaited' =>
    exact .cat (h.kind kind (by decide)) (h.filled .first first) (h.filled .second second)
      (h.kind kind' (by decide)) (h.awaits .first awaited) (h.awaits .second awaited')
  | head kind first second kind' same awaited =>
    exact .head (h.kind kind (by decide)) (h.filled .first first) (h.filled .second second)
      (h.kind kind' (by decide)) (h.transform kind' same) (h.awaits .first awaited)
  | tail kind first second kind' same awaited =>
    exact .tail (h.kind kind (by decide)) (h.filled .first first) (h.filled .second second)
      (h.kind kind' (by decide)) (h.transform kind' same) (h.awaits .first awaited)
  | red kind slot kind' same awaited =>
    exact .red (h.kind kind (by decide)) (h.filled .first slot) (h.kind kind' (by decide))
      (h.transform kind' (same.trans (h.transform kind rfl).symm)) (h.awaits .first awaited)
  | nested kind slot inner slot' kind' same awaited =>
    rw [← h.transform kind rfl, ← h.transform inner rfl] at same
    exact .nested (h.kind kind (by decide)) (h.filled .first slot) (h.kind inner (by decide))
      (h.filled .first slot') (h.kind kind' (by decide)) (h.transform kind' same)
      (h.awaits .first awaited)
  | headed kind slot inner first second kind' same awaited =>
    rw [← h.transform kind rfl] at same
    exact .headed (h.kind kind (by decide)) (h.filled .first slot) (h.kind inner (by decide))
      (h.filled .first first) (h.filled .second second) (h.kind kind' (by decide))
      (h.transform kind' same) (h.awaits .first awaited)

end Extends

end Graph

end GrammarGraph
