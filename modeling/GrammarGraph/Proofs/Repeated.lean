import GrammarGraph.Proofs.Fringe
import GrammarGraph.Proofs.Sketch.Slim

/-! The language of one symbol, any number of times, by left and by right recursion, and the
witnesses of its sentences: each has one, nested to the left or to the right. -/
namespace GrammarGraph

namespace Forest

theorem numeric_collapse (v : Value) : (collapse v).numeric = collapse v.numeric := by
  cases v with
  | tuple items =>
    rcases items with _ | ⟨v, _ | ⟨w, items⟩⟩ <;> rfl
  | none | bool | int | str | list => rfl

/-- Pairs of equal values are equal. -/
theorem numeric_cons (u v : Value) : (cons u v).numeric = cons u.numeric v.numeric := by
  have share (w : Value) : Value.numericAll (share w) = share w.numeric := by
    unfold Forest.share
    rw [Value.isNothing_numeric]
    split
    · rfl
    · rw [Value.numericAll, numeric_collapse, Value.numericAll]
  have append (us vs : List Value) :
      Value.numericAll (us ++ vs) = Value.numericAll us ++ Value.numericAll vs := by
    induction us with
    | nil => rfl
    | cons u us ih =>
      rw [List.cons_append, Value.numericAll, Value.numericAll, ih, List.cons_append]
  rw [cons, Value.numeric, append, share, share, cons]

end Forest

namespace Value

/-- The value is no tuple. -/
def Solid (v : Value) : Prop :=
  ∀ items, v ≠ .tuple items

variable {x v w : Value}

theorem Solid.numeric (solid : x.Solid) : x.numeric.Solid := by
  cases x with
  | tuple items => exact absurd rfl (solid items)
  | none | bool | int | str | list => exact fun _ => nofun

theorem Solid.leaves (solid : x.Solid) : x.leaves = [x] := by
  cases x with
  | tuple items => exact absurd rfl (solid items)
  | none | bool | int | str | list => rfl

theorem Solid.isNothing (solid : x.Solid) : x.isNothing = false := by
  cases x with
  | tuple items => exact absurd rfl (solid items)
  | none | bool | int | str | list => rfl

theorem Solid.share (solid : x.Solid) : Forest.share x = [x] := by
  unfold Forest.share
  rw [solid.isNothing, if_neg Bool.false_ne_true]
  cases x with
  | tuple items => exact absurd rfl (solid items)
  | none | bool | int | str | list => rfl

theorem Solid.eq_of_leaves (solid : v.Solid) (same : v.numeric = w.numeric)
    (hv : ∀ l ∈ v.leaves, l = x) (hw : ∀ l ∈ w.leaves, l = x) : v = w := by
  have solid' : w.Solid := by
    rintro items rfl
    exact solid.numeric _ same
  rw [solid.leaves] at hv
  rw [solid'.leaves] at hw
  exact (hv v List.mem_cons_self).trans (hw w List.mem_cons_self).symm

mutual

/-- Equal values that are made of one and the same leaf are the same. -/
theorem eq_of_leaves : ∀ {v w : Value}, v.numeric = w.numeric → (∀ l ∈ v.leaves, l = x) →
    (∀ l ∈ w.leaves, l = x) → v = w
  | .tuple vs, w, same, hv, hw => by
    cases w with
    | tuple ws => rw [eq_of_leavesAll (Value.tuple.inj same) hv hw]
    | none | bool | int | str | list => cases same
  | .none, _, same, hv, hw | .bool _, _, same, hv, hw | .int _, _, same, hv, hw
  | .str _, _, same, hv, hw | .list _, _, same, hv, hw =>
    Solid.eq_of_leaves (fun _ => nofun) same hv hw

theorem eq_of_leavesAll : ∀ {vs ws : List Value}, numericAll vs = numericAll ws →
    (∀ l ∈ leavesAll vs, l = x) → (∀ l ∈ leavesAll ws, l = x) → vs = ws
  | [], [], _, _, _ => rfl
  | [], w :: ws, same, _, _ => by cases same
  | v :: vs, [], same, _, _ => by cases same
  | v :: vs, w :: ws, same, hv, hw => by
    obtain ⟨first, rest⟩ := List.cons.inj same
    rw [eq_of_leaves first (fun l member => hv l (List.mem_append_left _ member))
        (fun l member => hw l (List.mem_append_left _ member)),
      eq_of_leavesAll rest (fun l member => hv l (List.mem_append_right _ member))
        (fun l member => hw l (List.mem_append_right _ member))]

end

end Value

/-- One symbol, any number of times: the rest of the sentence is on the given side of a pair. -/
def Term.repeated : Side → Value → Term
  | .first, x => .letrec "l" (.cat [.alt [.trivial, .name "l"], .char x])
  | .second, x => .letrec "l" (.cat [.char x, .alt [.trivial, .name "l"]])

/-- A witness with the symbol beside it. -/
def Side.attach : Side → Value → Value → Value
  | .first, x, w => Forest.cons w x
  | .second, x, w => Forest.cons x w

/-- The witness of a symbol and `k` more of them. -/
def Side.nested (side : Side) (x : Value) (k : Nat) : Value :=
  (side.attach x)^[k] (.tuple [x])

/-- The nodes of the grammar, node 2 first of all. -/
def Bench.repeated (side : Side) (x : Value) : Bench :=
  let rest : Node := { kind := .alt, first := .node 1, second := .node 2 }
  let unit : Node := { kind := .char, symbol := x }
  let begun : Bench := { grown {} (Graph.addNode { kind := .placeholder } {}) with opened := [2] }
  let one := begun.grown (begun.graph.addNode (match side with | .first => rest | .second => unit))
  let two := one.grown (one.graph.addNode (match side with | .first => unit | .second => rest))
  let both := two.grown (two.graph.addNode { kind := .cat, first := .node 3, second := .node 4 })
  { both with graph := both.graph.become 2 5, opened := [] }

namespace Bench

variable {side : Side} {x : Value}

theorem repeated_composed (side : Side) (x : Value) (permitted : Bench → Call → Prop) :
    (repeated side x).Composed Construction.Free permitted := by
  cases side with
  | first =>
    exact .complete (.construct (.cat [3, 4]) (.construct (.char x) (.construct (.alt [1, 2])
      (.begin .start rfl) trivial (by simp [grown, Construction.operands]) rfl)
      trivial (by simp [Construction.operands]) rfl)
      trivial (by simp [grown, Construction.operands]) rfl)
      rfl (show Bench.built _ 5 by simp [grown]) rfl
  | second =>
    exact .complete (.construct (.cat [3, 4]) (.construct (.alt [1, 2]) (.construct (.char x)
      (.begin .start rfl) trivial (by simp [Construction.operands]) rfl)
      trivial (by simp [grown, Construction.operands]) rfl)
      trivial (by simp [grown, Construction.operands]) rfl)
      rfl (show Bench.built _ 5 by simp [grown]) rfl

theorem repeated_built (side : Side) (x : Value) : (repeated side x).built 2 := by
  cases side <;> simp [repeated, grown]

/-- The description of the grammar is built as the bench builds it. -/
theorem build_repeated (side : Side) (x : Value) (ask : Ask) :
    (Term.repeated side x).build ask [] {} = some (.ok (.node 2), (repeated side x).graph) := by
  cases side <;> rfl

end Bench

namespace Derives

variable {ω : Type} {A : Worth ω} {look : NodeId → Node} {n a b : NodeId} {s : List Value} {w : ω}

theorem of_eps (kind : (look n).kind = .eps) (h : Derives A look n s w) :
    s = [] ∧ A.eps (look n).witnesses w := by
  cases h with
  | eps _ worth => exact ⟨rfl, worth⟩
  | _ => exact absurd (kind.symm.trans ‹(look n).kind = _›) (by decide)

theorem of_char (kind : (look n).kind = .char) (h : Derives A look n s w) :
    ∃ c, s = [c] ∧ (look n).symbol.same c = true ∧ A.symbol c w := by
  cases h with
  | char _ same worth => exact ⟨_, rfl, same, worth⟩
  | _ => exact absurd (kind.symm.trans ‹(look n).kind = _›) (by decide)

theorem of_alt (kind : (look n).kind = .alt) (first : (look n).first = .node a)
    (second : (look n).second = .node b) (h : Derives A look n s w) :
    Derives A look a s w ∨ Derives A look b s w := by
  cases h with
  | alt side _ slot derives =>
    cases side with
    | first => cases first.symm.trans slot; exact .inl derives
    | second => cases second.symm.trans slot; exact .inr derives
  | _ => exact absurd (kind.symm.trans ‹(look n).kind = _›) (by decide)

theorem of_cat (kind : (look n).kind = .cat) (first : (look n).first = .node a)
    (second : (look n).second = .node b) (h : Derives A look n s w) :
    ∃ s₁ s₂ u v, s = s₁ ++ s₂ ∧ w = A.pair u v ∧ Derives A look a s₁ u ∧ Derives A look b s₂ v := by
  cases h with
  | cat _ slot slot' du dv =>
    cases first.symm.trans slot
    cases second.symm.trans slot'
    exact ⟨_, _, _, _, rfl, rfl, du, dv⟩
  | _ => exact absurd (kind.symm.trans ‹(look n).kind = _›) (by decide)

end Derives

namespace Side

variable {x w : Value} {k : Nat}

theorem nested_succ (side : Side) (x : Value) (k : Nat) :
    side.nested x (k + 1) = side.attach x (side.nested x k) :=
  Function.iterate_succ_apply' ..

theorem attach_nothing (side : Side) (solid : x.Solid) :
    side.attach x .nothing = side.nested x 0 := by
  have share := solid.share
  cases side <;> simp [attach, nested, Forest.cons, share] <;> rfl

/-- Equal symbols beside equal witnesses. -/
theorem numeric_attach (side : Side) {v : Value} (same : w.numeric = v.numeric) {c : Value}
    (symbol : c.numeric = x.numeric) : (side.attach c w).numeric = (side.attach x v).numeric := by
  cases side <;> simp [attach, Forest.numeric_cons, same, symbol]

theorem leaves_attach (side : Side) (solid : x.Solid) (leaves : ∀ l ∈ w.leaves, l = x) :
    ∀ l ∈ (side.attach x w).leaves, l = x := by
  have here := solid.leaves
  cases side <;> simpa [attach, Forest.leaves_cons, here, or_imp, forall_and] using leaves

theorem leaves_nested (side : Side) (solid : x.Solid) (k : Nat) :
    ∀ l ∈ (side.nested x k).leaves, l = x := by
  induction k with
  | zero =>
    rw [← attach_nothing side solid]
    exact leaves_attach side solid fun l none => nomatch none
  | succ k ih =>
    rw [nested_succ]
    exact leaves_attach side solid ih

/-- The node for what may stand beside the symbol, and the node for the symbol. -/
def rest : Side → NodeId × NodeId
  | .first => (3, 4)
  | .second => (4, 3)

end Side

namespace Bench

variable {side : Side} {x w : Value} {s : List Value}

theorem repeated_nodes (side : Side) (x : Value) :
    (repeated side x).graph.node 1 = { kind := .eps, witnesses := Forest.trivial } ∧
    (repeated side x).graph.node 2 = { kind := .cat, first := .node 3, second := .node 4 } ∧
    (repeated side x).graph.node side.rest.1 =
      { kind := .alt, first := .node 1, second := .node 2 } ∧
    (repeated side x).graph.node side.rest.2 = { kind := .char, symbol := x } := by
  cases side <;> exact ⟨rfl, rfl, rfl, rfl⟩

/-- A sentence is one symbol with what may stand beside it. -/
theorem yields_repeated_cases (h : (repeated side x).graph.Yields 2 s w) :
    ∃ t c u v, c.numeric = x.numeric ∧ v.numeric = x.numeric ∧
      (side = .first ∧ s = t ++ [c] ∨ side = .second ∧ s = c :: t) ∧ w = side.attach v u ∧
      (t = [] ∧ u = .nothing ∨ (repeated side x).graph.Yields 2 t u) := by
  obtain ⟨nothing, pair, before, unit⟩ := repeated_nodes side x
  have symbol {t : List Value} {v : Value} (h : (repeated side x).graph.Yields side.rest.2 t v) :
      ∃ c, t = [c] ∧ c.numeric = x.numeric ∧ v.numeric = x.numeric := by
    obtain ⟨c, rfl, same, worth⟩ := h.of_char (by rw [unit])
    rw [unit] at same
    have here : x.numeric = c.numeric := (Value.same_iff x c).mp same
    have there : c.numeric = v.numeric := (Value.same_iff c v).mp worth
    exact ⟨c, rfl, here.symm, (here.trans there).symm⟩
  have beside {t : List Value} {u : Value} (h : (repeated side x).graph.Yields side.rest.1 t u) :
      t = [] ∧ u = .nothing ∨ (repeated side x).graph.Yields 2 t u := by
    rcases h.of_alt (by rw [before]) (by rw [before]) (by rw [before]) with none | more
    · obtain ⟨rfl, member⟩ := none.of_eps (by rw [nothing])
      rw [nothing] at member
      exact .inl ⟨rfl, List.mem_singleton.mp member⟩
    · exact .inr more
  obtain ⟨s₁, s₂, u, v, rfl, rfl, first, second⟩ :=
    h.of_cat (by rw [pair]) (by rw [pair]) (by rw [pair])
  cases side with
  | first =>
    obtain ⟨c, rfl, same, worth⟩ := symbol second
    exact ⟨s₁, c, u, v, same, worth, .inl ⟨rfl, rfl⟩, rfl, beside first⟩
  | second =>
    obtain ⟨c, rfl, same, worth⟩ := symbol first
    exact ⟨s₂, c, v, u, same, worth, .inr ⟨rfl, rfl⟩, rfl, beside second⟩

/-- A sentence holds nothing but the symbol, and its witness is, up to equality of values, the
nested one. -/
theorem yields_repeated (solid : x.Solid) {s : List Value} {w : Value}
    (h : (repeated side x).graph.Yields 2 s w) :
    ∃ k, s.length = k + 1 ∧ (∀ c ∈ s, c.numeric = x.numeric) ∧
      w.numeric = (side.nested x k).numeric := by
  obtain ⟨t, c, u, v, same, worth, ends, rfl, rest⟩ := yields_repeated_cases h
  have length : s.length = t.length + 1 := by
    rcases ends with ⟨-, rfl⟩ | ⟨-, rfl⟩ <;> simp
  have members : (∀ d ∈ t, d.numeric = x.numeric) → ∀ d ∈ s, d.numeric = x.numeric := by
    rcases ends with ⟨-, rfl⟩ | ⟨-, rfl⟩ <;> simp +contextual [same, or_imp]
  rcases rest with ⟨rfl, rfl⟩ | rest
  · refine ⟨0, length, members nofun, ?_⟩
    rw [← Side.attach_nothing side solid]
    exact side.numeric_attach rfl worth
  · have shorter : t.length < s.length := by omega
    obtain ⟨k, long, alike, witness⟩ := yields_repeated solid rest
    refine ⟨k + 1, by rw [length, long], members alike, ?_⟩
    rw [Side.nested_succ]
    exact side.numeric_attach witness worth
termination_by s.length

end Bench

end GrammarGraph
