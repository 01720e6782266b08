import GrammarGraph.Proofs.Boolless
import GrammarGraph.Proofs.Exactness.Forcing
import GrammarGraph.Proofs.Soundness

/-! Exactness of derivatives along every history of building, reading children and taking
derivatives: the derivative of a node gives what the node gives after the symbol, no less
and no more. -/
namespace GrammarGraph

open RunOf (Gives)
open Layered (Settled)

variable {ω : Type} {A : Worth ω} {P : Value → Prop} {layer layer' : NodeId → Nat}
  {g g' : Graph} {c : Value} {n d : NodeId} {s : List Value} {w : ω}

theorem Graph.membership_attests : Attests P .membership :=
  fun _ _ _ => ⟨fun _ => trivial, fun _ => trivial⟩

theorem Graph.literal_attests (boolless : ∀ v, P v → v.boolless = true) :
    Attests P .literal := by
  intro c c' w hc hc' equal
  rw [Value.eq_of_same (boolless c' hc') (boolless c hc) equal]
  exact List.mem_singleton

namespace Layered

/-- Nodes in layer 0 derive what they derived before slots were filled. -/
theorem derives_back (h : Layered P layer g) (complete : g.Complete) (since : g.Extends g')
    (der : Derives A g'.node n s w) : layer n = 0 → n < g.nodes.size → Derives A g.node n s w := by
  have bare {n : NodeId} (lt : n < g.nodes.size) := since.bare n (complete n lt)
  have kind {n : NodeId} {kind : Kind} (lt : n < g.nodes.size) (hk : (g'.node n).kind = kind) :
      (g.node n).kind = kind := (Node.kind_of_bare (bare lt)).symm.trans hk
  have child {n a : NodeId} (side : Side) (zero : layer n = 0) (member : side ∈ (g.node n).sides)
      (slot : (g'.node n).slot side = .node a) :
      (g.node n).slot side = .node a ∧ layer a = 0 ∧ a < g.nodes.size := by
    rcases since.slot n side (h.slots n side member) with same | ⟨_, _, old, _, _⟩
    · rw [same] at slot
      exact ⟨slot, Nat.le_zero.mp (zero ▸ h.below slot), h.formed.node_lt slot⟩
    · obtain ⟨_, _, _, _, lower⟩ := h.deferred old
      rw [zero] at lower
      cases lower
  induction der with
  | eps hk hw =>
    exact fun _ lt => .eps (kind lt hk) (Node.witnesses_of_bare (bare lt) ▸ hw)
  | char hk same hw =>
    exact fun _ lt => .char (kind lt hk) (Node.symbol_of_bare (bare lt) ▸ same) hw
  | @alt n a t w side hk slot _ ih =>
    intro zero lt
    have hk := kind lt hk
    obtain ⟨slot, zero, lt⟩ := child side zero (by cases side <;> simp [Node.sides, hk]) slot
    exact .alt side hk slot (ih zero lt)
  | @cat n a b s u t v hk first second _ _ ih ih' =>
    intro zero lt
    have hk := kind lt hk
    obtain ⟨slot, zeroA, ltA⟩ := child .first zero (by simp [Node.sides, hk]) first
    obtain ⟨slot', zeroB, ltB⟩ := child .second zero (by simp [Node.sides, hk]) second
    exact .cat hk slot slot' (ih zeroA ltA) (ih' zeroB ltB)
  | repNone hk => exact fun _ lt => .repNone (kind lt hk)
  | @repMore n a c s u t v hk slot _ _ ih ih' =>
    intro zero lt
    have hk := kind lt hk
    obtain ⟨slot, zeroA, ltA⟩ := child .first zero (by simp [Node.sides, hk]) slot
    exact .repMore hk slot (ih zeroA ltA) (ih' zero lt)
  | @delta n a w hk slot _ ih =>
    intro zero lt
    have hk := kind lt hk
    obtain ⟨slot, zero, lt⟩ := child .first zero (by simp [Node.sides, hk]) slot
    exact .delta hk slot (ih zero lt)
  | @red n a s v w hk slot _ image ih =>
    intro zero lt
    have hk' := kind lt hk
    obtain ⟨slot, zero, lt'⟩ := child .first zero (by simp [Node.sides, hk']) slot
    exact .red hk' slot (ih zero lt') (Node.transform_of_bare (bare lt) ▸ image)

variable (hashable : ∀ c, P c → c.hashable = true)
include hashable

/-- The derivative gives what the node gives after the symbol. -/
theorem Settled.derivative (h : Settled P layer g) (attests : Graph.Attests P A) (hp : P c)
    (found : g.derivatives.find? n c = some d) (s : List Value) (w : ω) :
    g.Means A d s w ↔ g.Means A n (c :: s) w := by
  constructor
  · rintro ⟨g', forces, der⟩
    obtain ⟨layer', forced⟩ := h.forces hashable forces
    have layered := forced.settled.layered
    exact ⟨g', forces, Graph.Role.derives attests hp layered.formed.empty
      (fun hd => (layered.memo hd).2.2.2) der
      (layered.memo (forced.extends_.memo found)).2.2.2.role⟩
  · rintro ⟨g', forces, der⟩
    obtain ⟨layer', forced⟩ := h.forces hashable forces
    obtain ⟨layer'', g'', forced', der'⟩ := der.owed hashable attests rfl hp forced.settled
      (.refl g') (forced.extends_.memo found)
    exact ⟨g'', (forced.trans forced').forces, der'⟩

end Layered

namespace Bench

variable {b : Bench}

/-- Children are read and derivatives taken by symbols in `P`, while no definition is open. -/
def Differentiates (P : Value → Prop) (b : Bench) : Call → Prop
  | .query (.child n side) => b.opened = [] ∧ side ∈ (b.graph.node n).sides
  | .query (.derive c _) => b.opened = [] ∧ P c
  | _ => False

/-- Built nodes lie in layer 0, and only open definitions are placeholders. -/
structure Stacked (P : Value → Prop) (layer : NodeId → Nat) (built : NodeId → Prop)
    (opened : List NodeId) (g : Graph) : Prop where
  layered : Layered P layer g
  idle : g.Idle
  built : ∀ n, built n → n < g.nodes.size ∧ layer n = 0
  opened : ∀ n < g.nodes.size, (g.node n).kind = .placeholder → n ∈ opened

namespace Stacked

variable {built : NodeId → Prop} {opened : List NodeId}

theorem initial : Stacked P (fun _ => 0) (fun n => n = .empty ∨ n = .eps) [] {} := by
  have atomic := Graph.atomic_initial
  have layered : Layered P (fun _ => 0) {} :=
    { formed := Graph.initial_formed
      atoms := ⟨rfl, rfl⟩
      known := fun n name other => by
        have := atomic n
        rw [other] at this
        cases this
      slots := fun n side member => by
        rw [Node.sides_of_atomic (atomic n)] at member
        cases member
      below := fun _ => Nat.le_refl 0
      deferred := fun slot => by
        rw [Graph.slot_initial] at slot
        cases slot
      asked := fun hs => by
        rw [Graph.suspension_initial] at hs
        cases hs
      memo := fun found => nomatch found
      started := fun started => nomatch started }
  refine ⟨layered, ⟨fun cell => by simp [Graph.isForcing], rfl⟩, fun n built => ⟨?_, rfl⟩,
    fun n lt open_ => ?_⟩
  · rcases built with rfl | rfl <;> decide
  · rcases Nat.le_one_iff_eq_zero_or_eq_one.mp (Nat.le_of_lt_succ lt) with rfl | rfl <;> cases open_

variable (h : Stacked P layer built opened g)
include h

theorem lay (node : Node) (concrete : node.Concrete built)
    (complete : node.kind = .placeholder → g.nodes.size ∈ opened) :
    ∃ layer', Stacked P layer' (fun k => built k ∨ k = g.nodes.size) opened (g.addNode node) := by
  have fits (side : Side) : (node.slot side).Fits layer g 0 := by
    by_cases member : side ∈ node.sides
    · obtain ⟨k, slot, made⟩ := concrete.child side member
      rw [slot]
      exact ⟨(h.built k made).1, Nat.le_of_eq (h.built k made).2⟩
    · rw [concrete.vacant side member]
      exact True.intro
  obtain ⟨later, layered⟩ := h.layered.addNode concrete.kind (fun side member => by
    obtain ⟨k, slot, _⟩ := concrete.child side member
    rw [slot]
    exact Slot.noConfusion) fits
  refine ⟨_, layered, later.idle h.idle, fun n made => ?_, fun n lt open_ => ?_⟩
  · rcases made with made | rfl
    · obtain ⟨lt, zero⟩ := h.built n made
      exact ⟨Nat.lt_of_lt_of_le lt later.extends_.size, (later.layer n lt).trans zero⟩
    · rw [Graph.nodes_addNode, Array.size_push]
      exact ⟨Nat.lt_succ_self _, if_pos rfl⟩
  · rw [Graph.node_addNode] at open_
    split at open_
    · next last => rw [last]; exact complete open_
    · next other =>
      rw [Graph.nodes_addNode, Array.size_push] at lt
      exact h.opened n (Nat.lt_of_le_of_ne (Nat.le_of_lt_succ lt) other) open_

theorem keep (later : Layered.Later layer g layer' g') (layered : Layered P layer' g')
    (complete : g'.Complete) : Stacked P layer' built opened g' where
  layered := layered
  idle := later.idle h.idle
  built n made :=
    let ⟨lt, zero⟩ := h.built n made
    ⟨Nat.lt_of_lt_of_le lt later.extends_.size, (later.layer n lt).trans zero⟩
  opened n lt open_ := absurd open_ (complete n lt)

theorem settled (none : opened = []) : Settled P layer g :=
  ⟨h.layered, fun n lt open_ => List.not_mem_nil (none ▸ h.opened n lt open_), h.idle⟩

end Stacked

/-- Symbols that can be taken. -/
def Hashed (P : Value → Prop) (c : Value) : Prop :=
  P c ∧ c.hashable = true

theorem Stacked.call (h : Stacked (Hashed P) layer b.built b.opened b.graph) {call : Call}
    {bound : Nat} {result : Except Fault Unit} (permitted : Differentiates P b call)
    (lt : call.node < b.graph.nodes.size)
    (ends : call.run (Engine.run bound) b.graph = some (result, g)) :
    ∃ layer', Stacked (Hashed P) layer' b.built b.opened g := by
  have hashable (c : Value) : Hashed P c → c.hashable = true := And.right
  -- A query that can only end well has ended well.
  have asked {q : Query} {Q : (NodeId → Nat) → Graph → q.Answer → Prop}
      (answers : (layering (Hashed P)).Ends layer b.graph (fun ask => ask q) Q)
      (ends : (Call.query q).run (Engine.run bound) b.graph = some (result, g)) :
      ∃ layer', Stacked (Hashed P) layer' b.built b.opened g := by
    obtain ⟨a, g', ⟨least, gives⟩, layer', later, valid, _⟩ := answers
    change (Engine.run bound q >>= _) b.graph = _ at ends
    rw [RunOf.bind_run] at ends
    obtain ⟨⟨first, g₁⟩, hfirst, hrest⟩ := Option.bind_eq_some_iff.mp ends
    cases Engine.run_unique hfirst (gives least (Nat.le_refl _))
    cases hrest
    exact ⟨layer', h.keep later valid.1 valid.2⟩
  cases call with
  | query q =>
    cases q with
    | child n side =>
      obtain ⟨done, member⟩ := permitted
      exact asked ((h.settled done).child hashable member) ends
    | derive c n =>
      obtain ⟨done, hp⟩ := permitted
      cases key : c.hashable with
      | true => exact asked ((h.settled done).derive hashable lt ⟨hp, key⟩) ends
      | false =>
        cases bound with
        | zero => cases ends
        | succ bound =>
          have unhashed : c.hashed = .error .unhashable := by simp [Value.hashed, key]
          change (Memo.demand _ _ _ _ _ >>= _) b.graph = _ at ends
          rw [Memo.demand, unhashed] at ends
          cases ends
          exact ⟨layer, h⟩
    | _ => exact permitted.elim
  | _ => exact permitted.elim

theorem Reached.stacked (h : b.Reached (Differentiates P)) :
    ∃ layer, Stacked (Hashed P) layer b.built b.opened b.graph := by
  induction h with
  | refl => exact ⟨_, .initial⟩
  | @tail b b' reached step ih =>
    obtain ⟨layer, stacked⟩ := ih
    have tended := Reached.tended Worth.membership_embeds reached
    cases step with
    | @construct n g c built ends =>
      have laid := (c.laid tended.atoms.1 tended.atoms.2 built ends).1
      refine laid.preserves (P := fun built g => ∃ layer, Stacked (Hashed P) layer built b.opened g)
        (Nat.le_refl _) ⟨layer, ?_⟩ fun fit concrete ⟨_, stacked⟩ =>
          stacked.lay _ concrete fun open_ => absurd open_ fit.complete
      refine { stacked with built := fun k made => ?_ }
      exact stacked.built k (made.resolve_right fun range =>
        Nat.lt_irrefl _ (Nat.lt_of_le_of_lt range.1 range.2))
    | @begin n g ends =>
      obtain ⟨rfl, rfl⟩ := Run.make_ok ends
      have widened : Stacked (Hashed P) layer b.built (b.graph.nodes.size :: b.opened) b.graph :=
        { stacked with
          opened := fun k lt open_ => List.mem_cons_of_mem _ (stacked.opened k lt open_) }
      obtain ⟨layer', stacked'⟩ := widened.lay { kind := .placeholder }
        ⟨fun _ => Kind.noConfusion, fun _ none => (by cases none),
          fun side _ => by cases side <;> rfl⟩ fun _ => List.mem_cons_self
      refine ⟨layer', { stacked' with built := fun k made => stacked'.built k ?_ }⟩
      refine made.imp_right fun range => ?_
      have lt := range.2
      rw [Graph.nodes_addNode, Array.size_push] at lt
      exact Nat.le_antisymm (Nat.le_of_lt_succ lt) range.1
    | @complete n body rest g opened built ends =>
      obtain ⟨compound, rfl⟩ := Grammar.define_ok ends
      obtain ⟨made, open_⟩ := tended.opened n (by rw [opened]; exact List.mem_cons_self)
      obtain ⟨lt, zero⟩ := stacked.built n made
      obtain ⟨_, sound⟩ := tended.now
      have vacant (side : Side) : (b.graph.node n).slot side = .vacant :=
        (sound.concrete made).vacant side (by simp [Node.sides, open_])
      obtain ⟨later, layered⟩ :=
        stacked.layered.become open_ vacant ((stacked.built body built).2.trans zero.symm)
      refine ⟨layer, layered, later.idle stacked.idle, fun k made => ?_, fun k klt unknown => ?_⟩
      · rw [Graph.nodes_size_become]
        exact stacked.built k made
      · rw [Graph.node_become body lt] at unknown
        rw [Graph.nodes_size_become] at klt
        split at unknown
        · rw [unknown] at compound; cases compound
        · next other =>
          have member := stacked.opened k klt unknown
          rw [opened] at member
          exact (List.mem_cons.mp member).resolve_left other
    | call bound c permitted lt ends => exact stacked.call permitted lt ends
    | journal journal =>
      obtain ⟨_, layered⟩ : b.graph.Extends { b.graph with journal } ∧
          Layered (Hashed P) layer { b.graph with journal } :=
        stacked.layered.books rfl (fun _ => rfl) rfl (fun hd => hd) stacked.layered.memo
          stacked.layered.started fun _ => Evaluator.of_journal journal
      exact ⟨layer, { stacked with layered, idle := ⟨stacked.idle.forcing, stacked.idle.started⟩ }⟩

/-- A derivative by any symbol can be taken, and it gives exactly what the node gives after the
symbol: the same sentences always, and the same witnesses where no truth values occur. What
the built nodes give stays what can be derived from them as they were built. -/
theorem derive_exact (reached : b.Reached (Differentiates P)) (complete : b.opened = [])
    (lt : n < b.graph.nodes.size) (hp : P c) (hashable : c.hashable = true) :
    ∃ d g, Gives (fun ask => ask (.derive c n)) b.graph d g ∧
      (∀ s, g.Means .membership d s () ↔ g.Means .membership n (c :: s) ()) ∧
      ((∀ v, P v → v.boolless = true) →
        ∀ s w, g.Means .literal d s w ↔ g.Means .literal n (c :: s) w) ∧
      (b.built n → ∀ {ω : Type} (A : Worth ω) s w,
        g.Means A n s w ↔ Derives A b.graph.node n s w) := by
  have keys (c : Value) : Hashed P c → c.hashable = true := And.right
  obtain ⟨layer, stacked⟩ := reached.stacked
  have settled := stacked.settled complete
  obtain ⟨d, g, gives, layer', later, valid, found⟩ := settled.derive keys lt ⟨hp, hashable⟩
  have settled' : Settled (Hashed P) layer' g := ⟨valid.1, valid.2, later.idle settled.idle⟩
  refine ⟨d, g, gives, fun s => ?_, fun boolless s w => ?_, fun made ω A s w => ⟨?_, fun der => ?_⟩⟩
  · exact settled'.derivative keys Graph.membership_attests ⟨hp, hashable⟩ found s ()
  · exact settled'.derivative keys (Graph.literal_attests fun v hv => boolless v hv.1)
      ⟨hp, hashable⟩ found s w
  · rintro ⟨g', forces, der⟩
    obtain ⟨_, forced⟩ := settled'.forces keys forces
    obtain ⟨nlt, zero⟩ := stacked.built n made
    exact settled.layered.derives_back settled.complete (later.extends_.trans forced.extends_) der
      zero nlt
  · exact ⟨g, .refl, later.extends_.derives der⟩

theorem derive_exact_ones : ones.Reached (Differentiates fun v => v.boolless = true) ∧
    ones.opened = [] ∧ 2 < ones.graph.nodes.size ∧ (Value.int 1).boolless = true ∧
    (Value.int 1).hashable = true ∧ ∃ d g, Gives (fun ask => ask (.derive (.int 1) 2)) ones.graph d g ∧
      g.Means .literal d [] (.tuple [.int 1]) := by
  have reached := ones_reached (Differentiates fun v => v.boolless = true)
  have lt : 2 < ones.graph.nodes.size := by decide
  obtain ⟨d, g, gives, _, witnesses, built⟩ :=
    derive_exact reached rfl lt (c := .int 1) rfl rfl
  refine ⟨reached, rfl, lt, rfl, rfl, d, g, gives, (witnesses (fun _ h => h) _ _).mpr ?_⟩
  refine (built ones_built _ _ _).mpr (.alt .second (a := 4) rfl rfl ?_)
  have one : Derives .literal ones.graph.node 3 [.int 1] (.int 1) := .char rfl rfl rfl
  have none : Derives .literal ones.graph.node 2 [] .nothing :=
    .alt .first (a := 1) rfl rfl (.eps rfl List.mem_cons_self)
  exact .cat (a := 3) (b := 2) rfl rfl rfl one none

end Bench

end GrammarGraph
