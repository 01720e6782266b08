import GrammarGraph.Proofs.Constructors
import GrammarGraph.Proofs.Exactness.Making

/-! Derivatives and children are computed without a fault. A derivative needs the children of
its node, and a deferred child the derivative of a child of a node in a lower layer. What is
in progress lies high enough never to be needed, so no computation waits for itself. -/
namespace GrammarGraph

open GrammarGraph.Graph (Promises)

variable {P : Value → Prop} {layer layer' : NodeId → Nat} {g g' : Graph} {c : Value} {n d : NodeId}

/-- The child on a side is read. -/
def Graph.Read (g : Graph) (n : NodeId) (side : Side) (k : Option NodeId) : Prop :=
  ∃ j, k = some j ∧ (g.node n).slot side = .node j

theorem Busy.mono {low low' high high' : Nat} (h : Busy layer g high high') (le : low ≤ high)
    (le' : low' ≤ high') : Busy layer g low low' :=
  ⟨fun hs held => Nat.le_trans le (h.forcing hs held), fun member =>
    Nat.le_trans le' (h.started member)⟩

theorem Busy.mark {v : Nat} {m : NodeId} {side : Side} {cell : CellId} (busy : Busy layer g v v)
    (suspended : g.suspension? cell = some (.derivative c m side)) (below : layer m < v) :
    Busy layer (g.setForcing cell true) (layer m) v := by
  refine ⟨fun hs held => ?_, busy.started⟩
  rw [Graph.suspension_setForcing] at hs
  rw [Graph.isForcing_setForcing _ (Graph.lt_of_suspension suspended)] at held
  split at held
  · next same =>
    subst same
    cases hs.symm.trans suspended
    exact Nat.le_refl _
  · exact Nat.le_of_lt (Nat.lt_of_lt_of_le below (busy.forcing hs held))

theorem Busy.start {v : Nat} (busy : Busy layer g v (v + 1)) (lies : layer n = v) :
    Busy layer (Held.derivatives.modify (Memo.start n c) g) v v := by
  refine ⟨busy.forcing, fun member => ?_⟩
  rcases List.mem_cons.mp member with same | member
  · cases same
    exact Nat.le_of_eq lies.symm
  · exact Nat.le_of_succ_le (busy.started member)

theorem Graph.Settled.unique {s : Suspension} {j k : NodeId} (h : g.Settled s j)
    (h' : g.Settled s k) : j = k := by
  cases s with
  | derivative =>
    obtain ⟨i, slot, found⟩ := h
    obtain ⟨i', slot', found'⟩ := h'
    obtain rfl := Slot.node.inj (slot.symm.trans slot')
    exact Option.some.inj (found.symm.trans found')
  | compacted => exact Option.some.inj (h.2.symm.trans h'.2)
  | term => exact h.elim

namespace Layered

/-- A result for `n`, one layer above it at most. -/
structure Derived (P : Value → Prop) (layer : NodeId → Nat) (g : Graph) (c : Value)
    (n d : NodeId) : Prop where
  lt : d < g.nodes.size
  low : layer d ≤ layer n + 1
  derivative : g.Derivative P c n d

theorem empty_low (h : Layered P layer g) (v : Nat) : layer .empty ≤ v := by
  rw [h.atoms.1]
  exact Nat.zero_le v

theorem empty_ready (h : Layered P layer g) (v : Nat) :
    (Operand.node .empty).Ready P layer g v :=
  ⟨h.formed.empty_lt, h.empty_low v⟩

theorem empty_derived (h : Layered P layer g) (derivative : g.Derivative P c n .empty) :
    Derived P layer g c n .empty :=
  ⟨h.formed.empty_lt, h.empty_low _, derivative⟩

theorem Later.low (later : Later layer g layer' g') {kind : Kind} {d : NodeId}
    (lt : n < g.nodes.size) (made : Made layer' g' (layer n + 1) kind d) :
    layer' d ≤ layer' n + 1 :=
  Nat.le_of_eq (made.lies.trans (by rw [later.layer n lt]))

/-- The deferred derivative of a child of `n`. -/
theorem ready_later (hp : P c) (known : (g.node n).kind ≠ .placeholder) {side : Side}
    (member : side ∈ (g.node n).sides) :
    (Operand.deferred (.derivative c n side)).Ready P layer g (layer n + 1) :=
  ⟨hp, known, member, Nat.lt_succ_self _⟩

theorem eps_ends (valid : (layering P).Valid layer g) (hashable : c.hashable = true)
    (v : Nat) :
    (layering P).Ends layer g (fun _ => Grammar.eps [c]) fun layer' g' d =>
      d < g'.nodes.size ∧ layer' d ≤ v ∧ (g'.node d).kind = .eps ∧ (g'.node d).witnesses = [c] := by
  have forest : Forest.ofWitnesses [c] = .ok [c] :=
    Forest.ofWitnesses_ok.mpr ⟨by simpa using hashable, rfl⟩
  unfold Grammar.eps
  rw [forest]
  refine .ok ?_
  split
  · next trivial =>
    have formed := valid.1.formed
    refine .pure valid ⟨formed.eps_lt, valid.1.atoms.2 ▸ Nat.zero_le v, formed.eps, ?_⟩
    rw [formed.trivial, Forest.trivial, List.mem_singleton.mp (Forest.nothing_mem trivial)]
  · refine .imp (make_ends valid { kind := .eps, witnesses := [c] } (by simp) (by simp)
      (fun _ none => nomatch none) fun side => by cases side <;> exact True.intro)
      fun _ g' d _ _ ⟨made, same⟩ => ⟨made.lt, Nat.le_of_eq made.lies, made.kind, by rw [same]⟩

theorem vanish_ends (valid : (layering P).Valid layer g) {a : NodeId} {v : Nat}
    (ready : (Operand.node a).Ready P layer g v) :
    (layering P).Ends layer g (fun _ => Grammar.delta (.node a)) fun layer' g' k =>
      (Operand.node k).Ready P layer' g' v ∧ g'.Vanishes a k := by
  refine .reuse valid (fun n found => ?_) fun _ =>
    .imp (single_ends valid (.inl rfl) ready) fun layer' g' k _ _ ⟨made, first, _⟩ =>
      ⟨⟨made.lt, Nat.le_of_eq made.lies⟩, .delta made.kind first⟩
  obtain ⟨kind, rfl⟩ | ⟨⟨⟩, kind⟩ := Grammar.deltaShortcut_cases found
  · exact ⟨valid.1.empty_ready v, .nothing (kind.imp Option.some.inj Option.some.inj) rfl⟩
  · exact ⟨ready, .itself kind rfl⟩

theorem skip_ends (valid : (layering P).Valid layer g) {k : NodeId} {v : Nat}
    (ready : (Operand.node k).Ready P layer g v)
    (later : (Operand.deferred (.derivative c n .second)).Ready P layer g v) :
    (layering P).Ends layer g
      (fun _ => Grammar.cat (.node k) (.deferred (.derivative c n .second))) fun layer' g' d =>
      (Operand.node d).Ready P layer' g' v ∧ g'.Skips P c n k d := by
  refine .reuse valid (fun n found => ?_) fun _ =>
    .imp (pair_ends valid (.inl rfl) ready later) fun layer' g' d _ _ ⟨made, first, second⟩ =>
      ⟨⟨made.lt, Nat.le_of_eq made.lies⟩, .cat made.kind first second⟩
  rw [Grammar.catShortcut_node_deferred, Option.ite_none_right_eq_some] at found
  obtain ⟨kind, ⟨⟩⟩ := found
  exact ⟨valid.1.empty_ready v, .nothing kind rfl⟩

theorem take_ends (valid : (layering P).Valid layer g) {k : NodeId} {v : Nat}
    (ready : (Operand.node k).Ready P layer g v)
    (later : (Operand.deferred (.derivative c n .first)).Ready P layer g v) :
    (layering P).Ends layer g
      (fun _ => Grammar.cat (.deferred (.derivative c n .first)) (.node k)) fun layer' g' d =>
      (Operand.node d).Ready P layer' g' v ∧ g'.Takes P c n k d := by
  refine .reuse valid (fun n found => ?_) fun _ =>
    .imp (pair_ends valid (.inl rfl) later ready) fun layer' g' d _ _ ⟨made, first, second⟩ =>
      ⟨⟨made.lt, Nat.le_of_eq made.lies⟩, .cat made.kind first second⟩
  rw [Grammar.catShortcut_deferred_node, Option.ite_none_right_eq_some] at found
  obtain ⟨kind, ⟨⟩⟩ := found
  exact ⟨valid.1.empty_ready v, .nothing kind rfl⟩

theorem join_ends (valid : (layering P).Valid layer g) {a b : NodeId} {v : Nat}
    (first : (Operand.node a).Ready P layer g v) (second : (Operand.node b).Ready P layer g v) :
    (layering P).Ends layer g (fun _ => Grammar.alt (.node a) (.node b)) fun layer' g' d =>
      (Operand.node d).Ready P layer' g' v ∧ g'.Joins a b d := by
  refine .reuse valid (fun n found => ?_) fun _ =>
    .imp (pair_ends valid (.inr rfl) first second) fun layer' g' d _ _ ⟨made, first, second⟩ =>
      ⟨⟨made.lt, Nat.le_of_eq made.lies⟩, .alt made.kind first second⟩
  obtain ⟨_, _, ⟨⟩, ⟨⟩, ⟨kind, rfl⟩ | ⟨-, kind, rfl⟩⟩ := Grammar.altShortcut_cases found
  · exact ⟨second, .second kind rfl⟩
  · exact ⟨first, .first kind rfl⟩

/-- The derivative of a concatenation reads both parts, the second one once the node that skips
the first is made. -/
theorem derive_cat_ends (valid : (layering P).Valid layer g) (hp : P c) (lt : n < g.nodes.size)
    (kind : (g.node n).kind = .cat)
    (reads : ∀ {layer' g'} side, Later layer g layer' g' → (layering P).Valid layer' g' →
      side ∈ (g.node n).sides →
      (layering P).Ends layer' g' (fun ask => ask.child? n side) fun _ g'' k => g''.Read n side k) :
    (layering P).Ends layer g (fun ask => GrammarGraph.Derivative.derive ask c n) fun layer' g' d =>
      Derived P layer' g' c n d := by
  have known := valid.2 n lt
  refine .read (p := fun g => g.node n) ?_
  rw [kind]
  have member := Node.mem_sides_of_pair (.inl kind)
  have later (side : Side) : (Operand.deferred (.derivative c n side)).Ready P layer g (layer n + 1) :=
    ready_later hp known (member side)
  have child {layer' g'} (since : Later layer g layer' g') (valid : (layering P).Valid layer' g')
      {side : Side} {k : NodeId} (slot : (g'.node n).slot side = .node k) :
      (Operand.node k).Ready P layer' g' (layer n + 1) :=
    ⟨valid.1.formed.node_lt slot, by
      rw [← since.layer n lt]
      exact Nat.le_succ_of_le (valid.1.below slot)⟩
  refine .bind (reads .first ((layering P).refl layer g) valid (member .first)) ?_
  rintro layer₁ g₁ _ since₁ valid₁ ⟨a, rfl, slot⟩
  refine .bind (vanish_ends valid₁ (child since₁ valid₁ slot)) ?_
  rintro layer₂ g₂ vanished step₂ valid₂ ⟨ready, vanishes⟩
  have since₂ := (layering P).trans since₁ step₂
  refine .bind (skip_ends valid₂ ready (since₂.ready (later .second))) ?_
  rintro layer₃ g₃ skip step₃ valid₃ ⟨readySkip, skips⟩
  have since₃ := (layering P).trans since₂ step₃
  refine .bind (reads .second since₃ valid₃ (member .second)) ?_
  rintro layer₄ g₄ _ step₄ valid₄ ⟨b, rfl, slot'⟩
  have since₄ := (layering P).trans since₃ step₄
  refine .bind (take_ends valid₄ (child since₄ valid₄ slot') (since₄.ready (later .first))) ?_
  rintro layer₅ g₅ take step₅ valid₅ ⟨readyTake, takes⟩
  have since₅ := (layering P).trans since₄ step₅
  have step₄₅ := (layering P).trans step₄ step₅
  refine .imp (join_ends valid₅ (step₄₅.ready readySkip) readyTake) ?_
  rintro layer₆ g₆ d step₆ valid₆ ⟨ready, joins⟩
  refine ⟨ready.1, ?_, ?_⟩
  · rw [((layering P).trans since₅ step₆).layer n lt]
    exact ready.2
  · have step₄₆ := ((layering P).trans step₄₅ step₆).extends_
    have step₃₆ := ((layering P).trans step₃ ((layering P).trans step₄₅ step₆)).extends_
    have step₂₆ := step₂.extends_.trans step₃₆
    exact .cat (((layering P).trans since₅ step₆).extends_.kind kind (by decide))
      (step₂₆.filled .first slot) ((step₅.extends_.trans step₆.extends_).filled _ slot')
      (step₃₆.vanishes vanishes) (step₄₆.skips skips) (step₆.extends_.takes takes) joins

theorem derive_ends (valid : (layering P).Valid layer g) (hp : P c) (hashable : c.hashable = true)
    (lt : n < g.nodes.size)
    (reads : ∀ {layer' g'} side, Later layer g layer' g' → (layering P).Valid layer' g' →
      side ∈ (g.node n).sides →
      (layering P).Ends layer' g' (fun ask => ask.child? n side) fun _ g'' k => g''.Read n side k) :
    (layering P).Ends layer g (fun ask => GrammarGraph.Derivative.derive ask c n) fun layer' g' d =>
      Derived P layer' g' c n d := by
  have known := valid.2 n lt
  by_cases pair : (g.node n).kind = .cat
  · exact derive_cat_ends valid hp lt pair reads
  refine .read (p := fun g => g.node n) ?_
  cases kind : (g.node n).kind with
  | placeholder => exact absurd kind known
  | other name => exact absurd kind (valid.1.known n name)
  | empty | eps | delta =>
    exact .pure valid (valid.1.empty_derived (.nothing (by simp [kind]) rfl))
  | char =>
    dsimp only
    cases same : (g.node n).symbol.same c with
    | false =>
      exact .pure valid (valid.1.empty_derived (.mismatch kind same rfl))
    | true =>
      refine .imp (eps_ends valid hashable (layer n + 1)) ?_
      rintro layer' g' d later - ⟨dlt, low, kind', ws⟩
      refine ⟨dlt, by rwa [later.layer n lt], ?_⟩
      have bare := later.extends_.bare n known
      exact .taken (later.extends_.kind kind (by decide)) (by rwa [Node.symbol_of_bare bare]) kind'
        ws hp c.same_refl
  | alt =>
    have member := Node.mem_sides_of_pair (.inr kind)
    refine .imp (.reuse valid (fun _ found => (by cases found)) fun _ => pair_ends valid (.inr rfl)
      (ready_later hp known (member .first)) (ready_later hp known (member .second))) ?_
    rintro layer' g' d later - ⟨made, first, second⟩
    refine ⟨made.lt, later.low lt made, ?_⟩
    refine .alt (later.extends_.kind kind (by decide)) made.kind fun side => ?_
    cases side with
    | first => exact first
    | second => exact second
  | rep =>
    have member := Node.mem_sides_of_single (.inl kind)
    have shortcut : Grammar.catShortcut g (.deferred (.derivative c n .first)) (.node n) = none := by
      rw [Grammar.catShortcut_deferred_node, if_neg (by simp [kind])]
    refine .imp (.reuse valid (fun _ found => (by rw [shortcut] at found; cases found)) fun _ =>
      pair_ends valid (.inl rfl) (ready_later hp known member) (b := .node n) ⟨lt, Nat.le_succ _⟩) ?_
    rintro layer' g' d later - ⟨made, first, second⟩
    refine ⟨made.lt, later.low lt made, ?_⟩
    exact .rep (later.extends_.kind kind (by decide)) made.kind first second
  | red =>
    have member := Node.mem_sides_of_single (.inr (.inr kind))
    refine .imp (.reuse valid (fun _ found => (by cases found)) fun _ =>
      single_ends valid (.inr rfl) (ready_later hp known member)) ?_
    rintro layer' g' d later - ⟨made, first, same⟩
    refine ⟨made.lt, later.low lt made, ?_⟩
    refine .red (later.extends_.kind kind (by decide)) made.kind ?_ first
    rw [same, Node.transform_of_bare (later.extends_.bare n known)]
  | cat => exact absurd kind pair

/-- In layer `v`, children can be read and derivatives can be taken. -/
structure Answers (P : Value → Prop) (v : Nat) : Prop where
  child : ∀ {layer g n side}, (layering P).Valid layer g → n < g.nodes.size →
    side ∈ (g.node n).sides → layer n = v → Busy layer g v v →
    (layering P).Ends layer g (fun ask => ask (.child n side)) fun _ g' k => g'.Read n side k
  derive : ∀ {layer g n c}, (layering P).Valid layer g → n < g.nodes.size → P c →
    layer n = v → Busy layer g v (v + 1) →
    (layering P).Ends layer g (fun ask => ask (.derive c n)) fun _ g' d =>
      g'.derivatives.find? n c = some d

theorem child_ends {side : Side}
    (h : (layering P).Ends layer g (fun ask => ask (.child n side)) fun _ g' k => g'.Read n side k) :
    (layering P).Ends layer g (fun ask => ask.child n side) fun _ g' k =>
      (g'.node n).slot side = .node k := by
  refine .bind h ?_
  rintro layer₁ g₁ _ _ valid₁ ⟨k, rfl, slot⟩
  exact .pure valid₁ slot

/-- What the cell of a slot in layer `v` computes needs lower layers only. -/
theorem compute_ends {v : Nat} (lower : ∀ u < v, Answers P u)
    (valid : (layering P).Valid layer g) {m : NodeId} {side : Side} {cell : CellId}
    (suspended : g.suspension? cell = some (.derivative c m side)) (below : layer m < v)
    (busy : Busy layer g (layer m) v) :
    (layering P).Ends layer g (fun ask => Child.compute ask (.derivative c m side))
      fun layer' g' operand => ∃ k, operand = .node k ∧ k < g'.nodes.size ∧ layer' k ≤ v ∧
        g'.Settled (.derivative c m side) k := by
  obtain ⟨hp, member⟩ := valid.1.asked suspended
  have lt := valid.1.source_lt suspended
  refine .bind (child_ends ((lower _ below).child valid lt member rfl
    (busy.mono (Nat.le_refl _) (Nat.le_of_lt below)))) fun layer₁ g₁ j later₁ valid₁ slot => ?_
  have low : layer₁ j < v := by
    refine Nat.lt_of_le_of_lt (valid₁.1.below slot) ?_
    rwa [later₁.layer m lt]
  have busy₁ := (later₁.busy valid.1 busy).mono
    (show layer₁ j ≤ _ by rw [← later₁.layer m lt]; exact valid₁.1.below slot) low
  refine .bind ((lower _ low).derive valid₁ (valid₁.1.formed.node_lt slot) hp rfl busy₁)
    fun layer₂ g₂ d later₂ valid₂ found => ?_
  obtain ⟨_, dlt, le, _⟩ := valid₂.1.memo found
  rw [later₂.layer j (valid₁.1.formed.node_lt slot)] at le
  exact .pure valid₂ ⟨d, rfl, dlt, Nat.le_trans le low, j, later₂.extends_.filled _ slot, found⟩

/-- A cell is marked while its computation runs. -/
theorem Later.unmarked {cell : CellId} (later : Later layer (g.setForcing cell true) layer' g')
    (h : Layered P layer g) (h' : Layered P layer' g') (lt : cell < g.cells.size)
    (free : g.isForcing cell = false) : Later layer g layer' (g'.setForcing cell false) := by
  have lt' : cell < g'.cells.size := by
    obtain ⟨s, hs⟩ : ∃ s, (g.setForcing cell true).suspension? cell = some s :=
      Graph.exists_suspension (by rw [Graph.isForcing_setForcing _ lt, if_pos rfl])
    exact Graph.lt_of_suspension (later.extends_.suspension hs)
  refine ⟨((h.setForcing cell true).1.trans later.extends_).trans (h'.setForcing cell false).1,
    later.layer, fun c => ?_, later.started, later.pending⟩
  rw [Graph.isForcing_setForcing _ lt', later.forcing, Graph.isForcing_setForcing _ lt]
  split
  · next same => rw [same, free]
  · rfl

/-- A slot keeps its cell until it holds what the cell gives. -/
theorem Later.filled {side : Side} {cell : CellId} {s : Suspension} {k : NodeId}
    (later : Later layer g layer' g') (slot : (g.node n).slot side = .deferred cell)
    (suspended : g.suspension? cell = some s) (settled : g'.Settled s k) :
    (g'.node n).slot side = .node k ∨ ∃ cell' s', (g'.node n).slot side = .deferred cell' ∧
      g'.suspension? cell' = some s' ∧ g'.Settled s' k := by
  rcases later.extends_.slot n side (by rw [slot]; exact Slot.noConfusion) with
    same | ⟨cell', k', old, new, settled'⟩
  · exact .inr ⟨cell, s, same.trans slot, later.extends_.suspension suspended, settled⟩
  · obtain rfl := Slot.deferred.inj (old.symm.trans slot)
    rw [new, (settled' _ suspended).unique settled]
    exact .inl rfl

theorem child_step {v : Nat} (lower : ∀ u < v, Answers P u) {side : Side}
    (valid : (layering P).Valid layer g) (lt : n < g.nodes.size)
    (member : side ∈ (g.node n).sides) (lies : layer n = v) (busy : Busy layer g v v) :
    (layering P).Ends layer g (fun ask => ask (.child n side)) fun _ g' k =>
      g'.Read n side k := by
  refine .answer ?_
  cases slot : (g.node n).slot side with
  | vacant => exact absurd slot (valid.1.slots n side member)
  | node k =>
    exact ⟨some k, g, ⟨0, fun _ _ => Child.read_node slot⟩, layer, (layering P).refl layer g,
      valid, k, rfl, slot⟩
  | deferred cell =>
    obtain ⟨c, m, other, suspended, below⟩ := valid.1.deferred slot
    rw [lies] at below
    have clt := Graph.lt_of_suspension suspended
    have free : g.isForcing cell = false := by
      cases held : g.isForcing cell with
      | false => rfl
      | true => exact absurd (busy.forcing suspended held) (Nat.not_le_of_lt below)
    obtain ⟨_, g₁, ⟨least, gives⟩, layer₁, later, valid₁, k, rfl, klt, low, settled⟩ :=
      compute_ends lower ⟨(valid.1.setForcing cell true).2, valid.2⟩ (suspended.symm ▸
        Graph.suspension_setForcing cell true cell) below (busy.mark suspended below)
    have unmarked := later.unmarked valid.1 valid₁.1 clt free
    obtain ⟨extends_, layered⟩ := valid₁.1.setForcing cell false
    have filled := unmarked.filled slot suspended (extends_.settled settled)
    obtain ⟨placed, layered⟩ := layered.setSlot filled klt (by rwa [unmarked.layer n lt, lies])
    have lt₁ : n < (g₁.setForcing cell false).nodes.size := Nat.lt_of_lt_of_le lt unmarked.extends_.size
    refine ⟨some k, _, ⟨least, fun bound le => Child.read_deferred slot suspended free
      (gives bound le)⟩, layer₁, (layering P).trans unmarked placed, ⟨layered, fun i ilt => ?_⟩, k, rfl, ?_⟩
    · have known := valid₁.2 i (by simpa using ilt)
      rw [Node.kind_of_bare (placed.extends_.bare i known)]
      exact known
    · exact Graph.slot_setSlot_self side _ lt₁

/-- The graph while the derivative is in progress. -/
theorem start (h : Layered P layer g) (lt : n < g.nodes.size) (c : Value) :
    g.Extends (Held.derivatives.modify (Memo.start n c) g) ∧
      Layered P layer (Held.derivatives.modify (Memo.start n c) g) := by
  refine h.books rfl (fun _ => rfl) rfl (fun found => found) h.memo (fun member => ?_)
    fun _ => by rw [Evaluator.of_derivatives]
  rcases List.mem_cons.mp member with same | member
  · cases same
    exact lt
  · exact h.started member

/-- The graph after the derivative is recorded. -/
theorem finish {rest : List (Nat × Value)} (h : Layered P layer g)
    (known : (g.node n).kind ≠ .placeholder) (derived : Derived P layer g c n d)
    (absent : g.derivatives.find? n c = none)
    (latest : g.derivatives.inProgress = (n, c) :: rest) :
    g.Extends (Held.derivatives.modify (Memo.finish n c d)
        (Held.derivatives.modify (Memo.stop n c) g)) ∧
      Layered P layer (Held.derivatives.modify (Memo.finish n c d)
        (Held.derivatives.modify (Memo.stop n c) g)) := by
  have extends_ := Graph.Extends.finish (d := d) absent
  refine h.books rfl (fun _ => rfl) rfl extends_.memo (fun {k c' d'} found => ?_)
    (fun {k c'} member => ?_) fun _ => ?_
  · rw [g.find?_recorded] at found
    split at found
    · next hit =>
      obtain ⟨rfl, equal⟩ := hit
      cases found
      exact ⟨known, derived.lt, derived.low, derived.derivative.congr equal⟩
    · exact h.memo found
  · have member : (k, c') ∈ (g.derivatives.stop n c).inProgress := member
    rw [Memo.inProgress_stop latest] at member
    exact h.started (latest ▸ List.mem_cons_of_mem _ member)
  · rw [Evaluator.of_derivatives, Evaluator.of_derivatives]

theorem Later.finish (later : Later layer (Held.derivatives.modify (Memo.start n c) g) layer' g')
    (begins : g.Extends (Held.derivatives.modify (Memo.start n c) g))
    (ends : g'.Extends (Held.derivatives.modify (Memo.finish n c d)
      (Held.derivatives.modify (Memo.stop n c) g')))
    (fresh : g.derivatives.isStarted n c = false) :
    Later layer g layer' (Held.derivatives.modify (Memo.finish n c d)
      (Held.derivatives.modify (Memo.stop n c) g')) := by
  refine ⟨begins.trans (later.extends_.trans ends), later.layer, later.forcing,
    Memo.inProgress_stop later.started, fun started => ?_⟩
  exact ((g'.find?_recorded ..).trans (if_neg (Memo.ne_of_isStarted started fresh))).trans
    (later.pending (Memo.isStarted_start started))

theorem derive_step {v : Nat} (lower : ∀ u < v, Answers P u) (hashable : ∀ c, P c → c.hashable = true)
    (valid : (layering P).Valid layer g) (lt : n < g.nodes.size) (hp : P c) (lies : layer n = v)
    (busy : Busy layer g v (v + 1)) :
    (layering P).Ends layer g (fun ask => ask (.derive c n)) fun _ g' d =>
      g'.derivatives.find? n c = some d := by
  refine .answer ?_
  cases found : g.derivatives.find? n c with
  | some d =>
    exact ⟨d, g, ⟨0, fun _ _ => Memo.demand_finished (hashable c hp) found⟩, layer,
      (layering P).refl layer g, valid, found⟩
  | none =>
    have fresh : g.derivatives.isStarted n c = false :=
      Memo.isStarted_eq_false fun _ member =>
        absurd (busy.started member) (by rw [lies]; exact Nat.not_succ_le_self v)
    obtain ⟨begins, begun⟩ := valid.1.start lt c
    obtain ⟨d, g₁, ⟨least, gives⟩, layer₁, later, valid₁, derived⟩ :=
      derive_ends ⟨begun, valid.2⟩ hp (hashable c hp) lt fun {layer' g'} side since valid' member => by
        have bare := since.extends_.bare n (valid.2 n lt)
        refine child_step lower valid' (Nat.lt_of_lt_of_le lt since.extends_.size) ?_
          ((since.layer n lt).trans lies) (since.busy begun (busy.start lies))
        simpa only [Node.sides, Node.kind_of_bare bare] using member
    have absent : g₁.derivatives.find? n c = none :=
      (later.pending Memo.isStarted_start_self).trans found
    have known : (g₁.node n).kind ≠ .placeholder :=
      valid₁.2 n (Nat.lt_of_lt_of_le lt later.extends_.size)
    obtain ⟨ends, ended⟩ := valid₁.1.finish known derived absent later.started
    exact ⟨d, _, ⟨least, fun bound le =>
        Memo.demand_absent (hashable c hp) found fresh (gives bound le)⟩, layer₁,
      later.finish begins ends fresh, ⟨ended, valid₁.2⟩,
      (g₁.find?_recorded ..).trans (if_pos ⟨rfl, c.same_refl⟩)⟩

/-- Every layer answers, if all symbols asked for can be keys. -/
theorem answers (hashable : ∀ c, P c → c.hashable = true) (v : Nat) : Answers P v := by
  induction v using Nat.strongRecOn with
  | ind v lower =>
    exact ⟨child_step lower, derive_step lower hashable⟩

end Layered

end GrammarGraph
