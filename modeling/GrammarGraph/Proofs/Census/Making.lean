import GrammarGraph.Proofs.Census
import GrammarGraph.Proofs.Constructors

/-! Making nodes while a census is kept: a new node is entered with what it was made for, and
nothing else becomes of the graph. -/
namespace GrammarGraph

/-- A visit goes on where the books of all evaluators stay. -/
theorem Visit.Holds.later {v : Visit} {own : Origin → Prop} {x x' : Census} {g g' : Graph}
    (h : v.Holds x g) (later : Census.Later none own x g x' g')
    (orderly : (v.evaluator.of g).Orderly) (orderly' : (v.evaluator.of g').Orderly) :
    v.Holds x' g' := by
  have books : (v.evaluator.of g).Above (v.evaluator.of g).frames.size (v.evaluator.of g') :=
    later.books v.evaluator
  have entry {n : NodeId} {d : Nat} (k : n < g.nodes.size ∧ v.level ≤ x.level n ∧
      (x.level n = v.level → v.floor ≤ d)) : n < g'.nodes.size ∧ v.level ≤ x'.level n ∧
      (x'.level n = v.level → v.floor ≤ d) := by
    rw [later.level n k.1]
    exact ⟨later.lt k.1, k.2⟩
  refine ⟨books.size ▸ h.floor, ?_, fun {n d} known => ?_, fun {n p} known => ?_⟩
  · unfold Evaluation.Upright
    rw [books.frames_eq]
    exact h.upright
  · exact entry (h.active (books.active n ▸ known))
  · exact entry (h.provisional (books.provisional_eq orderly orderly' n ▸ known))

namespace Census

variable {C : Finset Value} {roots : Finset NodeId} {visit : Option Visit} {own : Origin → Prop}
  {x x' : Census} {g g' : Graph} {n : NodeId} {l : Nat} {o : Origin} {a b : Operand}

theorem Later.of_same (evolves : g.Evolves g') (extends_ : g.Extends g')
    (level : ∀ n < g.nodes.size, x'.level n = x.level n)
    (origin : ∀ n < g.nodes.size, x'.origin n = x.origin n)
    (forcing : ∀ cell, g'.isForcing cell = g.isForcing cell)
    (derivatives : g'.derivatives = g.derivatives)
    (evaluations : ∀ i : Evaluator, i.of g' = i.of g)
    (fresh : ∀ n, g.nodes.size ≤ n → n < g'.nodes.size → own (x'.origin n)) :
    Later visit own x g x' g' :=
  ⟨evolves, extends_, level, origin, forcing, by rw [derivatives],
    fun _ => by rw [derivatives], fun i => by rw [evaluations]; exact .refl _ _, fun n le lt _ => fresh n le lt⟩

theorem Later.addNode (node : Node) (mine : own o) :
    Later visit own x g (x.join g l o) (g.addNode node) := by
  refine .of_same (g.addNode_evolves node) (.addNode g node) (fun n lt => if_neg (Nat.ne_of_lt lt))
    (fun n lt => if_neg (Nat.ne_of_lt lt)) (fun _ => rfl) rfl (fun _ => Evaluator.of_addNode node)
    fun n le lt => ?_
  rw [Graph.nodes_addNode, Array.size_push] at lt
  have same : (x.join g l o).origin n = o := if_pos (Nat.le_antisymm (Nat.le_of_lt_succ lt) le)
  rw [same]
  exact mine

theorem Later.addCell (s : Suspension) : Later visit own x g x (g.addCell s) :=
  .of_same (g.addCell_evolves s) (.addCell g s) (fun _ _ => rfl) (fun _ _ => rfl)
    (Graph.isForcing_addCell s) rfl (fun _ => Evaluator.of_addCell s) fun _ le lt => absurd lt (Nat.not_lt_of_le le)

/-- What the census of a visit says stays right through a computation that is asked for as a
whole. -/
theorem Valid.later (h : Valid C roots visit x g) (later : Later none own x g x' g')
    (counted : Counted C roots x' g') (complete : g'.Complete) : Valid C roots visit x' g' :=
  ⟨counted, complete, fun v is => (h.visit v is).later later (h.counted.orderly _) (counted.orderly _)⟩

/-- The operand may fill a slot of a node on level `l`. -/
def Offers (C : Finset Value) (x : Census) (g : Graph) (l : Nat) : Operand → Prop
  | .node k => k < g.nodes.size ∧ x.level k ≤ l
  | .deferred s => s.Asked C g ∧ x.level s.source < l
  | .other _ => False

theorem Later.offers (h : Later visit own x g x' g') (k : x.Offers C g l a) :
    x'.Offers C g' l a := by
  cases a with
  | node k' => exact ⟨h.lt k.1, by rw [h.level _ k.1]; exact k.2⟩
  | deferred s =>
    have asked : s.Asked C g := k.1
    exact ⟨asked.evolves h.evolves, by rw [h.level _ asked.lt]; exact k.2⟩
  | other => exact k

theorem Later.below (h : Later visit own x g x' g') (counted : Counted C roots x g) {y : Slot}
    (k : x.Below g l y) : x'.Below g' l y :=
  k.evolves h.evolves h.level counted.source_lt

/-- A node on level `l` is due for `o`, a computation in progress that has not made it yet. -/
structure Due (C : Finset Value) (own : Origin → Prop) (x : Census) (g : Graph) (l : Nat)
    (o : Origin) : Prop where
  parent : ∃ m, o.parent? = some m ∧ (g.node m).kind ≠ .placeholder ∧ l = x.level m + 1
  counts : o.Counts C
  engaged : g.Engaged o
  vacant : x.Vacant g o
  mine : own o

/-- What comes of making a node for `o`: at most that node is new. -/
structure Made (x : Census) (g : Graph) (l : Nat) (o : Origin) (x' : Census) (g' : Graph)
    (d : NodeId) : Prop where
  lt : d < g'.nodes.size
  level : x'.level d ≤ l
  others : ∀ o', o' ≠ o → x.Vacant g o' → x'.Vacant g' o'
  books : ∀ i : Evaluator, i.of g' = i.of g

theorem Due.congr (h : Due C own x g l o) (nodes : g'.nodes = g.nodes)
    (engaged : g'.Engaged o ↔ g.Engaged o) : Due C own x g' l o where
  parent := by
    obtain ⟨m, parent, known, level⟩ := h.parent
    exact ⟨m, parent, by rwa [Graph.node_congr nodes], level⟩
  counts := h.counts
  engaged := engaged.mpr h.engaged
  vacant n lt := h.vacant n (by rwa [nodes] at lt)
  mine := h.mine

/-- A node that is there already is made for nothing. -/
theorem Made.old (lt : n < g.nodes.size) (level : x.level n ≤ l) : Made x g l o x g n :=
  ⟨lt, level, fun _ _ vacant => vacant, fun _ => rfl⟩

theorem Made.congr {g₀ : Graph} (h : Made x g l o x' g' n) (nodes : g.nodes = g₀.nodes)
    (books : ∀ i : Evaluator, i.of g = i.of g₀) : Made x g₀ l o x' g' n :=
  ⟨h.lt, h.level, fun o' other vacant => h.others o' other fun m lt => vacant m (by rwa [nodes] at lt),
    fun i => (h.books i).trans (books i)⟩

variable (h : Valid C roots visit x g)
include h

theorem Valid.addCell {s : Suspension} (asked : s.Asked C g) :
    Valid C roots visit x (g.addCell s) :=
  h.later (.addCell s : Later none nothing x g x (g.addCell s)) (h.counted.addCell asked) h.complete

namespace Valid

theorem empty_made : Made x g l o x g .empty := by
  refine .old h.counted.formed.empty_lt ?_
  rw [h.counted.atoms.1]
  exact Nat.zero_le _

theorem eps_made : Made x g l o x g .eps := by
  refine .old h.counted.formed.eps_lt ?_
  rw [h.counted.atoms.2]
  exact Nat.zero_le _

/-- A slot for the operand changes no node and no book. -/
theorem slot (offers : x.Offers C g l a) :
    (counting C roots visit own).Ends x g (fun _ => a.slot) fun x' g' y =>
      (x' = x ∧ g'.nodes = g.nodes ∧ ∀ i : Evaluator, i.of g' = i.of g) ∧
        x'.Below g' l y ∧ y ≠ .vacant := by
  cases a with
  | node k => exact .pure h ⟨⟨rfl, rfl, fun _ => rfl⟩, offers, Slot.noConfusion⟩
  | other => exact offers.elim
  | deferred s =>
    obtain ⟨asked, lower⟩ := offers
    refine .bind (Q := fun x' g' cell => x' = x ∧ g' = g.addCell s ∧ cell = g.cells.size)
      (.read (.update (y := x) (Later.addCell s) (.pure (h.addCell asked) ⟨rfl, rfl, rfl⟩))) ?_
    rintro _ _ _ - valid ⟨rfl, rfl, rfl⟩
    refine .pure valid ⟨⟨rfl, rfl, fun _ => Evaluator.of_addCell s⟩, ⟨s, ?_, lower⟩,
      Slot.noConfusion⟩
    rw [Graph.suspension_addCell, if_pos rfl]

theorem make (node : Node) (due : Due C own x g l o) (admits : x.Admits g l node)
    (complete : node.kind ≠ .placeholder) :
    (counting C roots visit own).Ends x g (fun _ => Run.make node) (Made x g l o) := by
  obtain ⟨m, parent, known, rfl⟩ := due.parent
  have counted := h.counted.addNode admits (.made parent known due.counts due.engaged due.vacant)
  have here : (x.join g (x.level m + 1) o).level g.nodes.size = x.level m + 1 := if_pos rfl
  have all : (g.addNode node).Complete := by
    intro n lt
    rw [Graph.node_addNode]
    split
    · exact complete
    · next other =>
      rw [Graph.nodes_addNode, Array.size_push] at lt
      exact h.complete n (Nat.lt_of_le_of_ne (Nat.le_of_lt_succ lt) other)
  refine .read (p := fun g => g.nodes.size) (.update (Later.addNode node due.mine)
    (.pure (h.later (.addNode node due.mine) counted all) ⟨?_, Nat.le_of_eq here, ?_,
      fun _ => Evaluator.of_addNode node⟩))
  · rw [Graph.nodes_addNode, Array.size_push]
    exact Nat.lt_succ_self _
  · intro o' other vacant n lt
    rw [join]
    dsimp only
    split
    · exact fun same => other same.symm
    · next new =>
      rw [Graph.nodes_addNode, Array.size_push] at lt
      exact vacant n (Nat.lt_of_le_of_ne (Nat.le_of_lt_succ lt) new)

/-- A node with two children. -/
theorem pair (due : Due C own x g l o) {kind : Kind} (binary : kind = .cat ∨ kind = .alt)
    (first : x.Offers C g l a) (second : x.Offers C g l b) :
    (counting C roots visit own).Ends x g (fun _ => Grammar.pair kind a b) (Made x g l o) := by
  refine .bind (h.slot first) ?_
  rintro _ g₁ y later₁ h₁ ⟨⟨rfl, nodes₁, books₁⟩, below, there⟩
  refine .bind (slot h₁ (Later.offers later₁ second)) ?_
  rintro _ g₂ z later₂ h₂ ⟨⟨rfl, nodes₂, books₂⟩, below', there'⟩
  refine .imp (make h₂ { kind, first := y, second := z }
    (due.congr (nodes₂.trans nodes₁) (Later.engaged (Later.trans later₁ later₂)))
    { known := fun name => by rcases binary with rfl | rfl <;> simp
      slots := fun side _ => by
        cases side with
        | first => exact there
        | second => exact there'
      vacant := fun side out => absurd (Node.mem_sides_of_pair binary side) out
      below := fun side => by
        cases side with
        | first => exact Later.below later₂ h₁.counted below
        | second => exact below'
      eps := by rcases binary with rfl | rfl <;> simp
      red := by rcases binary with rfl | rfl <;> simp
      some_ := by rcases binary with rfl | rfl <;> simp }
    (by rcases binary with rfl | rfl <;> simp))
    fun _ _ _ _ _ made => made.congr (nodes₂.trans nodes₁) fun i => (books₂ i).trans (books₁ i)

/-- A node with one child. -/
theorem single (due : Due C own x g l o) {kind : Kind} {transform : Transform}
    (unary : kind = .rep ∨ kind = .delta ∨ kind = .red) (total : kind = .red → transform.Total)
    (first : x.Offers C g l a) :
    (counting C roots visit own).Ends x g
      (fun _ => do Run.make { kind, first := ← a.slot, transform }) (Made x g l o) := by
  refine .bind (h.slot first) ?_
  rintro _ g₁ y later₁ h₁ ⟨⟨rfl, nodes₁, books₁⟩, below, there⟩
  refine .imp (make h₁ { kind, first := y, transform }
    (due.congr nodes₁ (Later.engaged later₁))
    { known := fun name => by rcases unary with rfl | rfl | rfl <;> simp
      slots := fun side member => by
        cases Node.eq_first_of_single unary member
        exact there
      vacant := fun side out => by
        cases Node.eq_second_of_single unary out
        rfl
      below := fun side => by
        cases side with
        | first => exact below
        | second => trivial
      eps := by rcases unary with rfl | rfl | rfl <;> simp
      red := total
      some_ := by rcases unary with rfl | rfl | rfl <;> simp }
    (by rcases unary with rfl | rfl | rfl <;> simp))
    fun _ _ _ _ _ made => made.congr nodes₁ books₁

theorem cat (due : Due C own x g l o) (first : x.Offers C g l a) (second : x.Offers C g l b) :
    (counting C roots visit own).Ends x g (fun _ => Grammar.cat a b) (Made x g l o) := by
  refine .reuse h (fun d found => ?_) fun _ => h.pair due (.inl rfl) first second
  obtain ⟨-, rfl⟩ | ⟨_, _, rfl, rfl, ⟨-, rfl⟩ | ⟨-, rfl⟩⟩ := Grammar.catShortcut_cases found
  · exact h.empty_made
  · exact .old second.1 second.2
  · exact .old first.1 first.2

theorem alt (due : Due C own x g l o) (first : x.Offers C g l a) (second : x.Offers C g l b) :
    (counting C roots visit own).Ends x g (fun _ => Grammar.alt a b) (Made x g l o) := by
  refine .reuse h (fun d found => ?_) fun _ => h.pair due (.inr rfl) first second
  obtain ⟨_, _, rfl, rfl, ⟨-, rfl⟩ | ⟨-, -, rfl⟩⟩ := Grammar.altShortcut_cases found
  · exact .old second.1 second.2
  · exact .old first.1 first.2

theorem rep (due : Due C own x g l o) (first : x.Offers C g l a) :
    (counting C roots visit own).Ends x g (fun _ => Grammar.rep a) (Made x g l o) := by
  refine .reuse h (fun d found => ?_) fun _ => h.single due (.inl rfl) (fun red => nomatch red) first
  obtain ⟨-, rfl⟩ | ⟨rfl, -⟩ := Grammar.repShortcut_cases found
  · exact h.eps_made
  · exact .old first.1 first.2

theorem delta (due : Due C own x g l o) (first : x.Offers C g l a) :
    (counting C roots visit own).Ends x g (fun _ => Grammar.delta a) (Made x g l o) := by
  refine .reuse h (fun d found => ?_) fun _ =>
    h.single due (.inr (.inl rfl)) (fun red => nomatch red) first
  obtain ⟨-, rfl⟩ | ⟨rfl, -⟩ := Grammar.deltaShortcut_cases found
  · exact h.empty_made
  · exact .old first.1 first.2

theorem reduction (due : Due C own x g l o) {transform : Transform} (total : transform.Total)
    (first : x.Offers C g l a) :
    (counting C roots visit own).Ends x g (fun _ => Grammar.reduction a transform)
      (Made x g l o) := by
  refine .reuse h (fun d found => ?_) fun _ => h.single due (.inr (.inr rfl)) (fun _ => total) first
  obtain ⟨-, rfl⟩ := Grammar.redShortcut_cases found
  exact h.empty_made

theorem eps (due : Due C own x g l o) {ws : List Value}
    (hashable : ∀ w ∈ ws, w.hashable = true) :
    (counting C roots visit own).Ends x g (fun _ => Grammar.eps ws) (Made x g l o) := by
  unfold Grammar.eps
  rw [Forest.ofWitnesses_ok.mpr ⟨hashable, rfl⟩]
  refine .ok ?_
  split
  · exact .pure h h.eps_made
  · exact h.make _ due
      { known := by simp
        slots := by simp [Node.sides]
        vacant := fun side _ => by cases side <;> rfl
        below := fun side => by cases side <;> trivial
        eps := fun _ => Forest.hashable_distinct hashable
        red := by simp
        some_ := by simp }
      (by simp)

end Valid

end Census

end GrammarGraph
