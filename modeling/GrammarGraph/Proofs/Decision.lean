import GrammarGraph.Proofs.Exactness.Forcing
import GrammarGraph.Proofs.Exactness.Shapes
import GrammarGraph.Proofs.Regular

/-! What the predicates decide. The language of a node is what it derives once its children have
been read, deferred ones included. Under an exact gauge it is what the node weighs, so the answers
that fit the gauge are right about the language itself, for every node of the graph. -/
namespace GrammarGraph

open Computability
open GrammarGraph.RunOf (Gives)

/-- The sentences that the node derives after any number of children have been read. -/
def Graph.language (g : Graph) (n : NodeId) : Language Value :=
  {s | g.Means .membership n s ()}

namespace Gauge

/-- What comes of a graph at rest by reading children. -/
structure Forced {σ : Type} (S : Sense σ) (x : Gauge σ) (g : Graph) (x' : Gauge σ) (g' : Graph) :
    Prop where
  rested : Rested S x' g'
  forces : g.Forces g'
  later : Later x g x' g'

section

variable {σ : Type} {S : Sense σ} {x x' x'' : Gauge σ} {g g' g'' : Graph} {n : NodeId} {side : Side}

theorem Forced.refl (h : Rested S x g) : Forced S x g x g :=
  ⟨h, .refl, .refl x g⟩

theorem Forced.trans (h : Forced S x g x' g') (k : Forced S x' g' x'' g'') :
    Forced S x g x'' g'' :=
  ⟨k.rested, h.forces.trans k.forces, h.later.trans k.later⟩

variable [Rules S]

theorem Rested.forces (h : Rested S x g) (forces : g.Forces g') : ∃ x', Forced S x g x' g' := by
  induction forces with
  | refl => exact ⟨x, .refl h⟩
  | @tail g₁ g₂ _ reads ih =>
    obtain ⟨x₁, forced⟩ := ih
    obtain ⟨bound, n, side, child, member, ends⟩ := id reads
    have lt := Graph.lt_of_mem_sides member
    obtain ⟨x₂, later, rested, -⟩ :=
      Regime.Ends.after (forced.rested.child? lt member) bound _ _ ends
    exact ⟨x₂, forced.trans ⟨rested, .single reads, later⟩⟩

theorem Rested.fetch (h : Rested S x g) (lt : n < g.nodes.size) (member : side ∈ (g.node n).sides) :
    ∃ x' g' k, Forced S x g x' g' ∧ (g'.node n).slot side = .node k ∧
      x'.Stands g' (x ((g.node n).slot side)) k := by
  obtain ⟨_, g', gives, x', later, rested, k, rfl, stands⟩ := h.child? lt member
  obtain ⟨least, given⟩ := id gives
  have reads : g.Reads g' := ⟨least, n, side, some k, member, given least (Nat.le_refl _)⟩
  exact ⟨x', g', k, ⟨rested, .single reads, later⟩, gives.slot (Later.lt later lt), stands⟩

end

variable {x : Gauge (Language Value)} {g : Graph} {n : NodeId} {s : List Value}

theorem Exact.mem_of_derives (h : Exact languages x g) {w : Unit}
    (derives : Derives .membership g.node n s w) : s ∈ (x (.node n)).sense := by
  induction derives with
  | eps kind => exact h.sense_of_known kind (by decide) ▸ Language.nil_mem_one
  | char kind same => exact h.sense_of_known kind (by decide) ▸ ⟨_, rfl, same⟩
  | @alt n a s w side kind slot _ ih =>
    rw [h.sense_of_known kind (by decide)]
    rw [← slot] at ih
    cases side with
    | first => exact .inl ih
    | second => exact .inr ih
  | @cat n a b s u t v kind first second _ _ ih ih' =>
    rw [h.sense_of_known kind (by decide)]
    rw [← first] at ih
    rw [← second] at ih'
    exact Language.append_mem_mul ih ih'
  | repNone kind =>
    rw [h.sense_of_known kind (by decide)]
    exact Language.nil_mem_kstar _
  | @repMore n a c s u t v kind first _ _ ih ih' =>
    rw [h.sense_of_known kind (by decide)] at ih' ⊢
    rw [← first] at ih
    change c :: s ++ t ∈ (x ((g.node n).slot .first)).sense∗
    rw [← Language.one_add_self_mul_kstar_eq_kstar]
    exact .inr (Language.append_mem_mul ih ih')
  | delta kind first _ ih =>
    rw [h.sense_of_known kind (by decide)]
    rw [← first] at ih
    exact ⟨ih, rfl⟩
  | red kind first _ _ ih =>
    rw [h.sense_of_known kind (by decide)]
    rw [← first] at ih
    exact ih

/-- The children that a derivation of the sentence needs can be read. -/
def Derivable (x : Gauge (Language Value)) (g : Graph) (n : NodeId) (s : List Value) : Prop :=
  ∃ x' g', Forced languages x g x' g' ∧ Derives .membership g'.node n s ()

theorem Rested.rounds (h : Rested languages x g) (kind : (g.node n).kind = .rep)
    (round : ∀ {x' g' s}, Forced languages x g x' g' → s ∈ (x' ((g'.node n).slot .first)).sense →
      ∃ x'' g'' k, Forced languages x' g' x'' g'' ∧ (g''.node n).slot .first = .node k ∧
        Derives .membership g''.node k s ())
    {ss : List (List Value)}
    (parts : ∀ s ∈ ss, s ∈ (x ((g.node n).slot .first)).sense ∧ s ≠ []) :
    Derivable x g n ss.flatten := by
  have lt : n < g.nodes.size := Graph.lt_of_kind (by simp [kind])
  induction ss generalizing x g with
  | nil => exact ⟨x, g, .refl h, .repNone kind⟩
  | cons s ss ih =>
    obtain ⟨mem, some_⟩ := parts s List.mem_cons_self
    obtain ⟨x₁, g₁, k, forced, slot, derives⟩ := round (.refl h) mem
    have kind₁ := forced.later.evolves.kind_eq kind (by decide)
    have others (t : List Value) (member : t ∈ ss) :
        t ∈ (x₁ ((g₁.node n).slot .first)).sense ∧ t ≠ [] := by
      rw [(forced.later.within n lt .first).sense]
      exact parts t (List.mem_cons_of_mem s member)
    obtain ⟨x₂, g₂, forced', rest⟩ := ih forced.rested kind₁
      (fun later mem => round (forced.trans later) mem) others (forced.later.lt lt)
    obtain ⟨c, s, rfl⟩ := List.exists_cons_of_ne_nil some_
    exact ⟨x₂, g₂, forced.trans forced', .repMore (forced'.later.evolves.kind_eq kind₁ (by decide))
      (forced'.later.evolves.filled slot) (forced'.later.evolves.derives derives) rest⟩

theorem Rested.derivable (h : Rested languages x g) (lt : n < g.nodes.size)
    (mem : s ∈ (x (.node n)).sense) : Derivable x g n s := by
  induction rank : (x (.node n)).rank using Nat.strong_induction_on generalizing x g n s with
  | h r ih =>
    subst rank
    have child {x' : Gauge (Language Value)} {g' : Graph} {side : Side} {s : List Value}
        (forced : Forced languages x g x' g') (member : side ∈ (g.node n).sides)
        (mem : s ∈ (x' ((g'.node n).slot side)).sense) :
        ∃ x'' g'' k, Forced languages x' g' x'' g'' ∧ (g''.node n).slot side = .node k ∧
          Derives .membership g''.node k s () := by
      have lt' := forced.later.lt lt
      obtain ⟨x₁, g₁, k, forced₁, slot, stands⟩ :=
        forced.rested.fetch lt' (by rwa [forced.later.sides lt])
      have lower : (x₁ (.node k)).rank < (x (.node n)).rank :=
        Nat.lt_of_le_of_lt (Nat.le_trans stands.within.rank (forced.later.within n lt side).rank)
          ((h.valid.nodes n lt).slots side member).2
      obtain ⟨x₂, g₂, forced₂, derives⟩ :=
        ih _ lower forced₁.rested stands.lt (stands.within.sense ▸ mem) rfl
      exact ⟨x₂, g₂, k, forced₁.trans forced₂, forced₂.later.evolves.filled slot, derives⟩
    have language {kind : Kind} (hk : (g.node n).kind = kind) :=
      (h.valid.sense_of_kind lt hk).subst (motive := (s ∈ ·)) mem
    cases kind : (g.node n).kind with
    | placeholder => exact absurd kind (h.valid.nodes n lt).complete
    | other name => exact absurd kind ((h.valid.nodes n lt).known name)
    | empty => exact (language kind).elim
    | eps =>
      obtain rfl : s = [] := language kind
      exact ⟨x, g, .refl h, .eps kind trivial⟩
    | char =>
      obtain ⟨c, rfl, same⟩ := language kind
      exact ⟨x, g, .refl h, .char kind same trivial⟩
    | alt =>
      have member := Node.mem_sides_of_pair (.inr kind)
      rcases language kind with mem | mem
      · obtain ⟨x₁, g₁, k, forced, slot, derives⟩ := child (.refl h) (member .first) mem
        exact ⟨x₁, g₁, forced, .alt .first (forced.later.evolves.kind_eq kind (by decide)) slot derives⟩
      · obtain ⟨x₁, g₁, k, forced, slot, derives⟩ := child (.refl h) (member .second) mem
        exact ⟨x₁, g₁, forced, .alt .second (forced.later.evolves.kind_eq kind (by decide)) slot derives⟩
    | cat =>
      have member := Node.mem_sides_of_pair (.inl kind)
      obtain ⟨u, hu, v, hv, rfl⟩ := language kind
      obtain ⟨x₁, g₁, k, forced, slot, derives⟩ := child (.refl h) (member .first) hu
      have hv : v ∈ (x₁ ((g₁.node n).slot .second)).sense := by
        rw [(forced.later.within n lt .second).sense]
        exact hv
      obtain ⟨x₂, g₂, m, forced', slot', derives'⟩ := child forced (member .second) hv
      exact ⟨x₂, g₂, forced.trans forced', .cat
        ((forced.trans forced').later.evolves.kind_eq kind (by decide))
        (forced'.later.evolves.filled slot) slot' (forced'.later.evolves.derives derives) derives'⟩
    | rep =>
      have mem := language kind
      change s ∈ (x ((g.node n).slot .first)).sense∗ at mem
      rw [Language.mem_kstar_iff_exists_nonempty] at mem
      obtain ⟨ss, rfl, parts⟩ := mem
      exact h.rounds kind (fun forced mem =>
        child forced (Node.mem_sides_of_single (.inl kind)) mem) parts
    | delta =>
      obtain ⟨mem, rfl⟩ := language kind
      obtain ⟨x₁, g₁, k, forced, slot, derives⟩ :=
        child (.refl h) (Node.mem_sides_of_single (.inr (.inl kind))) mem
      exact ⟨x₁, g₁, forced, .delta (forced.later.evolves.kind_eq kind (by decide)) slot derives⟩
    | red =>
      obtain ⟨x₁, g₁, k, forced, slot, derives⟩ :=
        child (.refl h) (Node.mem_sides_of_single (.inr (.inr kind))) (language kind)
      exact ⟨x₁, g₁, forced, .red (forced.later.evolves.kind_eq kind (by decide)) slot derives trivial⟩

theorem Rested.language_eq (h : Rested languages x g) (lt : n < g.nodes.size) :
    g.language n = (x (.node n)).sense := by
  ext s
  constructor
  · rintro ⟨g', forces, derives⟩
    obtain ⟨x', forced⟩ := h.forces forces
    rw [← forced.later.node lt]
    exact forced.rested.valid.mem_of_derives derives
  · intro mem
    obtain ⟨x', g', forced, derives⟩ := h.derivable lt mem
    exact ⟨g', forced.forces, derives⟩

theorem Rested.answer (h : Rested languages x g) (i : Evaluator) (lt : n < g.nodes.size)
    {Q : i.Result → Prop}
    (fits : ∀ {x' : Gauge (Language Value)} {g' r},
      x'.Fits languages g' (x (.node n)) i r → Q r) :
    ∃ r g', Gives (fun ask => i.ask ask n) g r g' ∧ Q r := by
  obtain ⟨r, g', gives, _, _, _, fit⟩ := h.evaluate i lt
  exact ⟨r, g', gives, fits fit⟩

end Gauge

namespace Draft

variable {d : Draft} {e : Regular} {n : NodeId}

/-- A node that an expression was written to has the language of the expression. -/
theorem Reached.language_written (reached : d.Reached) (written : (e, n) ∈ d.nodes) :
    d.graph.language n = e.language := by
  obtain ⟨x, weighed⟩ := reached.weighed
  have denotes := weighed.nodes (e, n) written
  exact (weighed.rested.language_eq denotes.lt).trans denotes.sense

/-- Whether a node's language is empty, whether it has at most the empty sentence and whether it
has that is decided, for all nodes that a draft can come to: what was written, what was derived and
compacted, and what was met when children were read. -/
theorem predicates_decide (reached : d.Reached) (lt : n < d.graph.nodes.size) :
    (∃ v g, Gives (fun ask => ask.emptyLike n) d.graph v g ∧
      (v = true ↔ d.graph.language n = 0)) ∧
    (∃ v g, Gives (fun ask => Run.either (ask.epsLike n) (ask.emptyLike n)) d.graph v g ∧
      (v = true ↔ d.graph.language n ≤ 1)) ∧
    (∃ v g, Gives (fun ask => ask.nullable n) d.graph v g ∧
      (v = true ↔ [] ∈ d.graph.language n)) ∧
    ∃ ws g, Gives (fun ask => ask.forest n) d.graph ws g ∧
      (ws ≠ [] ↔ [] ∈ d.graph.language n) := by
  obtain ⟨x, rested, -⟩ := reached.weighed
  rw [rested.language_eq lt]
  refine ⟨rested.answer .emptyLike lt fun fits => fits, ?_, rested.answer .nullable lt fun fits => fits,
    rested.answer .forest lt fun fits => fits.2⟩
  have either : (Gauge.resting languages).Ends x d.graph
      (fun ask => Run.either (ask.epsLike n) (ask.emptyLike n))
      fun _ _ v => v = true ↔ (x (.node n)).sense ≤ 1 := by
    refine .bind (rested.evaluate .epsLike lt) fun x₁ g₁ likely later rested₁ fits => ?_
    cases likely with
    | true => exact .pure rested₁ (iff_of_true rfl (fits.1 rfl))
    | false =>
      refine .imp (Gauge.Rested.evaluate rested₁ .emptyLike (Gauge.Later.lt later lt))
        fun _ _ v _ _ fits' => ?_
      have empty : v = true ↔ (x (.node n)).sense = 0 := by
        rw [← Gauge.Later.node later lt]
        exact fits'
      refine ⟨fun yes => (empty.mp yes).le.trans bot_le, fun le => ?_⟩
      exact empty.mpr ((fits.2 le).resolve_left Bool.false_ne_true)
  obtain ⟨v, g, gives, _, _, _, decides⟩ := either
  exact ⟨v, g, gives, decides⟩

/-- Any number of ones is not empty, has more than the empty sentence, and has that. -/
theorem predicates_decide_repeated : repeated.Reached ∧ 3 < repeated.graph.nodes.size ∧
    (∃ g, Gives (fun ask => ask.emptyLike 3) repeated.graph false g) ∧
    (∃ g, Gives (fun ask => Run.either (ask.epsLike 3) (ask.emptyLike 3)) repeated.graph false g) ∧
    (∃ g, Gives (fun ask => ask.nullable 3) repeated.graph true g) ∧
    ∃ ws g, Gives (fun ask => ask.forest 3) repeated.graph ws g ∧ ws ≠ [] := by
  have lt : 3 < repeated.graph.nodes.size := by decide
  obtain ⟨⟨v, g, gives, none⟩, ⟨v', g', gives', few⟩, ⟨v'', g'', gives'', nil⟩, ws, g₃, gives₃, some_⟩ :=
    predicates_decide repeated_reached lt
  have language := repeated_reached.language_written (n := 3) List.mem_cons_self
  rw [Regular.language, Regular.language] at language
  rw [language] at none few nil some_
  have nil_mem := Language.nil_mem_kstar (matching (.int 1))
  obtain rfl : v = false := Bool.eq_false_iff.mpr fun yes => kstar_ne_zero (none.mp yes)
  obtain rfl : v' = false := Bool.eq_false_iff.mpr fun yes =>
    not_matching_le_one (kstar_le_one_iff.mp (few.mp yes))
  obtain rfl : v'' = true := nil.mpr nil_mem
  exact ⟨repeated_reached, lt, ⟨g, gives⟩, ⟨g', gives'⟩, ⟨g'', gives''⟩, ws, g₃, gives₃,
    some_.mpr nil_mem⟩

end Draft

end GrammarGraph
