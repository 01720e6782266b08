import GrammarGraph.Proofs.Soundness.Building
import GrammarGraph.Proofs.Soundness.Parse

/-! Soundness along every history: whatever was built and asked before, a sentence is
accepted only if it belongs to the least language of the node, and every witness of a parse
is one that the least relation gives. -/
namespace GrammarGraph

variable {ω : Type} {A : Worth ω} {embed : Value → ω} {plan : Blueprint} {M M' : Meaning ω}
  {g g' : Graph} {n : NodeId}

theorem Worth.membership_embeds : Worth.membership.Embeds fun _ => () where
  nothing := rfl
  pair _ _ := rfl
  eps _ := trivial
  eps_origin some_ _ :=
    let ⟨w, member⟩ := List.exists_mem_of_ne_nil _ some_
    ⟨w, member, rfl⟩
  symbol _ := trivial
  image _ := trivial
  image_prepend _ := rfl
  image_append _ := rfl
  image_compose _ := ⟨(), trivial, trivial⟩

theorem Worth.membership_plentiful : Worth.membership.Plentiful :=
  ⟨fun _ => ⟨(), trivial⟩, fun _ _ => ⟨(), trivial⟩⟩

theorem Worth.witness_embeds : Worth.witness.Embeds id where
  nothing := rfl
  pair _ _ := rfl
  eps member := member
  eps_origin _ member := ⟨_, member, rfl⟩
  symbol c := c.same_refl
  image applied := applied
  image_prepend applied := (Except.ok.inj applied).symm
  image_append applied := (Except.ok.inj applied).symm
  image_compose {t t' u v} applied := by
    change (Transform.compose t t').apply u = .ok v at applied
    rw [Transform.apply_compose] at applied
    cases first : t'.apply u with
    | error fault => rw [first] at applied; cases applied
    | ok m => exact ⟨m, first, by rwa [first] at applied⟩

namespace Bench

/-- The contents that the built nodes have once all definitions are complete. -/
def Foreseen (look : NodeId → Node) (built : NodeId → Prop) (g : Graph) : Prop :=
  ∀ n, built n → (g.node n).kind = .placeholder ∨ g.node n = look n

/-- However the open definitions will be completed, the regime of soundness holds. -/
structure Tended (A : Worth ω) (embed : Value → ω) (b : Bench) : Prop where
  atoms : b.built .empty ∧ b.built .eps
  opened : ∀ n ∈ b.opened, b.built n ∧ (b.graph.node n).kind = .placeholder
  nodup : b.opened.Nodup
  sound : ∀ look, Foreseen look b.built b.graph → ∃ M, Sound A embed ⟨b.built, look⟩ M b.graph

theorem initial_tended : Tended A embed {} := by
  have known {n : NodeId} (built : n = .empty ∨ n = .eps) :
      n < 2 ∧ (({} : Graph).node n).kind ≠ .placeholder := by
    rcases built with rfl | rfl
    · exact ⟨by decide, by rw [Graph.node_initial]; exact Kind.noConfusion⟩
    · exact ⟨by decide, by rw [Graph.node_initial]; exact Kind.noConfusion⟩
  refine ⟨⟨.inl rfl, .inr rfl⟩, fun _ none => (by cases none), .nil, fun look foreseen => ?_⟩
  let rule (n : NodeId) := Clause A (fun _ _ _ => False) (({} : Graph).node n)
  refine ⟨fun x => x.node?.elim (fun _ _ => False) rule,
    { formed := Graph.initial_formed
      supports := ⟨?_, ?_, ?_, ?_⟩
      made := fun built => ⟨(known built).1, foreseen _ built⟩
      concrete := fun built => ⟨fun name other => ?_, fun side member => ?_,
        fun side _ => Graph.slot_initial _ side⟩
      denotes := fun built s w => ?_
      derivatives := fun hd => nomatch hd
      nullable := fun hv => ?_
      forests := fun hw => ?_
      compacted := fun hm => ?_ }⟩
  · exact fun hr => hr.atomic (Graph.atomic_initial _) rfl
  · intro n c s u t v kind
    have := Graph.atomic_initial n
    rw [kind] at this; cases this
  · exact fun _ _ hr => Clause.atomic (Graph.atomic_initial _) rfl hr
  · intro cell suspension s w hs
    rw [Graph.suspension_initial] at hs; cases hs
  · have := Graph.atomic_initial ‹_›
    rw [other] at this; cases this
  · rw [Node.sides_of_atomic (Graph.atomic_initial _)] at member; cases member
  · obtain same := (foreseen _ built).resolve_left (known built).2
    change Clause A _ _ s w ↔ _
    rw [same]
    refine ⟨fun hr => Derives.meaning_of_rule (fun _ _ _ _ hw => hw.elim) hr,
      Derives.rule_of_atom ?_⟩
    change (look _).kind.isAtomic = true
    rw [← same]
    exact Graph.atomic_initial _
  · rcases hv with stored | ⟨_, provisional, _⟩
    · cases stored
    · cases provisional
  · rcases hw with stored | ⟨_, provisional, _⟩
    · cases stored
    · cases provisional
  · rcases hm with stored | ⟨_, provisional, _⟩
    · cases stored
    · cases provisional

variable {b : Bench}

theorem Tended.now (h : Tended A embed b) :
    ∃ M, Sound A embed ⟨b.built, b.graph.node⟩ M b.graph :=
  h.sound b.graph.node fun _ _ => .inr rfl

theorem Tended.lt (h : Tended A embed b) {n : NodeId} (built : b.built n) :
    n < b.graph.nodes.size :=
  let ⟨_, sound⟩ := h.now
  (sound.made built).1

/-- Growth by concrete nodes. -/
theorem Tended.laid (h : Tended A embed b) {fits : Node → Prop}
    (laid : Laid fits b.built b.graph.nodes.size b.graph g) (look : NodeId → Node)
    (foreseen : Foreseen look (b.grown g).built g) :
    ∃ M, Sound A embed ⟨(b.grown g).built, look⟩ M g := by
  refine (laid.preserves (P := fun built g => (∀ n, built n → n < g.nodes.size) ∧
    (Foreseen look built g → ∃ M, Sound A embed ⟨built, look⟩ M g)) (Nat.le_refl _) ?_ ?_).2 foreseen
  · have same : (fun k => b.built k ∨ b.graph.nodes.size ≤ k ∧ k < b.graph.nodes.size) = b.built :=
      funext fun k => propext (or_iff_left fun range =>
        Nat.lt_irrefl _ (Nat.lt_of_le_of_lt range.1 range.2))
    rw [same]
    exact ⟨fun n => h.lt, h.sound look⟩
  · intro built g node _ concrete ⟨below, sound⟩
    refine ⟨fun n hn => ?_, fun foreseen => ?_⟩
    · rw [Graph.nodes_addNode, Array.size_push]
      rcases hn with hn | rfl
      · exact Nat.lt_succ_of_lt (below n hn)
      · exact Nat.lt_succ_self _
    · obtain ⟨M, sound⟩ := sound fun n hn => by
        rw [← Graph.node_addNode_of_lt node (below n hn)]
        exact foreseen n (.inl hn)
      refine sound.lay concrete ?_
      have last := foreseen g.nodes.size (.inr rfl)
      rw [Graph.node_addNode, if_pos rfl] at last
      exact last.imp_right Eq.symm

/-- Changes that leave the built nodes as they are. -/
theorem Tended.keep (h : Tended A embed b)
    (evolves : b.graph.Evolves g)
    (later : ∀ {plan M}, Sound A embed plan M b.graph → ∃ M', Sound A embed plan M' g) :
    Tended A embed { b with graph := g } := by
  obtain ⟨_, now⟩ := h.now
  have same {n : NodeId} (built : b.built n) : g.node n = b.graph.node n := now.node_eq evolves built
  refine ⟨h.atoms, fun n member => ?_, h.nodup, fun look foreseen => ?_⟩
  · obtain ⟨built, open_⟩ := h.opened n member
    exact ⟨built, by rw [same built]; exact open_⟩
  · obtain ⟨M, sound⟩ := h.sound look fun n built => by
      rw [← same built]
      exact foreseen n built
    exact later sound

theorem Tended.construct (h : Tended A embed b) {c : Construction}
    (built : ∀ k ∈ c.operands, b.built k) (ends : c.run b.graph = some (.ok n, g)) :
    Tended A embed (b.grown g) := by
  have laid := (c.laid h.atoms.1 h.atoms.2 built ends).1
  refine ⟨⟨.inl h.atoms.1, .inl h.atoms.2⟩, fun n member => ?_, h.nodup, h.laid laid⟩
  obtain ⟨built, open_⟩ := h.opened n member
  exact ⟨.inl built, (laid.evolves.kind (h.lt built)).trans open_⟩

theorem Tended.begin (h : Tended A embed b)
    (ends : Run.make { kind := .placeholder } b.graph = some (.ok n, g)) :
    Tended A embed { b.grown g with opened := n :: b.opened } := by
  obtain ⟨rfl, rfl⟩ := Run.make_ok ends
  have laid : Laid (fun _ => True) b.built b.graph.nodes.size b.graph
      (b.graph.addNode { kind := .placeholder }) :=
    .add .refl trivial ⟨fun _ => Kind.noConfusion, fun _ none => (by cases none),
      fun side _ => by cases side <;> rfl⟩
  refine ⟨⟨.inl h.atoms.1, .inl h.atoms.2⟩, fun n member => ?_, ?_, h.laid laid⟩
  · rcases List.mem_cons.mp member with rfl | member
    · refine ⟨.inr ⟨Nat.le_refl _, ?_⟩, congrArg Node.kind ((Graph.node_addNode _ _).trans (if_pos rfl))⟩
      rw [Graph.nodes_addNode, Array.size_push]
      exact Nat.lt_succ_self _
    · obtain ⟨built, open_⟩ := h.opened n member
      exact ⟨.inl built, (laid.evolves.kind (h.lt built)).trans open_⟩
  · refine List.nodup_cons.mpr ⟨fun member => ?_, h.nodup⟩
    exact Nat.lt_irrefl _ (h.lt (h.opened _ member).1)

theorem Tended.complete (h : Tended A embed b) {body m : NodeId} {rest : List NodeId}
    (opened : b.opened = n :: rest) (built : b.built body)
    (ends : Grammar.define n (.node body) b.graph = some (.ok m, g)) :
    Tended A embed { b with graph := g, opened := rest } := by
  obtain ⟨compound, rfl⟩ := Grammar.define_ok ends
  obtain ⟨made, open_⟩ := h.opened n (by rw [opened]; exact List.mem_cons_self)
  have lt := h.lt made
  have nodup := h.nodup
  rw [opened] at nodup
  have other {k : NodeId} (ne : k ≠ n) : (b.graph.become n body).node k = b.graph.node k := by
    rw [Graph.node_become body lt, if_neg ne]
  refine ⟨h.atoms, fun k member => ?_, (List.nodup_cons.mp nodup).2, fun look foreseen => ?_⟩
  · have ne : k ≠ n := by rintro rfl; exact (List.nodup_cons.mp nodup).1 member
    obtain ⟨built, open_⟩ := h.opened k (by rw [opened]; exact List.mem_cons_of_mem _ member)
    exact ⟨built, by rw [other ne]; exact open_⟩
  · obtain ⟨M, sound⟩ := h.sound look fun k built => by
      by_cases same : k = n
      · subst same; exact .inl open_
      · rw [← other same]; exact foreseen k built
    refine ⟨M, sound.complete made open_ built compound ?_⟩
    have := foreseen n made
    rw [Graph.node_become body lt, if_pos rfl] at this
    refine (this.resolve_left fun placeholder => ?_).symm
    rw [placeholder] at compound
    cases compound

end Bench

/-- Whatever is asked from outside keeps the regime. -/
theorem Ask.Honest.call {ask : Ask} (honest : ask.Honest A embed plan)
    (h : Sound A embed plan M g) (c : Call) (lt : c.node < g.nodes.size) :
    (soundness A embed plan).After M g (c.run ask) fun _ _ _ => True := by
  cases c with
  | query q => exact .bind (honest h q lt) fun _ _ _ _ h' _ => .pure h' trivial
  | residual compaction symbols n =>
    exact .bind (honest.residualFrom compaction symbols 0 h lt) fun _ _ _ _ h' _ => .pure h' trivial
  | recognize compaction symbols n =>
    exact .bind (honest.recognize h lt compaction symbols) fun _ _ _ _ h' _ => .pure h' trivial
  | parse compaction symbols n =>
    exact .bind (honest.parse h lt compaction symbols) fun _ _ _ _ h' _ => .pure h' trivial

namespace Bench

variable {b : Bench} {permitted : Bench → Call → Prop}

theorem Tended.call (embeds : A.Embeds embed) (h : Tended A embed b) {c : Call} {bound : Nat}
    {result : Except Fault Unit} (lt : c.node < b.graph.nodes.size)
    (ends : c.run (Engine.run bound) b.graph = some (result, g)) :
    Tended A embed { b with graph := g } := by
  have after {plan M} (sound : Sound A embed plan M b.graph) :=
    Ask.Honest.call (Engine.run_honest embeds bound) sound c lt result g ends
  obtain ⟨_, now⟩ := h.now
  obtain ⟨_, later, _⟩ := after now
  refine h.keep later.evolves fun sound => ?_
  obtain ⟨M', _, sound', _⟩ := after sound
  exact ⟨M', sound'⟩

theorem Reached.tended (embeds : A.Embeds embed) (h : b.Reached permitted) :
    Tended A embed b := by
  induction h with
  | refl => exact initial_tended
  | tail _ step ih =>
    cases step with
    | construct c built ends => exact ih.construct built ends
    | begin ends => exact ih.begin ends
    | complete opened built ends => exact ih.complete opened built ends
    | call bound c _ lt ends => exact ih.call embeds lt ends
    | journal journal =>
      exact ih.keep (Graph.evolves_of_eq rfl rfl) fun sound =>
        ⟨_, And.right
          (sound.books rfl rfl sound.derivatives sound.nullable sound.forests sound.compacted)⟩

/-- Only members of the least language are recognized, and only witnesses of the least
relation are parsed, with and without compaction. -/
theorem recognize_parse_sound (reached : b.Reached permitted) (built : b.built n) (bound : Nat)
    (compaction : Bool) (symbols : List Value) :
    (∀ consumed g, Parse.recognize (Engine.run bound) compaction symbols n b.graph =
        some (.ok (true, consumed), g) → b.graph.Accepts n symbols) ∧
    ∀ ws consumed g, Parse.parse (Engine.run bound) compaction symbols n b.graph =
        some (.ok (ws, consumed), g) → ∀ w ∈ ws, b.graph.Yields n symbols w := by
  constructor
  · intro consumed g ends
    have tended := reached.tended Worth.membership_embeds
    obtain ⟨M, sound⟩ := tended.now
    obtain ⟨_, _, _, accepted⟩ := Ask.Honest.recognize
      (Engine.run_honest Worth.membership_embeds bound) sound (tended.lt built) compaction symbols _ _ ends
    obtain ⟨_, hw⟩ := accepted _ rfl rfl Worth.membership_plentiful
    rw [Meaning.following, List.append_nil, sound.denotes built] at hw
    obtain ⟨t, same, d⟩ := hw
    exact d.alike Worth.membership_fair same
  · intro ws consumed g ends w member
    have tended := reached.tended Worth.witness_embeds
    obtain ⟨M, sound⟩ := tended.now
    obtain ⟨_, _, _, given⟩ := Ask.Honest.parse
      (Engine.run_honest Worth.witness_embeds bound) sound (tended.lt built) compaction symbols _ _ ends
    have hw := given _ rfl w member
    rw [Meaning.following, List.append_nil, sound.denotes built] at hw
    obtain ⟨t, same, d⟩ := hw
    exact d.alike Worth.witness_fair same

theorem recognize_parse_sound_ones : ones.Reached (fun _ _ => True) ∧ ones.built 2 ∧
    ones.graph.Accepts 2 [.int 1, .int 1] ∧
    ∃ w, ones.graph.Yields 2 [.int 1, .int 1] w := by
  have reached := ones_reached fun _ _ => True
  obtain ⟨recognized, parsed⟩ :=
    recognize_parse_sound reached ones_built 14 true [.int 1, .int 1]
  refine ⟨reached, ones_built, ?_, ?_⟩
  · have yes : (Parse.recognize (Engine.run 14) true [.int 1, .int 1] 2 ones.graph).any
        (fun r => r.1.toOption.any Prod.fst) = true := by decide +kernel
    obtain ⟨⟨_ | ⟨accepted, _⟩, g⟩, ends, yes⟩ := (Option.any_eq_true _ _).mp yes
    · cases yes
    · obtain rfl : accepted = true := yes
      exact recognized _ _ ends
  · have some_ : (Parse.parse (Engine.run 14) true [.int 1, .int 1] 2 ones.graph).any
        (fun r => r.1.toOption.any fun a => !a.1.isEmpty) = true := by decide +kernel
    obtain ⟨⟨_ | ⟨ws, _⟩, g⟩, ends, some_⟩ := (Option.any_eq_true _ _).mp some_
    · cases some_
    · obtain ⟨w, member⟩ := List.exists_mem_of_ne_nil ws (by rintro rfl; cases some_)
      exact ⟨w, parsed _ _ _ ends w member⟩

end Bench

end GrammarGraph
