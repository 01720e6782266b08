import GrammarGraph.Parse
import GrammarGraph.Proofs.Soundness.Engine

/-! Recognition and parsing under the regime of soundness: what is accepted has a
derivation, and every witness is the worth of one. -/
namespace GrammarGraph

variable {ω : Type} {A : Worth ω} {embed : Value → ω} {plan : Blueprint} {M M' : Meaning ω}
  {g g' : Graph} {n : NodeId}

theorem Sound.note (h : Sound A embed plan M g) (level : Level) (message : String) :
    M.Later g M (g.note level message) ∧ Sound A embed plan M (g.note level message) :=
  h.books rfl rfl h.derivatives h.nullable h.forests h.compacted

/-- What `n` means after the symbols. -/
def Meaning.following (M : Meaning ω) (n : NodeId) (symbols : List Value) (s : List Value)
    (w : ω) : Prop :=
  M (.node n) (symbols.map Value.numeric ++ s) w

namespace Ask.Honest

variable {ask : Ask} (honest : ask.Honest A embed plan)
include honest

theorem advance (h : Sound A embed plan M g) (lt : n < g.nodes.size) (compaction : Bool)
    (symbol : Value) :
    (soundness A embed plan).After M g (Parse.advance ask compaction symbol n) fun M' g' d =>
      M'.Follows g' symbol n d := by
  refine .bind (honest h (.derive symbol n) lt) fun M₁ g₁ d later₁ h₁ follows => ?_
  cases compaction with
  | false => exact .pure h₁ follows
  | true =>
    refine .imp (honest h₁ (.compact d) follows.2.1) fun M₂ g₂ m later₂ _ bounds => ?_
    have follows := later₂.follows follows
    exact ⟨follows.1, bounds.2.1, fun s w hw => follows.2.2 s w (bounds.2.2 s w hw)⟩

theorem report (h : Sound A embed plan M g) (lt : n < g.nodes.size) (position : Nat)
    (symbol : Value) :
    (soundness A embed plan).After M g (Parse.report ask position symbol n)
      fun _ _ _ => True := by
  refine .read (f := fun g => g.admits .debug) ?_
  split
  · refine .bind (honest h (.nodeCount n) lt) fun M₁ g₁ count _ h₁ _ => ?_
    obtain ⟨later, sound⟩ := h₁.note .debug
      s!"Consumed {symbol.written} at position {position}, residual has {count} nodes"
    exact .update later (.pure sound trivial)
  · exact .pure h trivial

theorem residualFrom (compaction : Bool) : ∀ {M g n} (symbols : List Value) (position : Nat),
    Sound A embed plan M g → n < g.nodes.size →
    (soundness A embed plan).After M g (Parse.residualFrom ask compaction position symbols n)
      fun M' g' r => M'.Confines g' (.node r.node) (M.following n symbols)
  | M, g, n, [], position, h, lt => .pure h ⟨lt, fun _ _ hw => hw⟩
  | M, g, n, symbol :: rest, position, h, lt => by
    unfold Parse.residualFrom
    refine .bind (honest.advance h lt compaction symbol) fun M₁ g₁ next later₁ h₁ follows => ?_
    split
    · next none =>
      obtain ⟨later, sound⟩ := h₁.note .debug
        s!"Rejected at position {position} on {symbol.written}"
      rw [eq_of_beq none]
      exact .update later (.pure sound sound.empty_confines)
    · refine .bind (honest.report h₁ follows.2.1 position symbol) fun M₂ g₂ _ later₂ h₂ _ => ?_
      have follows := later₂.follows follows
      refine .imp (residualFrom compaction rest (position + 1) h₂ follows.2.1)
        fun _ _ r _ _ confined => confined.imp fun s w hw => ?_
      have whole := follows.2.2 _ _ hw
      rwa [(later₁.trans later₂).node lt] at whole

theorem recognize (h : Sound A embed plan M g) (lt : n < g.nodes.size) (compaction : Bool)
    (symbols : List Value) :
    (soundness A embed plan).After M g (Parse.recognize ask compaction symbols n)
      fun _ _ answer => answer.1 = true → A.Plentiful → ∃ w, M.following n symbols [] w := by
  refine .bind (honest.residualFrom compaction symbols 0 h lt) fun M₁ g₁ r _ h₁ confined => ?_
  refine .bind (honest h₁ (.nullable r.node) confined.1) fun M₂ g₂ accepted later h₂ nulls => ?_
  let verdict := if accepted then "accepted" else "rejected"
  obtain ⟨later', sound⟩ := h₂.note .info s!"Recognition {verdict}"
  refine .update later' (.pure sound fun yes plenty => ?_)
  obtain ⟨w, hw⟩ := (nulls yes).2 plenty
  exact ⟨w, (later.confines confined).2 [] w hw⟩

theorem parse (h : Sound A embed plan M g) (lt : n < g.nodes.size) (compaction : Bool)
    (symbols : List Value) :
    (soundness A embed plan).After M g (Parse.parse ask compaction symbols n)
      fun _ _ answer => ∀ w ∈ answer.1, M.following n symbols [] (embed w) := by
  refine .bind (honest.residualFrom compaction symbols 0 h lt) fun M₁ g₁ r _ h₁ confined => ?_
  refine .bind (honest h₁ (.forest r.node) confined.1) fun M₂ g₂ forest later h₂ witnesses => ?_
  refine .given h₂ fun ws distinct => ?_
  obtain ⟨later', sound⟩ := h₂.note .info s!"Parse produced {ws.length} witnesses"
  refine .update later' (.pure sound fun w member => ?_)
  have member := Forest.mem_of_mem_ofWitnesses distinct member
  exact (later.confines confined).2 [] _ (witnesses.2 w member)

end Ask.Honest

end GrammarGraph
