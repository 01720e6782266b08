import GrammarGraph.Proofs.Failure.Sessions
import GrammarGraph.Proofs.Staying

/-! Sessions whose graph is canonical. Whatever is done with constructors and evaluators, as long as
no node is made as it is and none is overwritten, leaves the graph canonical. On the way, too, every
question is asked and answered at a canonical graph. -/
namespace GrammarGraph

theorem Graph.Canonical.parse_forest {g g' : Graph} (h : g.Canonical) {bound : Nat}
    {compaction : Bool} {symbols : List Value} {n : NodeId} {ws : Forest} {k : Nat}
    (ends : Parse.parse (Engine.run bound) compaction symbols n g = some (.ok (ws, k), g')) :
    ∃ r g₁ g₂, Parse.residual (Engine.run bound) compaction symbols n g = some (.ok r, g₁) ∧
      Engine.run bound (.forest r.node) g₁ = some (.ok ws, g₂) := by
  obtain ⟨r, g₁, left, ends⟩ := RunOf.bind_ok ends
  obtain ⟨us, g₂, asked, ends⟩ := RunOf.bind_ok ends
  have stays := Engine.run_stays bound
  have canonical := (canonical_constructive.residual compaction symbols n _ _ stays _ _ _ h left).2.1
  have reduced : Forest.Reduced us := (stays _ _ _ _ canonical asked).2.2 us rfl
  rw [reduced.ofWitnesses] at ends
  cases ends
  exact ⟨r, g₁, g₂, left, asked⟩

theorem Ask.Stays.inOrder {ask others : Ask} (h : ask.Stays others) :
    InOrder Graph.Canonical ask others where
  assembled assembled := assembled _ canonical_constructive ask others h
  journal _ canonical := canonical.congr (fun _ => rfl) rfl .inl
  name _ _ canonical := canonical.congr (fun _ => rfl) rfl .inl

namespace Session

variable {s s' : Session}

theorem Asks.canonical {op : Operation} {bound bound' : Nat} {q : Query} {g : Graph}
    (asks : Asks bound op s bound' q g) (crafts : op.Crafts) (canonical : s.graph.Canonical) :
    g.Canonical := by
  induction asks with
  | directly calls => exact calls.canonical (fun _ h => h.inOrder.operate bound crafts) canonical
  | onward _ calls ih => exact calls.canonical (fun _ h => h.answer _ _) ih

/-- Sessions in which nodes come from constructors and evaluators alone. -/
inductive Crafted : Session → Prop where
  | start : Crafted {}
  | perform {bound : Nat} {op : Operation} {s s' : Session} {result : Except Fault Reply} :
      Crafted s → op.Crafts → perform bound op s = some (result, s') → Crafted s'

theorem Crafted.canonical (crafted : s.Crafted) : s.graph.Canonical := by
  induction crafted with
  | start => exact .initial
  | @perform bound _ _ _ _ _ crafts ends ih =>
    exact ((Engine.run_stays bound).inOrder.operate bound crafts _ _ _ ih ends).2.1

/-- A graph of the session: the one that it has, or one at which a question is asked in the course of
an operation. -/
inductive Meets (s : Session) : Graph → Prop where
  | rest : Meets s s.graph
  | asked {bound bound' : Nat} {op : Operation} {q : Query} {g : Graph} :
      op.Crafts → Asks bound op s bound' q g → Meets s g

/-- In a session that makes nodes with constructors and evaluators alone, only one node is empty and
only one is trivial, and every forest lists different witnesses, be it in a node, stored,
provisional, or given as an answer at whatever depth. So a parse gives the very forest of what is
left. -/
theorem crafted_canonical {g : Graph} (crafted : s.Crafted) (meets : s.Meets g) :
    g.Canonical ∧
    (∀ bound q result g', Engine.run bound q g = some (result, g') →
      g'.Canonical ∧ ∀ a, result = .ok a → q.Reduced a) ∧
    ∀ journal bound compaction symbols n ws k g',
      Parse.parse (Engine.run bound) compaction symbols n { g with journal } =
          some (.ok (ws, k), g') →
        ∃ r g₁ g₂, Parse.residual (Engine.run bound) compaction symbols n { g with journal } =
            some (.ok r, g₁) ∧
          Engine.run bound (.forest r.node) g₁ = some (.ok ws, g₂) := by
  have canonical : g.Canonical := by
    cases meets with
    | rest => exact crafted.canonical
    | asked crafts asks => exact asks.canonical crafts crafted.canonical
  refine ⟨canonical, fun bound q result g' ends => (Engine.run_stays bound q _ _ _ canonical ends).2,
    fun journal bound compaction symbols n ws k g' ends => ?_⟩
  have journaled : Graph.Canonical { g with journal } := canonical.congr (fun _ => rfl) rfl .inl
  exact journaled.parse_forest ends

/-- A cyclic definition whose witnesses are equal. -/
def doubled : Session :=
  ((perform 4 (.bind "x" (.letrec "n" (.alt [.name "n", .eps [.bool true, .int 1]]))) {}).map
    Prod.snd).getD {}

theorem crafted_canonical_doubled : doubled.Crafted ∧ doubled.Meets doubled.graph ∧
    doubled.graph.Canonical ∧
    (∃ g', Engine.run 4 (.forest 2) doubled.graph = some (.ok [.bool true], g') ∧ g'.Canonical) := by
  have crafts : Operation.Crafts
      (.bind "x" (.letrec "n" (.alt [.name "n", .eps [.bool true, .int 1]]))) :=
    ⟨by simp [Operation.Uses, Term.Uses, Term.UsesAll], fun _ _ => nofun⟩
  have named : ∃ reply, perform 4
      (.bind "x" (.letrec "n" (.alt [.name "n", .eps [.bool true, .int 1]]))) {} =
        some (.ok reply, doubled) := ⟨_, rfl⟩
  have crafted : doubled.Crafted := .perform .start crafts named.choose_spec
  have asked : ∃ g', Engine.run 4 (.forest 2) doubled.graph = some (.ok [.bool true], g') := ⟨_, rfl⟩
  obtain ⟨g', asked⟩ := asked
  obtain ⟨canonical, answers, -⟩ := crafted_canonical crafted .rest
  exact ⟨crafted, .rest, canonical, g', asked, (answers _ _ _ _ asked).1⟩

end Session

end GrammarGraph
