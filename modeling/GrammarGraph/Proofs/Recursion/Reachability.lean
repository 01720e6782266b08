import Mathlib.Logic.Relation
import GrammarGraph.Proofs.Recursion.Finite

/-! Search by recursion: a node asks its children until one of them answers with what is sought.
With the other answer where a cycle closes, every search from outside and everything that is stored
is exact, on graphs with cycles as well. For a frame that leaned on nothing below itself and found
nothing, the nodes begun in it are closed under children, but for some that lead nowhere. -/
namespace GrammarGraph

namespace FiniteGraph

variable (G : FiniteGraph) (p : Nat → Bool)

/-- Some node that satisfies `p` is reached from `n`. -/
def Reaches (n : Nat) : Prop :=
  ∃ m, Relation.ReflTransGen G.Child n m ∧ p m = true

variable {G p}

theorem Reaches.of_child {n m : Nat} (h : G.Reaches p m) (child : m ∈ G.children n) :
    G.Reaches p n := by
  obtain ⟨goal, path, holds⟩ := h
  exact ⟨goal, path.head child, holds⟩

/-- From nodes that are closed under children, but for some that lead nowhere, nothing is
reached. -/
theorem not_reaches_of_closed {ns : List Nat}
    (closed : ∀ n ∈ ns, p n = false ∧ ∀ m ∈ G.children n, m ∈ ns ∨ ¬ G.Reaches p m)
    {n : Nat} (member : n ∈ ns) : ¬ G.Reaches p n := by
  rintro ⟨goal, path, holds⟩
  induction path using Relation.ReflTransGen.head_induction_on with
  | refl => simp [(closed _ member).1] at holds
  | head child path ih =>
    rcases (closed _ member).2 _ child with inside | barren
    · exact ih inside
    · exact barren ⟨goal, path, holds⟩

end FiniteGraph

namespace Body

/-- Asks for the nodes until one answers with what is sought. -/
def seek (sought : Bool) : List Nat → Body Bool
  | [] => .done !sought
  | n :: ns => .asks n fun found => if found = sought then .done sought else seek sought ns

variable {sought : Bool} {ns : List Nat}

theorem seek_asks {P : Nat → Prop} (all : ∀ n ∈ ns, P n) : (seek sought ns).Asks P := by
  induction ns with
  | nil => exact .ends _
  | cons n ns ih =>
    refine .asks (all n (by simp)) fun v => ?_
    split
    · exact .ends _
    · exact ih fun m member => all m (by simp [member])

theorem seek_sure : (seek sought ns).Sure := by
  induction ns with
  | nil => exact .done _
  | cons n ns ih =>
    refine .asks fun v => ?_
    split
    · exact .done _
    · exact ih

theorem seek_meets {S : Nat → Prop} {Q : Prop} (all : ∀ n ∈ ns, S n → Q) :
    (seek sought ns).Meets (fun n v => v = sought → S n) (fun v => v = sought → Q) := by
  induction ns with
  | nil =>
    refine .ends fun v ended found => ?_
    cases ended
    simp at found
  | cons n ns ih =>
    refine .asks fun v answer => ?_
    split
    · next found => exact .ends fun _ _ _ => all n (by simp) (answer found)
    · exact ih fun m member => all m (by simp [member])

end Body

namespace Recursion

open Evaluation (Consistent)

/-- The search for nodes that satisfy `p`. With `true` for what is sought, a node asks whether some
child leads to one; with `false`, whether every child leads to none. -/
def seek (sought : Bool) (p : Nat → Bool) (G : FiniteGraph) : Recursion Bool where
  default _ := .ok !sought
  body n := if p n then .done sought else .seek sought (G.children n)

variable {sought : Bool} {p : Nat → Bool} {G : FiniteGraph} {k n m : Nat} {e e' : Evaluation Bool}
  {b : Body Bool} {v : Bool} {result : Except Fault Bool} {as bs ns : List Nat}
  {c c' : Course Bool} {R : Recursion Bool}

theorem seek_body (n : Nat) : (seek sought p G).body n =
    if p n then .done sought else .seek sought (G.children n) := rfl

theorem seek_within : (seek sought p G).Within G := by
  intro n member
  rw [seek_body]
  split
  · exact .ends _
  · exact Body.seek_asks fun m child => G.closed member child

theorem seek_sure (n : Nat) : ((seek sought p G).body n).Sure := by
  rw [seek_body]
  split
  · exact .done _
  · exact Body.seek_sure

/-- An answer with what is sought is right, if those of the children are. -/
theorem seek_meets (n : Nat) : ((seek sought p G).body n).Meets
    (fun n v => v = sought → G.Reaches p n) (fun v => v = sought → G.Reaches p n) := by
  rw [seek_body]
  split
  · next holds => exact .ends fun _ _ _ => ⟨n, .refl, holds⟩
  · exact Body.seek_meets fun m child reaches => reaches.of_child child

theorem Runs.unsought {next : Bool → Body Bool} (asks : Body.seek sought ns = .asks n next)
    (h : R.Runs k e (next v) (.ok !sought) e' as bs) :
    ∃ ms, ns = n :: ms ∧ v ≠ sought ∧ next v = .seek sought ms := by
  cases ns with
  | nil => cases asks
  | cons m ms =>
    rw [Body.seek] at asks
    cases asks
    have other : v ≠ sought := fun found => by
      simp only [if_pos found] at h
      have same := h.of_done
      simp at same
    exact ⟨ms, rfl, other, if_neg other⟩

theorem Runs.unfound
    (h : (seek sought p G).Runs k e ((seek sought p G).body n) (.ok !sought) e' as bs) :
    p n = false ∧ (seek sought p G).body n = .seek sought (G.children n) := by
  rw [seek_body] at h ⊢
  by_cases holds : p n
  · rw [if_pos holds] at h
    have same := h.of_done
    simp at same
  · simp [holds]

/-- A search that finds nothing asks for all children of all nodes that it begins. -/
theorem Runs.exhausts (h : (seek sought p G).Runs k e (.seek sought ns) (.ok !sought) e' as bs)
    (consistent : e.Consistent) :
    (∀ m ∈ ns, m ∈ as) ∧ (∀ m ∈ bs, p m = false ∧ ∀ l ∈ G.children m, l ∈ as) ∧
      ∀ m ∈ as, e.stored.get? m ≠ some sought := by
  generalize search : Body.seek sought ns = b at h
  generalize missed : (!sought) = w at h
  induction h using Runs.ok_induction generalizing ns with
  | ends _ =>
    cases ns with
    | nil => simp
    | cons n ns => cases search
  | replied reply rest ih =>
    subst missed
    obtain ⟨ms, rfl, other, more⟩ := rest.unsought search
    obtain ⟨all, begun, unfound⟩ := ih (reply.consistent consistent) more.symm rfl
    refine ⟨fun m member => ?_, fun m member => ?_, fun m member known => ?_⟩
    · rcases List.mem_cons.mp member with rfl | member
      · simp
      · simp [all m member]
    · exact ⟨(begun m member).1, fun l child => by simp [(begun m member).2 l child]⟩
    · rcases List.mem_cons.mp member with rfl | member
      · cases reply with
        | stored known' => exact other (Option.some.inj (known'.symm.trans known))
        | active unknown _ _ => cases unknown.symm.trans known
        | provisional unknown _ _ => cases unknown.symm.trans known
      · exact unfound m member (reply.grows.stored m _ known)
  | computed fresh visit rest inner outer =>
    subst missed
    obtain ⟨ms, rfl, other, more⟩ := rest.unsought search
    obtain rfl := Bool.eq_not.mpr other
    obtain ⟨fails, body⟩ := visit.unfound
    obtain ⟨closed, closing⟩ := visit.closed fresh consistent
    obtain ⟨all₁, begun₁, unfound₁⟩ := inner (consistent.enter fresh) body.symm rfl
    obtain ⟨all, begun, unfound⟩ := outer closed more.symm rfl
    refine ⟨fun m member => ?_, fun m member => ?_, fun m member known => ?_⟩
    · rcases List.mem_cons.mp member with rfl | member
      · simp
      · simp [all m member]
    · simp only [List.cons_append, List.mem_cons, List.mem_append] at member
      rcases member with rfl | member | member
      · exact ⟨fails, fun l child => by simp [all₁ l child]⟩
      · exact ⟨(begun₁ m member).1, fun l child => by simp [(begun₁ m member).2 l child]⟩
      · exact ⟨(begun m member).1, fun l child => by simp [(begun m member).2 l child]⟩
    · simp only [List.cons_append, List.mem_cons, List.mem_append] at member
      rcases member with rfl | member | member
      · cases fresh.stored.symm.trans known
      · exact unfound₁ m member known
      · exact unfound m member (closing.stored m _ known)

/-- What leaned on no frame below and found nothing leads nowhere. -/
theorem Runs.not_reaches (consistent : e.Consistent) (fresh : e.Fresh n)
    (h : (seek sought p G).Runs k (e.enter n) ((seek sought p G).body n) (.ok !sought) e' as bs)
    (low : e.frames.size ≤ e'.lowlink)
    (stored : ∀ m, e.stored.get? m = some (!sought) → ¬ G.Reaches p m) : ¬ G.Reaches p n := by
  have entered := consistent.enter fresh
  obtain ⟨fails, body⟩ := h.unfound
  rw [body] at h
  obtain ⟨all, begun, unfound⟩ := h.exhausts entered
  -- an answer came from a node that was begun as well, or from one that was known before
  have answered (l : Nat) (member : l ∈ as) : l ∈ n :: bs ∨ ¬ G.Reaches p l := by
    by_cases here : l = n
    · simp [here]
    rcases e.fresh_or_leans l with fresh' | ⟨v, known⟩ | ⟨d, leans⟩
    · exact .inl (by simp [h.begun (fresh'.enter here) member])
    · refine .inr (stored l (known.trans ?_))
      have := unfound l member
      rw [show (e.enter n).stored.get? l = some v from known] at this
      exact congrArg some (Bool.eq_not.mpr fun found => this (congrArg some found))
    · have := h.lowlink_le entered member (leans.enter fresh)
      have := leans.lt consistent
      omega
  have closed : ∀ m ∈ n :: bs,
      p m = false ∧ ∀ l ∈ G.children m, l ∈ n :: bs ∨ ¬ G.Reaches p l := by
    intro m member
    rcases List.mem_cons.mp member with rfl | member
    · exact ⟨fails, fun l child => answered l (all l child)⟩
    · exact ⟨(begun m member).1, fun l child => answered l ((begun m member).2 l child)⟩
  exact FiniteGraph.not_reaches_of_closed closed (by simp)

/-- All values with what is sought are right, and so are all stored values. -/
structure Exact (sought : Bool) (p : Nat → Bool) (G : FiniteGraph) (e : Evaluation Bool) : Prop where
  sound : ∀ {n v}, e.Knows n v → v = sought → G.Reaches p n
  complete : ∀ {n}, e.stored.get? n = some (!sought) → ¬ G.Reaches p n

theorem Exact.stored (h : Exact sought p G e) (known : e.stored.get? n = some v) :
    v = sought ↔ G.Reaches p n := by
  refine ⟨h.sound (.inl known), fun reaches => Decidable.byContradiction fun other => ?_⟩
  obtain rfl := Bool.eq_not.mpr other
  exact h.complete known reaches

theorem Runs.complete (h : (seek sought p G).Runs k e b result e' as bs) (consistent : e.Consistent)
    (stored : ∀ m, e.stored.get? m = some (!sought) → ¬ G.Reaches p m) :
    ∀ m, e'.stored.get? m = some (!sought) → ¬ G.Reaches p m := by
  induction h with
  | ends _ => exact stored
  | replied reply _ ih =>
    refine ih (reply.consistent consistent) ?_
    cases reply with
    | stored _ | active _ _ _ | provisional _ _ _ => exact stored
  | refused reply =>
    cases reply with
    | active _ _ _ => exact stored
  | @computed k n e e₁ e' next v result as₁ as bs₁ bs fresh visit rest inner outer =>
    have entered := consistent.enter fresh
    refine outer (visit.closed fresh consistent).1 fun m known => ?_
    rcases Evaluation.Visited.stored_close known with before | ⟨rfl, rfl⟩
    · exact inner entered stored m before
    · have unstored := (visit.grows entered).unstored (visit.consistent entered)
      have known : (e₁.conclude m e.frames.size (.ok _)).stored.get? m = _ := known
      obtain ⟨-, low⟩ := Evaluation.of_stored_conclude unstored known
      exact visit.not_reaches consistent fresh low stored
  | failed fresh _ inner => exact inner (consistent.enter fresh) stored

theorem Exact.runs (h : Exact sought p G e) (consistent : e.Consistent)
    (runs : (seek sought p G).Runs k e (.asks n .done) result e' as bs) :
    Exact sought p G e' where
  sound := by
    refine (runs.meets seek_meets (fun n v given found => ?_) (T := fun _ => True)
      (.asks fun _ _ => .ends fun _ _ => trivial) h.sound).2
    cases given
    simp at found
  complete := runs.complete consistent (fun _ => h.complete) _

theorem exact_initial : Exact sought p G {} where
  sound known := by simp [Evaluation.Knows] at known
  complete known := by simp at known

theorem Between.exact {P : Nat → Prop} (h : (seek sought p G).Between P c) :
    Exact sought p G c.evaluation := by
  induction h with
  | start => exact exact_initial
  | called between _ called ih =>
    obtain ⟨as, bs, runs, -, -⟩ := runs_of_call called
    exact ih.runs between.resting.consistent runs

theorem Underway.exact {P : Nat → Prop} (h : (seek sought p G).Underway P c b) :
    Exact sought p G c.evaluation := by
  induction h with
  | outermost between _ => exact between.exact
  | entered _ _ ih => exact ⟨ih.sound, ih.complete⟩
  | answered reached called ih =>
    obtain ⟨as, bs, runs, -, -⟩ := runs_of_call called
    exact ih.runs reached.consistent runs

/-- Any number of searches from outside end, and their answers are exact. So is whatever is stored
then, and at any moment in between. -/
theorem seek_exact (sought : Bool) (p : Nat → Bool) (G : FiniteGraph) :
    (∀ (bound : Nat) (ns : List Nat), G.nodes.card < bound → (∀ n ∈ ns, n ∈ G.nodes) →
      ∃ answers c, ns.mapM ((seek sought p G).call bound) {} = some (.ok answers, c) ∧
        List.Forall₂ (fun n v => v = sought ↔ G.Reaches p n) ns answers ∧
        ∀ n v, c.evaluation.stored.get? n = some v → (v = sought ↔ G.Reaches p n)) ∧
    ∀ c b, (seek sought p G).Underway (· ∈ G.nodes) c b →
      ∀ n v, c.evaluation.stored.get? n = some v → (v = sought ↔ G.Reaches p n) := by
  refine ⟨fun bound ns large inside => ?_, fun c b reached n v known => reached.exact.stored known⟩
  have each (n : Nat) (member : n ∈ ns) (c : Course Bool)
      (between : (seek sought p G).Between (· ∈ G.nodes) c) :
      ∃ v c', (seek sought p G).call bound n c = some (.ok v, c') ∧
        (seek sought p G).Between (· ∈ G.nodes) c' ∧ (v = sought ↔ G.Reaches p n) := by
    have rest := between.resting
    obtain ⟨result, e', as, bs, runs⟩ :=
      seek_within.exists_call rest.consistent (inside n member) large
    obtain ⟨v, rfl⟩ := runs.sure seek_sure (fun _ => ⟨_, rfl⟩) (.asks fun v => .done v)
    have called := runs.call c.asked c.begun
    refine ⟨v, _, called, .called between (inside n member) called, ?_⟩
    exact (between.exact.runs rest.consistent runs).stored (runs.stored_of_resting rest)
  obtain ⟨answers, c, ended, between, all⟩ := RunOf.mapM_ok each .start
  exact ⟨answers, c, ended, all, fun n v known => between.exact.stored known⟩

/-- A cycle of three nodes, one of which is sought, and a node that leads to itself only. -/
theorem seek_exact_ring :
    let G := FiniteGraph.ofLists [[1], [2, 0], [0], [3]] (by decide)
    (∃ c, [2, 0, 3].mapM ((seek true (· == 1) G).call 5) {} =
      some (.ok [true, true, false], c)) ∧
    List.Forall₂ (fun n v => v = true ↔ G.Reaches (· == 1) n) [2, 0, 3] [true, true, false] ∧
    ∀ v, ({} : Evaluation Bool).stored.get? 0 = some v → (v = true ↔ G.Reaches (· == 1) 0) := by
  intro G
  have exact := seek_exact true (· == 1) G
  obtain ⟨answers, c, ended, all, -⟩ := exact.1 5 [2, 0, 3] (by decide) (by decide)
  have given : [2, 0, 3].mapM ((seek true (· == 1) G).call 5) {} =
    some (.ok [true, true, false], _) := rfl
  cases given.symm.trans ended
  exact ⟨⟨_, ended⟩, all, exact.2 {} (.asks 0 .done) (.outermost .start (by decide)) 0⟩

end Recursion

end GrammarGraph
