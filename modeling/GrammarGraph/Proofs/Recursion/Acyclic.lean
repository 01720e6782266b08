import Mathlib.Logic.Relation
import GrammarGraph.Proofs.Recursion.Finite

/-! On graphs without cycles a recursion is its bodies alone, each of them run once. Whatever is in
progress lies above what is asked for, so that the default is never given and no value is
provisional. -/
namespace GrammarGraph

namespace FiniteGraph

variable {G : FiniteGraph} {n m : Nat}

def Acyclic (G : FiniteGraph) : Prop :=
  ∀ n ∈ G.nodes, ¬ Relation.TransGen G.Child n n

/-- No cycle closes where every child has a greater number. -/
theorem acyclic_of_lt (ordered : ∀ n ∈ G.nodes, ∀ m ∈ G.children n, n < m) : G.Acyclic := by
  intro n member cycle
  have rises (m : Nat) (path : Relation.TransGen G.Child n m) : n < m ∧ m ∈ G.nodes := by
    induction path with
    | single child => exact ⟨ordered _ member _ child, G.closed member child⟩
    | tail _ child ih => exact ⟨Nat.lt_trans ih.1 (ordered _ ih.2 _ child), G.closed ih.2 child⟩
  exact Nat.lt_irrefl n (rises n cycle).1

open Classical in
noncomputable def below (G : FiniteGraph) (n : Nat) : Finset Nat :=
  G.nodes.filter (Relation.TransGen G.Child n)

theorem card_below_lt (acyclic : ¬ Relation.TransGen G.Child n n) (member : n ∈ G.nodes) :
    (G.below n).card < G.nodes.card := by
  classical
  refine Finset.card_lt_card ((Finset.ssubset_iff_of_subset (Finset.filter_subset ..)).mpr ?_)
  exact ⟨n, member, by simp [acyclic]⟩

theorem card_below_child_lt (acyclic : ¬ Relation.TransGen G.Child m m) (member : n ∈ G.nodes)
    (child : m ∈ G.children n) : (G.below m).card < (G.below n).card := by
  classical
  have there := G.closed member child
  refine Finset.card_lt_card ((Finset.ssubset_iff_of_subset fun l deeper => ?_).mpr ⟨m, ?_, ?_⟩)
  · simp only [below, Finset.mem_filter] at deeper ⊢
    exact ⟨deeper.1, deeper.2.head child⟩
  · simpa [below, there] using Relation.TransGen.single child
  · simp [below, acyclic]

end FiniteGraph

namespace Body

theorem Asks.run_congr {σ α : Type} {P : Nat → Prop} {b : Body α} {again again' : Nat → RunOf σ α}
    (h : b.Asks P) (same : ∀ n, P n → again n = again' n) : b.run again = b.run again' := by
  induction h with
  | ends _ => rfl
  | asks here _ ih => simp only [run, same _ here, ih]

end Body

namespace Recursion

open Evaluation (Consistent)

variable {α : Type} {R : Recursion α} {G : FiniteGraph} {k l n m : Nat} {e e' : Evaluation α}
  {b : Body α} {result : Except Fault α} {as bs : List Nat} {c c' : Course α} {v : α}

/-- The bodies of the nodes of the graph ask for children only. -/
def Local (R : Recursion α) (G : FiniteGraph) : Prop :=
  ∀ n ∈ G.nodes, (R.body n).Asks (· ∈ G.children n)

theorem Local.within (h : R.Local G) : R.Within G :=
  fun n member => (h n member).imp fun _ child => G.closed member child

/-- The value by the bodies alone does not depend on the bound. -/
theorem plain_congr (h : R.Local G) (acyclic : G.Acyclic) (member : n ∈ G.nodes)
    (large : (G.below n).card < k) (large' : (G.below n).card < l) : R.plain k n = R.plain l n := by
  induction k generalizing n l with
  | zero => omega
  | succ k ih =>
    cases l with
    | zero => omega
    | succ l =>
      refine (h n member).run_congr fun m child => ?_
      have there := G.closed member child
      have less := G.card_below_child_lt (acyclic m there) member child
      exact ih there (by omega) (by omega)

theorem plain_succ (h : R.Local G) (acyclic : G.Acyclic) (large : G.nodes.card < k)
    (member : n ∈ G.nodes) : R.plain k n () = (R.body n).run (R.plain k) () := by
  have less := G.card_below_lt (acyclic n member) member
  exact congrFun (plain_congr (l := k + 1) h acyclic member (by omega) (by omega)) ()

/-- No value is provisional, and what is stored is what the bodies alone give. -/
structure Plain (R : Recursion α) (G : FiniteGraph) (bound : Nat) (e : Evaluation α) : Prop where
  quiet : ∀ n, e.provisional.get? n = none
  right : ∀ {n v}, n ∈ G.nodes → e.stored.get? n = some v →
    R.plain bound n () = some (.ok v, ())

/-- Whatever is in progress lies above what the body asks for. -/
def Clear (G : FiniteGraph) (e : Evaluation α) (b : Body α) : Prop :=
  b.Asks fun n => n ∈ G.nodes ∧ ∀ a d, e.active.get? a = some d → Relation.TransGen G.Child a n

theorem Clear.idle {next : α → Body α} (h : Clear G e (.asks n next)) (acyclic : G.Acyclic) :
    e.active.get? n = none :=
  Option.eq_none_iff_forall_ne_some.mpr fun d busy => acyclic n h.here.1 (h.here.2 n d busy)

theorem Clear.later {next : α → Body α} (h : Clear G e (.asks n next))
    (same : ∀ n, e'.active.get? n = e.active.get? n) (v : α) : Clear G e' (next v) :=
  (h.next v).imp fun _ here => ⟨here.1, fun a d busy => here.2 a d ((same a).symm.trans busy)⟩

/-- The children of a node lie below it, and below whatever the node lies below. -/
theorem Clear.enter {next : α → Body α} (h : Clear G e (.asks n next)) (near : R.Local G) :
    Clear G (e.enter n) (R.body n) := by
  refine (near n h.here.1).imp fun m child => ⟨G.closed h.here.1 child, fun a d busy => ?_⟩
  rw [Evaluation.active_enter] at busy
  by_cases here : a = n
  · rw [here]
    exact .single child
  · rw [if_neg here] at busy
    exact (h.here.2 a d busy).tail child

theorem Clear.of_resting (rest : e.Resting) (member : n ∈ G.nodes) :
    Clear G e (.asks n (.done (α := α))) :=
  .done ⟨member, fun a d busy => by simp [rest.active] at busy⟩

theorem Clear.replies {next : α → Body α} (h : Clear G e (.asks n next)) (acyclic : G.Acyclic)
    (quiet : ∀ n, e.provisional.get? n = none) (reply : R.Replies e n result e') :
    e' = e ∧ ∃ v, result = .ok v ∧ e.stored.get? n = some v := by
  cases reply with
  | stored known => exact ⟨rfl, _, rfl, known⟩
  | active _ busy _ => cases (h.idle acyclic).symm.trans busy
  | provisional _ _ known => cases (quiet n).symm.trans known

theorem Plain.enter {bound : Nat} (h : Plain R G bound e) : Plain R G bound (e.enter n) :=
  ⟨h.quiet, h.right⟩

theorem Plain.leave {bound : Nat} (h : Plain R G bound e) : Plain R G bound (e.leave n) where
  quiet m := by
    change (e.pending.foldl Table.erase e.provisional).get? m = none
    rw [Evaluation.get?_foldl_erase, h.quiet, ite_self]
  right := h.right

theorem Plain.store {bound : Nat} (h : Plain R G bound e)
    (given : R.plain bound n () = some (.ok v, ())) : Plain R G bound (e.store n v) where
  quiet := h.quiet
  right {m u} member known := by
    rw [Evaluation.stored_store] at known
    split at known
    · next same =>
      cases known
      rw [same]
      exact given
    · exact h.right member known

/-- A node is left that leaned on nothing: its value is stored, and the frames are as before. -/
theorem close_of_frames {e₁ : Evaluation α} (same : e₁.frames = (e.enter n).frames) (v : α) :
    e₁.close n v e.frames.size = (e₁.leave n).store n v ∧
      (e₁.close n v e.frames.size).frames = e.frames := by
  have low : e₁.lowlink = e.frames.size := by
    rw [Evaluation.lowlink_congr same, Evaluation.lowlink_enter]
  rw [Evaluation.close, if_neg (by omega)]
  refine ⟨rfl, ?_⟩
  simp [same]

section

variable (near : R.Local G) (acyclic : G.Acyclic) {bound : Nat} (large : G.nodes.card < bound)
include near acyclic large

/-- A body runs as it does by itself, and whatever it asks for is stored then. -/
theorem Runs.plain (h : R.Runs k e b result e' as bs) (consistent : e.Consistent)
    (plain : Plain R G bound e) (clear : Clear G e b) :
    Plain R G bound e' ∧ e'.frames = e.frames ∧
      b.run (R.plain bound) () = some (result, ()) ∧
      ∀ v, result = .ok v → ∀ m ∈ as, ∃ u, e'.stored.get? m = some u := by
  induction h with
  | ends _ => exact ⟨plain, rfl, rfl, by simp⟩
  | @replied k n e e₁ e' next v result as bs reply rest ih =>
    obtain ⟨rfl, u, given, known⟩ := clear.replies acyclic plain.quiet reply
    cases given
    obtain ⟨plain', same, ran, all⟩ := ih consistent plain (clear.later (fun _ => rfl) v)
    refine ⟨plain', same, ?_, fun u ended m member => ?_⟩
    · rw [Body.run_asks, plain.right clear.here.1 known]
      exact ran
    · rcases List.mem_cons.mp member with rfl | member
      · exact ⟨v, (rest.grows consistent).stored _ _ known⟩
      · exact all u ended m member
  | refused reply =>
    obtain ⟨-, v, given, -⟩ := clear.replies acyclic plain.quiet reply
    cases given
  | @computed k n e e₁ e' next v result as₁ as bs₁ bs fresh visit rest inner outer =>
    have entered := consistent.enter fresh
    obtain ⟨closed, closing⟩ := visit.closed fresh consistent
    obtain ⟨plain₁, same₁, ran₁, all₁⟩ := inner entered plain.enter (clear.enter near)
    have given := (plain_succ near acyclic large clear.here.1).trans ran₁
    obtain ⟨stores, frames⟩ := close_of_frames same₁ v
    obtain ⟨plain', same', ran', all'⟩ :=
      outer closed (stores ▸ plain₁.leave.store given) (clear.later closing.active v)
    refine ⟨plain', same'.trans frames, ?_, fun u ended m member => ?_⟩
    · rw [Body.run_asks, given]
      exact ran'
    · simp only [List.cons_append, List.mem_cons, List.mem_append] at member
      rcases member with rfl | member | member
      · refine ⟨v, (rest.grows closed).stored _ _ ?_⟩
        rw [stores, Evaluation.stored_store, if_pos rfl]
      · obtain ⟨w, known⟩ := all₁ v rfl m member
        refine ⟨w, (rest.grows closed).stored _ _ ?_⟩
        exact (fresh.visited (visit.grows entered).toAbove consistent.toOrderly
          (visit.consistent entered).toOrderly).stored_of_stored known
      · exact all' u ended m member
  | @failed k n e e₁ next fault as₁ bs₁ fresh visit inner =>
    obtain ⟨plain₁, same₁, ran₁, -⟩ :=
      inner (consistent.enter fresh) plain.enter (clear.enter near)
    have given := (plain_succ near acyclic large clear.here.1).trans ran₁
    refine ⟨plain₁.leave, by simp [same₁], ?_, fun u ended => (nomatch ended)⟩
    rw [Body.run_asks, given]
    rfl

theorem Runs.begun_nodup (h : R.Runs k e b (.ok v) e' as bs) (consistent : e.Consistent)
    (plain : Plain R G bound e) (clear : Clear G e b) : bs.Nodup := by
  induction h using Runs.ok_induction with
  | ends _ => exact .nil
  | replied reply _ ih =>
    obtain ⟨rfl, -⟩ := clear.replies acyclic plain.quiet reply
    exact ih consistent plain (clear.later (fun _ => rfl) _)
  | @computed k n e e₁ e' next u v as₁ as bs₁ bs fresh visit rest inner outer =>
    have entered := consistent.enter fresh
    obtain ⟨closed, closing⟩ := visit.closed fresh consistent
    obtain ⟨plain₁, same₁, ran₁, all₁⟩ :=
      visit.plain near acyclic large entered plain.enter (clear.enter near)
    have given := (plain_succ near acyclic large clear.here.1).trans ran₁
    obtain ⟨stores, -⟩ := close_of_frames same₁ u
    have once := inner entered plain.enter (clear.enter near)
    have once' := outer closed (stores ▸ plain₁.leave.store given) (clear.later closing.active u)
    -- what was begun before is stored, so that it is not begun again
    have known (m : Nat) (member : m ∈ n :: bs₁) : m ∉ bs := fun again => by
      have unknown := (rest.idle_of_begun closed again).2
      rw [stores, Evaluation.stored_store] at unknown
      rcases List.mem_cons.mp member with rfl | member
      · simp at unknown
      · obtain ⟨w, stored⟩ := all₁ u rfl m (visit.asked_of_begun member)
        rw [show (e₁.leave n).stored.get? m = some w from stored] at unknown
        split at unknown <;> cases unknown
    have apart : n ∉ bs₁ := fun again => by
      have idle := (visit.idle_of_begun entered again).1
      rw [Evaluation.active_enter, if_pos rfl] at idle
      cases idle
    refine List.nodup_append.mpr ⟨List.nodup_cons.mpr ⟨apart, once⟩, once', ?_⟩
    intro m member m' again same
    exact known m member (same ▸ again)

theorem Between.plain (h : R.Between (· ∈ G.nodes) c) : Plain R G bound c.evaluation := by
  induction h with
  | start => exact ⟨fun _ => Table.get?_empty _, fun _ known => by simp at known⟩
  | called between member called ih =>
    obtain ⟨as, bs, runs, -, -⟩ := runs_of_call called
    exact (runs.plain near acyclic large between.resting.consistent ih
      (.of_resting between.resting member)).1

/-- Wherever a recursion is, only stored values are known, and they are right; what is asked for
next lies below all that is in progress. -/
theorem Underway.plain (h : R.Underway (· ∈ G.nodes) c b) :
    Plain R G bound c.evaluation ∧ Clear G c.evaluation b := by
  induction h with
  | outermost between member =>
    exact ⟨between.plain near acyclic large, .of_resting between.resting member⟩
  | entered _ _ ih => exact ⟨ih.1.enter, ih.2.enter near⟩
  | @answered k n c c' next v reached called ih =>
    obtain ⟨as, bs, runs, -, -⟩ := runs_of_call called
    obtain ⟨plain, clear⟩ := ih
    have alone : Clear G c.evaluation (.asks n (.done (α := α))) := .done clear.here
    exact ⟨(runs.plain near acyclic large reached.consistent plain alone).1,
      clear.later (runs.grows reached.consistent).active v⟩

end

/-- After calls on `ns`, all of which gave values: what was asked for is stored, and no body was
begun twice. -/
structure Settled (R : Recursion α) (G : FiniteGraph) (ns : List Nat) (c : Course α) : Prop where
  between : R.Between (· ∈ G.nodes) c
  called : ∀ n ∈ ns, n ∈ c.asked
  stored : ∀ n ∈ c.asked, n ∈ G.nodes ∧ ∃ v, c.evaluation.stored.get? n = some v
  begun : ∀ n ∈ c.begun, n ∈ c.asked
  once : c.begun.Nodup

theorem Settled.initial : Settled R G [] {} where
  between := .start
  called _ member := by cases member
  stored _ member := by cases member
  begun _ member := by cases member
  once := .nil

section

variable (near : R.Local G) (acyclic : G.Acyclic) {bound : Nat} (large : G.nodes.card < bound)
include near acyclic large

theorem Settled.call {ns : List Nat} (h : Settled R G ns c) (member : n ∈ G.nodes) :
    ∃ result c', R.call bound n c = some (result, c') ∧
      R.plain bound n () = some (result, ()) ∧ ∀ v, result = .ok v → Settled R G (ns ++ [n]) c' := by
  have rest := h.between.resting
  have plain := h.between.plain near acyclic large
  have clear : Clear G c.evaluation (.asks n (.done (α := α))) := .of_resting rest member
  obtain ⟨result, e', as, bs, runs⟩ := near.within.exists_call rest.consistent member large
  obtain ⟨plain', -, ran, all⟩ := runs.plain near acyclic large rest.consistent plain clear
  have called := runs.call c.asked c.begun
  refine ⟨result, _, called, Body.run_done.symm.trans ran, fun v ended => ?_⟩
  subst ended
  have grows := runs.grows rest.consistent
  have known (m : Nat) (asked : m ∈ c.asked ++ as) :
      m ∈ G.nodes ∧ ∃ v, e'.stored.get? m = some v := by
    rcases List.mem_append.mp asked with before | now
    · obtain ⟨there, v, stored⟩ := h.stored m before
      exact ⟨there, v, grows.stored m v stored⟩
    · exact ⟨near.within.asked runs (.done member) now, all v rfl m now⟩
  refine ⟨.called h.between member called, fun m passed => ?_, known, fun m again => ?_, ?_⟩
  · rcases List.mem_append.mp passed with before | here
    · simp [h.called m before]
    · simp [List.mem_singleton.mp here, runs.asked_here]
  · exact (List.mem_append.mp again).elim (fun before => by simp [h.begun m before])
      fun now => by simp [runs.asked_of_begun now]
  · refine List.nodup_append.mpr ⟨h.once, runs.begun_nodup near acyclic large rest.consistent plain
      clear, fun m before m' now same => ?_⟩
    obtain ⟨-, u, stored⟩ := h.stored m (h.begun m before)
    cases ((runs.idle_of_begun rest.consistent now).2.symm.trans (same ▸ stored))

/-- On a graph without cycles calls give what the bodies alone give, whatever the default. If none
fails, every value that was asked for is stored, and no body was begun twice. At no time is a value
provisional, or a node asked for that is in progress. -/
theorem calls_plain :
    (∀ ns : List Nat, (∀ n ∈ ns, n ∈ G.nodes) → ∃ ended c,
      ns.mapM (R.call bound) {} = some (ended, c) ∧ ns.mapM (R.plain bound) () = some (ended, ()) ∧
      ∀ values, ended = .ok values → c.begun.Nodup ∧ (∀ n ∈ ns, n ∈ c.asked) ∧
        ∀ n ∈ c.asked, ∃ v, c.evaluation.stored.get? n = some v ∧
          R.plain bound n () = some (.ok v, ())) ∧
    ∀ c b, R.Underway (· ∈ G.nodes) c b → (∀ n, c.evaluation.provisional.get? n = none) ∧
      ∀ n next, b = .asks n next → c.evaluation.active.get? n = none := by
  refine ⟨fun ns inside => ?_, fun c b reached => ?_⟩
  · obtain ⟨ended, c, called, alike, settled⟩ := RunOf.mapM_alike (I := Settled R G) (t := ())
      (fun n member _ _ h => h.call near acyclic large (inside n member)) Settled.initial
    refine ⟨ended, c, called, alike, fun values given => ?_⟩
    have settled := settled values given
    refine ⟨settled.once, settled.called, fun n asked => ?_⟩
    obtain ⟨there, v, stored⟩ := settled.stored n asked
    exact ⟨v, stored, (settled.between.plain near acyclic large).right there stored⟩
  · obtain ⟨plain, clear⟩ := reached.plain near acyclic large
    refine ⟨plain.quiet, fun n next asks => ?_⟩
    subst asks
    exact clear.idle acyclic

end

/-- A node that two others share, below a node that asks for it as well. -/
theorem calls_plain_shared :
    let G := FiniteGraph.ofLists [[1, 2, 3], [3], [3], []] (by decide)
    let R := sizes G.children
    (∃ c, [1, 0].mapM (R.call 5) {} = some (.ok [2, 6], c) ∧
      [1, 0].mapM (R.plain 5) () = some (.ok [2, 6], ()) ∧ c.begun = [1, 3, 0, 2] ∧
      ∀ n ∈ c.asked, ∃ v, c.evaluation.stored.get? n = some v ∧
        R.plain 5 n () = some (.ok v, ())) ∧
    ∀ n next, R.body 0 = .asks n next →
      (((Course.ask 0 ({} : Course Nat)).enter 0).begin 0).evaluation.active.get? n = none := by
  intro G R
  have near : R.Local G := fun n _ => Body.total_asks fun _ => id
  have acyclic : G.Acyclic := FiniteGraph.acyclic_of_lt (by decide)
  obtain ⟨calls, always⟩ := calls_plain near acyclic (show G.nodes.card < 5 by decide)
  obtain ⟨ended, c, called, alike, settled⟩ := calls [1, 0] (by decide)
  have given : [1, 0].mapM (R.call 5) {} = some (.ok [2, 6], _) := rfl
  cases given.symm.trans called
  obtain ⟨-, -, stored⟩ := settled _ rfl
  exact ⟨⟨_, called, alike, rfl, stored⟩,
    (always _ _ (.entered (.outermost .start (by decide)) ⟨rfl, rfl, rfl⟩)).2⟩

end Recursion

end GrammarGraph
