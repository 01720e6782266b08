import Mathlib.Logic.Relation
import GrammarGraph.Proofs.Balance
import GrammarGraph.Proofs.Recursion.Acyclic

/-! Recursive functions whose results are memoized. A body asks for the values of all children of
its node, with the arguments that it was given itself. Then a call meets itself just where a cycle
is reached: what is in progress lies above whatever is asked for, and no result is kept of a node
that leads to a cycle, since there some child has none. -/
namespace GrammarGraph

namespace FiniteGraph

variable {G : FiniteGraph} {n m : Nat}

/-- Some cycle is reached from `n`. -/
def Cyclic (G : FiniteGraph) (n : Nat) : Prop :=
  ∃ m, Relation.ReflTransGen G.Child n m ∧ Relation.TransGen G.Child m m

theorem Cyclic.of_child (h : G.Cyclic m) (child : m ∈ G.children n) : G.Cyclic n := by
  obtain ⟨l, path, cycle⟩ := h
  exact ⟨l, path.head child, cycle⟩

theorem Cyclic.of_trans (cycle : Relation.TransGen G.Child n n) : G.Cyclic n :=
  ⟨n, .refl, cycle⟩

theorem Cyclic.exists_child (h : G.Cyclic n) : ∃ m ∈ G.children n, G.Cyclic m := by
  obtain ⟨l, path, cycle⟩ := h
  rcases path.cases_head with rfl | ⟨m, child, path⟩
  · obtain ⟨m, child, back⟩ := Relation.TransGen.head'_iff.mp cycle
    exact ⟨m, child, n, back, cycle⟩
  · exact ⟨m, child, l, path, cycle⟩

end FiniteGraph

theorem Option.mapM_of_related {α β : Type} {R : α → β → Prop} {f : α → Option β} {as : List α}
    {bs : List β} (each : ∀ a ∈ as, ∀ b, R a b → f a = some b) (all : List.Forall₂ R as bs) :
    as.mapM f = some bs := by
  induction all with
  | nil => rfl
  | cons first _ ih =>
    simp [each _ (by simp) _ first, ih fun a later => each a (by simp [later])]

/-- A function of a node and further arguments, which asks for its values at the children with the
same arguments and computes its own from them. -/
structure Fold (α : Type) where
  name : String
  value : Nat → Value → List α → α

/-- The results that are kept, and the nodes and arguments whose bodies were completed. -/
structure Ledger (α : Type) where
  memo : Memo α := {}
  completed : List (Nat × Value) := []

def Ledger.complete {α : Type} (n : Nat) (key : Value) (s : Ledger α) : Ledger α :=
  { s with completed := (n, key) :: s.completed }

def Held.ledger {α : Type} : Held (Ledger α) (Memo α) :=
  ⟨Ledger.memo, fun f s => { s with memo := f s.memo }⟩

namespace Fold

variable {α : Type} (F : Fold α) (G : FiniteGraph)

def step (key : Value) (again : Nat → RunOf (Ledger α) α) (n : Nat) : RunOf (Ledger α) α := do
  let values ← (G.children n).mapM again
  .update (Ledger.complete n key)
  pure (F.value n key values)

def call (bound : Nat) (key : Value) : Nat → RunOf (Ledger α) α :=
  Memo.solve .ledger F.name (F.step G key) key bound

/-- The value at a node by the bodies alone, at most `bound` of them below one another, where the
body at `m` is given the arguments `args m`. -/
def plain (args : Nat → Value) : Nat → Nat → Option α
  | 0, _ => none
  | bound + 1, n => ((G.children n).mapM (plain args bound)).map (F.value n (args n))

def Respects : Prop :=
  ∀ n us {c c' : Value}, c.same c' = true → F.value n c us = F.value n c' us

/-- Any number of calls were made from outside, with the arguments `past`. -/
inductive Between : List Value → Ledger α → Prop where
  | start : Between [] {}
  | called {bound n : Nat} {key : Value} {past : List Value} {s s' : Ledger α}
      {result : Except Fault α} : Between past s → n ∈ G.nodes → G.nodes.card < bound →
      F.call G bound key n s = some (result, s') → Between (key :: past) s'

/-- The result `v` was given by a completed body, from results that are kept for the children. -/
def Kept (s : Ledger α) (n : Nat) (key : Value) (v : α) : Prop :=
  ∃ given us, (n, given) ∈ s.completed ∧ given.same key = true ∧ v = F.value n given us ∧
    List.Forall₂ (fun m u => s.memo.find? m key = some u) (G.children n) us

structure Sound (s : Ledger α) : Prop where
  kept : ∀ {n key v}, s.memo.find? n key = some v → n ∈ G.nodes ∧ ¬ G.Cyclic n ∧ F.Kept G s n key v
  found : ∀ {n key}, (n, key) ∈ s.completed → ∃ v, s.memo.find? n key = some v
  once : s.completed.Pairwise fun a b => ¬ (a.1 = b.1 ∧ a.2.same b.2 = true)

/-- From `s` to `s'`, while values for `key` were asked for. -/
structure Goes (key : Value) (s s' : Ledger α) : Prop where
  sound : F.Sound G s'
  balanced : s.memo.Balanced s'.memo
  grown : s.completed ⊆ s'.completed
  fresh : ∀ e ∈ s'.completed, e ∈ s.completed ∨ e.2 = key

/-- A value is kept; a fault is the report of a cycle. -/
def Right (key : Value) (n : Nat) (s : Ledger α) : Except Fault α → Prop
  | .ok v => s.memo.find? n key = some v
  | .error fault => fault = .reentered F.name ∧ G.Cyclic n

/-- What is in progress is in progress for `key`, once for each node, and lies above `n`. -/
structure Under (key : Value) (n : Nat) (busy : List (Nat × Value)) : Prop where
  member : n ∈ G.nodes
  above : ∀ e ∈ busy, e.1 ∈ G.nodes ∧ e.2.same key = true ∧ Relation.TransGen G.Child e.1 n
  once : (busy.map Prod.fst).Nodup

variable {F G} {key : Value} {n m k : Nat} {s s₁ s' : Ledger α} {busy : List (Nat × Value)} {v : α}

theorem Respects.plain (h : F.Respects) {args args' : Nat → Value}
    (alike : ∀ m, (args m).same (args' m) = true) : F.plain G args k n = F.plain G args' k n := by
  induction k generalizing n with
  | zero => rfl
  | succ k ih =>
    have values : F.plain G args k = F.plain G args' k := funext fun m => ih
    have bodies : F.value n (args n) = F.value n (args' n) := funext fun us => h n us (alike n)
    rw [Fold.plain, Fold.plain, values, bodies]

theorem Sound.initial : F.Sound G {} where
  kept known := by simp [Memo.find?] at known
  found member := by cases member
  once := .nil

theorem Sound.acyclic (h : F.Sound G s) (known : s.memo.find? n key = some v) :
    ¬ Relation.TransGen G.Child n n :=
  fun cycle => (h.kept known).2.1 (.of_trans cycle)

theorem Sound.start (h : F.Sound G s) (n : Nat) (key : Value) :
    F.Sound G (Held.ledger.modify (Memo.start n key) s) :=
  ⟨h.kept, h.found, h.once⟩

theorem Sound.stop (h : F.Sound G s) (n : Nat) (key : Value) :
    F.Sound G (Held.ledger.modify (Memo.stop n key) s) :=
  ⟨h.kept, h.found, h.once⟩

theorem Sound.record {us : List α} (h : F.Sound G s) (member : n ∈ G.nodes)
    (fresh : s.memo.find? n key = none)
    (all : List.Forall₂ (fun m u => s.memo.find? m key = some u) (G.children n) us) :
    F.Sound G (Held.ledger.modify (Memo.finish n key (F.value n key us)) (s.complete n key)) := by
  have found {m : Nat} {c : Value} :
      (s.memo.finish n key (F.value n key us)).find? m c =
        if m = n ∧ key.same c = true then some (F.value n key us) else s.memo.find? m c :=
    Memo.find?_finish
  have keeps {m : Nat} {c : Value} {u : α} (known : s.memo.find? m c = some u) :
      (s.memo.finish n key (F.value n key us)).find? m c = some u := by
    rw [found, if_neg fun here => ?_, known]
    rw [here.1, ← Memo.find?_congr here.2, fresh] at known
    cases known
  refine ⟨fun {m c v} known => ?_, fun {m c} done => ?_, .cons (fun e done here => ?_) h.once⟩
  · replace known := found.symm.trans known
    split at known
    · next here =>
      obtain ⟨rfl, same⟩ := here
      cases known
      refine ⟨member, fun cyclic => ?_, key, us, List.mem_cons_self, same, rfl, ?_⟩
      · obtain ⟨m, child, cyclic⟩ := cyclic.exists_child
        obtain ⟨u, -, known⟩ := exists_related all child
        exact (h.kept known).2.1 cyclic
      · exact all.imp fun m u known => keeps ((Memo.find?_congr same).symm.trans known)
    · obtain ⟨there, acyclic, given, us, done, same, value, all⟩ := h.kept known
      exact ⟨there, acyclic, given, us, List.mem_cons_of_mem _ done, same, value,
        all.imp fun _ _ known => keeps known⟩
  · rcases List.mem_cons.mp done with here | before
    · cases here
      exact ⟨_, found.trans (if_pos ⟨rfl, Value.same_refl key⟩)⟩
    · obtain ⟨v, known⟩ := h.found before
      exact ⟨v, keeps known⟩
  · obtain ⟨v, known⟩ := h.found done
    rw [← here.1, ← Memo.find?_congr here.2, fresh] at known
    cases known

theorem Goes.refl (sound : F.Sound G s) : F.Goes G key s s :=
  ⟨sound, .refl _, fun _ => id, fun _ => .inl⟩

theorem Goes.trans (h : F.Goes G key s s₁) (h' : F.Goes G key s₁ s') : F.Goes G key s s' where
  sound := h'.sound
  balanced := h.balanced.trans h'.balanced
  grown := fun _ done => h'.grown (h.grown done)
  fresh e done := (h'.fresh e done).elim (h.fresh e) .inr

theorem Under.outermost (member : n ∈ G.nodes) : Under G key n [] where
  member := member
  above _ busy := by cases busy
  once := .nil

theorem Under.enter (h : Under G key n s.memo.inProgress)
    (idle : s.memo.isStarted n key = false) (child : m ∈ G.children n) :
    Under G key m (s.memo.start n key).inProgress where
  member := G.closed h.member child
  above e busy := by
    rcases List.mem_cons.mp busy with rfl | busy
    · exact ⟨h.member, Value.same_refl key, .single child⟩
    · obtain ⟨there, same, path⟩ := h.above e busy
      exact ⟨there, same, path.tail child⟩
  once := by
    refine List.nodup_cons.mpr ⟨fun again => ?_, h.once⟩
    obtain ⟨⟨a, given⟩, busy, rfl⟩ := List.mem_map.mp again
    have started := Memo.isStarted_iff.mpr ⟨given, busy, (h.above _ busy).2.1⟩
    exact Bool.false_ne_true (idle.symm.trans started)

theorem Under.length_le (h : Under G key n busy) : busy.length ≤ G.nodes.card := by
  rw [← List.length_map Prod.fst, ← List.toFinset_card_of_nodup h.once]
  refine Finset.card_le_card fun a member => ?_
  obtain ⟨e, inside, rfl⟩ := List.mem_map.mp (List.mem_toFinset.mp member)
  exact (h.above e inside).1

/-- The children of a node are asked one after another, as long as none leads to a cycle. -/
theorem mapM_right (again : Nat → RunOf (Ledger α) α) (ms : List Nat)
    (each : ∀ m ∈ ms, ∀ s, F.Sound G s → s.memo.inProgress = busy → ∃ result s',
      again m s = some (result, s') ∧ F.Goes G key s s' ∧ F.Right G key m s' result)
    (sound : F.Sound G s) (same : s.memo.inProgress = busy) :
    ∃ results s', ms.mapM again s = some (results, s') ∧ F.Goes G key s s' ∧
      match results with
      | .ok us => List.Forall₂ (fun m u => s'.memo.find? m key = some u) ms us
      | .error fault => fault = .reentered F.name ∧ ∃ m ∈ ms, G.Cyclic m := by
  induction ms generalizing s with
  | nil => exact ⟨.ok [], s, rfl, .refl sound, .nil⟩
  | cons m ms ih =>
    obtain ⟨result, s₁, first, goes, right⟩ := each m (by simp) s sound same
    rw [List.mapM_cons]
    cases result with
    | error fault =>
      obtain ⟨rfl, cyclic⟩ := right
      refine ⟨.error (.reentered F.name), s₁, ?_, goes, rfl, m, by simp, cyclic⟩
      rw [RunOf.bind_run, first]
      rfl
    | ok u =>
      obtain ⟨results, s', rest, goes', all⟩ := ih (fun m' member => each m' (by simp [member]))
        goes.sound (goes.balanced.started.trans same)
      cases results with
      | error fault =>
        obtain ⟨rfl, m', member, cyclic⟩ := all
        refine ⟨.error (.reentered F.name), s', ?_, goes.trans goes', rfl, m', by simp [member],
          cyclic⟩
        rw [RunOf.bind_of_ok first, RunOf.bind_run, rest]
        rfl
      | ok us =>
        refine ⟨.ok (u :: us), s', ?_, goes.trans goes', .cons (goes'.balanced.found right) all⟩
        rw [RunOf.bind_of_ok first, RunOf.bind_of_ok rest]
        rfl

theorem call_succ : F.call G (k + 1) key n =
    Memo.demand .ledger F.name (F.step G key (F.call G k key) n) n key :=
  rfl

/-- A call that may go deeper than nodes are left ends. It gives a value that is kept, or else
reports a cycle that is there. -/
theorem call_right (hashable : key.hashable = true) (sound : F.Sound G s)
    (under : Under G key n s.memo.inProgress)
    (large : G.nodes.card < k + s.memo.inProgress.length) :
    ∃ result s', F.call G k key n s = some (result, s') ∧ F.Goes G key s s' ∧
      F.Right G key n s' result := by
  induction k generalizing n s with
  | zero =>
    have := under.length_le
    omega
  | succ k ih =>
    have children (idle : s.memo.isStarted n key = false) :=
      mapM_right (F := F) (F.call G k key) (G.children n)
        (fun m child s₁ sound₁ same => ih sound₁ (same ▸ under.enter idle child)
          (by rw [same]; simp only [Memo.start, List.length_cons]; omega))
        (sound.start n key) rfl
    obtain ⟨result, s', called⟩ : ∃ result s', F.call G (k + 1) key n s = some (result, s') := by
      refine call_succ.symm ▸ Memo.exists_demanded fun _ _ idle => ?_
      obtain ⟨results, s₁, ran, -, -⟩ := children idle
      rw [step, RunOf.bind_run, ran]
      cases results <;> exact ⟨_, _, rfl⟩
    rw [call_succ] at called
    refine ⟨result, s', call_succ.symm ▸ called, ?_⟩
    cases Memo.demanded called with
    | unhashable without => cases hashable.symm.trans without
    | finished _ known => exact ⟨.refl sound, known⟩
    | started _ _ busy =>
      obtain ⟨given, busy, -⟩ := Memo.isStarted_iff.mp busy
      exact ⟨.refl sound, rfl, .of_trans (under.above _ busy).2.2⟩
    | @failed fault s₁ _ _ idle ran =>
      obtain ⟨results, s₂, asked, goes, all⟩ := children idle
      rw [step, RunOf.bind_run, asked] at ran
      cases results with
      | ok us => cases ran
      | error _ =>
        cases ran
        obtain ⟨rfl, m, child, cyclic⟩ := all
        exact ⟨⟨goes.sound.stop n key, goes.balanced.stop, goes.grown, goes.fresh⟩, rfl,
          cyclic.of_child child⟩
    | @computed v s₁ _ fresh idle ran =>
      obtain ⟨results, s₂, asked, goes, all⟩ := children idle
      rw [step, RunOf.bind_run, asked] at ran
      cases results with
      | error _ => cases ran
      | ok us =>
        cases ran
        have balanced := goes.balanced.finish fresh idle (F.value n key us)
        have unknown : s₂.memo.find? n key = none :=
          goes.balanced.unfound (Memo.isStarted_iff.mpr ⟨key, List.mem_cons_self,
            Value.same_refl key⟩) fresh
        refine ⟨⟨(goes.sound.stop n key).record under.member unknown all, balanced,
          fun _ done => List.mem_cons_of_mem _ (goes.grown done), fun e done => ?_⟩, ?_⟩
        · rcases List.mem_cons.mp done with rfl | before
          · exact .inr rfl
          · exact goes.fresh e before
        · exact Memo.find?_finish.trans (if_pos ⟨rfl, Value.same_refl key⟩)

/-- The arguments that the body at `n` was completed with, if they equal `key`. -/
def given (s : Ledger α) (key : Value) (n : Nat) : Value :=
  ((s.completed.find? fun e => e.1 == n && e.2.same key).map Prod.snd).getD key

theorem Sound.given (h : F.Sound G s) {c : Value} (done : (n, c) ∈ s.completed)
    (same : c.same key = true) : given s key n = c := by
  have first : s.completed.find? (fun e => e.1 == n && e.2.same key) = some (n, c) := by
    refine (List.find?_eq_some_iff_append).mpr ⟨by simp [same], ?_⟩
    obtain ⟨later, earlier, split⟩ := List.append_of_mem done
    refine ⟨later, earlier, split, fun e before => ?_⟩
    have apart := (List.pairwise_append.mp (split ▸ h.once)).2.2 e before (n, c) (by simp)
    rw [Bool.not_eq_true', Bool.and_eq_false_imp]
    intro here
    rw [Bool.eq_false_iff]
    exact fun alike => apart ⟨by simpa using here, Value.same_trans alike (Value.same_symm same)⟩
  rw [Fold.given, first]
  rfl

theorem given_or (s : Ledger α) (key : Value) (n : Nat) :
    given s key n = key ∨ (n, given s key n) ∈ s.completed ∧ (given s key n).same key = true := by
  unfold given
  cases first : s.completed.find? fun e => e.1 == n && e.2.same key with
  | none => exact .inl rfl
  | some e =>
    have alike : e.1 = n ∧ e.2.same key = true := by simpa using List.find?_some first
    exact .inr ⟨alike.1 ▸ List.mem_of_find?_eq_some first, alike.2⟩

theorem given_same (s : Ledger α) (key : Value) (n : Nat) : (given s key n).same key = true := by
  rcases given_or s key n with here | ⟨-, same⟩
  · rw [here]
    exact Value.same_refl key
  · exact same

/-- What is kept is the value by the bodies alone, each with the arguments it was completed
with. -/
theorem Sound.plain (h : F.Sound G s) (known : s.memo.find? n key = some v)
    (large : (G.below n).card < k) : F.plain G (Fold.given s key) k n = some v := by
  induction k generalizing n v with
  | zero => omega
  | succ k ih =>
    obtain ⟨member, -, c, us, done, same, rfl, all⟩ := h.kept known
    have values : (G.children n).mapM (F.plain G (Fold.given s key) k) = some us := by
      refine Option.mapM_of_related (fun m child u known => ih known ?_) all
      have less := G.card_below_child_lt (h.acyclic known) member child
      omega
    rw [Fold.plain, values, h.given done same]
    rfl

theorem Sound.kept_below (h : F.Sound G s) (known : s.memo.find? n key = some v)
    (path : Relation.ReflTransGen G.Child n m) : ∃ u, s.memo.find? m key = some u := by
  induction path with
  | refl => exact ⟨v, known⟩
  | tail _ child ih =>
    obtain ⟨u, known⟩ := ih
    obtain ⟨-, -, c, us, -, -, -, all⟩ := h.kept known
    obtain ⟨w, -, known⟩ := exists_related all child
    exact ⟨w, known⟩

theorem call_unhashable (without : key.hashable = false) :
    F.call G (k + 1) key n s = some (.error .unhashable, s) := by
  rw [call_succ]
  obtain ⟨result, s', called⟩ : ∃ result s',
      Memo.demand .ledger F.name (F.step G key (F.call G k key) n) n key s = some (result, s') :=
    Memo.exists_demanded fun hashable => by cases without.symm.trans hashable
  cases Memo.demanded called with
  | unhashable _ => exact called
  | _ hashable => cases without.symm.trans hashable

/-- Between calls nothing is in progress, and the bodies were given arguments of past calls. -/
theorem Between.sound {past : List Value} (h : F.Between G past s) :
    F.Sound G s ∧ s.memo.inProgress = [] ∧ ∀ e ∈ s.completed, e.2 ∈ past := by
  induction h with
  | start => exact ⟨.initial, rfl, fun e done => by cases done⟩
  | @called bound n key past s s' result _ member large called ih =>
    obtain ⟨sound, idle, known⟩ := ih
    cases hashable : key.hashable with
    | false =>
      cases bound with
      | zero => cases called
      | succ k =>
        cases (call_unhashable hashable).symm.trans called
        exact ⟨sound, idle, fun e done => List.mem_cons_of_mem _ (known e done)⟩
    | true =>
      obtain ⟨result, s₁, ran, goes, -⟩ :=
        call_right hashable sound (idle.symm ▸ Under.outermost member) (by rw [idle]; exact large)
      cases ran.symm.trans called
      refine ⟨goes.sound, goes.balanced.started.trans idle, fun e done => ?_⟩
      rcases goes.fresh e done with before | rfl
      · exact List.mem_cons_of_mem _ (known e before)
      · exact List.mem_cons_self

/-- After any calls, failed ones as well, a call from outside reports a cycle just where one is
reached. Otherwise it gives the value by the bodies alone, and all values below are kept. Nothing
stays in progress, what is kept is right, and no body was completed twice. Equal arguments share
their results: a body may have been given equal arguments of an earlier call, which makes no
difference where bodies cannot tell them apart. -/
theorem call_exact {past : List Value} {bound : Nat} (between : F.Between G past s)
    (member : n ∈ G.nodes) (hashable : key.hashable = true) (large : G.nodes.card < bound) :
    ∃ result s', F.call G bound key n s = some (result, s') ∧
      (result = .error (.reentered F.name) ↔ G.Cyclic n) ∧
      (∃ args : Nat → Value,
        (∀ m, args m = key ∨ args m ∈ past ∧ (args m).same key = true) ∧
        (¬ G.Cyclic n → ∃ v, result = .ok v ∧ F.plain G args bound n = some v) ∧
        ∀ m v, s'.memo.find? m key = some v →
          ¬ G.Cyclic m ∧ F.plain G args bound m = some v) ∧
      (F.Respects →
        (¬ G.Cyclic n → ∃ v, result = .ok v ∧ F.plain G (fun _ => key) bound n = some v) ∧
        ∀ m v, s'.memo.find? m key = some v → F.plain G (fun _ => key) bound m = some v) ∧
      s'.memo.inProgress = [] ∧
      (∀ v, result = .ok v → ∀ m, Relation.ReflTransGen G.Child n m →
        ∃ u, s'.memo.find? m key = some u) ∧
      s'.completed.Pairwise fun a b => ¬ (a.1 = b.1 ∧ a.2.same b.2 = true) := by
  obtain ⟨sound, idle, known⟩ := between.sound
  obtain ⟨result, s', called, goes, right⟩ :=
    call_right hashable sound (idle.symm ▸ Under.outermost member) (by rw [idle]; exact large)
  have kept (m : Nat) (v : α) (found : s'.memo.find? m key = some v) :
      ¬ G.Cyclic m ∧ F.plain G (given s' key) bound m = some v := by
    obtain ⟨there, acyclic, -⟩ := goes.sound.kept found
    have less := G.card_below_lt (goes.sound.acyclic found) there
    exact ⟨acyclic, goes.sound.plain found (by omega)⟩
  have gives (acyclic : ¬ G.Cyclic n) :
      ∃ v, result = .ok v ∧ F.plain G (given s' key) bound n = some v := by
    cases result with
    | error fault => exact absurd right.2 acyclic
    | ok v => exact ⟨v, rfl, (kept n v right).2⟩
  have own (respects : F.Respects) (m : Nat) :
      F.plain G (given s' key) bound m = F.plain G (fun _ => key) bound m :=
    respects.plain (given_same s' key)
  refine ⟨result, s', called, ?_, ⟨given s' key, fun m => ?_, gives, kept⟩, fun respects => ⟨?_, ?_⟩,
    goes.balanced.started.trans idle, fun v ended m path => ?_, goes.sound.once⟩
  · cases result with
    | error fault => simp [right.1, right.2]
    | ok v => simp [(kept n v right).1]
  · rcases given_or s' key m with here | ⟨done, same⟩
    · exact .inl here
    · exact (goes.fresh _ done).symm.imp id fun before => ⟨known _ before, same⟩
  · rw [← own respects]
    exact gives
  · intro m v found
    rw [← own respects]
    exact (kept m v found).2
  · subst ended
    exact goes.sound.kept_below right path

/-- After a call that met the cycle of 3 and 4, a call on a node that shares what is below. -/
theorem call_exact_shared :
    let G := FiniteGraph.ofLists [[1, 2], [2], [], [2, 4], [3]] (by decide)
    let F : Fold Nat := ⟨"size", fun _ _ sizes => sizes.foldl (· + ·) 1⟩
    let s : Ledger Nat := ⟨⟨⟨#[none, none, some [(.nothing, 1)]]⟩, []⟩, [(2, .nothing)]⟩
    F.call G 6 .nothing 3 {} = some (.error (.reentered "size"), s) ∧
      ∃ result s', F.call G 6 .nothing 0 s = some (result, s') ∧ result = .ok 4 ∧
        (result = .error (.reentered "size") ↔ G.Cyclic 0) ∧
        F.plain G (fun _ => .nothing) 6 0 = some 4 ∧ s'.memo.inProgress = [] := by
  intro G F s
  have large : G.nodes.card < 6 := by decide
  have met : F.call G 6 .nothing 3 {} = some (.error (.reentered "size"), s) := rfl
  have between : F.Between G [.nothing] s := .called .start (by decide) large met
  have respects : F.Respects := fun _ _ _ _ _ => rfl
  obtain ⟨result, s', called, cycle, -, own, idle, -, -⟩ := call_exact between (n := 0) (by decide)
    (rfl : Value.nothing.hashable = true) large
  have given : F.call G 6 .nothing 0 s = some (.ok 4, _) := rfl
  cases given.symm.trans called
  obtain ⟨v, same, plain⟩ := (own respects).1 fun cyclic => nomatch cycle.mpr cyclic
  cases same
  exact ⟨met, _, _, called, rfl, cycle, plain, idle⟩

/-- A body that names the type of its argument is asked for the value at `true` and gives what was
kept for `1`. -/
theorem equal_arguments_share :
    let G := FiniteGraph.ofLists [[]] (by decide)
    let F : Fold String := ⟨"derive", fun _ symbol _ => symbol.typeName⟩
    ∃ s s', F.Between G [.int 1] s ∧ ¬ G.Cyclic 0 ∧
      F.call G 2 (.bool true) 0 s = some (.ok "int", s') ∧
      F.plain G (fun _ => .bool true) 2 0 = some "bool" := by
  intro G F
  have first : F.call G 2 (.int 1) 0 {} = some (.ok "int", _) := rfl
  have childless (m : Nat) : m ∉ G.children 0 := List.not_mem_nil
  refine ⟨_, _, .called .start (by decide) (by decide) first, fun cyclic => ?_, rfl, rfl⟩
  obtain ⟨m, child, -⟩ := cyclic.exists_child
  exact childless m child

end Fold

end GrammarGraph
