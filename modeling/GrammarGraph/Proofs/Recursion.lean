import GrammarGraph.Proofs.Balance

/-! Recursive functions on numbered nodes, whatever they compute. A body sees of the others
nothing but their values, one after another, and decides by them whom it asks next. Evaluated
with a default where a cycle closes, a run is described by the relation `Runs`, one case for
each way in which a question is answered. -/
namespace GrammarGraph

/-- What is to be done at a node: to end, or to ask for the value of a node and go on with it.
A question that fails ends the body with the same fault. -/
inductive Body (α : Type) where
  | ends (result : Except Fault α)
  | asks (n : Nat) (next : α → Body α)

namespace Body

variable {σ α : Type}

def done (v : α) : Body α :=
  .ends (.ok v)

def run (again : Nat → RunOf σ α) : Body α → RunOf σ α
  | .ends result => .ofExcept result
  | .asks n next => do (next (← again n)).run again

theorem run_asks {again : Nat → RunOf σ α} {n : Nat} {next : α → Body α} {s : σ} :
    (asks n next).run again s = (again n s).bind fun
      | (.ok v, s') => (next v).run again s'
      | (.error fault, s') => some (.error fault, s') := by
  refine (RunOf.bind_run (again n) (fun v => (next v).run again) s).trans ?_
  rcases again n s with _ | ⟨_ | _, _⟩ <;> rfl

theorem run_done {again : Nat → RunOf σ α} {n : Nat} {s : σ} :
    (asks n .done).run again s = again n s := by
  rw [run_asks]
  rcases again n s with _ | ⟨_ | _, _⟩ <;> rfl

/-- Adds the values of the nodes to `sum`, from left to right. -/
def total (sum : Nat) : List Nat → Body Nat
  | [] => .done sum
  | n :: ns => .asks n fun size => total (sum + size) ns

/-- Whatever the answers are, all nodes that are asked for satisfy `P`. -/
inductive Asks (P : Nat → Prop) : Body α → Prop where
  | ends (result : Except Fault α) : Asks P (.ends result)
  | asks {n : Nat} {next : α → Body α} : P n → (∀ v, Asks P (next v)) → Asks P (.asks n next)

variable {P Q : Nat → Prop} {b : Body α}

theorem Asks.imp (h : b.Asks P) (imp : ∀ n, P n → Q n) : b.Asks Q := by
  induction h with
  | ends result => exact .ends result
  | asks here _ ih => exact .asks (imp _ here) ih

theorem total_asks {sum : Nat} {ns : List Nat} (all : ∀ n ∈ ns, P n) : (total sum ns).Asks P := by
  induction ns generalizing sum with
  | nil => exact .ends _
  | cons n ns ih => exact .asks (all n (by simp)) fun _ => ih fun m member => all m (by simp [member])

theorem Asks.here {n : Nat} {next : α → Body α} (h : (Body.asks n next).Asks P) : P n := by
  cases h with
  | asks here _ => exact here

theorem Asks.next {n : Nat} {next : α → Body α} (h : (Body.asks n next).Asks P) (v : α) :
    (next v).Asks P := by
  cases h with
  | asks _ later => exact later v

theorem Asks.done {n : Nat} (here : P n) : (Body.asks n (.done (α := α))).Asks P :=
  .asks here fun _ => .ends _

end Body

structure Recursion (α : Type) where
  /-- The answer where a cycle closes. -/
  default : Nat → Except Fault α
  body : Nat → Body α

/-- The course of an evaluation: which nodes were asked for, and whose bodies were begun. -/
structure Course (α : Type) where
  evaluation : Evaluation α := {}
  asked : List Nat := []
  begun : List Nat := []

namespace Course

variable {α : Type}

def ask (n : Nat) (c : Course α) : Course α :=
  { c with asked := c.asked ++ [n] }

def begin (n : Nat) (c : Course α) : Course α :=
  { c with begun := c.begun ++ [n] }

def enter (n : Nat) (c : Course α) : Course α :=
  { c with evaluation := c.evaluation.enter n }

end Course

def Held.course {α : Type} : Held (Course α) (Evaluation α) :=
  ⟨Course.evaluation, fun f c => { c with evaluation := f c.evaluation }⟩

/-- A node is left whose body has ended: with a value, which is recorded, or with a fault. -/
def Evaluation.conclude {α : Type} (n depth : Nat) : Except Fault α → Evaluation α → Evaluation α
  | .ok v, e => e.close n v depth
  | .error _, e => e.leave n

namespace Recursion

variable {α : Type} (R : Recursion α)

def step (again : Nat → RunOf (Course α) α) (n : Nat) : RunOf (Course α) α := do
  .update (Course.begin n)
  (R.body n).run fun m => do
    .update (Course.ask m)
    again m

/-- The value at a node, evaluated with the default. -/
def call (bound n : Nat) : RunOf (Course α) α := do
  .update (Course.ask n)
  Evaluation.solve .course (fun n => .ofExcept (R.default n)) R.step bound n

/-- The value at a node by the bodies alone, without default or record. -/
def plain : Nat → Nat → RunOf Unit α
  | 0, _ => .spent
  | bound + 1, n => (R.body n).run (plain bound)

/-- One more than the sizes of the children together, where a closed cycle adds nothing. -/
def sizes (children : Nat → List Nat) : Recursion Nat where
  default _ := .ok 0
  body n := .total 1 (children n)

/-- What `n` is answered with if its body is not begun. -/
inductive Replies (e : Evaluation α) (n : Nat) : Except Fault α → Evaluation α → Prop where
  | stored {v : α} : e.stored.get? n = some v → Replies e n (.ok v) e
  | active {depth : Nat} {result : Except Fault α} : e.stored.get? n = none →
      e.active.get? n = some depth → R.default n = result →
      Replies e n result (e.reliedOn depth)
  | provisional {p : Provisional α} : e.stored.get? n = none → e.active.get? n = none →
      e.provisional.get? n = some p → Replies e n (.ok p.value) (e.reliedOn p.lowlink)

/-- A body is run to its end, `bound` calls deep at most. The lists are the nodes that were
asked for and those whose bodies were begun, in their order. -/
inductive Runs : Nat → Evaluation α → Body α → Except Fault α → Evaluation α →
    List Nat → List Nat → Prop where
  | ends {k : Nat} {e : Evaluation α} (result : Except Fault α) :
      Runs k e (.ends result) result e [] []
  | replied {k n : Nat} {e e₁ e' : Evaluation α} {next : α → Body α} {v : α}
      {result : Except Fault α} {as bs : List Nat} : R.Replies e n (.ok v) e₁ →
      Runs (k + 1) e₁ (next v) result e' as bs →
      Runs (k + 1) e (.asks n next) result e' (n :: as) bs
  | refused {k n : Nat} {e e' : Evaluation α} {next : α → Body α} {fault : Fault} :
      R.Replies e n (.error fault) e' → Runs (k + 1) e (.asks n next) (.error fault) e' [n] []
  | computed {k n : Nat} {e e₁ e' : Evaluation α} {next : α → Body α} {v : α}
      {result : Except Fault α} {as₁ as bs₁ bs : List Nat} : e.Fresh n →
      Runs k (e.enter n) (R.body n) (.ok v) e₁ as₁ bs₁ →
      Runs (k + 1) (e₁.close n v e.frames.size) (next v) result e' as bs →
      Runs (k + 1) e (.asks n next) result e' (n :: as₁ ++ as) (n :: bs₁ ++ bs)
  | failed {k n : Nat} {e e₁ : Evaluation α} {next : α → Body α} {fault : Fault}
      {as₁ bs₁ : List Nat} : e.Fresh n →
      Runs k (e.enter n) (R.body n) (.error fault) e₁ as₁ bs₁ →
      Runs (k + 1) e (.asks n next) (.error fault) (e₁.leave n) (n :: as₁) (n :: bs₁)

variable {R} {k n : Nat} {c c' : Course α} {e e' : Evaluation α} {b : Body α} {v : α}
  {result : Except Fault α} {as bs : List Nat}

theorem call_succ : R.call (k + 1) n c = Evaluation.demand .course (.ofExcept (R.default n))
    (R.step (Evaluation.solve .course (fun n => .ofExcept (R.default n)) R.step k) n) n (c.ask n) :=
  rfl

theorem call_of_replies (h : R.Replies c.evaluation n result e') :
    R.call (k + 1) n c = some (result, { c.ask n with evaluation := e' }) := by
  rw [call_succ]
  cases h with
  | stored known => exact Evaluation.demand_stored known
  | active unknown busy given =>
    rw [← given]
    exact Evaluation.demand_active unknown busy
  | provisional unknown idle known =>
    exact Evaluation.demand_provisional unknown idle known

/-- The node is entered, and left again when its body has ended. -/
theorem call_of_entered (fresh : c.evaluation.Fresh n)
    (ran : (R.body n).run (R.call k) (((c.ask n).enter n).begin n) = some (result, c')) :
    R.call (k + 1) n c = some (result,
      { c' with evaluation := c'.evaluation.conclude n c.evaluation.frames.size result }) := by
  have fresh : (Held.course.get (c.ask n)).Fresh n := fresh
  rw [call_succ]
  cases result with
  | error fault => exact Evaluation.demand_failed fresh ran
  | ok v =>
    rw [Evaluation.demand_visited fresh.stored fresh.active fresh.provisional ran]
    by_cases low : c'.evaluation.lowlink < c.evaluation.frames.size
    · rw [Evaluation.conclude, Evaluation.close, if_pos low]
      exact congrArg some (congrArg _ (if_pos low))
    · rw [Evaluation.conclude, Evaluation.close, if_neg low]
      exact congrArg some (congrArg _ (if_neg low))

theorem of_call (h : R.call (k + 1) n c = some (result, c')) :
    (∃ e', R.Replies c.evaluation n result e' ∧ c' = { c.ask n with evaluation := e' }) ∨
    c.evaluation.Fresh n ∧ ∃ c₁,
      (R.body n).run (R.call k) (((c.ask n).enter n).begin n) = some (result, c₁) ∧
      c' = { c₁ with evaluation :=
        c₁.evaluation.conclude n c.evaluation.frames.size result } := by
  rw [call_succ] at h
  cases Evaluation.demanded h with
  | stored known => exact .inl ⟨_, .stored known, rfl⟩
  | active unknown busy given =>
    cases given
    exact .inl ⟨_, .active unknown busy rfl, rfl⟩
  | provisional unknown idle known => exact .inl ⟨_, .provisional unknown idle known, rfl⟩
  | failed fresh ran => exact .inr ⟨fresh, _, ran, rfl⟩
  | postponed fresh ran low =>
    refine .inr ⟨fresh, _, ran, ?_⟩
    rw [Evaluation.conclude, Evaluation.close, if_pos (by exact low)]
    rfl
  | computed fresh ran high =>
    refine .inr ⟨fresh, _, ran, ?_⟩
    rw [Evaluation.conclude, Evaluation.close, if_neg (by exact high)]
    rfl

theorem Runs.run (h : R.Runs k e b result e' as bs) (asked begun : List Nat) :
    b.run (R.call k) ⟨e, asked, begun⟩ = some (result, ⟨e', asked ++ as, begun ++ bs⟩) := by
  induction h generalizing asked begun with
  | ends result => simp [Body.run, RunOf.ofExcept]
  | @replied k n e _ _ _ _ _ _ _ reply _ ih =>
    rw [Body.run_asks, call_of_replies (c := ⟨e, asked, begun⟩) reply]
    simp [Course.ask, ih]
  | @refused k n e _ _ _ reply =>
    rw [Body.run_asks, call_of_replies (c := ⟨e, asked, begun⟩) reply]
    simp [Course.ask]
  | @computed k n e _ _ _ _ _ _ _ _ _ fresh _ _ inner outer =>
    rw [Body.run_asks, call_of_entered (c := ⟨e, asked, begun⟩) fresh (inner _ _)]
    simp [Evaluation.conclude, Course.ask, Course.enter, outer]
  | @failed k n e _ _ _ _ _ fresh _ inner =>
    rw [Body.run_asks, call_of_entered (c := ⟨e, asked, begun⟩) fresh (inner _ _)]
    simp [Evaluation.conclude, Course.ask, Course.enter]

theorem runs_of_run (h : b.run (R.call k) c = some (result, c')) :
    ∃ as bs, R.Runs k c.evaluation b result c'.evaluation as bs ∧
      c'.asked = c.asked ++ as ∧ c'.begun = c.begun ++ bs := by
  -- the bound for the bodies that are begun, the body for what is asked for after an answer
  induction k generalizing b result c c' with
  | zero =>
    cases b with
    | ends result =>
      cases h
      exact ⟨[], [], .ends _, by simp, by simp⟩
    | asks n next => cases h
  | succ k inner =>
    induction b generalizing c with
    | ends result =>
      cases h
      exact ⟨[], [], .ends _, by simp, by simp⟩
    | asks n next later =>
      rw [Body.run_asks] at h
      obtain ⟨⟨answer, c₁⟩, called, h⟩ := Option.bind_eq_some_iff.mp h
      rcases of_call called with ⟨e₁, reply, rfl⟩ | ⟨fresh, c₂, ran, rfl⟩
      · cases answer with
        | error fault =>
          cases h
          exact ⟨_, _, .refused reply, rfl, by simp [Course.ask]⟩
        | ok v =>
          obtain ⟨as, bs, runs, asked, begun⟩ := later v h
          exact ⟨_, _, .replied reply runs, by simp [asked, Course.ask],
            by simp [begun, Course.ask]⟩
      · obtain ⟨as₁, bs₁, within, asked₁, begun₁⟩ := inner ran
        simp only [Course.ask, Course.enter, Course.begin] at asked₁ begun₁
        cases answer with
        | error fault =>
          cases h
          exact ⟨_, _, .failed fresh within, by simp [asked₁], by simp [begun₁]⟩
        | ok v =>
          obtain ⟨as, bs, runs, asked, begun⟩ := later v h
          exact ⟨_, _, .computed fresh within runs, by simp [asked, asked₁],
            by simp [begun, begun₁]⟩

theorem runs_of_call (h : R.call k n c = some (result, c')) :
    ∃ as bs, R.Runs k c.evaluation (.asks n .done) result c'.evaluation as bs ∧
      c'.asked = c.asked ++ as ∧ c'.begun = c.begun ++ bs :=
  runs_of_run (Body.run_done.trans h)

theorem Runs.call (h : R.Runs k e (.asks n .done) result e' as bs) (asked begun : List Nat) :
    R.call k n ⟨e, asked, begun⟩ = some (result, ⟨e', asked ++ as, begun ++ bs⟩) :=
  Body.run_done.symm.trans (h.run asked begun)

/-- Where a body gives a value, so do all the bodies that were begun for it. -/
theorem Runs.ok_induction
    {motive : ∀ {k : Nat} {e : Evaluation α} {b : Body α} {v : α} {e' : Evaluation α}
      {as bs : List Nat}, R.Runs k e b (.ok v) e' as bs → Prop}
    (ends : ∀ {k : Nat} {e : Evaluation α} (v : α), motive (.ends (k := k) (e := e) (.ok v)))
    (replied : ∀ {k n : Nat} {e e₁ e' : Evaluation α} {next : α → Body α} {u v : α}
      {as bs : List Nat} (reply : R.Replies e n (.ok u) e₁)
      (rest : R.Runs (k + 1) e₁ (next u) (.ok v) e' as bs), motive rest →
      motive (.replied reply rest))
    (computed : ∀ {k n : Nat} {e e₁ e' : Evaluation α} {next : α → Body α} {u v : α}
      {as₁ as bs₁ bs : List Nat} (fresh : e.Fresh n)
      (visit : R.Runs k (e.enter n) (R.body n) (.ok u) e₁ as₁ bs₁)
      (rest : R.Runs (k + 1) (e₁.close n u e.frames.size) (next u) (.ok v) e' as bs),
      motive visit → motive rest → motive (.computed fresh visit rest))
    {k : Nat} {e : Evaluation α} {b : Body α} {v : α} {e' : Evaluation α} {as bs : List Nat}
    (h : R.Runs k e b (.ok v) e' as bs) : motive h := by
  suffices all : ∀ {k : Nat} {e : Evaluation α} {b : Body α} {result : Except Fault α}
      {e' : Evaluation α} {as bs : List Nat} (h : R.Runs k e b result e' as bs) (v : α)
      (ended : result = .ok v), motive (ended ▸ h) from all h v rfl
  intro k e b result e' as bs h
  induction h with
  | ends result =>
    rintro v rfl
    exact ends v
  | replied reply rest ih =>
    rintro v rfl
    exact replied reply rest (ih v rfl)
  | refused _ => exact fun _ => nofun
  | computed fresh visit rest inner outer =>
    rintro v rfl
    exact computed fresh visit rest (inner _ rfl) (outer v rfl)
  | failed _ _ _ => exact fun _ => nofun

theorem Runs.of_done (h : R.Runs k e (.done v) result e' as bs) : result = .ok v := by
  cases h
  rfl

theorem Replies.not_fresh (h : R.Replies e n result e') : ¬ e.Fresh n := by
  intro fresh
  cases h with
  | stored known => cases fresh.stored.symm.trans known
  | active _ busy _ => cases fresh.active.symm.trans busy
  | provisional _ _ known => cases fresh.provisional.symm.trans known

/-- A call on a node of which nothing is known is a run of its body. -/
theorem Runs.of_fresh (h : R.Runs k e (.asks n .done) result e' as bs) (fresh : e.Fresh n) :
    ∃ l e₁ as₁ bs₁, k = l + 1 ∧ R.Runs l (e.enter n) (R.body n) result e₁ as₁ bs₁ ∧
      e' = e₁.conclude n e.frames.size result ∧ as = n :: as₁ ∧ bs = n :: bs₁ := by
  cases h with
  | replied reply _ => exact absurd fresh reply.not_fresh
  | refused reply => exact absurd fresh reply.not_fresh
  | failed _ visit => exact ⟨_, _, _, _, rfl, visit, rfl, rfl, rfl⟩
  | computed _ visit rest =>
    cases rest
    exact ⟨_, _, _, _, rfl, visit, rfl, by simp, by simp⟩

section

variable (R) (P : Nat → Prop)

/-- Any number of calls were made from outside, on nodes that satisfy `P`. -/
inductive Between : Course α → Prop where
  | start : Between {}
  | called {bound n : Nat} {c c' : Course α} {result : Except Fault α} : Between c → P n →
      R.call bound n c = some (result, c') → Between c'

/-- After such calls and in the midst of another one, `b` is what is left to do of the body of
the innermost node in progress, or the call itself. -/
inductive Underway : Course α → Body α → Prop where
  | outermost {n : Nat} {c : Course α} : R.Between P c → P n → Underway c (.asks n .done)
  | entered {n : Nat} {c : Course α} {next : α → Body α} : Underway c (.asks n next) →
      c.evaluation.Fresh n → Underway (((c.ask n).enter n).begin n) (R.body n)
  | answered {bound n : Nat} {c c' : Course α} {next : α → Body α} {v : α} :
      Underway c (.asks n next) → R.call bound n c = some (.ok v, c') → Underway c' (next v)

end

end Recursion

end GrammarGraph
