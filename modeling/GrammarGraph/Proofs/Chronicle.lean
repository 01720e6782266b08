import GrammarGraph.Engine.Parts
import GrammarGraph.Proofs.Evaluator
import GrammarGraph.Proofs.Outcomes

/-! What happens in the course of a run: which questions are asked, one after another and one within
another, at which graphs, and how each is answered. A chronicle follows the run through its parts;
every run that ends has one, and it leads to what the run ends with. -/
namespace GrammarGraph

theorem RunOf.bind_of_error {σ α β : Type} {r : RunOf σ α} {f : α → RunOf σ β} {s s' : σ}
    {fault : Fault} (h : r s = some (.error fault, s')) :
    (r >>= f) s = some (.error fault, s') := by
  rw [bind_run, h]
  rfl

/-- A question that was asked: the graph at that time, what was asked before it was answered, and
how it was. -/
inductive Inquiry where
  | mk (q : Query) (before : Graph) (within : List Inquiry) (result : Except Fault q.Answer)
      (after : Graph)

namespace Inquiry

def before : Inquiry → Graph
  | .mk _ before _ _ _ => before

def after : Inquiry → Graph
  | .mk _ _ _ _ after => after

mutual

/-- The question with all that were asked on account of it, at any depth. -/
def all : Inquiry → List Inquiry
  | .mk q before within result after => .mk q before within result after :: allOf within

def allOf : List Inquiry → List Inquiry
  | [] => []
  | x :: xs => x.all ++ allOf xs

end

end Inquiry

/-- A time at which a question is asked or answered. -/
inductive Moment where
  | asked (x : Inquiry)
  | answered (x : Inquiry)

namespace Moment

def inquiry : Moment → Inquiry
  | .asked x | .answered x => x

def graph : Moment → Graph
  | .asked x => x.before
  | .answered x => x.after

end Moment

namespace Inquiry

mutual

/-- The moments from the question to its answer. -/
def moments : Inquiry → List Moment
  | .mk q before within result after =>
    .asked (.mk q before within result after) ::
      (momentsOf within ++ [.answered (.mk q before within result after)])

def momentsOf : List Inquiry → List Moment
  | [] => []
  | x :: xs => x.moments ++ momentsOf xs

end

/-- The graphs at which something was asked or answered, in their order. -/
def graphsOf (xs : List Inquiry) : List Graph :=
  (momentsOf xs).map Moment.graph

variable {xs ys : List Inquiry} {q : Query} {g g' : Graph} {result : Except Fault q.Answer}

@[simp] theorem allOf_nil : allOf [] = [] := by simp [allOf]

@[simp] theorem allOf_append : allOf (xs ++ ys) = allOf xs ++ allOf ys := by
  induction xs with
  | nil => simp
  | cons x xs ih => simp [allOf, ih]

theorem allOf_mk : allOf [.mk q g xs result g'] = .mk q g xs result g' :: allOf xs := by
  simp [allOf, all]

@[simp] theorem momentsOf_nil : momentsOf [] = [] := by simp [momentsOf]

@[simp] theorem momentsOf_append : momentsOf (xs ++ ys) = momentsOf xs ++ momentsOf ys := by
  induction xs with
  | nil => simp
  | cons x xs ih => simp [momentsOf, ih]

@[simp] theorem graphsOf_nil : graphsOf [] = [] := by simp [graphsOf]

@[simp] theorem graphsOf_append : graphsOf (xs ++ ys) = graphsOf xs ++ graphsOf ys := by
  simp [graphsOf]

theorem graphsOf_mk : graphsOf [.mk q g xs result g'] = g :: (graphsOf xs ++ [g']) := by
  simp [graphsOf, momentsOf, moments, Moment.graph, before, after]

mutual

theorem inquiry_mem_all : ∀ x : Inquiry, ∀ m ∈ x.moments, m.inquiry ∈ x.all
  | .mk q g within result g', m, member => by
    rw [moments, List.mem_cons, List.mem_append, List.mem_singleton] at member
    rw [all, List.mem_cons]
    rcases member with rfl | inner | rfl
    · exact .inl rfl
    · exact .inr (inquiry_mem_allOf within m inner)
    · exact .inl rfl

/-- Whatever is asked or answered at some moment is among the questions. -/
theorem inquiry_mem_allOf : ∀ xs : List Inquiry, ∀ m ∈ momentsOf xs, m.inquiry ∈ allOf xs
  | [], m, member => by simp at member
  | x :: xs, m, member => by
    rw [momentsOf, List.mem_append] at member
    rw [allOf, List.mem_append]
    exact member.imp (inquiry_mem_all x m) (inquiry_mem_allOf xs m)

end

mutual

theorem asked_mem_moments : ∀ x : Inquiry, ∀ y ∈ x.all, .asked y ∈ x.moments
  | .mk q g within result g', y, member => by
    rw [all, List.mem_cons] at member
    rw [moments, List.mem_cons, List.mem_append]
    rcases member with rfl | deeper
    · exact .inl rfl
    · exact .inr (.inl (asked_mem_momentsOf within y deeper))

/-- Every question was asked at some moment. -/
theorem asked_mem_momentsOf : ∀ xs : List Inquiry, ∀ y ∈ allOf xs, .asked y ∈ momentsOf xs
  | [], y, member => by simp at member
  | x :: xs, y, member => by
    rw [allOf, List.mem_append] at member
    rw [momentsOf, List.mem_append]
    exact member.imp (asked_mem_moments x y) (asked_mem_momentsOf xs y)

end

theorem before_mem_graphsOf {y : Inquiry} (member : y ∈ allOf xs) : y.before ∈ graphsOf xs :=
  List.mem_map.mpr ⟨.asked y, asked_mem_momentsOf xs y member, rfl⟩

end Inquiry

def Held.whole : Held Graph Graph :=
  ⟨id, id⟩

namespace Child

/-- What the computation of a child comes to: only a node can be a child. -/
def yield : Except Fault Operand → Except Fault NodeId
  | .ok (.node k) => .ok k
  | .ok operand => .error (.productType operand.typeName)
  | .error fault => .error fault

/-- The mark is taken away, and a node takes the place of the cell. -/
def settle (n : NodeId) (side : Side) (cell : CellId) : Except Fault NodeId → Graph → Graph
  | .ok k, g => (g.setForcing cell false).setSlot n side (.node k)
  | .error _, g => g.setForcing cell false

variable {ask : Ask} {n : NodeId} {side : Side} {g g₁ : Graph} {cell : CellId} {s : Suspension}
  {ended : Except Fault Operand}

theorem read_vacant (held : (g.node n).slot side = .vacant) :
    read ask n side g = some (.ok none, g) := by
  unfold read
  rw [RunOf.read_bind]
  simp only [held]
  rfl

theorem read_lost (held : (g.node n).slot side = .deferred cell)
    (lost : g.suspension? cell = none) : read ask n side g = some (.ok none, g) := by
  have here : g.cells[cell]? = none := by simpa [Graph.suspension?] using lost
  unfold read
  rw [RunOf.read_bind]
  simp only [held]
  rw [RunOf.read_bind]
  simp only [here]
  rfl

theorem read_busy (held : (g.node n).slot side = .deferred cell)
    (marked : g.isForcing cell = true) :
    read ask n side g = some (.error .childInProgress, g) := by
  obtain ⟨s, suspended⟩ := Graph.exists_suspension marked
  obtain ⟨⟨s', forcing⟩, here, -⟩ := Option.map_eq_some_iff.mp suspended
  obtain rfl : forcing = true := by simpa [Graph.isForcing, here] using marked
  unfold read
  rw [RunOf.read_bind]
  simp only [held]
  rw [RunOf.read_bind]
  simp only [here]
  rfl

theorem read_computed (slot : (g.node n).slot side = .deferred cell)
    (suspended : g.suspension? cell = some s) (free : g.isForcing cell = false)
    (ran : compute ask s (g.setForcing cell true) = some (ended, g₁)) :
    read ask n side g = some ((yield ended).map some, settle n side cell (yield ended) g₁) := by
  rw [read_eq slot suspended free, RunOf.bind_run, force_eq, ran]
  rcases ended with fault | (_ | _ | _) <;> rfl

end Child

/-- How a run goes in which questions are answered by the engine. A question that is asked stands
for itself in the list, with what is asked before it is answered. -/
inductive Chronicle : {σ α : Type} → Held σ Graph → Nat → (Ask → RunOf σ α) → σ →
    List Inquiry → Except Fault α → σ → Prop where
  /-- Nothing is asked, and neither nodes nor cells change. -/
  | still {σ α : Type} {held : Held σ Graph} {bound : Nat} {r : RunOf σ α} {s s' : σ}
      {result : Except Fault α} : r s = some (result, s') →
      (held.get s').nodes = (held.get s).nodes → (held.get s').cells = (held.get s).cells →
      Chronicle held bound (fun _ => r) s [] result s'
  | make {bound : Nat} (node : Node) (g : Graph) :
      Chronicle .whole bound (fun _ => Run.make node) g [] (.ok g.nodes.size) (g.addNode node)
  | defer {bound : Nat} (s : Suspension) (g : Graph) :
      Chronicle .whole bound (fun _ => Run.defer s) g [] (.ok g.cells.size) (g.addCell s)
  | letrec {bound : Nat} {body : Ask → NodeId → Run Operand} {g g₁ g' : Graph} {xs : List Inquiry}
      {built : Except Fault Operand} {result : Except Fault NodeId} :
      Chronicle .whole bound (fun ask => body ask g.nodes.size) (g.addNode { kind := .placeholder })
        xs built g₁ →
      (RunOf.ofExcept built >>= Grammar.define g.nodes.size) g₁ = some (result, g') →
      Chronicle .whole bound (fun ask => do
        let placeholder ← Run.make { kind := .placeholder }
        let body ← body ask placeholder
        Grammar.define placeholder body) g xs result g'
  | bind {σ α β : Type} {held : Held σ Graph} {bound : Nat} {r : Ask → RunOf σ α}
      {f : Ask → α → RunOf σ β} {s s₁ s' : σ} {a : α} {xs ys : List Inquiry}
      {result : Except Fault β} : Chronicle held bound r s xs (.ok a) s₁ →
      Chronicle held bound (fun ask => f ask a) s₁ ys result s' →
      Chronicle held bound (fun ask => r ask >>= f ask) s (xs ++ ys) result s'
  | fails {σ α β : Type} {held : Held σ Graph} {bound : Nat} {r : Ask → RunOf σ α}
      {f : Ask → α → RunOf σ β} {s s' : σ} {fault : Fault} {xs : List Inquiry} :
      Chronicle held bound r s xs (.error fault) s' →
      Chronicle held bound (fun ask => r ask >>= f ask) s xs (.error fault) s'
  | outcome {σ α : Type} {held : Held σ Graph} {bound : Nat} {r : Ask → RunOf σ α} {s s' : σ}
      {xs : List Inquiry} {result : Except Fault α} : Chronicle held bound r s xs result s' →
      Chronicle held bound (fun ask => (r ask).outcome) s xs (.ok result) s'
  /-- A run on a part of the state that holds the same graph. -/
  | inside {σ τ α : Type} {outer : Held σ Graph} {inner : Held τ Graph} {part : Held σ τ}
      {bound : Nat} {r : Ask → RunOf τ α} {s : σ} {t : τ} {xs : List Inquiry}
      {result : Except Fault α} : inner.get (part.get s) = outer.get s →
      outer.get (part.modify (fun _ => t) s) = inner.get t →
      Chronicle inner bound r (part.get s) xs result t →
      Chronicle outer bound (fun ask => .inside part (r ask)) s xs result (part.modify (fun _ => t) s)
  /-- A child is read that is there, or being computed. -/
  | present {bound : Nat} {n : NodeId} {side : Side} {g : Graph}
      {result : Except Fault (Option NodeId)} :
      (∀ cell s, (g.node n).slot side = .deferred cell → g.suspension? cell = some s →
        g.isForcing cell = true) →
      Child.read (Engine.run bound) n side g = some (result, g) →
      Chronicle .whole (bound + 1) (fun ask => ask (.child n side)) g
        [.mk (.child n side) g [] result g] result g
  | computed {bound : Nat} {n : NodeId} {side : Side} {cell : CellId} {s : Suspension}
      {g g₁ : Graph} {xs : List Inquiry} {ended : Except Fault Operand} :
      (g.node n).slot side = .deferred cell → g.suspension? cell = some s →
      g.isForcing cell = false →
      Chronicle .whole bound (fun ask => Child.compute ask s) (g.setForcing cell true) xs ended g₁ →
      Chronicle .whole (bound + 1) (fun ask => ask (.child n side)) g
        [.mk (.child n side) g xs ((Child.yield ended).map some)
          (Child.settle n side cell (Child.yield ended) g₁)]
        ((Child.yield ended).map some) (Child.settle n side cell (Child.yield ended) g₁)
  | asks {bound : Nat} {q : Query} {g g' : Graph} {xs : List Inquiry}
      {result : Except Fault q.Answer} : (∀ n side, q ≠ .child n side) →
      Chronicle .whole bound (fun ask => Engine.answer bound ask q) g xs result g' →
      Chronicle .whole (bound + 1) (fun ask => ask q) g [.mk q g xs result g'] result g'

/-- A chronicle leads to what the run ends with. -/
theorem Chronicle.run {σ α : Type} {held : Held σ Graph} {bound : Nat} {r : Ask → RunOf σ α}
    {s s' : σ} {xs : List Inquiry} {result : Except Fault α}
    (h : Chronicle held bound r s xs result s') : r (Engine.run bound) s = some (result, s') := by
  induction h with
  | still ends _ _ => exact ends
  | make node g => rfl
  | defer s g => rfl
  | @letrec bound body g g₁ g' _ built result _ defined building =>
    change (body (Engine.run bound) g.nodes.size >>= Grammar.define g.nodes.size) (g.addNode _) = _
    rw [RunOf.bind_run, show body (Engine.run bound) g.nodes.size (g.addNode _) = _ from building]
    cases built <;> exact defined
  | bind _ _ first second => exact (RunOf.bind_of_ok first).trans second
  | fails _ first => exact RunOf.bind_of_error first
  | outcome _ ran => exact congrArg (Option.map _) ran
  | inside _ _ _ ran => exact congrArg (Option.map _) ran
  | present _ ends => exact ends
  | computed slot suspended free _ ran => exact Child.read_computed slot suspended free ran
  | asks _ _ ran => exact ran

/-- Every end of the run has a chronicle. -/
def Charted {σ α : Type} (held : Held σ Graph) (bound : Nat) (r : Ask → RunOf σ α) : Prop :=
  ∀ s result s', r (Engine.run bound) s = some (result, s') →
    ∃ xs, Chronicle held bound r s xs result s'

namespace Charted

variable {σ τ α β : Type} {held : Held σ Graph} {bound : Nat} {r : Ask → RunOf σ α}
  {f : Ask → α → RunOf σ β}

theorem still {r : RunOf σ α} (h : ∀ s result s', r s = some (result, s') →
    (held.get s').nodes = (held.get s).nodes ∧ (held.get s').cells = (held.get s).cells) :
    Charted held bound fun _ => r := by
  intro s result s' ends
  obtain ⟨nodes, cells⟩ := h s result s' ends
  exact ⟨[], .still ends nodes cells⟩

theorem given (result : Except Fault α) : Charted held bound fun _ => .ofExcept result :=
  still fun _ _ _ ends => by cases ends; exact ⟨rfl, rfl⟩

theorem pure (a : α) : Charted held bound fun _ => Pure.pure a :=
  given (.ok a)

theorem read (p : σ → α) : Charted held bound fun _ => .read p :=
  still fun _ _ _ ends => by cases ends; exact ⟨rfl, rfl⟩

theorem update {p : σ → σ} (nodes : ∀ s, (held.get (p s)).nodes = (held.get s).nodes)
    (cells : ∀ s, (held.get (p s)).cells = (held.get s).cells) :
    Charted held bound fun _ => .update p :=
  still fun s _ _ ends => by cases ends; exact ⟨nodes s, cells s⟩

theorem bind (hr : Charted held bound r) (hf : ∀ a, Charted held bound fun ask => f ask a) :
    Charted held bound fun ask => r ask >>= f ask := by
  intro s result s' ends
  have ends : (r (Engine.run bound) >>= f (Engine.run bound)) s = some (result, s') := ends
  rw [RunOf.bind_run] at ends
  obtain ⟨⟨first, s₁⟩, began, ends⟩ := Option.bind_eq_some_iff.mp ends
  obtain ⟨xs, one⟩ := hr _ _ _ began
  cases first with
  | error fault =>
    cases ends
    exact ⟨xs, .fails one⟩
  | ok a =>
    obtain ⟨ys, two⟩ := hf a _ _ _ ends
    exact ⟨xs ++ ys, .bind one two⟩

theorem outcome (hr : Charted held bound r) : Charted held bound fun ask => (r ask).outcome := by
  intro s result s' ends
  obtain ⟨⟨ended, s₁⟩, ran, same⟩ := Option.map_eq_some_iff.mp ends
  cases same
  obtain ⟨xs, one⟩ := hr _ _ _ ran
  exact ⟨xs, .outcome one⟩

theorem inside {inner : Held τ Graph} {part : Held σ τ} {r : Ask → RunOf τ α}
    (into : ∀ s, inner.get (part.get s) = held.get s)
    (back : ∀ s t, held.get (part.modify (fun _ => t) s) = inner.get t)
    (hr : Charted inner bound r) : Charted held bound fun ask => .inside part (r ask) := by
  intro s result s' ends
  obtain ⟨⟨ended, t⟩, ran, same⟩ := Option.map_eq_some_iff.mp ends
  cases same
  obtain ⟨xs, one⟩ := hr _ _ _ ran
  exact ⟨xs, .inside (into s) (back s t) one⟩

/-- A value that is evaluated, where the books are no part of what is in the nodes and cells. -/
theorem evaluation {books : Held σ (Evaluation β)} {default : RunOf σ β} {body : Ask → RunOf σ β}
    (nodes : ∀ f s, (held.get (books.modify f s)).nodes = (held.get s).nodes)
    (cells : ∀ f s, (held.get (books.modify f s)).cells = (held.get s).cells)
    (given : Charted held bound fun _ => default) (hb : Charted held bound body) (n : Nat) :
    Charted held bound fun ask => Evaluation.demand books default (body ask) n := by
  have change (f : Evaluation β → Evaluation β) :
      Charted held bound fun _ => .update (books.modify f) :=
    update (nodes f) (cells f)
  refine bind (read _) fun standing => ?_
  cases standing with
  | stored v => exact pure v
  | active depth => exact bind (change _) fun _ => given
  | provisional entry => exact bind (change _) fun _ => pure _
  | fresh depth =>
    refine bind (change _) fun _ => bind hb.outcome fun ended => bind (read _) fun lowlink =>
      bind (change _) fun _ => bind (Charted.given ended) fun v => ?_
    dsimp only
    split
    · exact bind (change _) fun _ => pure v
    · exact bind (change _) fun _ => pure v

/-- A value that is remembered. -/
theorem memo {books : Held σ (Memo β)} {name : String} {body : Ask → RunOf σ β}
    (nodes : ∀ f s, (held.get (books.modify f s)).nodes = (held.get s).nodes)
    (cells : ∀ f s, (held.get (books.modify f s)).cells = (held.get s).cells)
    (hb : Charted held bound body) (n : Nat) (key : Value) :
    Charted held bound fun ask => Memo.demand books name (body ask) n key := by
  have change (f : Memo β → Memo β) : Charted held bound fun _ => .update (books.modify f) :=
    update (nodes f) (cells f)
  refine bind (given _) fun key => bind (read _) fun progress => ?_
  cases progress with
  | finished d => exact pure d
  | started => exact given (.error _)
  | absent =>
    exact bind (change _) fun _ => bind hb.outcome fun ended => bind (change _) fun _ =>
      bind (given ended) fun d => bind (change _) fun _ => pure d

/-- Runs that are made of questions and constructions, if the questions have chronicles. -/
theorem constructive (asks : ∀ q, Charted .whole bound fun ask => ask q) :
    Constructive fun _ r => Charted .whole bound r where
  given := .given
  read := .read
  bind := .bind
  spent _ := fun _ _ _ ends => by cases ends
  ask := asks
  make _ _ := fun g _ _ ends => by cases ends; exact ⟨[], .make _ g⟩
  defer _ := fun g _ _ ends => by cases ends; exact ⟨[], .defer _ g⟩
  postpone _ _ _ := fun g _ _ ends => by cases ends; exact ⟨[], .defer _ g⟩
  note _ _ := .update (fun _ => rfl) fun _ => rfl
  letrec {body} each := by
    intro g result g' ends
    change (body (Engine.run bound) g.nodes.size >>= Grammar.define g.nodes.size) (g.addNode _) = _
      at ends
    rw [RunOf.bind_run] at ends
    obtain ⟨⟨built, g₁⟩, building, ends⟩ := Option.bind_eq_some_iff.mp ends
    obtain ⟨xs, one⟩ := each _ _ _ _ building
    refine ⟨xs, .letrec one ?_⟩
    cases built <;> exact ends
  anyNode _ node _ := fun g _ _ ends => by cases ends; exact ⟨[], .make node g⟩

/-- The children that are read have chronicles, if what their computations ask has them. -/
theorem child (asks : ∀ q, Charted .whole bound fun ask => ask q) (n : NodeId) (side : Side) :
    Charted .whole (bound + 1) fun ask => ask (.child n side) := by
  intro g result g' ends
  have ends : Child.read (Engine.run bound) n side g = some (result, g') := ends
  by_cases still : ∀ cell s, (g.node n).slot side = .deferred cell → g.suspension? cell = some s →
      g.isForcing cell = true
  · have same : g' = g := by
      cases Child.read_outcome ends with
      | vacant | node | lost | busy => rfl
      | failed slot suspended free | refused slot suspended free | computed slot suspended free =>
        cases free.symm.trans (still _ _ slot suspended)
    cases same
    exact ⟨_, .present still ends⟩
  · push Not at still
    obtain ⟨cell, s, slot, suspended, free⟩ := still
    replace free : g.isForcing cell = false := by simpa using free
    cases ran : Child.compute (Engine.run bound) s (g.setForcing cell true) with
    | none =>
      rw [Child.read_eq slot suspended free, RunOf.bind_run, Child.force_eq, ran] at ends
      cases ends
    | some ended =>
      cases (Child.read_computed slot suspended free ran).symm.trans ends
      obtain ⟨xs, one⟩ := (constructive asks).compute s.uses_true _ _ _ ran
      exact ⟨_, .computed slot suspended free one⟩

/-- What is asked of the engine. -/
theorem answer (asks : ∀ q, Charted .whole bound fun ask => ask q) {q : Query}
    (other : ∀ n side, q ≠ .child n side) :
    Charted .whole bound fun ask => Engine.answer bound ask q := by
  have parts := (constructive asks).toCompositional
  have evaluator (i : Evaluator) (n : NodeId) (given : Charted .whole bound fun _ => i.default n)
      (body : Charted .whole bound fun ask => i.body ask n) :
      Charted .whole bound fun ask => Evaluation.demand i.held (i.default n) (i.body ask n) n :=
    evaluation (fun f g => Evaluator.nodes_modify f) (fun f g => Evaluator.cells_modify f) given
      body n
  cases q with
  | child n side => exact absurd rfl (other n side)
  | nullable n => exact evaluator .nullable n (pure _) (parts.nullable n)
  | forest n => exact evaluator .forest n (pure _) (parts.forest n)
  | emptyLike n => exact evaluator .emptyLike n (pure _) (parts.emptyLike n)
  | epsLike n => exact evaluator .epsLike n (pure _) (parts.epsLike n)
  | compact n => exact evaluator .compact n (pure _) (parts.compact n)
  | derive c n => exact memo (fun _ _ => rfl) (fun _ _ => rfl) (parts.derive c n) n c
  | nodeCount n => exact parts.nodeCount bound n

end Charted

/-- Every question that is answered has a chronicle, at any depth. -/
theorem Engine.charted : ∀ (bound : Nat) (q : Query), Charted .whole bound fun ask => ask q
  | 0, _ => fun _ _ _ ends => by cases ends
  | bound + 1, q => by
    have asks := charted bound
    by_cases child : ∃ n side, q = .child n side
    · obtain ⟨n, side, rfl⟩ := child
      exact .child asks n side
    · push Not at child
      intro g result g' ends
      obtain ⟨xs, one⟩ := Charted.answer asks child _ _ _ ends
      exact ⟨_, .asks child one⟩

/-- Whatever is made of questions and constructions. -/
theorem Charted.assembled {α : Type} {bound : Nat} {r : Ask → Run α}
    (h : ∀ P, Constructive P → P α r) : Charted .whole bound r :=
  h _ (Charted.constructive (Engine.charted bound))

end GrammarGraph
