import GrammarGraph.Proofs.Regular.Matching

/-! Expressions as they are written, and drafts: graphs on which expressions are written
down, part by part and in any order, while questions about them are asked. A draft keeps an
exact gauge in which every node has the language of the expression that it was written
for. -/
namespace GrammarGraph

open Computability

inductive Regular where
  | empty
  | eps (witnesses : List Value)
  | char (symbol : Value)
  | cat (parts : List Regular)
  | alt (choices : List Regular)
  | rep (inner : Regular)
  | delta (inner : Regular)
  | red (inner : Regular) (transform : Transform)

namespace Regular

mutual

/-- What the expression denotes, without any simplification. -/
noncomputable def language : Regular → Language Value
  | .empty => 0
  | .eps _ => 1
  | .char a => matching a
  | .cat es => product es
  | .alt es => sum es
  | .rep e => e.language∗
  | .delta e => e.language ⊓ 1
  | .red e _ => e.language

noncomputable def product : List Regular → Language Value
  | [] => 1
  | e :: es => e.language * product es

noncomputable def sum : List Regular → Language Value
  | [] => 0
  | e :: es => e.language + sum es

end

theorem product_eq (es : List Regular) : product es = (es.map language).foldl (· * ·) 1 := by
  rw [← List.prod_eq_foldl]
  induction es with
  | nil => rfl
  | cons e es ih => rw [product, ih, List.map_cons, List.prod_cons]

theorem sum_eq (es : List Regular) : sum es = (es.map language).foldl (· + ·) 0 := by
  rw [← List.sum_eq_foldl]
  induction es with
  | nil => rfl
  | cons e es ih => rw [sum, ih, List.map_cons, List.sum_cons]

end Regular

/-- Expressions and the nodes that they were written to. -/
structure Draft where
  graph : Graph := {}
  nodes : List (Regular × NodeId) := [(.empty, .empty), (.eps Forest.trivial, .eps)]

namespace Draft

/-- The construction writes the expression, given what is written already. -/
inductive Writes (nodes : List (Regular × NodeId)) : Construction → Regular → Prop where
  | char (a : Value) : Writes nodes (.char a) (.char a)
  | eps {ws : List Value} : ws ≠ [] → Writes nodes (.eps ws) (.eps ws)
  | cat {es : List Regular} {ns : List NodeId} :
      List.Forall₂ (fun e n => (e, n) ∈ nodes) es ns → Writes nodes (.cat ns) (.cat es)
  | alt {es : List Regular} {ns : List NodeId} :
      List.Forall₂ (fun e n => (e, n) ∈ nodes) es ns → Writes nodes (.alt ns) (.alt es)
  | rep {e : Regular} {n : NodeId} : (e, n) ∈ nodes → Writes nodes (.rep n) (.rep e)
  | delta {e : Regular} {n : NodeId} : (e, n) ∈ nodes → Writes nodes (.delta n) (.delta e)
  | red {e : Regular} {n : NodeId} {t : Transform} : (e, n) ∈ nodes → t.Total →
      Writes nodes (.red n t) (.red e t)

inductive Step (d : Draft) : Draft → Prop where
  | write {c : Construction} {e : Regular} {n : NodeId} {g : Graph} : Writes d.nodes c e →
      c.run d.graph = some (.ok n, g) → Step d ⟨g, (e, n) :: d.nodes⟩
  | call {result : Except Fault Unit} {g : Graph} (bound : Nat) (c : Call) :
      c.node < d.graph.nodes.size → c.run (Engine.run bound) d.graph = some (result, g) →
      Step d { d with graph := g }
  | journal (journal : Option Journal) :
      Step d { d with graph := { d.graph with journal } }

/-- The drafts that writing and asking can lead to. -/
def Reached (d : Draft) : Prop :=
  Relation.ReflTransGen Step {} d

end Draft

namespace Gauge

variable {x : Gauge (Language Value)} {g g' : Graph} {a b n : NodeId} {L M : Language Value}

namespace Rested

variable (h : Rested languages x g)
include h

theorem cat (first : x.Denotes g L a) (second : x.Denotes g M b) :
    (resting languages).Ends x g (fun _ => Grammar.cat (.node a) (.node b)) fun x' g' d =>
      x'.Denotes g' (L * M) d := by
  refine .imp (h.ends (h.valid.cat (a := .node a) (b := .node b) (u := x (.node a))
    (v := x (.node b)) (w := ⟨L * M, (x (.node a)).rank + (x (.node b)).rank + 1⟩)
    ⟨first.lt, .refl _⟩ ⟨second.lt, .refl _⟩ ?_ ?_)) fun _ _ _ _ _ stands => stands.denotes
  · rw [first.sense, second.sense]
  · simp only
    omega

theorem alt (first : x.Denotes g L a) (second : x.Denotes g M b) :
    (resting languages).Ends x g (fun _ => Grammar.alt (.node a) (.node b)) fun x' g' d =>
      x'.Denotes g' (L + M) d := by
  refine .imp (h.ends (h.valid.alt (a := .node a) (b := .node b) (u := x (.node a))
    (v := x (.node b)) (w := ⟨L + M, (x (.node a)).rank + (x (.node b)).rank + 1⟩)
    ⟨first.lt, .refl _⟩ ⟨second.lt, .refl _⟩ ?_ ?_)) fun _ _ _ _ _ stands => stands.denotes
  · rw [first.sense, second.sense]
  · simp only
    omega

/-- Operands are combined from the left. -/
theorem combine {unit : NodeId} {join : Operand → Operand → Run NodeId} {one : Language Value}
    {op : Language Value → Language Value → Language Value} (identity : ∀ L, op one L = L)
    (rule : ∀ {x g a b L M}, Rested languages x g → x.Denotes g L a → x.Denotes g M b →
      (resting languages).Ends x g (fun _ => join (.node a) (.node b)) fun x' g' d =>
        x'.Denotes g' (op L M) d)
    (unit_ : x.Denotes g one unit) {Ls : List (Language Value)} {ns : List NodeId}
    (each : List.Forall₂ (fun L n => x.Denotes g L n) Ls ns) :
    (resting languages).Ends x g (fun _ => Grammar.combine unit join (ns.map .node)) fun x' g' d =>
      x'.Denotes g' (Ls.foldl op one) d := by
  have fold {Ls ns} : ∀ {x g n L}, Rested languages x g → x.Denotes g L n →
      List.Forall₂ (fun L n => x.Denotes g L n) Ls ns →
      (resting languages).Ends x g (fun _ =>
        (ns.map Operand.node).foldlM (fun n operand => join (.node n) operand) n)
        fun x' g' d => x'.Denotes g' (Ls.foldl op L) d := by
    induction ns generalizing Ls with
    | nil =>
      rintro x g n L h denotes ⟨⟩
      exact .pure h denotes
    | cons k ns ih =>
      rintro x g n L h denotes ⟨⟩
      rename_i M Ls first rest
      simp only [List.map_cons, List.foldlM_cons, List.foldl_cons]
      refine .bind (rule h denotes first) fun x₁ g₁ m later h₁ joined => ?_
      exact ih h₁ joined (rest.imp fun _ _ => Later.denotes later)
  cases each with
  | nil => exact .pure h unit_
  | @cons L a Ls ns first rest =>
    cases rest with
    | nil =>
      refine .pure h ?_
      rw [List.foldl_cons, List.foldl_nil, identity]
      exact first
    | @cons M b Ls ns second rest =>
      rw [List.foldl_cons, List.foldl_cons, identity]
      refine .bind (rule h first second) fun x₁ g₁ n later h₁ joined => ?_
      exact fold h₁ joined (rest.imp fun _ _ => Later.denotes later)

theorem empty_denotes : x.Denotes g 0 .empty :=
  ⟨h.valid.formed.empty_lt, h.valid.sense_of_kind h.valid.formed.empty_lt h.valid.formed.empty⟩

theorem eps_denotes : x.Denotes g 1 .eps :=
  ⟨h.valid.formed.eps_lt, h.valid.sense_of_kind h.valid.formed.eps_lt h.valid.formed.eps⟩

/-- A constructor gives a node with the language of the expression that it writes. -/
theorem construct {nodes : List (Regular × NodeId)} {c : Construction} {e : Regular}
    (denotes : ∀ p ∈ nodes, x.Denotes g p.1.language p.2) (writes : Draft.Writes nodes c e)
    (ends : c.run g = some (.ok n, g')) :
    ∃ x', Later x g x' g' ∧ Rested languages x' g' ∧ x'.Denotes g' e.language n := by
  have given (ends' : (resting languages).Ends x g (fun _ => c.run) fun x' g' d =>
      x'.Denotes g' e.language d) :
      ∃ x', Later x g x' g' ∧ Rested languages x' g' ∧ x'.Denotes g' e.language n := by
    obtain ⟨m, g'', ⟨least, gives⟩, result⟩ := ends'
    cases (gives least (Nat.le_refl _)).symm.trans ends
    exact result
  cases writes with
  | char a =>
    exact given (.imp (h.ends (h.valid.char (w := ⟨matching a, 0⟩) a rfl))
      fun _ _ _ _ _ stands => stands.denotes)
  | @eps ws some_ =>
    have hashable : ∀ v ∈ ws, v.hashable = true := by
      change Grammar.eps ws g = _ at ends
      unfold Grammar.eps at ends
      cases forest : Forest.ofWitnesses ws with
      | error fault => rw [forest] at ends; cases ends
      | ok forest' => exact (Forest.ofWitnesses_ok.mp forest).1
    exact given (.imp (h.ends (h.valid.eps (w := ⟨1, 0⟩) some_ hashable rfl))
      fun _ _ _ _ _ stands => stands.denotes)
  | @cat es ns each =>
    refine given ?_
    rw [Regular.language, Regular.product_eq]
    refine h.combine one_mul (fun h => cat h) h.eps_denotes ?_
    exact List.forall₂_map_left_iff.mpr (each.imp fun e n member => denotes (e, n) member)
  | @alt es ns each =>
    refine given ?_
    rw [Regular.language, Regular.sum_eq]
    refine h.combine zero_add (fun h => alt h) h.empty_denotes ?_
    exact List.forall₂_map_left_iff.mpr (each.imp fun e n member => denotes (e, n) member)
  | @rep e a member =>
    have inner := denotes _ member
    refine given (.imp (h.ends (h.valid.rep (a := .node a) (u := x (.node a))
      (w := ⟨e.language∗, (x (.node a)).rank + 1⟩) ⟨inner.lt, .refl _⟩ ?_ (Nat.lt_succ_self _)))
      fun _ _ _ _ _ stands => stands.denotes)
    rw [inner.sense]
  | @delta e a member =>
    have inner := denotes _ member
    refine given (.imp (h.ends (h.valid.delta (a := .node a) (u := x (.node a))
      (w := ⟨e.language ⊓ 1, (x (.node a)).rank + 1⟩) ⟨inner.lt, .refl _⟩ ?_ (Nat.lt_succ_self _)))
      fun _ _ _ _ _ stands => stands.denotes)
    rw [inner.sense]
  | @red e a t member total =>
    have inner := denotes _ member
    exact given (.imp (h.ends (h.valid.reduction total (a := .node a) (u := x (.node a))
      (w := ⟨e.language, (x (.node a)).rank + 1⟩) ⟨inner.lt, .refl _⟩ inner.sense.symm
      (Nat.lt_succ_self _))) fun _ _ _ _ _ stands => stands.denotes)

end Rested

end Gauge

namespace Draft

open Gauge (Rested)

variable {d : Draft}

/-- Every node has the language of its expression. -/
structure Weighed (x : Gauge (Language Value)) (d : Draft) : Prop where
  rested : Rested languages x d.graph
  nodes : ∀ p ∈ d.nodes, x.Denotes d.graph p.1.language p.2

theorem Weighed.later {x x' : Gauge (Language Value)} {g : Graph} (h : Weighed x d)
    (later : Gauge.Later x d.graph x' g) (rested : Rested languages x' g) :
    Weighed x' { d with graph := g } :=
  ⟨rested, fun p member => later.denotes (h.nodes p member)⟩

theorem Step.weighed {d' : Draft} {x : Gauge (Language Value)} (step : Step d d') (h : Weighed x d) :
    ∃ x', Weighed x' d' := by
  cases step with
  | @write c e n g writes ends =>
    obtain ⟨x', later, rested, denotes⟩ := h.rested.construct h.nodes writes ends
    refine ⟨x', rested, fun p member => ?_⟩
    rcases List.mem_cons.mp member with rfl | member
    · exact denotes
    · exact later.denotes (h.nodes p member)
  | call bound c lt ends =>
    obtain ⟨x', later, rested, _⟩ :=
      (Rested.serves bound).call h.rested (c.by_of_all fun _ => id) lt _ _ ends
    exact ⟨x', h.later later rested⟩
  | journal journal =>
    obtain ⟨later, rested⟩ := h.rested.journal journal
    exact ⟨x, h.later later rested⟩

theorem Reached.weighed (reached : d.Reached) : ∃ x, Weighed x d := by
  induction reached with
  | refl =>
    have rested := Gauge.initial_rested (S := languages)
    refine ⟨_, rested, fun p member => ?_⟩
    rcases List.mem_cons.mp member with rfl | member
    · exact rested.empty_denotes
    · rw [List.mem_singleton.mp member]
      exact rested.eps_denotes
  | tail _ step ih =>
    obtain ⟨x, h⟩ := ih
    exact step.weighed h

end Draft

end GrammarGraph
