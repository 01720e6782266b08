import GrammarGraph.Proofs.Drawing
import Mathlib.Data.List.Sort

/-! Drawings of a witness. Each subtree is drawn where it occurs, and equal ones are drawn apart. A
place in a witness is the list of the indices that lead to it, so places in lexicographic order are
in preorder, and this is how they are numbered. -/
namespace GrammarGraph

namespace Value

/-- The elements of a tuple. Anything else is a leaf and has none, and so is the empty tuple. -/
def parts : Value → List Value
  | .tuple ws => ws
  | _ => []

/-- The subtree at a place. -/
def at? (w : Value) : List Nat → Option Value
  | [] => some w
  | i :: path => w.parts[i]?.bind fun part => part.at? path

/-- A subtree where it occurs. -/
structure Occurrence where
  path : List Nat
  value : Value

namespace Occurrence

def under (i : Nat) (o : Occurrence) : Occurrence :=
  { o with path := i :: o.path }

/-- The places of the inner nodes that a subtree is in, from the root on; an inner node is in
itself. -/
def around (o : Occurrence) : List (List Nat) :=
  if o.value.parts.isEmpty then o.path.inits.dropLast else o.path.inits

theorem around_under (i : Nat) (o : Occurrence) :
    (o.under i).around = [] :: o.around.map (i :: ·) := by
  have some_ : o.path.inits.map (i :: ·) ≠ [] := by
    rw [Ne, List.map_eq_nil_iff]
    exact List.ne_nil_of_mem ((List.mem_inits _ _).mpr List.nil_prefix)
  unfold around under
  split <;> simp only [List.inits_cons, List.map_dropLast]
  rw [List.dropLast_cons_of_ne_nil some_]

end Occurrence

mutual

/-- The subtrees in the order in which they are drawn. -/
def occurrences : Value → List Occurrence
  | .tuple ws => ⟨[], .tuple ws⟩ :: occurrencesFrom 0 ws
  | w => [⟨[], w⟩]

/-- The subtrees of the elements from the `i`th on. -/
def occurrencesFrom (i : Nat) : List Value → List Occurrence
  | [] => []
  | w :: ws => (occurrences w).map (·.under i) ++ occurrencesFrom (i + 1) ws

end

mutual

/-- The places that edges lead to, in the order in which these are drawn: an inner node has its own
edges after those of its elements. -/
def branches : Value → List (List Nat)
  | .tuple ws => branchesFrom 0 ws ++ (List.range ws.length).map fun i => [i]
  | _ => []

def branchesFrom (i : Nat) : List Value → List (List Nat)
  | [] => []
  | w :: ws => (branches w).map (i :: ·) ++ branchesFrom (i + 1) ws

end

/-- All subtrees of a witness, each where it occurs, in preorder and from left to right. -/
structure Preorder (w : Value) (order : List Occurrence) : Prop where
  all : ∀ path v, ⟨path, v⟩ ∈ order ↔ w.at? path = some v
  sorted : order.Pairwise fun a b => a.path < b.path

/-- All places of a witness but that of the root, each once, those of siblings in order. -/
structure Branches (w : Value) (heads : List (List Nat)) : Prop where
  all : ∀ path, path ∈ heads ↔ path ≠ [] ∧ (w.at? path).isSome
  nodup : heads.Nodup
  siblings : heads.Pairwise fun a b => a.dropLast = b.dropLast → a < b

variable {w v : Value} {ws : List Value} {i : Nat} {path : List Nat}
  {order order' : List Occurrence}

theorem occurrences_eq (w : Value) : w.occurrences = ⟨[], w⟩ :: occurrencesFrom 0 w.parts := by
  cases w <;> simp [parts, occurrences, occurrencesFrom]

theorem branches_eq (w : Value) : w.branches =
    branchesFrom 0 w.parts ++ (List.range w.parts.length).map fun i => [i] := by
  cases w <;> simp [parts, branches, branchesFrom]

/-- Induction over the elements of a witness, and over lists of elements with it. -/
theorem induct {P : Value → Prop} {Q : List Value → Prop} (node : ∀ w, Q w.parts → P w) (nil : Q [])
    (cons : ∀ w ws, P w → Q ws → Q (w :: ws)) : (∀ w, P w) ∧ ∀ ws, Q ws :=
  ⟨@Value.rec P Q (node _ nil) (fun _ => node _ nil) (fun _ => node _ nil) (fun _ => node _ nil)
      (fun ws => node (.tuple ws)) (fun _ _ => node _ nil) nil cons,
    @Value.rec_1 P Q (node _ nil) (fun _ => node _ nil) (fun _ => node _ nil) (fun _ => node _ nil)
      (fun ws => node (.tuple ws)) (fun _ _ => node _ nil) nil cons⟩

theorem mem_occurrences_both : (∀ w path v, ⟨path, v⟩ ∈ occurrences w ↔ w.at? path = some v) ∧
    ∀ ws i path v, ⟨path, v⟩ ∈ occurrencesFrom i ws ↔
      ∃ j rest, path = (i + j) :: rest ∧ (ws[j]?.bind fun part => part.at? rest) = some v := by
  refine induct (fun w ih path v => ?_) (fun i path v => ?_) fun w ws ih ihs i path v => ?_
  · rw [occurrences_eq, List.mem_cons, ih]
    cases path with
    | nil => simp [at?, eq_comm]
    | cons k path => simp [at?]
  · simp [occurrencesFrom]
  · rw [occurrencesFrom, List.mem_append, ihs]
    have first : ⟨path, v⟩ ∈ (occurrences w).map (Occurrence.under i) ↔
        ∃ rest, path = i :: rest ∧ w.at? rest = some v := by
      constructor
      · intro member
        obtain ⟨o, listed, same⟩ := List.mem_map.mp member
        cases same
        exact ⟨o.path, rfl, (ih _ _).mp listed⟩
      · rintro ⟨rest, rfl, found⟩
        exact List.mem_map.mpr ⟨_, (ih rest v).mpr found, rfl⟩
    rw [first]
    constructor
    · rintro (⟨rest, rfl, found⟩ | ⟨j, rest, rfl, found⟩)
      · exact ⟨0, rest, rfl, found⟩
      · exact ⟨j + 1, rest, by rw [Nat.add_assoc, Nat.add_comm 1], found⟩
    · rintro ⟨_ | j, rest, rfl, found⟩
      · exact .inl ⟨rest, rfl, found⟩
      · exact .inr ⟨j, rest, by rw [Nat.add_assoc, Nat.add_comm 1], found⟩

theorem mem_occurrencesFrom : ⟨path, v⟩ ∈ occurrencesFrom i ws ↔
    ∃ j rest, path = (i + j) :: rest ∧ (ws[j]?.bind fun part => part.at? rest) = some v :=
  mem_occurrences_both.2 ws i path v

theorem sorted_both : (∀ w, (occurrences w).Pairwise fun a b => a.path < b.path) ∧
    ∀ ws i, (occurrencesFrom i ws).Pairwise fun a b => a.path < b.path := by
  refine induct (fun w ih => ?_) (fun i => .nil) fun w ws ih ihs i => ?_
  · rw [occurrences_eq]
    refine .cons (fun o member => ?_) (ih 0)
    obtain ⟨j, rest, same, -⟩ := mem_occurrencesFrom.mp member
    exact same ▸ List.nil_lt_cons _ _
  · refine List.pairwise_append.mpr ⟨?_, ihs _, fun a left b right => ?_⟩
    · exact List.pairwise_map.mpr (ih.imp fun lt => List.cons_lt_cons_self.mpr lt)
    · obtain ⟨o, -, rfl⟩ := List.mem_map.mp left
      obtain ⟨j, rest, same, -⟩ := mem_occurrencesFrom.mp right
      rw [same]
      exact List.cons_lt_cons_iff.mpr (.inl (by omega))

theorem preorder (w : Value) : w.Preorder w.occurrences :=
  ⟨mem_occurrences_both.1 w, sorted_both.1 w⟩

theorem Preorder.unique (h : w.Preorder order) (h' : w.Preorder order') : order = order' := by
  have irrefl : Std.Irrefl fun a b : Occurrence => a.path < b.path := ⟨fun a => List.lt_irrefl _⟩
  have antisymm : Std.Antisymm fun a b : Occurrence => a.path < b.path :=
    ⟨fun a b lt gt => absurd gt (List.lt_asymm lt)⟩
  exact h.sorted.eq_of_mem_iff h'.sorted fun ⟨path, v⟩ => (h.all path v).trans (h'.all path v).symm

theorem mem_branches_both : (∀ w path, path ∈ branches w ↔ path ≠ [] ∧ (w.at? path).isSome) ∧
    ∀ ws i path, path ∈ branchesFrom i ws ↔
      ∃ j rest, path = (i + j) :: rest ∧ rest ≠ [] ∧
        (ws[j]?.bind fun part => part.at? rest).isSome := by
  refine induct (fun w ih path => ?_) (fun i path => ?_) fun w ws ih ihs i path => ?_
  · rw [branches_eq, List.mem_append, ih, List.mem_map]
    simp only [Nat.zero_add, List.mem_range]
    constructor
    · rintro (⟨j, rest, rfl, -, found⟩ | ⟨j, lt, rfl⟩)
      · exact ⟨List.cons_ne_nil _ _, found⟩
      · exact ⟨List.cons_ne_nil _ _, by simp [at?, lt]⟩
    · rintro ⟨below, found⟩
      match path, below with
      | [j], _ => exact .inr ⟨j, by simpa [at?] using found, rfl⟩
      | j :: k :: rest, _ => exact .inl ⟨j, k :: rest, rfl, List.cons_ne_nil _ _, found⟩
  · simp [branchesFrom]
  · rw [branchesFrom, List.mem_append, ihs, List.mem_map]
    simp only [ih]
    constructor
    · rintro (⟨rest, ⟨below, found⟩, rfl⟩ | ⟨j, rest, rfl, found⟩)
      · exact ⟨0, rest, rfl, below, found⟩
      · exact ⟨j + 1, rest, by rw [Nat.add_assoc, Nat.add_comm 1], found⟩
    · rintro ⟨_ | j, rest, rfl, below, found⟩
      · exact .inl ⟨rest, ⟨below, found⟩, rfl⟩
      · exact .inr ⟨j, rest, by rw [Nat.add_assoc, Nat.add_comm 1], below, found⟩

theorem mem_branches : path ∈ branches w ↔ path ≠ [] ∧ (w.at? path).isSome :=
  mem_branches_both.1 w path

theorem mem_branchesFrom : path ∈ branchesFrom i ws ↔ ∃ j rest, path = (i + j) :: rest ∧
    rest ≠ [] ∧ (ws[j]?.bind fun part => part.at? rest).isSome :=
  mem_branches_both.2 ws i path

theorem siblings_both :
    (∀ w, (branches w).Pairwise fun a b => a.dropLast = b.dropLast → a < b) ∧
    ∀ ws i, (branchesFrom i ws).Pairwise fun a b => a.dropLast = b.dropLast → a < b := by
  refine induct (fun w ih => ?_) (fun i => .nil) fun w ws ih ihs i => ?_
  · rw [branches_eq]
    refine List.pairwise_append.mpr ⟨ih 0, ?_, fun a deep b own same => ?_⟩
    · refine List.pairwise_map.mpr (List.pairwise_lt_range.imp fun lt _ => ?_)
      exact List.cons_lt_cons_iff.mpr (.inl lt)
    · obtain ⟨j, rest, rfl, below, -⟩ := mem_branchesFrom.mp deep
      obtain ⟨k, -, rfl⟩ := List.mem_map.mp own
      rw [List.dropLast_cons_of_ne_nil below] at same
      exact absurd same (List.cons_ne_nil _ _)
  · refine List.pairwise_append.mpr ⟨List.pairwise_map.mpr ?_, ihs _, fun a left b right _ => ?_⟩
    · refine ih.imp_of_mem fun left right lt same => List.cons_lt_cons_self.mpr (lt ?_)
      rw [List.dropLast_cons_of_ne_nil (mem_branches.mp left).1,
        List.dropLast_cons_of_ne_nil (mem_branches.mp right).1] at same
      exact (List.cons.inj same).2
    · obtain ⟨_, -, rfl⟩ := List.mem_map.mp left
      obtain ⟨j, rest, rfl, -⟩ := mem_branchesFrom.mp right
      exact List.cons_lt_cons_iff.mpr (.inl (by omega))

theorem branched (w : Value) : w.Branches w.branches where
  all _ := mem_branches
  nodup := (siblings_both.1 w).imp fun {a b} lt (same : a = b) =>
    List.lt_irrefl b (same ▸ lt (congrArg List.dropLast same))
  siblings := siblings_both.1 w

theorem length_branches_both : (∀ w, (branches w).length + 1 = (occurrences w).length) ∧
    ∀ ws i, (branchesFrom i ws).length + ws.length = (occurrencesFrom i ws).length := by
  refine induct (fun w ih => ?_) (fun i => rfl) fun w ws ih ihs i => ?_
  · simp [branches_eq, occurrences_eq, ih]
  · simp only [branchesFrom, occurrencesFrom, List.length_append, List.length_map,
      List.length_cons, ← ih, ← ihs (i + 1)]
    omega

end Value

namespace Dot

namespace Statement

def isNode : Statement → Bool
  | .node .. => true
  | _ => false

def isEdge : Statement → Bool
  | .edge .. => true
  | _ => false

def shape? : Statement → Option String
  | .node _ _ attributes => attributes.lookup "shape"
  | _ => none

def group? : Statement → Option String
  | .subgraph name _ _ => some name
  | _ => none

mutual

/-- A statement and those in it, each with the names of the subgraphs around it, the outermost
first. -/
def spread (around : List String) : Statement → List (List String × Statement)
  | .subgraph name attributes body =>
    (around, .subgraph name attributes body) :: spreadAll (around ++ [name]) body
  | statement => [(around, statement)]

def spreadAll (around : List String) : List Statement → List (List String × Statement)
  | [] => []
  | statement :: rest => spread around statement ++ spreadAll around rest

end

theorem spreadAll_append (around : List String) (first second : List Statement) :
    spreadAll around (first ++ second) = spreadAll around first ++ spreadAll around second := by
  induction first with
  | nil => rfl
  | cons statement first ih => rw [List.cons_append, spreadAll, spreadAll, ih, List.append_assoc]

theorem spreadAll_edges (around : List String) (tail : String) (head : Nat → String)
    (attributes : Attributes) (elements : List Nat) :
    spreadAll around (elements.map fun i => .edge tail (head i) attributes) =
      elements.map fun i => (around, .edge tail (head i) attributes) := by
  induction elements with
  | nil => rfl
  | cons i elements ih => exact congrArg (List.cons _) ih

theorem spreadAll_subgraph (around : List String) (name : String) (attributes : Attributes)
    (body : List Statement) : spreadAll around [.subgraph name attributes body] =
      (around, .subgraph name attributes body) :: spreadAll (around ++ [name]) body :=
  congrArg (List.cons _) (List.append_nil _)

end Statement

namespace Document

/-- All that is drawn, in subgraphs or not. -/
def spread (d : Document) : List (List String × Statement) :=
  Statement.spreadAll [] d.body

/-- The nodes that are drawn, each with the subgraphs around it. -/
def nodes (d : Document) : List (List String × Statement) :=
  d.spread.filter (·.2.isNode)

def edges (d : Document) : List (List String × Statement) :=
  d.spread.filter (·.2.isEdge)

/-- The subgraphs, each with its name after the names of those around it. -/
def groups (d : Document) : List (List String) :=
  d.spread.filterMap fun (around, statement) => statement.group?.map (around ++ [·])

end Document

end Dot

namespace Drawing

open Dot Value

/-- The point or the label of a subtree. -/
def subtreeNode (id : Nat) (v : Value) : Statement :=
  if v.parts.isEmpty then .node (toString id) v.label [("shape", "plain")]
  else .node (toString id) "" [("shape", "point"), ("group", toString id)]

theorem subtreeNode_name (id : Nat) (v : Value) :
    (subtreeNode id v).name? = some (toString id) := by
  unfold subtreeNode
  split <;> rfl

theorem subtreeNode_shape (id : Nat) (v : Value) :
    (subtreeNode id v).shape? = some (if v.parts.isEmpty then "plain" else "point") := by
  unfold subtreeNode
  split <;> rfl

/-- The subgraphs for these inner nodes. -/
def groupNames (style : TreeStyle) (id : List Nat → Nat) (paths : List (List Nat)) : List String :=
  paths.map fun path => style.groupName (id path)

def branch (id : List Nat → Nat) (path : List Nat) : Statement :=
  .edge (toString (id path.dropLast)) (toString (id path)) []

/-- What is drawn within these subgraphs is a tree with these subtrees and edges. -/
structure Shows (style : TreeStyle) (id : List Nat → Nat) (within : List String)
    (order : List Occurrence) (heads : List (List Nat)) (drawn : List (List String × Statement)) :
    Prop where
  nodes : drawn.filter (·.2.isNode) = order.map fun o =>
    (within ++ groupNames style id o.around, subtreeNode (id o.path) o.value)
  edges : drawn.filter (·.2.isEdge) = heads.map fun path =>
    (within ++ groupNames style id path.dropLast.inits, branch id path)
  groups : (drawn.filterMap fun (around, statement) => statement.group?.map (around ++ [·])) =
    (order.filter (!·.value.parts.isEmpty)).map fun o =>
      within ++ groupNames style id o.path.inits

/-- These subtrees are numbered from `next` on. -/
def Numbers (id : List Nat → Nat) (next : Nat) (order : List Occurrence) : Prop :=
  order.map (fun o => id o.path) = List.range' next order.length

variable {style : TreeStyle} {id : List Nat → Nat} {next i : Nat} {within : List String}
  {order order' : List Occurrence} {heads heads' : List (List Nat)}
  {drawn drawn' : List (List String × Statement)}

namespace Numbers

theorem append : Numbers id next (order ++ order') ↔
    Numbers id next order ∧ Numbers id (next + order.length) order' := by
  unfold Numbers
  rw [List.map_append, List.length_append, ← List.range'_append_1]
  exact ⟨fun same => List.append_inj same (by simp), fun ⟨left, right⟩ => congrArg₂ _ left right⟩

theorem under : Numbers id next (order.map (·.under i)) ↔
    Numbers (fun path => id (i :: path)) next order := by
  unfold Numbers
  rw [List.map_map, List.length_map]
  rfl

theorem root {w : Value} (numbers : Numbers id next w.occurrences) : id [] = next := by
  rw [Numbers, occurrences_eq] at numbers
  exact (List.cons.inj numbers).1

theorem parts {w : Value} (numbers : Numbers id next w.occurrences) :
    Numbers id (next + 1) (occurrencesFrom 0 w.parts) := by
  rw [Numbers, occurrences_eq] at numbers
  exact (List.cons.inj numbers).2

end Numbers

namespace Shows

theorem append (first : Shows style id within order heads drawn)
    (second : Shows style id within order' heads' drawn') :
    Shows style id within (order ++ order') (heads ++ heads') (drawn ++ drawn') where
  nodes := by rw [List.filter_append, first.nodes, second.nodes, List.map_append]
  edges := by rw [List.filter_append, first.edges, second.edges, List.map_append]
  groups := by
    rw [List.filterMap_append, first.groups, second.groups, List.filter_append, List.map_append]

theorem leaf {w : Value} (leaf : w.parts = []) :
    Shows style id within [⟨[], w⟩] []
      [(within, .node (toString (id [])) w.label [("shape", "plain")])] where
  nodes := by simp [Statement.isNode, Occurrence.around, groupNames, subtreeNode, leaf]
  edges := rfl
  groups := by simp [Statement.group?, leaf]

/-- The subgraph of an inner node, with its point in it. -/
theorem point {w : Value} (inner : w.parts ≠ []) (attributes : Attributes)
    (body : List Statement) :
    Shows style id within [⟨[], w⟩] [] [
      (within, .subgraph (style.groupName (id [])) attributes body),
      (within ++ [style.groupName (id [])],
        .node (toString (id [])) "" [("shape", "point"), ("group", toString (id []))])] where
  nodes := by simp [Statement.isNode, Occurrence.around, groupNames, subtreeNode, inner]
  edges := rfl
  groups := by simp [Statement.group?, groupNames, inner]

/-- The edges from the root to elements come last. -/
theorem links (shows_ : Shows style id within order heads drawn) (elements : List Nat) :
    Shows style id within order (heads ++ elements.map fun i => [i])
      (drawn ++ elements.map fun i => (within ++ [style.groupName (id [])],
        .edge (toString (id [])) (toString (id [i])) [])) where
  nodes := by
    rw [List.filter_append, shows_.nodes]
    simp [Statement.isNode]
  edges := by
    rw [List.filter_append, shows_.edges, List.map_append, List.map_map]
    refine congrArg _ (List.filter_eq_self.mpr fun _ member => ?_)
    obtain ⟨_, -, rfl⟩ := List.mem_map.mp member
    rfl
  groups := by
    rw [List.filterMap_append, shows_.groups]
    simp [Statement.group?]

/-- A tree within the subgraph of a node is the tree of an element of that node. -/
theorem under (below : ∀ path ∈ heads, path ≠ [])
    (shows_ : Shows style (fun path => id (i :: path)) (within ++ [style.groupName (id [])])
      order heads drawn) :
    Shows style id within (order.map (·.under i)) (heads.map (i :: ·)) drawn where
  nodes := by
    rw [shows_.nodes, List.map_map]
    refine List.map_congr_left fun o _ => ?_
    simp only [Function.comp_apply, Occurrence.around_under]
    simp [groupNames, Occurrence.under]
  edges := by
    rw [shows_.edges, List.map_map]
    refine List.map_congr_left fun path member => ?_
    simp [groupNames, branch, List.dropLast_cons_of_ne_nil (below path member)]
  groups := by
    rw [shows_.groups, List.filter_map, List.map_map]
    refine List.map_congr_left fun o _ => ?_
    simp [groupNames, Occurrence.under]

end Shows

theorem subtree_of_leaf {w : Value} (leaf : w.parts = []) :
    subtree style next w = Drawing.leaf next w := by
  cases w with
  | tuple ws => cases leaf; rfl
  | _ => rfl

theorem subtree_of_inner {w : Value} (inner : w.parts ≠ []) :
    subtree style next w = Drawing.inner style next (subtrees style (next + 1) w.parts) := by
  match w, inner with
  | .tuple (w :: ws), _ => rfl

theorem next_both : (∀ w next, (subtree style next w).next = next + w.occurrences.length ∧
      (subtree style next w).roots = [next]) ∧
    ∀ ws i next, (subtrees style next ws).next = next + (occurrencesFrom i ws).length := by
  refine induct (fun w ih next => ?_) (fun i next => rfl) fun w ws ih ihs i next => ?_
  · by_cases leaf : w.parts = []
    · rw [subtree_of_leaf leaf, occurrences_eq, leaf]
      exact ⟨rfl, rfl⟩
    · rw [subtree_of_inner leaf, occurrences_eq]
      refine ⟨(ih 0 (next + 1)).trans ?_, rfl⟩
      rw [List.length_cons]
      omega
  · rw [subtrees, ihs (i + 1), (ih next).1, occurrencesFrom, List.length_append, List.length_map]
    omega

theorem next_subtree (w : Value) (next : Nat) :
    (subtree style next w).next = next + w.occurrences.length :=
  (next_both.1 w next).1

theorem roots_subtree (w : Value) (next : Nat) : (subtree style next w).roots = [next] :=
  (next_both.1 w next).2

/-- The roots of elements that stand side by side. -/
theorem roots_subtrees (ws : List Value) (i next : Nat)
    (numbers : Numbers id next (occurrencesFrom i ws)) :
    (subtrees style next ws).roots = (List.range' i ws.length).map fun i => id [i] := by
  induction ws generalizing i next with
  | nil => rfl
  | cons w ws ih =>
    obtain ⟨first, rest⟩ := Numbers.append.mp numbers
    rw [List.length_map] at rest
    rw [subtrees, roots_subtree, next_subtree, ih (i + 1) _ rest, List.length_cons,
      List.range'_succ, List.map_cons, (Numbers.under.mp first).root]
    rfl

/-- A tree is drawn with the numbers that its subtrees have, in preorder. -/
theorem shows_both : (∀ w id next within, Numbers id next (occurrences w) →
      Shows style id within (occurrences w) (branches w)
        (Statement.spreadAll within (subtree style next w).statements)) ∧
    ∀ ws i id next within, Numbers id next (occurrencesFrom i ws) →
      Shows style id within (occurrencesFrom i ws) (branchesFrom i ws)
        (Statement.spreadAll (within ++ [style.groupName (id [])])
          (subtrees style next ws).statements) := by
  refine induct (fun w ih id next within numbers => ?_)
    (fun i id next within numbers => ⟨rfl, rfl, rfl⟩)
    fun w ws ih ihs i id next within numbers => ?_
  · obtain rfl := numbers.root
    by_cases leaf : w.parts = []
    · rw [subtree_of_leaf leaf, occurrences_eq, branches_eq, leaf]
      exact .leaf leaf
    · have edges := Statement.spreadAll_edges (within ++ [style.groupName (id [])])
        (toString (id [])) (fun i => toString (id [i])) [] (List.range w.parts.length)
      rw [subtree_of_inner leaf, occurrences_eq, branches_eq, Drawing.inner,
        roots_subtrees _ _ _ numbers.parts, ← List.range_eq_range', List.map_map,
        Statement.spreadAll_subgraph, Statement.spreadAll_append]
      exact edges ▸ ((Shows.point leaf _ _).append (ih _ _ _ _ numbers.parts)).links _
  · obtain ⟨first, rest⟩ := Numbers.append.mp numbers
    rw [List.length_map] at rest
    rw [subtrees, next_subtree, Statement.spreadAll_append]
    have below : ∀ path ∈ w.branches, path ≠ [] := fun _ member => (mem_branches.mp member).1
    exact ((ih _ _ _ (Numbers.under.mp first)).under below).append (ihs _ _ _ _ rest)

/-- The number of a place is how many subtrees come before the one there. -/
def number (order : List Occurrence) (path : List Nat) : Nat :=
  (order.map Occurrence.path).idxOf path

theorem number_getElem {w : Value} (h : w.Preorder order) {i : Nat} (lt : i < order.length) :
    number order order[i].path = i := by
  have nodup : (order.map Occurrence.path).Nodup :=
    List.pairwise_map.mpr (h.sorted.imp fun {a b} lt (same : a.path = b.path) =>
      List.lt_irrefl b.path (same ▸ lt))
  have found := nodup.idxOf_getElem i (by simpa using lt)
  rwa [List.getElem_map] at found

theorem numbers_number {w : Value} (h : w.Preorder order) : Numbers (number order) 0 order :=
  List.ext_getElem (by simp) fun i _ _ => by simp [number_getElem h]

theorem map_number {w : Value} (h : w.Preorder order) {α : Type} (f : Nat → Occurrence → α) :
    order.map (fun o => f (number order o.path) o) = order.mapIdx f :=
  List.ext_getElem (by simp) fun i _ _ => by simp [number_getElem h]

/-- The tree of a witness is drawn with these subtrees, each with the number that is its place in
the order, and with edges to these places. -/
structure Depicts (style : TreeStyle) (order : List Occurrence) (heads : List (List Nat))
    (d : Document) : Prop where
  nodes : d.nodes = order.mapIdx fun id o =>
    (groupNames style (number order) o.around, subtreeNode id o.value)
  numbers : d.nodes.map (·.2.name?) = (List.range order.length).map fun id => some (toString id)
  shapes : d.nodes.map (·.2.shape?) = order.map fun o =>
    some (if o.value.parts.isEmpty then "plain" else "point")
  edges : d.edges = heads.map fun path =>
    (groupNames style (number order) path.dropLast.inits, branch (number order) path)
  fewer : d.edges.length + 1 = d.nodes.length
  groups : d.groups = (order.filter (!·.value.parts.isEmpty)).map fun o =>
    groupNames style (number order) o.path.inits

/-- Settings after the tree show nothing. -/
theorem shows_witness (style : TreeStyle) (w : Value) :
    Shows style (number w.occurrences) [] w.occurrences w.branches (witness style w).spread := by
  have settings : Shows style (number w.occurrences) [] [] []
      [([], .settings [("ranksep", "0.3"), ("splines", "false")])] := ⟨rfl, rfl, rfl⟩
  have all := (shows_both.1 w _ 0 [] (numbers_number w.preorder)).append settings
  rw [List.append_nil, List.append_nil] at all
  rwa [Document.spread, witness, Statement.spreadAll_append]

theorem depicts_witness (style : TreeStyle) (w : Value) :
    Depicts style w.occurrences w.branches (witness style w) := by
  have shows_ := shows_witness style w
  have nodes : (witness style w).nodes = w.occurrences.mapIdx fun id o =>
      (groupNames style (number w.occurrences) o.around, subtreeNode id o.value) :=
    shows_.nodes.trans (map_number w.preorder fun id o =>
      (groupNames style (number w.occurrences) o.around, subtreeNode id o.value))
  refine ⟨nodes, ?_, ?_, shows_.edges, ?_, shows_.groups⟩
  · rw [nodes, map_mapIdx]
    exact List.ext_getElem (by simp) fun i _ _ => by simp [subtreeNode_name]
  · rw [nodes, map_mapIdx]
    exact List.ext_getElem (by simp) fun i _ _ => by simp [subtreeNode_shape]
  · rw [nodes, Document.edges, shows_.edges, List.length_map, List.length_mapIdx,
      length_branches_both.1 w]

namespace TreeStyle

/-- The name to ask for a style with. -/
def title : TreeStyle → String
  | .tree => "tree"
  | .boxes => "boxes"

end TreeStyle

end Drawing

namespace Session

/-- A witness is drawn with one node for each subtree where it occurs, numbered in preorder: plain
for a leaf, and a point for an inner node, in a subgraph of its own with all that is below it. Each
place but the root's has one edge, from the place above it. The styles differ in the names and the
looks of the subgraphs, not in nodes and edges. -/
theorem draw_depicts (s : Session) (bound : Nat) (w : Value) :
    ∃ order heads, w.Preorder order ∧ (∀ order', w.Preorder order' → order' = order) ∧
      w.Branches heads ∧
      (∀ style : Drawing.TreeStyle,
        perform bound (.draw w style.title true) s =
          some (.ok (.text (Drawing.witness style w).text), s) ∧
        Drawing.Depicts style order heads (Drawing.witness style w)) ∧
      (Drawing.witness .tree w).nodes.map Prod.snd =
        (Drawing.witness .boxes w).nodes.map Prod.snd ∧
      (Drawing.witness .tree w).edges.map Prod.snd =
        (Drawing.witness .boxes w).edges.map Prod.snd := by
  refine ⟨w.occurrences, w.branches, w.preorder, fun _ other => other.unique w.preorder,
    w.branched, fun style => ⟨?_, Drawing.depicts_witness style w⟩, ?_, ?_⟩
  · cases style <;> rfl
  · rw [(Drawing.depicts_witness .tree w).nodes, (Drawing.depicts_witness .boxes w).nodes,
      Drawing.map_mapIdx, Drawing.map_mapIdx]
  · rw [(Drawing.depicts_witness .tree w).edges, (Drawing.depicts_witness .boxes w).edges,
      List.map_map, List.map_map]
    rfl

end Session

end GrammarGraph
