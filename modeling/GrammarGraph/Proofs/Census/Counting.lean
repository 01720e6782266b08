import Mathlib.Data.Finset.Prod
import GrammarGraph.Proofs.Census

/-! How many nodes a census can have on the levels up to one: a node that was not built is known
by what it was made for, and that is a computation about a node on a lower level. -/
namespace GrammarGraph.Census

/-- The most nodes on the levels up to `k`, where `r` nodes were built and `c` symbols taken. -/
def population (r c : Nat) : Nat → Nat
  | 0 => r
  | k + 1 => r + population r c k * (c * 4 + 1)

open Classical in
/-- What nodes can have been made for where the nodes in `parents` lie one level below. -/
noncomputable def causes (C : Finset Value) (parents : Finset NodeId) : Finset Origin :=
  (parents ×ˢ (C ×ˢ Finset.range 4)).image (fun (n, c, part) => Origin.derived c n part) ∪
    parents.image Origin.compacted

theorem card_causes_le (C : Finset Value) (parents : Finset NodeId) :
    (causes C parents).card ≤ parents.card * (C.card * 4 + 1) := by
  classical
  have derived := Finset.card_image_le (s := parents ×ˢ (C ×ˢ Finset.range 4))
    (f := fun (n, c, part) => Origin.derived c n part)
  have compacted := Finset.card_image_le (s := parents) (f := Origin.compacted)
  rw [Finset.card_product, Finset.card_product, Finset.card_range] at derived
  calc (causes C parents).card
    _ ≤ _ + _ := Finset.card_union_le _ _
    _ ≤ parents.card * (C.card * 4) + parents.card := Nat.add_le_add derived compacted
    _ = parents.card * (C.card * 4 + 1) := (Nat.mul_succ _ _).symm

theorem mem_causes {C : Finset Value} {parents : Finset NodeId} {o : Origin} {m : NodeId}
    (parent : o.parent? = some m) (counts : o.Counts C) (member : m ∈ parents) :
    o ∈ causes C parents := by
  classical
  cases o with
  | built => cases parent
  | derived c n part =>
    cases parent
    exact Finset.mem_union_left _ (Finset.mem_image.mpr ⟨(m, c, part), by
      simp [member, counts.1, counts.2], rfl⟩)
  | compacted n =>
    cases parent
    exact Finset.mem_union_right _ (Finset.mem_image_of_mem _ member)

variable {C : Finset Value} {roots : Finset NodeId} {x : Census} {g : Graph}

/-- The nodes on the levels up to `k`. -/
def upTo (x : Census) (g : Graph) (k : Nat) : Finset NodeId :=
  (Finset.range g.nodes.size).filter (x.level · ≤ k)

theorem mem_upTo {n : NodeId} {k : Nat} : n ∈ x.upTo g k ↔ n < g.nodes.size ∧ x.level n ≤ k := by
  simp [upTo]

theorem card_upTo_le (h : Counted C roots x g) (k : Nat) :
    (x.upTo g k).card ≤ population roots.card C.card k := by
  classical
  have parted (n : NodeId) : x.origin n = .built ∨ ∃ m, (x.origin n).parent? = some m := by
    cases x.origin n with
    | built => exact .inl rfl
    | derived c m part => exact .inr ⟨m, rfl⟩
    | compacted m => exact .inr ⟨m, rfl⟩
  induction k with
  | zero =>
    refine Finset.card_le_card fun n member => ?_
    obtain ⟨lt, low⟩ := mem_upTo.mp member
    rcases parted n with built | ⟨m, parent⟩
    · exact (h.built n lt built).1
    · rw [(h.made n lt m parent).2.1] at low
      cases low
  | succ k ih =>
    let built := (x.upTo g (k + 1)).filter (x.origin · = .built)
    let made := (x.upTo g (k + 1)).filter (¬ x.origin · = .built)
    have few : built.card ≤ roots.card := by
      refine Finset.card_le_card fun n member => ?_
      obtain ⟨there, origin⟩ := Finset.mem_filter.mp member
      exact (h.built n (mem_upTo.mp there).1 origin).1
    have many : made.card ≤ (causes C (x.upTo g k)).card := by
      refine Finset.card_le_card_of_injOn x.origin (fun n member => ?_) fun m hm n hn same => ?_
      · obtain ⟨there, origin⟩ := Finset.mem_filter.mp member
        obtain ⟨lt, low⟩ := mem_upTo.mp there
        obtain ⟨m, parent⟩ := (parted n).resolve_left origin
        obtain ⟨known, level, counts, _⟩ := h.made n lt m parent
        exact mem_causes parent counts (mem_upTo.mpr ⟨Graph.lt_of_kind known, by omega⟩)
      · obtain ⟨there, _⟩ := Finset.mem_filter.mp hm
        obtain ⟨there', origin⟩ := Finset.mem_filter.mp hn
        exact h.unique m (mem_upTo.mp there).1 n (mem_upTo.mp there').1 same origin
    calc (x.upTo g (k + 1)).card
      _ = built.card + made.card := (Finset.card_filter_add_card_filter_not _).symm
      _ ≤ roots.card + (x.upTo g k).card * (C.card * 4 + 1) :=
        Nat.add_le_add few (many.trans (card_causes_le _ _))
      _ ≤ roots.card + population roots.card C.card k * (C.card * 4 + 1) :=
        Nat.add_le_add_left (Nat.mul_le_mul_right _ ih) _

end GrammarGraph.Census
