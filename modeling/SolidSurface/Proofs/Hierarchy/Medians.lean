import SolidSurface.Proofs.Hierarchy.Order

/-! # The halves of a grouped list

Each list that grouping comes to is tried along all three axes, and sorted again along the one whose
halves have the least surface. The last sort starts from another order than the first one did, so
objects of the same middle may change places, across the midpoint too. When they do not, or when
nothing has to be sorted again, the halves are those that were tried.
-/

namespace SolidSurface

open Binary64

namespace Boxed

variable {α β : Type}

section Scalar

variable [Scalar α]

/-! ## Trying the axes -/

/-- A list as it is when its halves along an axis are tried. -/
def tried (xs : List (Boxed α β)) : Axis → List (Boxed α β)
  | .x => sortAlong .x xs
  | .y => sortAlong .y (sortAlong .x xs)
  | .z => sortAlong .z (sortAlong .y (sortAlong .x xs))

/-- Surface of the halves as they are tried along an axis. -/
def triedArea (xs : List (Boxed α β)) (a : Axis) : α :=
  halvesArea (tried xs a)

/-- The axis that a list is sorted along in the end. -/
def bestAxis (xs : List (Boxed α β)) : Axis :=
  (((AxisChoice.mk .x .infinity).offer .x (triedArea xs .x)).offer .y (triedArea xs .y)).offer .z
    (triedArea xs .z) |>.axis

theorem sortAlongBest_eq (xs : List (Boxed α β)) :
    sortAlongBest xs =
      if bestAxis xs = .z then tried xs .z else sortAlong (bestAxis xs) (tried xs .z) :=
  rfl

theorem tried_perm (xs : List (Boxed α β)) (a : Axis) : (tried xs a).Perm xs := by
  have hx := sortAlong_perm .x xs
  have hy := (sortAlong_perm .y (sortAlong .x xs)).trans hx
  cases a with
  | x => exact hx
  | y => exact hy
  | z => exact (sortAlong_perm .z _).trans hy

/-- The lists that grouping comes to: the whole, and both halves of each as long as it is halved. -/
inductive IsSlice (xs : List (Boxed α β)) : List (Boxed α β) → Prop
  | whole : IsSlice xs xs
  | front {ys} : IsSlice xs ys → 2 < ys.length → IsSlice xs ((sortAlongBest ys).take (ys.length / 2))
  | back {ys} : IsSlice xs ys → 2 < ys.length → IsSlice xs ((sortAlongBest ys).drop (ys.length / 2))

variable {xs ys : List (Boxed α β)}

theorem IsSlice.subset (h : IsSlice xs ys) : ys ⊆ xs := by
  induction h with
  | whole => exact List.Subset.refl _
  | front _ _ ih =>
      exact List.Subset.trans (List.take_subset _ _) (List.Subset.trans (sortAlongBest_perm _).subset ih)
  | back _ _ ih =>
      exact List.Subset.trans (List.drop_subset _ _) (List.Subset.trans (sortAlongBest_perm _).subset ih)

/-- A slice is grouped in its place. -/
theorem IsSlice.group_infix (h : IsSlice xs ys) : group ys <:+: group xs := by
  induction h with
  | whole => exact List.infix_rfl
  | front _ hlong ih =>
      rw [group_of_two_lt_length hlong] at ih
      exact (List.prefix_append _ _).isInfix.trans ih
  | back _ hlong ih =>
      rw [group_of_two_lt_length hlong] at ih
      exact (List.suffix_append _ _).isInfix.trans ih

end Scalar

/-! ## The least surface -/

theorem tried_sorted (xs : List (Boxed Float β)) (a : Axis) :
    (tried xs a).Pairwise fun b c => middleLE a b c = true := by
  cases a with
  | _ => exact sortAlong_sorted _ _

theorem sortAlongBest_sorted (xs : List (Boxed Float β)) :
    (sortAlongBest xs).Pairwise fun b c => middleLE (bestAxis xs) b c = true := by
  rw [sortAlongBest_eq]
  split
  · rename_i hz
    rw [hz]
    exact tried_sorted xs .z
  · exact sortAlong_sorted _ _

theorem AxisChoice.offer_spec {best : AxisChoice Float} {area : Float} {m n : ℤ}
    (hm : best.area.units? = some m) (hn : units? area = some n) (a : Axis) :
    (best.offer a area).area.units? = some (min m n) ∧
      (best.offer a area).axis = if n < m then a else best.axis := by
  have hlt : (Extended.val area).lt best.area = true ↔ n < m :=
    Extended.lt_iff_of_units (a := .val area) hn hm
  by_cases h : n < m
  · rw [AxisChoice.offer, if_pos (hlt.mpr h), if_pos h, min_eq_right h.le]
    exact ⟨hn, rfl⟩
  · rw [AxisChoice.offer, if_neg (mt hlt.mp h), if_neg h, min_eq_left (not_lt.mp h)]
    exact ⟨hm, rfl⟩

variable {xs ys : List (Boxed Float β)}

/-- All three surfaces are numbers. -/
def TriedNumeric (xs : List (Boxed Float β)) : Prop :=
  ∀ a, (triedArea xs a == triedArea xs a) = true

def triedUnits (xs : List (Boxed Float β)) (a : Axis) : ℤ :=
  countUnits (triedArea xs a)

theorem TriedNumeric.le_iff (h : TriedNumeric xs) (a b : Axis) :
    triedArea xs a ≤ triedArea xs b ↔ triedUnits xs a ≤ triedUnits xs b :=
  le_iff_of_units (units?_eq_some (h a)) (units?_eq_some (h b))

theorem TriedNumeric.bestAxis_eq (h : TriedNumeric xs) :
    bestAxis xs = Axis.firstLeast (triedUnits xs) := by
  have hunits : ∀ a, units? (triedArea xs a) = some (triedUnits xs a) :=
    fun a => units?_eq_some (h a)
  have hstart : (AxisChoice.mk .x .infinity : AxisChoice Float).area.units? = some (limit : ℤ) := rfl
  obtain ⟨hx, hx'⟩ := AxisChoice.offer_spec hstart (hunits .x) .x
  rw [min_eq_right (units?_bounds (hunits .x)).2] at hx
  obtain ⟨hy, hy'⟩ := AxisChoice.offer_spec hx (hunits .y) .y
  obtain ⟨-, hz'⟩ := AxisChoice.offer_spec hy (hunits .z) .z
  rw [bestAxis, hz', hy', hx', ite_self, Axis.firstLeast]

/-- The first axis with the least surface is chosen. -/
theorem TriedNumeric.bestAxis_spec (h : TriedNumeric xs) (a : Axis) :
    triedArea xs (bestAxis xs) ≤ triedArea xs a ∧
      (triedArea xs a ≤ triedArea xs (bestAxis xs) → (bestAxis xs).index ≤ a.index) := by
  rw [h.le_iff, h.le_iff, h.bestAxis_eq]
  exact ⟨Axis.firstLeast_le _ a, Axis.index_firstLeast_le⟩

theorem halvesArea_alike (h : AllNumeric xs) (hperm : xs.Perm ys)
    (htake : (xs.take (xs.length / 2)).Perm (ys.take (xs.length / 2))) :
    Alike (halvesArea xs) (halvesArea ys) := by
  have hdrop := drop_perm_drop_of_take_perm_take hperm htake
  rw [halvesArea, halvesArea, ← hperm.length_eq]
  exact (surfaceArea_boundsOf_alike (h.of_subset (List.take_subset _ _)) htake).add
    (surfaceArea_boundsOf_alike (h.of_subset (List.drop_subset _ _)) hdrop)

/-- Sorted once more, a list has the halves that were tried, unless objects of one middle are on
both sides of the midpoint. -/
theorem halvesArea_sortAlongBest_alike (h : AllNumeric xs) (hlong : 2 < xs.length)
    (hclear : bestAxis xs = .z ∨
      SeparatedAt (middleLE (bestAxis xs)) (xs.length / 2) (tried xs (bestAxis xs))) :
    Alike (halvesArea (sortAlongBest xs)) (triedArea xs (bestAxis xs)) := by
  rcases hclear with hz | hsep
  · rw [sortAlongBest_eq, if_pos hz, hz]
    exact .refl _
  · have hperm : (tried xs (bestAxis xs)).Perm (sortAlongBest xs) :=
      (tried_perm _ _).trans (sortAlongBest_perm xs).symm
    have hlength := (tried_perm xs (bestAxis xs)).length_eq
    refine (halvesArea_alike (h.of_subset (tried_perm _ _).subset) hperm ?_).symm
    rw [hlength]
    exact take_perm_take_of_separatedAt (middleLE_trans _) (middleLE_total _) hperm
      (tried_sorted _ _) (sortAlongBest_sorted xs) (by omega) hsep

/-- Grouping reorders each list that it comes to within its place: it sorts the list along the first
axis whose halves, as they are tried, have the least surface, and groups the two halves. Their
surface is that least one whenever the list is sorted along z or no two objects of the same middle
lie on both sides of the midpoint. -/
theorem group_halves (boxOf : β → Box Float) {objects : List β}
    (hnumeric : ∀ o ∈ objects, (boxOf o).IsNumeric) {ys : List (Boxed Float β)}
    (hslice : IsSlice (boxed boxOf objects) ys) (hlong : 2 < ys.length)
    (harea : ∀ a, (triedArea ys a == triedArea ys a) = true) :
    let best := bestAxis ys
    let sorted := sortAlongBest ys
    let half := ys.length / 2
    (group ys).map object <:+: groupByBoxes boxOf objects ∧
      group ys = group (sorted.take half) ++ group (sorted.drop half) ∧
      sorted.Perm ys ∧ sorted.Pairwise (fun b c => middleLE best b c = true) ∧
      (∀ a, triedArea ys best ≤ triedArea ys a ∧
        (triedArea ys a ≤ triedArea ys best → best.index ≤ a.index)) ∧
      (best = .z ∨ SeparatedAt (middleLE best) half (tried ys best) →
        (halvesArea sorted == triedArea ys best) = true) := by
  have hys : AllNumeric ys := (allNumeric_boxed hnumeric).of_subset hslice.subset
  refine ⟨hslice.group_infix.map object, group_of_two_lt_length hlong, sortAlongBest_perm ys,
    sortAlongBest_sorted ys, TriedNumeric.bestAxis_spec harea, fun hclear => ?_⟩
  rw [(halvesArea_sortAlongBest_alike hys hlong hclear).beq_eq (.refl _)]
  exact harea _

/-- Two pairs of cubes in a row. -/
def row : List (Box Float) :=
  [0, 1.5, 100, 101.5].map fun x => ⟨⟨x, 0, 0⟩, ⟨x + 1, 1, 1⟩⟩

theorem sortAlong_row (a : Axis) : sortAlong a (boxed id row) = boxed id row := by
  apply List.mergeSort_of_pairwise
  cases a with
  | _ => decide +kernel

theorem tried_row (a : Axis) : tried (boxed id row) a = boxed id row := by
  cases a with
  | _ => simp only [tried, sortAlong_row]

theorem group_halves_row :
    bestAxis (boxed id row) = .x ∧
      (halvesArea (sortAlongBest (boxed id row)) == triedArea (boxed id row) .x) = true := by
  have harea : ∀ a, triedArea (boxed id row) a = halvesArea (boxed id row) :=
    fun a => congrArg halvesArea (tried_row a)
  have hnumber : (halvesArea (boxed id row) == halvesArea (boxed id row)) = true := by
    decide +kernel
  have hnumeric : ∀ b ∈ row, b.IsNumeric := by decide +kernel
  obtain ⟨-, -, -, -, hleast, hhalves⟩ := group_halves id hnumeric .whole (by decide)
    fun a => (harea a).symm ▸ hnumber
  have hbest : bestAxis (boxed id row) = .x := by
    have hindex := (hleast .x).2 (by rw [harea, harea]; decide +kernel)
    cases hbest : bestAxis (boxed id row) with
    | x => rfl
    | _ =>
        rw [hbest] at hindex
        exact absurd hindex (by decide)
  rw [hbest, tried_row] at hhalves
  exact ⟨hbest, hhalves (.inr (by unfold SeparatedAt; decide +kernel))⟩

end Boxed

end SolidSurface
