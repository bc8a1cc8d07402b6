import SolidSurface.Hierarchy.AreaDensity
import SolidSurface.Scalar.Binary64

/-! # The objects of a hierarchy

Building a hierarchy sorts and cuts a list and loses nothing: the objects at the leaves are those of
the list, each as often. The boxes decide only about their order, so this holds for all boxes, those
without ends and those with coordinates that are not numbers included.
-/

namespace SolidSurface

variable {α β γ : Type}

namespace Hierarchy

@[simp] theorem toList_leaf (b : β) : (leaf b).toList = [b] := rfl

@[simp] theorem toList_branch (l r : Hierarchy β) :
    (branch l r).toList = l.toList ++ r.toList := rfl

@[simp] theorem toList_map (f : β → γ) (h : Hierarchy β) : (h.map f).toList = h.toList.map f := by
  induction h with
  | leaf b => rfl
  | branch l r hl hr => simp [map, hl, hr]

/-- The trees of a stack are read one after another, each from left to right. -/
theorem visit_eq_flatMap (stack : List (Hierarchy β)) : visit stack = stack.flatMap toList := by
  fun_induction visit stack with
  | case1 => rfl
  | case2 b rest ih => rw [List.flatMap_cons, toList_leaf, List.singleton_append, ih]
  | case3 l r rest ih =>
      rw [ih, List.flatMap_cons, List.flatMap_cons, List.flatMap_cons, toList_branch,
        List.append_assoc]

theorem leaves_eq_toList (h : Hierarchy β) : h.leaves = h.toList := by
  rw [leaves, visit_eq_flatMap, List.flatMap_singleton]

theorem toList_ofOrdered (xs : List β) (hne : xs ≠ []) : (ofOrdered xs hne).toList = xs := by
  rw [ofOrdered]
  split
  · rename_i hshort
    obtain ⟨b, rfl⟩ := List.length_eq_one_iff.mp
      (Nat.le_antisymm hshort (List.length_pos_iff.mpr hne))
    rfl
  · rw [toList_branch, toList_ofOrdered, toList_ofOrdered, List.take_append_drop]
termination_by xs.length
decreasing_by
  · rw [List.length_take]
    omega
  · rw [List.length_drop]
    omega

end Hierarchy

namespace Boxed

variable [Scalar α]

theorem sortAlong_perm (a : Axis) (xs : List (Boxed α β)) : (sortAlong a xs).Perm xs :=
  List.mergeSort_perm _ _

theorem sortAlongBest_perm (xs : List (Boxed α β)) : (sortAlongBest xs).Perm xs := by
  have hsorted : (sortAlong .z (sortAlong .y (sortAlong .x xs))).Perm xs :=
    (sortAlong_perm _ _).trans ((sortAlong_perm _ _).trans (sortAlong_perm _ _))
  simp only [sortAlongBest]
  split
  · exact hsorted
  · exact (sortAlong_perm _ _).trans hsorted

theorem group_perm (xs : List (Boxed α β)) : (group xs).Perm xs := by
  rw [group]
  split
  · exact .rfl
  · refine ((group_perm _).append (group_perm _)).trans ?_
    rw [List.take_append_drop]
    exact sortAlongBest_perm xs
termination_by xs.length
decreasing_by
  · rw [List.length_take, length_sortAlongBest]
    omega
  · rw [List.length_drop, length_sortAlongBest]
    omega

theorem bestParts_perm (xs : List (Boxed α β)) :
    ((bestParts xs).1 ++ (bestParts xs).2).Perm xs := by
  obtain ⟨a, ha⟩ := exists_bestParts_eq xs
  rw [ha, List.splitAt_eq, List.take_append_drop]
  exact sortAlong_perm a xs

theorem toList_hierarchy_perm (xs : List (Boxed α β)) (hne : xs ≠ []) :
    (hierarchy xs hne).toList.Perm xs := by
  rw [hierarchy]
  split
  · rw [Hierarchy.toList_ofOrdered]
  · rename_i hlong
    have hparts := length_bestParts (Nat.le_of_not_le hlong)
    rw [Hierarchy.toList_branch]
    exact ((toList_hierarchy_perm _ _).append (toList_hierarchy_perm _ _)).trans (bestParts_perm xs)
termination_by xs.length
decreasing_by
  all_goals omega

omit [Scalar α] in
theorem map_object_boxed (box : β → Box α) (xs : List β) : (boxed box xs).map object = xs := by
  simp [boxed, Function.comp_def]

end Boxed

variable [Scalar α]

theorem groupByBoxes_perm (box : β → Box α) (xs : List β) : (groupByBoxes box xs).Perm xs := by
  have hperm := (Boxed.group_perm (boxed box xs)).map Boxed.object
  rwa [Boxed.map_object_boxed] at hperm

namespace Hierarchy

theorem toList_ofAreaDensity?_perm {box : β → Box α} {xs : List β} {h : Hierarchy β}
    (hbuilt : ofAreaDensity? box xs = some h) : h.toList.Perm xs := by
  simp only [ofAreaDensity?] at hbuilt
  split at hbuilt
  · cases hbuilt
  · cases hbuilt
    rw [toList_map]
    have hperm := (Boxed.toList_hierarchy_perm (boxed box xs) ‹_›).map Boxed.object
    rwa [Boxed.map_object_boxed] at hperm

theorem toList_ofMedians?_perm {box : β → Box α} {xs : List β} {h : Hierarchy β}
    (hbuilt : ofMedians? box xs = some h) : h.toList.Perm xs := by
  simp only [ofMedians?] at hbuilt
  split at hbuilt
  · cases hbuilt
  · cases hbuilt
    rw [toList_ofOrdered]
    exact groupByBoxes_perm box xs

/-- There is a hierarchy over every list but the empty one. -/
theorem isSome_ofAreaDensity? {box : β → Box α} {xs : List β} (hne : xs ≠ []) :
    (ofAreaDensity? box xs).isSome = true := by
  simp only [ofAreaDensity?]
  rw [dif_neg (by simpa [boxed] using hne)]
  rfl

theorem isSome_ofMedians? {box : β → Box α} {xs : List β} (hne : xs ≠ []) :
    (ofMedians? box xs).isSome = true := by
  have hgrouped : groupByBoxes box xs ≠ [] := by
    intro hnil
    rw [← List.length_eq_zero_iff, (groupByBoxes_perm box xs).length_eq,
      List.length_eq_zero_iff] at hnil
    exact hne hnil
  simp only [ofMedians?]
  rw [dif_neg hgrouped]
  rfl

/-- A tree with the objects of a list at its leaves, each as often as in the list. -/
structure Holds (h : Hierarchy β) (xs : List β) : Prop where
  toList_perm : h.toList.Perm xs
  size_eq : h.size = xs.length
  leaves_eq : h.leaves = h.toList

theorem holds_of_perm {h : Hierarchy β} {xs : List β} (hperm : h.toList.Perm xs) : h.Holds xs :=
  ⟨hperm, h.size_eq_length_toList.trans hperm.length_eq, h.leaves_eq_toList⟩

/-- Whatever the boxes are, grouping only permutes a list, and over every list but the empty one
either way of building gives a tree that holds just the objects of the list. Read with a stack, the
tree lists them from left to right. -/
theorem built_holds (box : β → Box α) (xs : List β) :
    (groupByBoxes box xs).Perm xs ∧
      (xs ≠ [] → (∃ h, ofAreaDensity? box xs = some h ∧ h.Holds xs) ∧
        ∃ h, ofMedians? box xs = some h ∧ h.Holds xs) := by
  refine ⟨groupByBoxes_perm box xs, fun hne => ⟨?_, ?_⟩⟩
  · have hsome : (ofAreaDensity? box xs).isSome = true := isSome_ofAreaDensity? hne
    obtain ⟨h, hbuilt⟩ := Option.isSome_iff_exists.mp hsome
    exact ⟨h, hbuilt, holds_of_perm (toList_ofAreaDensity?_perm hbuilt)⟩
  · have hsome : (ofMedians? box xs).isSome = true := isSome_ofMedians? hne
    obtain ⟨h, hbuilt⟩ := Option.isSome_iff_exists.mp hsome
    exact ⟨h, hbuilt, holds_of_perm (toList_ofMedians?_perm hbuilt)⟩

/-- A box that is not made of numbers, one without ends, the empty box and two equal ones. -/
def oddBoxes : List (Box Float) :=
  [⟨.repeated (0 / 0), .repeated (0 / 0)⟩, ⟨.repeated (-1 / 0), .repeated (1 / 0)⟩, .empty,
    ⟨.repeated 0, .repeated 1⟩, ⟨.repeated 0, .repeated 1⟩]

theorem built_holds_oddBoxes : oddBoxes ≠ [] ∧
    (∃ h, ofAreaDensity? id oddBoxes = some h ∧ h.leaves.Perm oddBoxes) ∧
      ∃ h, ofMedians? id oddBoxes = some h ∧ h.leaves.Perm oddBoxes := by
  have hne : oddBoxes ≠ [] := List.cons_ne_nil _ _
  obtain ⟨-, hbuilt⟩ := built_holds id oddBoxes
  obtain ⟨⟨h, hh, hholds⟩, h', hh', hholds'⟩ := hbuilt hne
  exact ⟨hne, ⟨h, hh, hholds.leaves_eq ▸ hholds.toList_perm⟩,
    h', hh', hholds'.leaves_eq ▸ hholds'.toList_perm⟩

end Hierarchy

end SolidSurface
