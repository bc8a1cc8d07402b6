import SolidSurface.Hierarchy.Basic
import SolidSurface.Hierarchy.Order

/-! # Median splits

A list is grouped by halving it again and again along whichever axis leaves the two halves with the
least surface. Halving the grouped list in the same places gives a tree of least depth.
-/

namespace SolidSurface

namespace Hierarchy

variable {β : Type}

/-- The tree that halves a list, the larger half to the right, until single objects are left. -/
def ofOrdered (xs : List β) (hne : xs ≠ []) : Hierarchy β :=
  if h : xs.length ≤ 1 then leaf (xs.head hne)
  else
    let half := xs.length / 2
    branch
      (ofOrdered (xs.take half) (List.ne_nil_of_length_pos (by rw [List.length_take]; omega)))
      (ofOrdered (xs.drop half) (List.ne_nil_of_length_pos (by rw [List.length_drop]; omega)))
termination_by xs.length
decreasing_by
  · rw [List.length_take]; omega
  · rw [List.length_drop]; omega

@[simp] theorem ofOrdered_singleton (b : β) (hne : [b] ≠ []) : ofOrdered [b] hne = leaf b := by
  rw [ofOrdered]
  simp

theorem ofOrdered_of_one_lt_length {xs : List β} (hne : xs ≠ []) (h : 1 < xs.length)
    (hl : xs.take (xs.length / 2) ≠ []) (hr : xs.drop (xs.length / 2) ≠ []) :
    ofOrdered xs hne =
      branch (ofOrdered (xs.take (xs.length / 2)) hl) (ofOrdered (xs.drop (xs.length / 2)) hr) := by
  rw [ofOrdered, dif_neg (Nat.not_le.mpr h)]

end Hierarchy

variable {α β : Type} [Scalar α]

namespace Boxed

/-- Surface of the two halves of a list, each in a box of its own. -/
@[specialize] def halvesArea (xs : List (Boxed α β)) : α :=
  let half := xs.length / 2
  (boundsOf (xs.take half)).surfaceArea + (boundsOf (xs.drop half)).surfaceArea

/-- A choice of axis so far, with the surface that it leaves. -/
structure AxisChoice (α : Type) where
  axis : Axis
  area : Extended α

@[inline] def AxisChoice.offer (best : AxisChoice α) (axis : Axis) (area : α) : AxisChoice α :=
  if (Extended.val area).lt best.area then ⟨axis, .val area⟩ else best

/-- A list sorted along the axis that leaves its halves with the least surface. The axes are tried
one after another, each on the list as the one before has left it. -/
@[specialize] def sortAlongBest (xs : List (Boxed α β)) : List (Boxed α β) :=
  let byX := sortAlong .x xs
  let byY := sortAlong .y byX
  let byZ := sortAlong .z byY
  let best : AxisChoice α := ⟨.x, .infinity⟩
  let best := best.offer .x (halvesArea byX)
  let best := best.offer .y (halvesArea byY)
  let best := best.offer .z (halvesArea byZ)
  if best.axis = .z then byZ else sortAlong best.axis byZ

theorem length_sortAlongBest (xs : List (Boxed α β)) :
    (sortAlongBest xs).length = xs.length := by
  simp only [sortAlongBest]
  split <;> simp only [length_sortAlong]

/-- Reorders a list so that neighbours in space become neighbours in the list. -/
@[specialize] def group (xs : List (Boxed α β)) : List (Boxed α β) :=
  if _ : xs.length ≤ 2 then xs
  else
    let sorted := sortAlongBest xs
    let half := xs.length / 2
    group (sorted.take half) ++ group (sorted.drop half)
termination_by xs.length
decreasing_by
  · rw [List.length_take, length_sortAlongBest]; omega
  · rw [List.length_drop, length_sortAlongBest]; omega

theorem group_of_two_lt_length {xs : List (Boxed α β)} (h : 2 < xs.length) :
    group xs = group ((sortAlongBest xs).take (xs.length / 2)) ++
      group ((sortAlongBest xs).drop (xs.length / 2)) := by
  rw [group, dif_neg (Nat.not_le.mpr h)]

end Boxed

@[inline] def boxed (box : β → Box α) (xs : List β) : List (Boxed α β) :=
  xs.map fun x => ⟨box x, x⟩

/-- Reorders objects so that neighbours in space become neighbours in the list. -/
@[specialize] def groupByBoxes (box : β → Box α) (xs : List β) : List β :=
  (Boxed.group (boxed box xs)).map Boxed.object

/-- The tree of least depth over the grouped objects. -/
@[specialize] def Hierarchy.ofMedians? (box : β → Box α) (xs : List β) :
    Option (Hierarchy β) :=
  let grouped := groupByBoxes box xs
  if h : grouped = [] then none else some (.ofOrdered grouped h)

end SolidSurface
