import SolidSurface.Box

/-! # Order by centres

Objects are ordered along an axis by the middles of their boxes. The middle of a box without ends,
from minus to plus infinity or the other way round, is indefinite; such a box comes before all
others. Where several orders are compared, only the positions of the objects are sorted, and the
objects are moved once the order is settled.
-/

namespace SolidSurface

/-! ## Moving objects -/

section Permute

variable {β : Type} {n : Nat}

/-- Takes the objects at some positions out of their slots. A slot that is met again is empty. -/
def takeSlots : Vector (Option β) n → List (Fin n) → List β
  | _, [] => []
  | slots, i :: order => slots[i].toList ++ takeSlots (slots.set i none) order

/-- The objects at some positions. -/
@[specialize] def objectsAt (xs : Array β) (order : List (Fin xs.size)) : List β :=
  order.map fun i => xs[i]

/-- Moves the objects at some positions into a list. -/
def permute (xs : Array β) (order : List (Fin xs.size)) : List β :=
  takeSlots ⟨xs.map some, Array.size_map⟩ order

theorem takeSlots_eq_map {slots : Vector (Option β) n} {order : List (Fin n)} {f : Fin n → β}
    (hnodup : order.Nodup) (h : ∀ i ∈ order, slots[i] = some (f i)) :
    takeSlots slots order = order.map f := by
  induction order generalizing slots with
  | nil => rfl
  | cons i order ih =>
      obtain ⟨hi, hnodup⟩ := List.nodup_cons.mp hnodup
      rw [takeSlots, h i List.mem_cons_self, ih hnodup fun j hj => ?_]
      · rfl
      · have hne : i.val ≠ j.val := fun heq => hi (Fin.ext heq ▸ hj)
        simpa [Vector.getElem_set, hne] using h j (List.mem_cons_of_mem i hj)

/-- No object is lost as long as no position comes twice. -/
theorem permute_eq_objectsAt {xs : Array β} {order : List (Fin xs.size)} (hnodup : order.Nodup) :
    permute xs order = objectsAt xs order :=
  takeSlots_eq_map hnodup fun _ _ => by simp

end Permute

/-! ## Sorting -/

/-- An object and its box. -/
structure Boxed (α β : Type) where
  box : Box α
  object : β

namespace Boxed

variable {α β : Type} [Scalar α]

@[inline] def middle (b : Box α) (a : Axis) : α :=
  (b.lower.get a + b.upper.get a) * Scalar.half

/-- Whether the ends of a box cancel into something that is not equal to itself. -/
@[inline] def isIndefinite (b : Box α) (a : Axis) : Bool :=
  let sum := b.lower.get a + b.upper.get a
  !(sum == sum) && b.lower.get a == b.lower.get a && b.upper.get a == b.upper.get a

@[specialize] def middleLE (a : Axis) (b c : Boxed α β) : Bool :=
  isIndefinite b.box a ||
    (!isIndefinite c.box a && Scalar.totalLE (middle b.box a) (middle c.box a))

/-- Objects in the order of their middles along an axis; of equal middles the first comes first. -/
@[specialize] def sortAlong (a : Axis) (xs : List (Boxed α β)) : List (Boxed α β) :=
  xs.mergeSort (middleLE a)

/-- Positions of objects in the order of their middles along an axis; of equal middles the first
comes first. -/
@[specialize] def orderAlong (a : Axis) (xs : Array (Boxed α β)) : List (Fin xs.size) :=
  (List.finRange xs.size).mergeSort fun i j => middleLE a xs[i] xs[j]

theorem orderAlong_perm (a : Axis) (xs : Array (Boxed α β)) :
    (orderAlong a xs).Perm (List.finRange xs.size) :=
  List.mergeSort_perm _ _

theorem objectsAt_orderAlong (a : Axis) (xs : Array (Boxed α β)) :
    objectsAt xs (orderAlong a xs) = sortAlong a xs.toList := by
  have hall : objectsAt xs (List.finRange xs.size) = xs.toList := by
    apply List.ext_getElem <;> simp [objectsAt]
  calc objectsAt xs (orderAlong a xs)
      = (objectsAt xs (List.finRange xs.size)).mergeSort (middleLE a) :=
        List.map_mergeSort fun _ _ _ _ => rfl
    _ = sortAlong a xs.toList := by rw [hall, sortAlong]

/-- Moving the objects to their places in the order sorts them. -/
theorem permute_orderAlong (a : Axis) (xs : Array (Boxed α β)) :
    permute xs (orderAlong a xs) = sortAlong a xs.toList := by
  have hnodup := (orderAlong_perm a xs).nodup_iff.mpr (List.nodup_finRange xs.size)
  rw [permute_eq_objectsAt hnodup, objectsAt_orderAlong]

theorem length_sortAlong (a : Axis) (xs : List (Boxed α β)) :
    (sortAlong a xs).length = xs.length :=
  List.length_mergeSort _

@[specialize] def boundsOf (xs : List (Boxed α β)) : Box α :=
  Box.unionAll (xs.map Boxed.box)

end Boxed

end SolidSurface
