import SolidSurface.Solid.Basic

/-! # Combinations of solids

A union or an intersection first asks its own bounds and then its operands; a difference has the
bounds of the solid that is cut.
-/

namespace SolidSurface.Solid

variable {α : Type} [Scalar α]

/-- Points of any operand. -/
@[specialize] def union (parts : List (Solid α)) : Except (ConstructionError α) (Solid α) :=
  match parts with
  | [] => .error (.noOperands .union)
  | _ :: _ =>
    let bounds := Box.unionAll (parts.map Solid.bounds)
    .ok ⟨bounds, fun p => bounds.contains p && parts.any fun s => s.contains p⟩

/-- Points of every operand. -/
@[specialize] def intersection (parts : List (Solid α)) : Except (ConstructionError α) (Solid α) :=
  match parts with
  | [] => .error (.noOperands .intersection)
  | first :: rest =>
    let bounds := rest.foldl (fun b s => b.intersection s.bounds) first.bounds
    .ok ⟨bounds, fun p => bounds.contains p && parts.all fun s => s.contains p⟩

/-- Points of `positive` that are not points of `negative`. -/
def difference (positive negative : Solid α) : Solid α :=
  ⟨positive.bounds, fun p => positive.contains p && !negative.contains p⟩

/-- The same points under other bounds, true or not. -/
def declaring (bounds : Box α) (s : Solid α) : Solid α :=
  { s with bounds := bounds }

end SolidSurface.Solid
