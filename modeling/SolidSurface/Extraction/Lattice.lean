import SolidSurface.Vec

/-! # Lattice points -/

namespace SolidSurface

/-- A point of an integer lattice. -/
abbrev LatticePoint := Vec3 Nat

namespace LatticePoint

/-- Whether a lattice point lies on the outermost layer of a lattice with `n` points per axis. -/
@[inline] def isBorder (n : Vec3 Nat) (p : LatticePoint) : Bool :=
  p.x == 0 || p.y == 0 || p.z == 0 || p.x + 1 == n.x || p.y + 1 == n.y || p.z + 1 == n.z

/-- What `f` gives at every lattice point with coordinates below those of `n`, `x` running fastest
and `z` slowest. -/
@[specialize] def flatMapBelow {β : Type} (n : Vec3 Nat) (f : LatticePoint → List β) : List β :=
  (List.range n.z).flatMap fun z =>
    (List.range n.y).flatMap fun y => (List.range n.x).flatMap fun x => f ⟨x, y, z⟩

@[specialize] def anyBelow (n : Vec3 Nat) (f : LatticePoint → Bool) : Bool :=
  (List.range n.z).any fun z => (List.range n.y).any fun y => (List.range n.x).any fun x =>
    f ⟨x, y, z⟩

theorem mem_flatMapBelow {β : Type} {n : Vec3 Nat} {f : LatticePoint → List β} {b : β} :
    b ∈ flatMapBelow n f ↔ ∃ p : LatticePoint, (p.x < n.x ∧ p.y < n.y ∧ p.z < n.z) ∧ b ∈ f p := by
  simp only [flatMapBelow, List.mem_flatMap, List.mem_range]
  constructor
  · rintro ⟨z, hz, y, hy, x, hx, h⟩
    exact ⟨⟨x, y, z⟩, ⟨hx, hy, hz⟩, h⟩
  · rintro ⟨⟨x, y, z⟩, ⟨hx, hy, hz⟩, h⟩
    exact ⟨z, hz, y, hy, x, hx, h⟩

theorem anyBelow_eq_true_iff {n : Vec3 Nat} {f : LatticePoint → Bool} :
    anyBelow n f = true ↔ ∃ p : LatticePoint, (p.x < n.x ∧ p.y < n.y ∧ p.z < n.z) ∧ f p = true := by
  simp only [anyBelow, List.any_eq_true, List.mem_range]
  constructor
  · rintro ⟨z, hz, y, hy, x, hx, h⟩
    exact ⟨⟨x, y, z⟩, ⟨hx, hy, hz⟩, h⟩
  · rintro ⟨⟨x, y, z⟩, ⟨hx, hy, hz⟩, h⟩
    exact ⟨z, hz, y, hy, x, hx, h⟩

end LatticePoint

end SolidSurface
