import SolidSurface.Vec

/-! # Fitting a point to planes

The point that lies closest to a number of planes in the sense of least squares, pulled gently to
the centroid `c` of the points they were given by: it minimises

    Σ (n · (x - p))² + w |x - c|²

over all `x`. The normal equations for `x - c` are solved by a Cholesky factorisation.
-/

namespace SolidSurface

/-- The plane through a point with a given normal. -/
structure TangentPlane (α : Type) where
  point : Point α
  normal : Vec3 α
  deriving DecidableEq, Repr

/-- Lower triangle of a three by three matrix, by row and column. -/
structure LowerTriangle (α : Type) where
  xx : α
  yx : α
  yy : α
  zx : α
  zy : α
  zz : α
  deriving DecidableEq, Repr

namespace LowerTriangle

variable {α : Type} [Scalar α]

/-- A multiple of the identity matrix. -/
@[inline] def diagonal (w : α) : LowerTriangle α :=
  ⟨1 * w, 0 * w, 1 * w, 0 * w, 0 * w, 1 * w⟩

/-- Adds the product of a column and its transpose. -/
@[inline] def addOuter (a : LowerTriangle α) (n : Vec3 α) : LowerTriangle α :=
  ⟨a.xx + n.x * n.x, a.yx + n.y * n.x, a.yy + n.y * n.y,
   a.zx + n.z * n.x, a.zy + n.z * n.y, a.zz + n.z * n.z⟩

/-- The lower triangular `l` for which `l * lᵀ` is the symmetric matrix with the given lower
triangle, unless a pivot is not positive. -/
@[specialize] def cholesky? (a : LowerTriangle α) : Option (LowerTriangle α) :=
  if !(decide (0 < a.xx)) then none
  else
    let xx := Scalar.sqrt a.xx
    let yx := a.yx / xx
    let zx := a.zx / xx
    let yPivot := -yx * yx + a.yy
    let zyRest := -yx * zx + a.zy
    if !(decide (0 < yPivot)) then none
    else
      let yy := Scalar.sqrt yPivot
      let zy := zyRest / yy
      let zPivot := -zy * zy + (-zx * zx + a.zz)
      if !(decide (0 < zPivot)) then none
      else some ⟨xx, yx, yy, zx, zy, Scalar.sqrt zPivot⟩

/-- The solution of `l * lᵀ * x = b`, by forward and then backward substitution. -/
@[specialize] def solve (l : LowerTriangle α) (b : Vec3 α) : Vec3 α :=
  let fx := b.x / l.xx
  let fy := (-fx * l.yx + b.y) / l.yy
  let fz := (-fy * l.zy + (-fx * l.zx + b.z)) / l.zz
  let z := (fz - 0) / l.zz
  let y := (fy - (0 + l.zy * z)) / l.yy
  let x := (fx - (0 + l.yx * y + l.zx * z)) / l.xx
  ⟨x, y, z⟩

end LowerTriangle

namespace PlaneFit

variable {α : Type} [Scalar α]

@[specialize] def centroid (planes : List (TangentPlane α)) : Point α :=
  Vec3.sum (planes.map TangentPlane.point) / (Scalar.ofNat planes.length : α)

/-- Left-hand side of the normal equations. -/
@[specialize] def matrix (planes : List (TangentPlane α)) (w : α) : LowerTriangle α :=
  planes.foldl (fun a t => a.addOuter t.normal) (.diagonal w)

/-- Right-hand side of the normal equations. -/
@[specialize] def moment (planes : List (TangentPlane α)) (c : Point α) : Vec3 α :=
  planes.foldl (fun b t => b + t.normal * t.normal.dot (t.point - c)) 0

/-- The offset from the centroid to the fitted point, zero when the equations have no usable
solution. -/
@[specialize] def offset (planes : List (TangentPlane α)) (w : α) : Vec3 α :=
  match (matrix planes w).cholesky? with
  | none => 0
  | some l =>
    let x := l.solve (moment planes (centroid planes))
    if x.isFinite then x else 0

@[specialize] def point (planes : List (TangentPlane α)) (w : α) : Point α :=
  centroid planes + offset planes w

end PlaneFit

/-- The point that fits a list of planes best, if there is a plane to fit. -/
@[specialize] def fitPlanes? {α : Type} [Scalar α] (planes : List (TangentPlane α)) (w : α) :
    Option (Point α) :=
  match planes with
  | [] => none
  | _ :: _ => some (PlaneFit.point planes w)

end SolidSurface
