import SolidSurface.Extraction.DualContour.Sweep
import SolidSurface.Extraction.Grid
import SolidSurface.Extraction.PlaneFit
import SolidSurface.Mesh.Basic
import SolidSurface.Solid.SurfaceEstimator

/-! # Dual contouring

Every cube that the surface passes through gets one vertex, fitted to the tangent planes at the
crossings on its edges, and every crossed edge becomes two triangles between the vertices of the
cubes around it.
-/

namespace SolidSurface

structure DualContourSettings (α : Type) where
  /-- Spacing of the samples. -/
  spacing : α
  /-- Size of the window of layers that is kept in memory; it has no bearing on the surface. -/
  memoryBudget : Nat
  /-- Weight that pulls a vertex to the centroid of the crossings around it. -/
  regularization : α
  /-- Whether a vertex is moved into its cube. -/
  clip : Bool
  /-- Threads that a caller may use; it has no bearing on the surface. -/
  threads : Nat
  estimator : EstimatorSettings α
  deriving DecidableEq, Repr

namespace DualContourSettings

variable {α : Type} [Scalar α]

def standard : DualContourSettings α :=
  ⟨Scalar.decimal 5 2, 64 * 1024 * 1024, Scalar.decimal 1 1, true, 0, .standard⟩

def withSpacing (spacing : α) : DualContourSettings α :=
  { (standard : DualContourSettings α) with spacing := spacing }

def coarse : DualContourSettings α :=
  { (standard : DualContourSettings α) with
    spacing := Scalar.decimal 1 1
    estimator := .coarse }

def fine : DualContourSettings α :=
  { (standard : DualContourSettings α) with
    spacing := Scalar.decimal 2 2
    memoryBudget := 256 * 1024 * 1024
    estimator := .fine }

def check (c : DualContourSettings α) : Except (ExtractionError α) Unit := do
  if !Scalar.isPositive c.spacing then
    throw (.invalidSpacing c.spacing)
  if !(Scalar.isFinite c.regularization && decide (0 ≤ c.regularization)) then
    throw (.invalidRegularization c.regularization)
  c.estimator.check.mapError .estimator

end DualContourSettings

namespace DualContour

/-- Memory taken by what is known of an edge. -/
def edgeBytes : Nat :=
  64

/-- Memory taken by one column of a layer: a corner, three edges and a cube. -/
def bytesPerColumn : Nat :=
  1 + 3 * edgeBytes + 32

/-- Number of rows of a window that fits into a memory budget. The memory of a layer is counted in
64 bits and wraps around. -/
def residentRows (n : Vec3 Nat) (memoryBudget : Nat) : Nat :=
  Window.grantedRows n.z (memoryBudget / max (n.x * n.y * bytesPerColumn % UInt64.size) 1)

/-- Whether there can be a layer: its largest vector is that of the edges along z. A number of
columns that does not fit into 64 bits is one that does not fit into memory. -/
def LayersFit (n : Vec3 Nat) : Prop :=
  VectorFits (n.x * n.y) edgeBytes

instance (n : Vec3 Nat) : Decidable (LayersFit n) :=
  inferInstanceAs (Decidable (VectorFits _ _))

def Fault.toError {α : Type} : Fault → ExtractionError α
  | .insideOnBorder => .insideOnBorder
  | .missingVertex c looked => .missingVertex c looked
  | .outOfRange access => .outOfRange access

variable {α : Type} [Scalar α]

/-- The cell of a grid whose least corner is sample `c`. -/
@[inline] def cell (g : Grid α) (c : LatticePoint) : Box α :=
  .spanning (g.position c) (g.position ⟨c.x + 1, c.y + 1, c.z + 1⟩)

/-- The questions of a sweep, answered by a solid on a grid. -/
@[specialize] def field (e : SurfaceEstimator α) (g : Grid α) (regularization : α) (clip : Bool) :
    LatticeField (TangentPlane α) (Point α) where
  dimensions := g.dimensions
  inside p := e.solid.contains (g.position p)
  crossing axis low lowInside :=
    let a := g.position low
    let b := g.position (stepForward low axis)
    let p := if lowInside then e.surfacePoint a b else e.surfacePoint b a
    ⟨p, e.normal p⟩
  vertex c first rest :=
    let v := PlaneFit.point (first :: rest) regularization
    if clip then (cell g c).clamp v else v

end DualContour

variable {α κ : Type} [Scalar α] [BEq κ] [Hashable κ]

/-- Extracts a surface with an estimator at hand; the estimator settings of the configuration are
checked and otherwise not used. -/
@[specialize] def dualContourUsing (e : SurfaceEstimator α) (c : DualContourSettings α) :
    Except (ExtractionError α) (Mesh α κ) := do
  c.check
  let g ← Grid.ofBounds e.solid.bounds c.spacing
  let rows := DualContour.residentRows g.dimensions c.memoryBudget
  if ¬DualContour.LayersFit g.dimensions then
    throw .capacityOverflow
  let facets ← (DualContour.sweep (DualContour.field e g c.regularization c.clip) rows).mapError
    DualContour.Fault.toError
  (Mesh.ofTriangles (facets.toList.map fun (a, b, c) => ⟨a, b, c⟩)).mapError .mesh

@[specialize] def dualContour (s : Solid α) (c : DualContourSettings α) :
    Except (ExtractionError α) (Mesh α κ) := do
  c.check
  let e ← (SurfaceEstimator.make s c.estimator).mapError .estimator
  dualContourUsing e c

end SolidSurface
