import SolidSurface.Extraction.DualContour.Window
import SolidSurface.Storage

/-! # Sweeping a lattice for crossed edges

Every lattice edge with one end inside and one outside becomes two triangles between the vertices of
the four cubes around it. The lattice is visited through a window of layers; whatever has been found
out about a corner, an edge or a cube is kept in its layer until the layer leaves the window. What
is kept is read by its number, and a number out of range is a fault.

Layer `k` holds the corners `(i, j, k)`, the edges that start at them along x, y and z, and the
cubes of which they are the least corners.
-/

namespace SolidSurface.DualContour

/-- What a sweep asks: whether a lattice point is inside, what is known of the crossing on an edge,
given by its axis, its lower end and whether that end is inside, and where the vertex of a cube
lies, given the crossings on its edges, of which there is at least one. -/
structure LatticeField (γ ν : Type) where
  dimensions : Vec3 Nat
  inside : LatticePoint → Bool
  crossing : Axis → LatticePoint → Bool → γ
  vertex : LatticePoint → γ → List γ → ν

inductive EdgeRecord (γ : Type) where
  | unknown
  | uncrossed
  | crossed (crossing : γ) (lowInside : Bool) (written : Bool)

def EdgeRecord.crossing? {γ : Type} : EdgeRecord γ → Option γ
  | crossed c _ _ => some c
  | _ => none

/-- What happens to an edge whose triangles have been written out. -/
def EdgeRecord.markWritten {γ : Type} : EdgeRecord γ → EdgeRecord γ
  | crossed c low _ => crossed c low true
  | e => e

inductive CubeRecord (ν : Type) where
  | unknown
  | empty
  | vertex (v : ν)

structure Layer (γ ν : Type) where
  corners : Array (Option Bool)
  xEdges : Array (EdgeRecord γ)
  yEdges : Array (EdgeRecord γ)
  zEdges : Array (EdgeRecord γ)
  cubes : Array (CubeRecord ν)

abbrev Slots (γ ν : Type) := Array (Layer γ ν)

/-- A triangle between three vertices. -/
abbrev Facet (ν : Type) := ν × ν × ν

inductive Fault where
  | insideOnBorder
  | missingVertex (cube : LatticePoint) (looked : Bool)
  | outOfRange (access : OutOfRange)
  deriving DecidableEq, Repr

namespace Layer

variable {γ ν : Type}

/-- A layer of which nothing is known. -/
def blank (n : Vec3 Nat) : Layer γ ν :=
  ⟨.replicate (n.x * n.y) none, .replicate ((n.x - 1) * n.y) .unknown,
    .replicate (n.x * (n.y - 1)) .unknown, .replicate (n.x * n.y) .unknown,
    .replicate ((n.x - 1) * (n.y - 1)) .unknown⟩

@[inline] def edges (l : Layer γ ν) : Axis → Array (EdgeRecord γ)
  | .x => l.xEdges
  | .y => l.yEdges
  | .z => l.zEdges

end Layer

/-- Number of edges along an axis in one row of a layer. -/
@[inline] def edgeWidth (n : Vec3 Nat) : Axis → Nat
  | .x => n.x - 1
  | .y => n.x
  | .z => n.x

/-- The lattice point with number `i` in layer `k`, when a row has `width` of them. -/
@[inline] def pointAt (width k i : Nat) : LatticePoint :=
  ⟨i % width, i / width, k⟩

def stepForward (p : LatticePoint) : Axis → LatticePoint
  | .x => { p with x := p.x + 1 }
  | .y => { p with y := p.y + 1 }
  | .z => { p with z := p.z + 1 }

def stepBack? (p : LatticePoint) : Axis → Option LatticePoint
  | .x => if p.x = 0 then none else some { p with x := p.x - 1 }
  | .y => if p.y = 0 then none else some { p with y := p.y - 1 }
  | .z => if p.z = 0 then none else some { p with z := p.z - 1 }

/-- The twelve edges of a cube, by axis and lower end. -/
def cubeEdges (c : LatticePoint) : List (Axis × LatticePoint) :=
  let x := stepForward c .x
  let y := stepForward c .y
  let z := stepForward c .z
  [(.x, c), (.x, y), (.x, z), (.x, stepForward y .z),
   (.y, c), (.y, x), (.y, z), (.y, stepForward x .z),
   (.z, c), (.z, x), (.z, y), (.z, stepForward x .y)]

/-- The four cubes around an edge, counter-clockwise seen against its direction; `none` stands for a
cube below the lattice. -/
def cubesAround (low : LatticePoint) : Axis → List (Option LatticePoint)
  | .x => [(stepBack? low .y).bind (stepBack? · .z), stepBack? low .z, some low, stepBack? low .y]
  | .y => [(stepBack? low .x).bind (stepBack? · .z), stepBack? low .x, some low, stepBack? low .z]
  | .z => [(stepBack? low .x).bind (stepBack? · .y), stepBack? low .y, some low, stepBack? low .x]

/-! ## Filling the window -/

section Fill

variable {γ ν : Type}

/-- Updates every slot that holds a resident layer. -/
@[inline] def updateResident (w : Window) (slots : Slots γ ν)
    (f : Nat → Layer γ ν → Layer γ ν) : Slots γ ν :=
  slots.mapIdx fun slot layer =>
    match w.layer? slot with
    | some k => f k layer
    | none => layer

/-- Finds out more about every resident layer, which takes reads of the others. -/
@[inline] def resolveResident (w : Window) (slots : Slots γ ν)
    (f : Nat → Layer γ ν → Except OutOfRange (Layer γ ν)) : Except OutOfRange (Slots γ ν) :=
  replaceEach slots fun slot layer =>
    match w.layer? slot with
    | some k => f k layer
    | none => .ok layer

@[specialize] def fillCorners (F : LatticeField γ ν) (w : Window) (slots : Slots γ ν) :
    Slots γ ν :=
  updateResident w slots fun k layer =>
    { layer with
      corners := layer.corners.mapIdx fun i c =>
        match c with
        | none => some (F.inside (pointAt F.dimensions.x k i))
        | some b => some b }

/-- Whether a resident corner on the border of the lattice is inside. -/
def leaks (n : Vec3 Nat) (w : Window) (slots : Slots γ ν) : Bool :=
  slots.zipIdx.any fun (layer, slot) =>
    match w.layer? slot with
    | some k => layer.corners.zipIdx.any fun (c, i) =>
        c == some true && (pointAt n.x k i).isBorder n
    | none => false

/-- Whether a resident corner is known to be inside. -/
@[inline] def cornerInside (n : Vec3 Nat) (w : Window) (slots : Slots γ ν) (p : LatticePoint) :
    Except OutOfRange Bool := do
  let layer ← readAt slots (w.slot p.z)
  let corner ← readAt layer.corners (p.x + n.x * p.y)
  return corner == some true

@[inline] def resolveEdge (F : LatticeField γ ν) (w : Window) (slots : Slots γ ν) (axis : Axis)
    (low : LatticePoint) : Except OutOfRange (EdgeRecord γ) := do
  let lowInside ← cornerInside F.dimensions w slots low
  let highInside ← cornerInside F.dimensions w slots (stepForward low axis)
  return if lowInside == highInside then .uncrossed
    else .crossed (F.crossing axis low lowInside) lowInside false

@[specialize] def resolveEdges (F : LatticeField γ ν) (w : Window) (slots : Slots γ ν)
    (axis : Axis) (k : Nat) (edges : Array (EdgeRecord γ)) :
    Except OutOfRange (Array (EdgeRecord γ)) :=
  replaceEach edges fun i e =>
    match e with
    | .unknown => resolveEdge F w slots axis (pointAt (edgeWidth F.dimensions axis) k i)
    | e => .ok e

/-- Looks at every edge with both ends in the window. -/
@[specialize] def fillEdges (F : LatticeField γ ν) (w : Window) (slots : Slots γ ν) :
    Except OutOfRange (Slots γ ν) :=
  resolveResident w slots fun k layer => do
    let xEdges ← resolveEdges F w slots .x k layer.xEdges
    let yEdges ← resolveEdges F w slots .y k layer.yEdges
    let zEdges ← (if k + 1 < w.stop then resolveEdges F w slots .z k layer.zEdges
      else .ok layer.zEdges)
    return { layer with xEdges, yEdges, zEdges }

/-- What is known of the crossing on a resident edge, if there is one. -/
@[inline] def crossingAt? (n : Vec3 Nat) (w : Window) (slots : Slots γ ν) (axis : Axis)
    (low : LatticePoint) : Except OutOfRange (Option γ) := do
  let layer ← readAt slots (w.slot low.z)
  let e ← readAt (layer.edges axis) (low.x + edgeWidth n axis * low.y)
  return e.crossing?

@[specialize] def resolveCube (F : LatticeField γ ν) (w : Window) (slots : Slots γ ν)
    (c : LatticePoint) : Except OutOfRange (CubeRecord ν) := do
  let crossings ← (cubeEdges c).mapM fun (axis, low) => crossingAt? F.dimensions w slots axis low
  return match crossings.filterMap id with
    | [] => .empty
    | first :: rest => .vertex (F.vertex c first rest)

/-- Looks at every cube with all its edges in the window. -/
@[specialize] def fillCubes (F : LatticeField γ ν) (w : Window) (slots : Slots γ ν) :
    Except OutOfRange (Slots γ ν) :=
  resolveResident w slots fun k layer =>
    if k + 1 < w.stop then do
      let cubes ← replaceEach layer.cubes fun i c =>
        match c with
        | .unknown => resolveCube F w slots (pointAt (F.dimensions.x - 1) k i)
        | c => .ok c
      return { layer with cubes }
    else .ok layer

end Fill

/-! ## Writing out triangles -/

section Emit

variable {γ ν : Type}

/-- The vertex of a cube around a crossed edge. -/
def cubeVertex (n : Vec3 Nat) (w : Window) (slots : Slots γ ν) :
    Option LatticePoint → Except Fault ν
  | none => .error .insideOnBorder
  | some c =>
    if c.x + 1 < n.x ∧ c.y + 1 < n.y then do
      let layer ← (readAt slots (w.slot c.z)).mapError .outOfRange
      let cube ← (readAt layer.cubes (c.x + (n.x - 1) * c.y)).mapError .outOfRange
      match cube with
      | .vertex v => .ok v
      | .empty => .error (.missingVertex c true)
      | .unknown => .error (.missingVertex c false)
    else .error .insideOnBorder

/-- The two triangles of a crossed edge, with their front on the outside. -/
def edgeFacets (n : Vec3 Nat) (w : Window) (slots : Slots γ ν) (axis : Axis) (low : LatticePoint)
    (lowInside : Bool) : Except Fault (List (Facet ν)) := do
  let ring ← (cubesAround low axis).mapM (cubeVertex n w slots)
  match if lowInside then ring else ring.reverse with
  | [a, b, c, d] => return [(a, b, c), (a, c, d)]
  | _ => return []

/-- Whether the cubes around the edges of layer `k` along an axis have been looked at. The cubes of
the last resident layer have not. -/
def ready (w : Window) (k : Nat) : Axis → Bool
  | .x | .y => w.start < k && k ≤ w.stop - 2
  | .z => k ≤ w.stop - 2

/-- The triangles of all edges along an axis in layer `k` that have not been written out yet. -/
def layerFacets (n : Vec3 Nat) (w : Window) (slots : Slots γ ν) (k : Nat) (axis : Axis) :
    Except Fault (List (List (Facet ν))) := do
  let layer ← (readAt slots (w.slot k)).mapError .outOfRange
  (layer.edges axis).toList.zipIdx.mapM fun (e, i) =>
    match e with
    | .crossed _ lowInside false =>
      edgeFacets n w slots axis (pointAt (edgeWidth n axis) k i) lowInside
    | _ => .ok []

/-- The triangles of every edge that is ready, layer by layer. -/
def windowFacets (n : Vec3 Nat) (w : Window) (slots : Slots γ ν) :
    Except Fault (List (Facet ν)) := do
  let found ← w.layers.mapM fun k =>
    Axis.all.mapM fun axis =>
      if ready w k axis then layerFacets n w slots k axis else .ok []
  return found.flatten.flatten.flatten

/-- Marks the edges that have been written out. -/
def markWindowWritten (w : Window) (slots : Slots γ ν) : Slots γ ν :=
  updateResident w slots fun k layer =>
    { layer with
      xEdges := if ready w k .x then layer.xEdges.map EdgeRecord.markWritten else layer.xEdges
      yEdges := if ready w k .y then layer.yEdges.map EdgeRecord.markWritten else layer.yEdges
      zEdges := if ready w k .z then layer.zEdges.map EdgeRecord.markWritten else layer.zEdges }

end Emit

/-! ## The sweep -/

section Sweep

variable {γ ν : Type}

/-- Finds out all that can be found out in one window. -/
@[specialize] def fillWindow (F : LatticeField γ ν) (w : Window) (slots : Slots γ ν) :
    Except Fault (Slots γ ν) := do
  let slots := fillCorners F w slots
  if leaks F.dimensions w slots then
    throw .insideOnBorder
  let slots ← (fillEdges F w slots).mapError .outOfRange
  (fillCubes F w slots).mapError .outOfRange

/-- Empties the slots of the layers that enter with a shift. -/
def recycle (n : Vec3 Nat) (w : Window) (slots : Slots γ ν) : Except OutOfRange (Slots γ ν) :=
  (w.entering n.z).foldlM (fun slots k => writeAt slots ((w.shift n.z).slot k) (.blank n)) slots

/-- Sweeps on from a window, adding to the triangles written out so far. -/
@[specialize] def sweepFrom (F : LatticeField γ ν) (w : Window) (hw : w.Advances F.dimensions.z)
    (slots : Slots γ ν) (written : Array (Facet ν)) : Except Fault (Array (Facet ν)) :=
  match fillWindow F w slots with
  | .error fault => .error fault
  | .ok slots =>
    match windowFacets F.dimensions w slots with
    | .error fault => .error fault
    | .ok facets =>
      let written := written ++ facets
      if h : w.stop < F.dimensions.z then
        match recycle F.dimensions w (markWindowWritten w slots) with
        | .error access => .error (.outOfRange access)
        | .ok slots => sweepFrom F (w.shift F.dimensions.z) (hw.shift h) slots written
      else .ok written
termination_by F.dimensions.z - w.stop
decreasing_by
  have := Window.stop_lt_stop_shift hw h
  omega

/-- All triangles of a lattice, in a window of the requested number of rows. -/
@[specialize] def sweep (F : LatticeField γ ν) (rows : Nat) : Except Fault (Array (Facet ν)) :=
  let rows := Window.grantedRows F.dimensions.z rows
  sweepFrom F (.first rows) (Window.first_advances _ _) (.replicate rows (.blank F.dimensions)) #[]

end Sweep

end SolidSurface.DualContour
