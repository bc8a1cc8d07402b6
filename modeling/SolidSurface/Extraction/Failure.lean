import SolidSurface.Extraction.Lattice
import SolidSurface.Mesh.Basic
import SolidSurface.Solid.Basic

/-! # Failures of surface extraction

Settings and bounds are refused before anything is sampled. All other failures end an extraction
that is under way.
-/

namespace SolidSurface

inductive ExtractionError (α : Type) where
  | invalidSpacing (spacing : α)
  | invalidBounds (bounds : Box α)
  | invalidRegularization (weight : α)
  | estimator (cause : ConstructionError α)
  /-- The solid contains a sample on the border of the grid, which lies outside its bounds. -/
  | insideOnBorder
  /-- A cube around a crossed edge has no vertex, be it that nobody has looked or that there is
  none. -/
  | missingVertex (cube : LatticePoint) (looked : Bool)
  | mesh (cause : MeshError)
  /-- A vector for what is known of a layer does not fit into memory. -/
  | capacityOverflow
  /-- The samples of a layer never arrived. -/
  | samplerStopped (layer : Nat)
  | outOfRange (access : OutOfRange)
  deriving DecidableEq, Repr

def ExtractionError.message : ExtractionError Float → String
  | invalidSpacing d => "invalid grid spacing: " ++ Binary64.text d
  | invalidBounds b =>
    "invalid solid bounds: min " ++ Binary64.pointText b.lower ++
      ", max " ++ Binary64.pointText b.upper
  | invalidRegularization w =>
    "invalid configuration: regularization must be non-negative, got " ++ Binary64.text w
  | estimator cause => "surface estimator: " ++ cause.message
  | insideOnBorder => "solid is true outside of bounds"
  | missingVertex c looked =>
    "cube (" ++ toString c.x ++ ", " ++ toString c.y ++ ", " ++ toString c.z ++
      ") around an active edge is " ++ if looked then "Empty" else "Unset"
  | mesh cause => cause.message
  | capacityOverflow => capacityMessage
  | samplerStopped z => "grid sampling worker stopped before slice " ++ toString z
  | outOfRange access => access.message

end SolidSurface
