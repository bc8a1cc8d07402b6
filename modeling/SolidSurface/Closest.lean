import SolidSurface.Triangle

/-! # The closest point of a triangle

The plane of a triangle falls into regions that are closest to a corner, to a side or to the face. A
point is tested for the corners and sides first; a triangle without area has nothing but those.
-/

namespace SolidSurface.Triangle

variable {α : Type} [Scalar α]

@[specialize] def closestPoint (t : Triangle α) (p : Point α) : Point α :=
  let ab := t.b - t.a
  let ac := t.c - t.a
  let ap := p - t.a
  let d₁ := ab.dot ap
  let d₂ := ac.dot ap
  if d₁ ≤ 0 ∧ d₂ ≤ 0 then t.a
  else
    let bp := p - t.b
    let d₃ := ab.dot bp
    let d₄ := ac.dot bp
    if 0 ≤ d₃ ∧ d₄ ≤ d₃ then t.b
    else
      let vc := d₁ * d₄ - d₃ * d₂
      if vc ≤ 0 ∧ 0 ≤ d₁ ∧ d₃ ≤ 0 then t.a + ab * (d₁ / (d₁ - d₃))
      else
        let cp := p - t.c
        let d₅ := ab.dot cp
        let d₆ := ac.dot cp
        if 0 ≤ d₆ ∧ d₅ ≤ d₆ then t.c
        else
          let vb := d₅ * d₂ - d₁ * d₆
          if vb ≤ 0 ∧ 0 ≤ d₂ ∧ d₆ ≤ 0 then t.a + ac * (d₂ / (d₂ - d₆))
          else
            let va := d₃ * d₆ - d₅ * d₄
            if va ≤ 0 ∧ 0 ≤ d₄ - d₃ ∧ 0 ≤ d₅ - d₆ then
              t.b + (t.c - t.b) * ((d₄ - d₃) / ((d₄ - d₃) + (d₅ - d₆)))
            else
              let weight := va + vb + vc
              if Scalar.abs weight ≤ Scalar.minNormal then t.a
              else t.a + ab * (vb / weight) + ac * (vc / weight)

/-- Squared distance from a point to a triangle. -/
@[inline] def distanceSquared (t : Triangle α) (p : Point α) : α :=
  (t.closestPoint p - p).normSquared

/-- Whether a ball reaches a triangle. -/
@[inline] def touchesBall (t : Triangle α) (center : Point α) (radius : α) : Bool :=
  decide (t.distanceSquared center ≤ radius * radius)

end SolidSurface.Triangle
