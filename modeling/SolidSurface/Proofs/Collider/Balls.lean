import SolidSurface.Proofs.Collider.RayHits
import SolidSurface.Proofs.DistanceField

/-! # Balls that reach a collider

No point of a box is nearer than the box, so a ball that misses the box of a subtree or of a join
misses every triangle below it, and leaving those out changes no answer.
-/

namespace SolidSurface

variable {α : Type} [FieldScalar α] {center : Point α} {radius : α}

/-! ## One triangle -/

namespace Triangle

variable {t : Triangle α}

theorem touchesBall_iff : t.touchesBall center radius = true ↔
    t.distanceSquared center ≤ radius * radius :=
  decide_eq_true_iff

/-- No triangle is nearer than a box around it. -/
theorem box_distanceSquared_le {b : Box α} (h : b.Covers t.bounds) (p : Point α) :
    b.distanceSquared p ≤ t.distanceSquared p :=
  Box.distanceSquared_le (h _ (t.closestPoint_hasPoint p).contains_bounds) p

/-- A ball reaches a triangle with a normal when it holds one of its points. -/
theorem touchesBall_iff_exists_hasPoint (hnearest : t.IsNearest center (t.closestPoint center)) :
    t.touchesBall center radius = true ↔
      ∃ x, t.HasPoint x ∧ (x - center).normSquared ≤ radius * radius := by
  rw [touchesBall_iff]
  constructor
  · intro h
    exact ⟨_, hnearest.1, h⟩
  · rintro ⟨x, hx, hle⟩
    exact (hnearest.2 x hx).trans hle

/-- A larger ball reaches no less. -/
theorem touchesBall_mono {radius' : α} (hr : 0 ≤ radius) (hle : radius ≤ radius')
    (h : t.touchesBall center radius = true) : t.touchesBall center radius' = true := by
  rw [touchesBall_iff] at h ⊢
  exact h.trans (mul_self_le_mul_self hr hle)

/-- A box around triangles that is out of reach may be passed over. -/
theorem box_and_exists_touchesBall_iff {b : Box α} {ts : List (Triangle α)}
    (h : ∀ t ∈ ts, b.Covers t.bounds) :
    (b.distanceSquared center ≤ radius * radius ∧ ∃ t ∈ ts, t.touchesBall center radius = true) ↔
      ∃ t ∈ ts, t.touchesBall center radius = true := by
  refine and_iff_right_of_imp ?_
  rintro ⟨t, ht, htouch⟩
  exact (box_distanceSquared_le (h t ht) center).trans (touchesBall_iff.mp htouch)

end Triangle

/-! ## Trees and joins -/

theorem TriangleTree.touchesBall_iff {tree : TriangleTree α} (h : tree.Enclosed) :
    tree.touchesBall center radius = true ↔
      ∃ t ∈ tree.triangles, t.touchesBall center radius = true := by
  induction h with
  | leaf t => simp only [touchesBall, triangles, List.mem_singleton, exists_eq_left]
  | @branch box l r hl hr hleft hright ihl ihr =>
      have hcovers := fun t => (Enclosed.branch hl hr hleft hright).covers_bounds (t := t)
      have hor : (l.touchesBall center radius || r.touchesBall center radius) = true ↔
          ∃ t ∈ (branch box l r).triangles, t.touchesBall center radius = true := by
        rw [Bool.or_eq_true, ihl, ihr]
        simp only [triangles, List.mem_append, or_and_right, exists_or]
      rw [touchesBall, Bool.and_eq_true, decide_eq_true_iff, hor]
      exact Triangle.box_and_exists_touchesBall_iff hcovers

namespace Collider

variable {c : Collider α} {ts : List (Triangle α)}

theorem touchesBall_iff (h : c.Enclosed) : c.touchesBall center radius = true ↔
    ∃ t ∈ c.triangles, t.touchesBall center radius = true := by
  induction h with
  | triangle t => simp only [touchesBall, triangles, List.mem_singleton, exists_eq_left]
  | tree hroot => exact TriangleTree.touchesBall_iff hroot
  | @joined box parts hbox hparts ih =>
      have hcovers := fun t => (Enclosed.joined hbox hparts).covers_bounds (t := t)
      have hany : anyTouchesBall center radius parts = true ↔
          ∃ t ∈ (joined box parts).triangles, t.touchesBall center radius = true := by
        rw [anyTouchesBall_eq_any, List.any_eq_true, triangles, trianglesAll_eq_flatMap]
        simp only [List.mem_flatMap]
        constructor
        · rintro ⟨d, hd, htouch⟩
          obtain ⟨t, ht, htouch⟩ := (ih d hd).mp htouch
          exact ⟨t, ⟨d, hd, ht⟩, htouch⟩
        · rintro ⟨t, ⟨d, hd, ht⟩, htouch⟩
          exact ⟨d, hd, (ih d hd).mpr ⟨t, ht, htouch⟩⟩
      rw [touchesBall, Bool.and_eq_true, decide_eq_true_iff, hany]
      exact Triangle.box_and_exists_touchesBall_iff hcovers

theorem BuiltFrom.touchesBall_iff (h : BuiltFrom c ts) : c.touchesBall center radius = true ↔
    ∃ t ∈ ts, t.touchesBall center radius = true := by
  obtain ⟨henclosed, hperm⟩ := h.spec
  rw [Collider.touchesBall_iff henclosed]
  simp only [hperm.mem_iff]

theorem exists_touchesBall_iff_exists_hasPoint (hmin : 0 ≤ (Scalar.minNormal : α))
    (hnormal : ∀ t ∈ ts, t.normal? ≠ none) :
    (∃ t ∈ ts, t.touchesBall center radius = true) ↔
      ∃ t ∈ ts, ∃ x, t.HasPoint x ∧ (x - center).normSquared ≤ radius * radius := by
  refine exists_congr fun t => and_congr_right fun ht => ?_
  have hnormal := Triangle.normal?_ne_none_iff.mp (hnormal t ht)
  exact Triangle.touchesBall_iff_exists_hasPoint
    (Triangle.closestPoint_isNearest hmin hnormal center)

/-- A ball reaches a collider exactly when it reaches a triangle that the collider was built from.
If these have normals, it does so when it holds one of their points, and a larger ball reaches no
less. -/
theorem touchesBall_builtFrom (hmin : 0 ≤ (Scalar.minNormal : α)) (h : BuiltFrom c ts)
    (center : Point α) (radius : α) :
    (c.touchesBall center radius = true ↔ ∃ t ∈ ts, t.touchesBall center radius = true) ∧
      (0 ≤ radius → (∀ t ∈ ts, t.normal? ≠ none) → (c.touchesBall center radius = true ↔
        ∃ t ∈ ts, ∃ x, t.HasPoint x ∧ (x - center).normSquared ≤ radius * radius)) ∧
      ∀ radius', 0 ≤ radius → radius ≤ radius' → c.touchesBall center radius = true →
        c.touchesBall center radius' = true := by
  refine ⟨h.touchesBall_iff, fun _ hnormal => ?_, fun radius' hr hle htouch => ?_⟩
  · rw [h.touchesBall_iff]
    exact exists_touchesBall_iff_exists_hasPoint hmin hnormal
  · obtain ⟨t, ht, htouch⟩ := h.touchesBall_iff.mp htouch
    exact h.touchesBall_iff.mpr ⟨t, ht, Triangle.touchesBall_mono hr hle htouch⟩

/-- Two triangles, one above the other. -/
def layers : List (Triangle Fraction) :=
  [⟨⟨0, 0, 0⟩, ⟨1, 0, 0⟩, ⟨0, 1, 0⟩⟩, ⟨⟨0, 0, 1⟩, ⟨1, 0, 1⟩, ⟨0, 1, 1⟩⟩]

/-- From above, the ball that only just reaches the upper layer, in a join that takes over the parts
of another. -/
theorem touchesBall_builtFrom_layers : ∃ c : Collider Fraction, BuiltFrom c layers ∧
    (∃ t ∈ layers, ∃ x, t.HasPoint x ∧ (x - ⟨1 / 4, 1 / 4, 3⟩).normSquared ≤ 2 * 2) ∧
    c.touchesBall ⟨1 / 4, 1 / 4, 3⟩ 5 = true ∧
    c.touchesBall ⟨1 / 4, 1 / 4, 3⟩ (199 / 100) = false := by
  have hne : layers.take 1 ≠ [] := List.cons_ne_nil _ _
  obtain ⟨m, hm⟩ := exists_ofTriangles_eq_ok hne
  let parts : List (Collider Fraction × List (Triangle Fraction)) :=
    [(tree m, layers.take 1), (triangle ⟨⟨0, 0, 1⟩, ⟨1, 0, 1⟩, ⟨0, 1, 1⟩⟩, layers.drop 1)]
  have hparts : ∀ p ∈ parts, BuiltFrom p.1 p.2 := by
    intro p hp
    rcases List.mem_cons.mp hp with rfl | hp
    · exact .mesh hm
    · rw [List.mem_singleton.mp hp]
      exact .triangle _
  have hinner : BuiltFrom (join (parts.map Prod.fst)) layers := .join hparts
  have hbuilt : BuiltFrom (join [join (parts.map Prod.fst)]) layers :=
    @BuiltFrom.join Fraction _ [(join (parts.map Prod.fst), layers)] fun p hp => by
      rwa [List.mem_singleton.mp hp]
  have hmin : (0 : Fraction) ≤ Scalar.minNormal := by decide +kernel
  have hnormal : ∀ t ∈ layers, t.normal? ≠ none := fun t ht =>
    Triangle.normal?_ne_none_iff.mpr (by revert t; decide +kernel)
  obtain ⟨hiff, hpoint, hmono⟩ := touchesBall_builtFrom hmin hbuilt ⟨1 / 4, 1 / 4, 3⟩ 2
  have htwo := hiff.mpr (List.any_eq_true.mp (by decide +kernel))
  refine ⟨_, hbuilt, (hpoint (by decide +kernel) hnormal).mp htwo,
    hmono 5 (by decide +kernel) (by decide +kernel) htwo, Bool.eq_false_iff.mpr fun hnear => ?_⟩
  have hnone : layers.any (·.touchesBall ⟨1 / 4, 1 / 4, 3⟩ (199 / 100)) = false := by
    decide +kernel
  have hany := (touchesBall_builtFrom hmin hbuilt ⟨1 / 4, 1 / 4, 3⟩ (199 / 100)).1.mp hnear
  rw [List.any_eq_true.mpr hany] at hnone
  cases hnone

end Collider

end SolidSurface
