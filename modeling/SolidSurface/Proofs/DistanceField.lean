import SolidSurface.Proofs.Scalar.RealNumber
import SolidSurface.DistanceField
import SolidSurface.Proofs.Collider.Nearest
import SolidSurface.Proofs.Collider.RayHits

/-! # Exact distances

With exact roots the distance field of a mesh gives a point of the mesh than which none is nearer,
and the distance to it.
-/

namespace SolidSurface

variable {α : Type} [FieldScalar α]

theorem signed_mul_self (inside : Bool) (d : α) : signed inside d * signed inside d = d * d := by
  cases inside
  · exact neg_mul_neg d d
  · rfl

namespace TreeCollider

/-- From no candidate the search finds the closest point of some triangle. -/
theorem exists_nearest_eq {m : TreeCollider α} {p : Point α} (h : m.root.Enclosed)
    (hne : m.root.triangles ≠ [])
    (hin : ∀ t ∈ m.root.triangles, t.bounds.contains (t.closestPoint p) = true) :
    ∃ t ∈ m.root.triangles, m.root.nearest p ⟨p, .infinity⟩ = .ofTriangle p t ∧
      ∀ t' ∈ m.root.triangles, t.distanceSquared p ≤ t'.distanceSquared p := by
  have hbest := TriangleTree.nearest_isBest h hin ⟨p, .infinity⟩
  obtain ⟨t₀, ht₀⟩ := List.exists_mem_of_ne_nil _ hne
  rcases hbest.eq_or_mem with hstart | ⟨t, ht, hfound⟩
  · have hle := hbest.le_offer t₀ ht₀
    rw [hstart] at hle
    exact absurd hle (not_le.mpr (WithTop.coe_lt_top _))
  · refine ⟨t, ht, hfound, fun t' ht' => ?_⟩
    have hle := hbest.le_offer t' ht'
    rw [hfound] at hle
    exact WithTop.coe_le_coe.mp hle

/-- With exact roots, the distance of a point from triangles that have normals is the distance to a
point of one of them, and no point of any of them is nearer. -/
theorem pointDistance_exact {ts : List (Triangle α)} (hne : ts ≠ [])
    (hnormal : ∀ t ∈ ts, t.normal? ≠ none) (hmin : 0 ≤ (Scalar.minNormal : α))
    (hsqrt : ∀ x : α, 0 ≤ x → Scalar.sqrt x * Scalar.sqrt x = x) (p : Point α) :
    ∃ m, ofTriangles ts = .ok m ∧
      let (q, d) := m.pointDistance p
      (∃ t ∈ ts, t.HasPoint q) ∧ d * d = (q - p).normSquared ∧
        ∀ t ∈ ts, ∀ x, t.HasPoint x → (q - p).normSquared ≤ (x - p).normSquared := by
  obtain ⟨m, hm⟩ := Collider.exists_ofTriangles_eq_ok hne
  obtain ⟨henclosed, hperm⟩ := Collider.ofTriangles_spec hm
  have hnearest : ∀ t ∈ ts, t.IsNearest p (t.closestPoint p) := fun t ht =>
    Triangle.closestPoint_isNearest hmin (Triangle.normal?_ne_none_iff.mp (hnormal t ht)) p
  obtain ⟨t, ht, hfound, hleast⟩ := exists_nearest_eq (p := p) henclosed
    (fun hnil => hne (List.nil_perm.mp (hnil ▸ hperm)))
    fun t ht => (hnearest t (hperm.mem_iff.mp ht)).1.contains_bounds
  rw [hperm.mem_iff] at ht
  refine ⟨m, hm, ?_⟩
  simp only [pointDistance, hfound]
  refine ⟨⟨t, ht, (hnearest t ht).1⟩, ?_, fun t' ht' x hx => ?_⟩
  · rw [signed_mul_self]
    exact hsqrt _ (Vec3.normSquared_nonneg _)
  · calc (t.closestPoint p - p).normSquared
        ≤ (t'.closestPoint p - p).normSquared := hleast t' (hperm.mem_iff.mpr ht')
      _ ≤ (x - p).normSquared := (hnearest t' ht').2 x hx

/-- A unit square in two triangles, seen from above one corner. -/
theorem pointDistance_exact_square :
    let ts : List (Triangle RealNumber) :=
      [⟨⟨0, 0, 0⟩, ⟨1, 0, 0⟩, ⟨0, 1, 0⟩⟩, ⟨⟨1, 1, 0⟩, ⟨0, 1, 0⟩, ⟨1, 0, 0⟩⟩]
    let p : Point RealNumber := ⟨1, 1, 1⟩
    ∃ m, ofTriangles ts = .ok m ∧
      let (q, d) := m.pointDistance p
      (∃ t ∈ ts, t.HasPoint q) ∧ d * d = (q - p).normSquared ∧
        ∀ t ∈ ts, ∀ x, t.HasPoint x → (q - p).normSquared ≤ (x - p).normSquared := by
  refine pointDistance_exact (List.cons_ne_nil _ _) (fun t ht => ?_) RealNumber.minNormal_pos.le
    (fun _ => RealNumber.sqrt_mul_sqrt) _
  have hcross : t.cross.normSquared = 1 := by
    rw [List.mem_pair] at ht
    rcases ht with rfl | rfl <;> simp [Triangle.cross, Vec3.cross, Vec3.normSquared, Vec3.dot]
  rw [Triangle.normal?_ne_none_iff, hcross]
  exact RealNumber.minNormal_lt_one

end TreeCollider

end SolidSurface
