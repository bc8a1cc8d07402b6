import SolidSurface.Proofs.BallSearch
import SolidSurface.Proofs.BoxParity
import SolidSurface.Proofs.DistanceField

/-! # What a box is found to enclose

The skew direction rises along every axis. Counted along it, the crossings of the surface of a box
tell the inside from the outside for all points off the surface, except for those from which the ray
passes through the box and is, ahead, on the sides of triangles exactly once: a crossing on a side
counts twice, or as often as triangles meet there.
-/

namespace SolidSurface

variable {α : Type} [FieldScalar α]

/-! ## The ray in units of the box -/

namespace Box

/-- Whether a point is strictly inside. -/
def Surrounds (b : Box α) (p : Point α) : Prop :=
  ∀ i, b.lower.get i < p.get i ∧ p.get i < b.upper.get i

variable {b : Box α} {p : Point α}

theorem isThick_spanning {q : Point α} (hpq : ∀ i, p.get i ≠ q.get i) : (spanning p q).IsThick := by
  intro i
  rw [spanning, Vec3.get_inf, Vec3.get_sup]
  exact min_lt_max.mpr (hpq i)

theorem fraction_compare (hb : b.IsThick) (p : Point α) (i : Axis) :
    (0 ≤ b.fraction p i ↔ b.lower.get i ≤ p.get i) ∧
      (0 < b.fraction p i ↔ b.lower.get i < p.get i) ∧
      (b.fraction p i ≤ 1 ↔ p.get i ≤ b.upper.get i) ∧
      (b.fraction p i < 1 ↔ p.get i < b.upper.get i) := by
  have hsize : 0 < b.upper.get i - b.lower.get i := sub_pos.mpr (hb i)
  rw [fraction, le_div_iff₀ hsize, lt_div_iff₀ hsize, div_le_one hsize, div_lt_one hsize, zero_mul,
    sub_nonneg, sub_pos, sub_le_sub_iff_right, sub_lt_sub_iff_right]
  exact ⟨.rfl, .rfl, .rfl, .rfl⟩

/-- No point strictly inside is on the surface. -/
theorem Surrounds.not_holds (hb : b.IsThick) (hp : b.Surrounds p) (h : HalfFace) :
    ¬h.Holds (b.fraction p) := by
  intro hholds
  obtain ⟨-, hpos, -, hlt⟩ := fraction_compare hb p h.normal
  have hnormal := hholds.normal
  split at hnormal
  · exact (hlt.mpr (hp _).2).ne hnormal
  · exact (hpos.mpr (hp _).1).ne' hnormal

end Box

namespace Ray

theorem point_zero (r : Ray α) : r.point 0 = r.origin :=
  Vec3.ext_get fun i => by rw [get_point, mul_zero, add_zero]

/-- A ray that rises along every axis enters and leaves a box at the greatest of the three entries
and the least of the three exits. -/
theorem exists_passage (r : Ray α) {b : Box α} (hb : b.IsThick) (hr : ∀ i, 0 < r.direction.get i) :
    ∃ enter leave, Passage (fun s => b.fraction (r.point s)) enter leave := by
  have hentry : ∀ s i, (0 ≤ b.fraction (r.point s) i ↔
        (b.lower.get i - r.origin.get i) / r.direction.get i ≤ s) ∧
      (0 < b.fraction (r.point s) i ↔
        (b.lower.get i - r.origin.get i) / r.direction.get i < s) := by
    intro s i
    obtain ⟨hnonneg, hpos, -, -⟩ := Box.fraction_compare hb (r.point s) i
    rw [hnonneg, hpos, div_le_iff₀' (hr i), div_lt_iff₀' (hr i), get_point, sub_le_iff_le_add',
      sub_lt_iff_lt_add']
    exact ⟨.rfl, .rfl⟩
  have hexit : ∀ s i, (b.fraction (r.point s) i ≤ 1 ↔
        s ≤ (b.upper.get i - r.origin.get i) / r.direction.get i) ∧
      (b.fraction (r.point s) i < 1 ↔
        s < (b.upper.get i - r.origin.get i) / r.direction.get i) := by
    intro s i
    obtain ⟨-, -, hle, hlt⟩ := Box.fraction_compare hb (r.point s) i
    rw [hle, hlt, le_div_iff₀' (hr i), lt_div_iff₀' (hr i), get_point, le_sub_iff_add_le',
      lt_sub_iff_add_lt']
    exact ⟨.rfl, .rfl⟩
  have hforall := fun P : Axis → Prop =>
    AxisOrder.forall_axis (P := P) (o := ⟨.x, .y, .z⟩) (by decide)
  let entry i := (b.lower.get i - r.origin.get i) / r.direction.get i
  let exit i := (b.upper.get i - r.origin.get i) / r.direction.get i
  refine ⟨max (entry .x) (max (entry .y) (entry .z)), min (exit .x) (min (exit .y) (exit .z)),
    fun s => ?_, fun s => ?_, fun s => ?_, fun s => ?_⟩
  · simp only [hentry, hforall, max_le_iff, entry]
  · simp only [hentry, hforall, max_lt_iff, entry]
  · simp only [hexit, hforall, le_min_iff, exit]
  · simp only [hexit, hforall, lt_min_iff, exit]

end Ray

/-! ## The skew direction -/

/-- The skew direction before it is scaled to a unit. -/
def skewVector : Vec3 α :=
  ⟨Scalar.decimal 314159265 9, Scalar.decimal 577215665 9, Scalar.decimal 754877666 9⟩

theorem skewDirection_eq : (Collider.skewDirection : Vec3 α) = skewVector.normalize :=
  rfl

theorem skewVector_ge (i : Axis) : 303 / 1000 ≤ (skewVector : Vec3 α).get i := by
  cases i <;> norm_num [Vec3.get, skewVector, FieldScalar.decimal_eq]

theorem normSquared_skewVector :
    0 < (skewVector : Vec3 α).normSquared ∧
      (skewVector : Vec3 α).normSquared ≤ 101 / 100 * (101 / 100) := by
  constructor <;>
  · simp only [Vec3.normSquared, Vec3.dot, skewVector, FieldScalar.decimal_eq]
    norm_num

section Skew

variable (hsqrt : ∀ x : α, 0 ≤ x → 0 ≤ Scalar.sqrt x ∧ Scalar.sqrt x * Scalar.sqrt x = x)

include hsqrt

theorem norm_skewVector :
    0 < (skewVector : Vec3 α).norm ∧ (skewVector : Vec3 α).norm ≤ 101 / 100 := by
  obtain ⟨hpos, hle⟩ := normSquared_skewVector (α := α)
  obtain ⟨hnonneg, hroot⟩ := hsqrt _ hpos.le
  refine ⟨lt_of_le_of_ne hnonneg fun hzero => ?_, ?_⟩
  · have hroot : (skewVector : Vec3 α).norm * (skewVector : Vec3 α).norm =
        (skewVector : Vec3 α).normSquared := hroot
    rw [← hzero, mul_zero] at hroot
    exact hpos.ne hroot
  · exact (sqrt_le_iff hsqrt hpos.le (by norm_num)).mpr hle

theorem skewDirection_ge (i : Axis) : 3 / 10 ≤ (Collider.skewDirection : Vec3 α).get i := by
  obtain ⟨hpos, hle⟩ := norm_skewVector hsqrt
  rw [skewDirection_eq, Vec3.normalize, Vec3.get_quotient, le_div_iff₀ hpos]
  linarith [skewVector_ge (α := α) i]

theorem skewDirection_pos (i : Axis) : 0 < (Collider.skewDirection : Vec3 α).get i := by
  linarith [skewDirection_ge hsqrt i]

theorem point_skewDirection (x : Point α) (c : α) :
    (⟨x, Collider.skewDirection⟩ : Ray α).point (c * (skewVector : Vec3 α).norm) =
      x + (skewVector : Vec3 α) * c := by
  have hne := (norm_skewVector hsqrt).1.ne'
  refine Vec3.ext_get fun i => ?_
  rw [Ray.get_point, skewDirection_eq, Vec3.normalize, Vec3.get_quotient, Vec3.get_add,
    Vec3.get_scale]
  field_simp

theorem norm_skewDirection_le : (Collider.skewDirection : Vec3 α).norm ≤ 1 := by
  obtain ⟨hpos, -⟩ := normSquared_skewVector (α := α)
  obtain ⟨hnorm, -⟩ := norm_skewVector hsqrt
  have hunit : (skewVector : Vec3 α).normalize.normSquared = 1 := by
    calc (skewVector : Vec3 α).normalize.normSquared
        = (skewVector : Vec3 α).normSquared /
            ((skewVector : Vec3 α).norm * (skewVector : Vec3 α).norm) := by
          simp only [Vec3.normalize, Vec3.normSquared, Vec3.dot, Vec3.x_quotient, Vec3.y_quotient,
            Vec3.z_quotient]
          field_simp
          ring
      _ = 1 := by rw [Vec3.norm, (hsqrt _ hpos.le).2, div_self hpos.ne']
  rw [skewDirection_eq, Vec3.norm, hunit]
  exact (sqrt_le_iff hsqrt zero_le_one zero_le_one).mpr (one_mul _).ge

/-- Rays in the skew direction pass over no triangle of a box whose sides are not too unlike and
whose faces are not too small. -/
theorem discerns_ofBox {κ : Type} [BEq κ] [Hashable κ] {p q : Point α}
    (hpq : ∀ i, p.get i ≠ q.get i)
    (hshape : ∀ i j, (Box.spanning p q).size.get i ≤ 10 ^ 11 * (Box.spanning p q).size.get j)
    (harea : ∀ i j, i ≠ j → Scalar.minNormal <
      ((Box.spanning p q).size.get i * (Box.spanning p q).size.get j) *
        ((Box.spanning p q).size.get i * (Box.spanning p q).size.get j)) :
    ∀ t ∈ (Mesh.ofBox p q : Mesh α κ).triangles, Ray.Discerns Collider.skewDirection t := by
  rw [Mesh.forall_triangles_ofBox fun t => Ray.discerns_turned]
  intro h hh
  have hnorm := norm_skewDirection_le hsqrt
  have hskew := skewDirection_ge hsqrt
  have hsize := fun i => Box.get_size (.spanning p q) i ▸ sub_pos.mpr (Box.isThick_spanning hpq i)
  generalize Box.spanning p q = b at *
  have hl := hsize h.lesser
  have hg := hsize h.greater
  obtain ⟨⟨h₁, h₂, h₃⟩, h₄, h₅, h₆⟩ := HalfFace.get_sides hh b
  have hside : ((h.triangle b).b - (h.triangle b).a).norm ≤ b.size.get h.greater := by
    refine (sqrt_le_iff hsqrt (Vec3.normSquared_nonneg _) hg.le).mpr ?_
    rw [Vec3.normSquared, HalfFace.dot_eq hh, h₁, h₂, h₃]
    linarith
  have hdiagonal : ((h.triangle b).c - (h.triangle b).a).norm ≤
      b.size.get h.lesser + b.size.get h.greater := by
    refine (sqrt_le_iff hsqrt (Vec3.normSquared_nonneg _) (by linarith)).mpr ?_
    rw [Vec3.normSquared, HalfFace.dot_eq hh, h₄, h₅, h₆]
    linarith [mul_pos hl hg]
  have hnonneg := fun v : Vec3 α => (hsqrt _ v.normSquared_nonneg).1
  have htolerance : (Ray.parallelTolerance : α) = 1 / 10 ^ 12 := by
    rw [Ray.parallelTolerance, FieldScalar.decimal_eq, Nat.cast_one]
  refine ⟨?_, ?_⟩
  · rw [Triangle.normal?_ne_none_iff, HalfFace.normSquared_cross hh]
    exact harea _ _ (HalfFace.distinct hh).2.2
  · rw [HalfFace.abs_slant hh, abs_of_pos (mul_pos (by linarith [hskew h.normal]) (mul_pos hl hg)),
      htolerance]
    calc 1 / 10 ^ 12 * ((h.triangle b).b - (h.triangle b).a).norm *
          ((h.triangle b).c - (h.triangle b).a).norm * (Collider.skewDirection : Vec3 α).norm
        ≤ 1 / 10 ^ 12 * b.size.get h.greater * (b.size.get h.lesser + 10 ^ 11 * b.size.get h.lesser)
            * 1 := by
          gcongr
          · exact hnonneg _
          · exact hnonneg _
          · exact hdiagonal.trans (by linarith [hshape h.greater h.lesser])
      _ ≤ 3 / 10 * (b.size.get h.lesser * b.size.get h.greater) := by
          linarith [mul_pos hl hg]
      _ ≤ (Collider.skewDirection : Vec3 α).get h.normal *
            (b.size.get h.lesser * b.size.get h.greater) :=
          mul_le_mul_of_nonneg_right (hskew _) (mul_pos hl hg).le

/-- Off the surface a signed distance is positive exactly for the points that are enclosed. -/
theorem TreeCollider.signedDistance_pos_iff {ts : List (Triangle α)} {m : TreeCollider α}
    (hm : ofTriangles ts = .ok m) (hne : ts ≠ []) {x : Point α}
    (hx : ∀ t ∈ ts, ¬t.HasPoint x) :
    0 < m.signedDistance x ↔ (Collider.tree m).encloses x = true := by
  obtain ⟨henclosed, hperm⟩ := Collider.ofTriangles_spec hm
  obtain ⟨t, ht, hfound, -⟩ := exists_nearest_eq (p := x) henclosed
    (fun hnil => hne (List.nil_perm.mp (hnil ▸ hperm)))
    fun t _ => (t.closestPoint_hasPoint x).contains_bounds
  have hsquare : 0 ≤ t.distanceSquared x := Vec3.normSquared_nonneg _
  have hpos : 0 < Scalar.sqrt (t.distanceSquared x) := by
    rw [← not_le, sqrt_le_iff hsqrt hsquare le_rfl, mul_zero]
    intro hle
    refine hx t (hperm.mem_iff.mp ht) ?_
    rw [← Vec3.eq_of_normSquared_sub_le hle]
    exact t.closestPoint_hasPoint x
  rw [signedDistance, pointDistance, hfound]
  change 0 < signed _ (Scalar.sqrt (t.distanceSquared x)) ↔ _
  cases (Collider.tree m).encloses x
  · simp [signed, hpos.le]
  · simp [signed, hpos]

end Skew

/-! ## Crossings of a box -/

section Crossings

variable {κ : Type} [BEq κ] [Hashable κ] {p q x : Point α}

theorem Mesh.exists_onSide_ofBox (hpq : ∀ i, p.get i ≠ q.get i) :
    (∃ t ∈ (ofBox p q : Mesh α κ).triangles, t.OnSide x) ↔
      ∃ h ∈ HalfFace.all, h.OnRim ((Box.spanning p q).fraction x) := by
  rw [exists_triangles_ofBox fun t => Triangle.onSide_turned]
  exact exists_congr fun h => and_congr_right fun hh =>
    HalfFace.onSide_triangle hh (Box.isThick_spanning hpq)

/-- The crossings of a mesh are those of its triangles. -/
theorem Collider.countHits_tree {ts : List (Triangle α)} {m : TreeCollider α}
    (hm : TreeCollider.ofTriangles ts = .ok m) (r : Ray α) :
    (tree m).countHits r = ts.countP fun t => (r.strike? t).isSome := by
  obtain ⟨henclosed, hperm⟩ := ofTriangles_spec hm
  rw [countHits_eq, rayHits_eq r (.tree henclosed), List.length_filterMap_eq_countP]
  exact hperm.countP_eq _

namespace HalfFace

variable {r : Ray α} {b : Box α} {h : HalfFace}

theorem slant_ne_zero (hh : h ∈ all) (hb : b.IsThick) {d : Vec3 α} (hd : ∀ i, 0 < d.get i) :
    Ray.slant d (h.triangle b) ≠ 0 := by
  have hsize := fun i => Box.get_size b i ▸ sub_pos.mpr (hb i)
  rw [← abs_pos, abs_slant hh]
  exact abs_pos.mpr (mul_pos (hd _) (mul_pos (hsize _) (hsize _))).ne'

/-- A half that is not passed over is struck where the ray reaches its fractional coordinates. -/
theorem isSome_strike?_iff (hh : h ∈ all) (hb : b.IsThick) (hr : ∀ i, 0 < r.direction.get i)
    (hseen : Ray.Discerns r.direction (h.triangle b)) :
    (r.strike? (h.triangle b)).isSome = true ↔
      ∃ s, 0 < s ∧ h.Holds (b.fraction (r.point s)) := by
  rw [Ray.isSome_strike?_iff hseen (slant_ne_zero hh hb hr)]
  simp only [hasPoint_triangle hh hb]

end HalfFace

theorem Ray.surrounds_point_iff {r : Ray α} {b : Box α} (hb : b.IsThick) {enter leave s : α}
    (hpass : Passage (fun s => b.fraction (r.point s)) enter leave) :
    b.Surrounds (r.point s) ↔ enter < s ∧ s < leave := by
  rw [← hpass.pos_iff, ← hpass.lt_one_iff, ← forall_and]
  refine forall_congr' fun i => ?_
  rw [(Box.fraction_compare hb _ i).2.1, (Box.fraction_compare hb _ i).2.2.2]

/-- From a point inside, the ray is ahead on sides of triangles at one position at most. -/
theorem Mesh.existsUnique_onSide_ofBox (hpq : ∀ i, p.get i ≠ q.get i) {r : Ray α}
    (hr : ∀ i, 0 < r.direction.get i) (hx : (Box.spanning p q).Surrounds r.origin) {s : α}
    (hs : 0 < s) (hside : ∃ t ∈ (ofBox p q : Mesh α κ).triangles, t.OnSide (r.point s)) :
    ∃! s, 0 < s ∧ ∃ t ∈ (ofBox p q : Mesh α κ).triangles, t.OnSide (r.point s) := by
  have hb := Box.isThick_spanning hpq
  obtain ⟨enter, leave, hpass⟩ := r.exists_passage hb hr
  rw [← r.point_zero, Ray.surrounds_point_iff hb hpass] at hx
  have hleave : ∀ s, 0 < s → (∃ t ∈ (ofBox p q : Mesh α κ).triangles, t.OnSide (r.point s)) →
      s = leave := by
    intro s hs hside
    obtain ⟨h, hh, hholds, -⟩ := (exists_onSide_ofBox hpq).mp hside
    rcases (hpass.exists_holds_iff.mp ⟨h, hh, hholds⟩).1 with henter | hleave
    · exact absurd (hs.trans_eq henter) hx.1.not_gt
    · exact hleave
  refine ⟨s, ⟨hs, hside⟩, fun s' ⟨hs', hside'⟩ => ?_⟩
  rw [hleave s hs hside, hleave s' hs' hside']

/-- The surface of a box makes a mesh, whose signed distances off the surface are positive for the
points that the mesh is found to enclose. If no triangle is passed over, these are the points inside
the box, unless the ray along which crossings are counted passes through the box and is ahead on
sides of triangles at exactly one position. Then the answer is wrong, inside as well as outside. -/
theorem Collider.encloses_ofBox (hpq : ∀ i, p.get i ≠ q.get i)
    (hsqrt : ∀ x : α, 0 ≤ x → 0 ≤ Scalar.sqrt x ∧ Scalar.sqrt x * Scalar.sqrt x = x)
    (hseen : ∀ t ∈ (Mesh.ofBox p q : Mesh α κ).triangles, Ray.Discerns skewDirection t)
    (hx : ∀ t ∈ (Mesh.ofBox p q : Mesh α κ).triangles, ¬t.HasPoint x) :
    ∃ m, TreeCollider.ofTriangles (Mesh.ofBox p q : Mesh α κ).triangles = .ok m ∧
      let b := Box.spanning p q
      let r : Ray α := ⟨x, skewDirection⟩
      (0 < m.signedDistance x ↔ (tree m).encloses x = true) ∧
      (((tree m).encloses x = true ↔ b.Surrounds x) ↔
        ¬((∃ s, 0 < s ∧ b.Surrounds (r.point s)) ∧
          ∃! s, 0 < s ∧
            ∃ t ∈ (Mesh.ofBox p q : Mesh α κ).triangles, t.OnSide (r.point s))) := by
  have hne : (Mesh.ofBox p q : Mesh α κ).triangles ≠ [] := by
    rw [Mesh.triangles_ofBox]
    exact List.cons_ne_nil _ _
  obtain ⟨m, hm⟩ := exists_ofTriangles_eq_ok hne
  refine ⟨m, hm, ?_⟩
  intro b r
  refine ⟨TreeCollider.signedDistance_pos_iff hsqrt hm hne hx, ?_⟩
  have hb : b.IsThick := Box.isThick_spanning hpq
  have hrise : ∀ i, 0 < r.direction.get i := skewDirection_pos hsqrt
  have hstart : r.point 0 = x := r.point_zero
  obtain ⟨enter, leave, hpass⟩ := r.exists_passage hb hrise
  rw [Mesh.forall_triangles_ofBox fun t => Ray.discerns_turned] at hseen
  rw [Mesh.forall_triangles_ofBox fun t => not_congr Triangle.hasPoint_turned] at hx
  have hcount : (tree m).encloses x = true ↔
      HalfFace.all.countP (fun h => (r.strike? (h.triangle b)).isSome) % 2 = 1 := by
    rw [encloses, beq_iff_eq, countHits_tree hm, Mesh.countP_triangles_ofBox fun h hh =>
      Ray.isSome_strike?_turned (hseen h hh) (HalfFace.slant_ne_zero hh hb hrise)]
  have hcrossed := fun h hh => HalfFace.isSome_strike?_iff (r := r) hh hb hrise (hseen h hh)
  have hoff : ∀ h ∈ HalfFace.all, ¬h.Holds (b.fraction (r.point 0)) := by
    intro h hh
    rw [hstart, ← HalfFace.hasPoint_triangle hh hb]
    exact hx h hh
  have hinside : b.Surrounds x ↔ enter < 0 ∧ 0 < leave := by
    rw [← hstart, Ray.surrounds_point_iff hb hpass]
  simp only [hcount, hinside, Mesh.exists_onSide_ofBox hpq, Ray.surrounds_point_iff hb hpass]
  exact hpass.odd_crossed_iff hoff hcrossed

/-- A point inside a cube from which the ray leaves through a diagonal. -/
theorem Collider.encloses_ofBox_diagonal :
    let p : Point RealNumber := ⟨-1, -1, -1⟩
    let q : Point RealNumber := ⟨1, 1, 1⟩
    let x : Point RealNumber := ⟨3 / 4, 3 / 4, 1⟩ - skewVector
    ∃ m, TreeCollider.ofTriangles (Mesh.ofBox p q : Mesh RealNumber Unit).triangles = .ok m ∧
      (Box.spanning p q).Surrounds x ∧ ¬0 < m.signedDistance x := by
  intro p q x
  have hsqrt : ∀ x : RealNumber, 0 ≤ x →
      0 ≤ Scalar.sqrt x ∧ Scalar.sqrt x * Scalar.sqrt x = x :=
    fun _ hx => ⟨RealNumber.sqrt_nonneg _, RealNumber.sqrt_mul_sqrt hx⟩
  have hcube : Box.spanning p q = ⟨⟨-1, -1, -1⟩, ⟨1, 1, 1⟩⟩ := by
    norm_num [Box.spanning, Vec3.inf, Vec3.sup, Vec3.zipWith, Vec3.lesser, Vec3.greater, p, q]
  have hpq : ∀ i, p.get i ≠ q.get i := fun i => by cases i <;> norm_num [p, q, Vec3.get]
  have hsize : ∀ i, (Box.spanning p q).size.get i = 2 := fun i => by
    rw [hcube]
    cases i <;> norm_num [Box.size, Vec3.get]
  have hseen := discerns_ofBox (κ := Unit) hsqrt hpq
    (fun i j => by rw [hsize, hsize]; norm_num)
    fun i j _ => by rw [hsize, hsize]; exact RealNumber.minNormal_lt_one.trans (by norm_num)
  have hinside : ∀ c : RealNumber, 0 ≤ c → c < 1 →
      (Box.spanning p q).Surrounds (x + (skewVector : Vec3 RealNumber) * c) := by
    intro c hc₀ hc₁ i
    rw [hcube]
    cases i <;> norm_num [x, Vec3.get, skewVector, FieldScalar.decimal_eq] <;>
      constructor <;> linarith
  have hx : (Box.spanning p q).Surrounds x := by
    have hstay := hinside 0 le_rfl zero_lt_one
    rwa [← point_skewDirection hsqrt, zero_mul, Ray.point_zero] at hstay
  have hoff : ∀ t ∈ (Mesh.ofBox p q : Mesh RealNumber Unit).triangles, ¬t.HasPoint x := by
    rw [Mesh.forall_triangles_ofBox fun t => not_congr Triangle.hasPoint_turned]
    have hb := Box.isThick_spanning hpq
    exact fun h hh => (HalfFace.hasPoint_triangle hh hb).not.mpr (hx.not_holds hb h)
  obtain ⟨m, hm, hpos, hsign⟩ := Collider.encloses_ofBox hpq hsqrt hseen hoff
  refine ⟨m, hm, hx, fun hwrong => ?_⟩
  have hunit := (norm_skewVector hsqrt).1
  have hdiagonal : ∃ t ∈ (Mesh.ofBox p q : Mesh RealNumber Unit).triangles,
      t.OnSide ((⟨x, skewDirection⟩ : Ray RealNumber).point
        (1 * (skewVector : Vec3 RealNumber).norm)) := by
    rw [Mesh.exists_onSide_ofBox hpq, point_skewDirection hsqrt, hcube]
    refine ⟨⟨true, .z, .x, .y⟩, by decide, ⟨?_, ?_, ?_, ?_⟩, .inr (.inl ?_)⟩ <;>
      norm_num [Box.fraction, Vec3.get, x]
  refine hsign.mp ⟨fun _ => hx, fun _ => hpos.mp hwrong⟩
    ⟨⟨1 / 2 * (skewVector : Vec3 RealNumber).norm, by positivity, ?_⟩, ?_⟩
  · rw [point_skewDirection hsqrt]
    exact hinside _ (by norm_num) (by norm_num)
  · exact Mesh.existsUnique_onSide_ofBox hpq (skewDirection_pos hsqrt) hx (by positivity) hdiagonal

end Crossings

end SolidSurface
