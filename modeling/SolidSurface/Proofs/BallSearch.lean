import SolidSurface.Proofs.Collider.Balls
import SolidSurface.Proofs.Solid.Bounds

/-! # Distances by bisection

The distance of a point from a surface is the radius of the least ball around it that reaches the
surface. It lies between the distance of the bounds and that of their farthest corner, and halving
the bracket keeps it between the ends, so the middle of the last bracket is off by no more than half
of its width.
-/

namespace SolidSurface

variable {α : Type} [FieldScalar α]

/-! ## A box seen from a point -/

namespace Box

variable {b : Box α} {p x : Point α}

omit [FieldScalar α] in
/-- There is a corner for every choice of ends. -/
theorem exists_corner (b : Box α) (upper : Axis → Bool) :
    ∃ c ∈ b.corners, ∀ a, c.get a = if upper a then b.upper.get a else b.lower.get a := by
  have hbits : ∀ x y z : Bool, x.toNat + 2 * y.toNat + 4 * z.toNat < 8 ∧
      (x.toNat + 2 * y.toNat + 4 * z.toNat).testBit 0 = x ∧
      (x.toNat + 2 * y.toNat + 4 * z.toNat).testBit 1 = y ∧
      (x.toNat + 2 * y.toNat + 4 * z.toNat).testBit 2 = z := by decide
  obtain ⟨hlt, hx, hy, hz⟩ := hbits (upper .x) (upper .y) (upper .z)
  refine ⟨_, List.mem_map_of_mem (List.mem_range.mpr hlt), fun a => ?_⟩
  cases a
  · rw [corner, Vec3.get, hx, Vec3.get, Vec3.get]
  · rw [corner, Vec3.get, hy, Vec3.get, Vec3.get]
  · rw [corner, Vec3.get, hz, Vec3.get, Vec3.get]

theorem contains_corner (hx : b.contains x = true) {c : Point α} (hc : c ∈ b.corners) :
    b.contains c = true := by
  obtain ⟨i, -, rfl⟩ := List.mem_map.mp hc
  rw [contains_iff] at hx ⊢
  intro a
  have hle := (hx a).1.trans (hx a).2
  have hend : (b.corner i).get a = b.lower.get a ∨ (b.corner i).get a = b.upper.get a := by
    cases a <;> simp only [corner, Vec3.get] <;> split <;> simp
  rcases hend with hend | hend
  · exact ⟨hend.ge, hend.le.trans hle⟩
  · exact ⟨hle.trans hend.ge, hend.le⟩

/-- Seen from any point some corner of a box is as far away as a given point of the box. -/
theorem exists_corner_normSquared_ge (hx : b.contains x = true) (p : Point α) :
    ∃ c ∈ b.corners, (x - p).normSquared ≤ (c - p).normSquared := by
  rw [contains_iff] at hx
  obtain ⟨c, hc, hget⟩ := b.exists_corner fun a => decide (p.get a ≤ x.get a)
  have haxis : ∀ a, (x.get a - p.get a) * (x.get a - p.get a) ≤
      (c.get a - p.get a) * (c.get a - p.get a) := by
    intro a
    rw [hget a]
    by_cases hpx : p.get a ≤ x.get a
    · rw [if_pos (decide_eq_true hpx)]
      exact mul_self_le_mul_self (sub_nonneg.mpr hpx) (sub_le_sub_right (hx a).2 _)
    · rw [if_neg (by simpa using hpx), ← neg_mul_neg (x.get a - _),
        ← neg_mul_neg (b.lower.get a - _), neg_sub, neg_sub]
      exact mul_self_le_mul_self (sub_nonneg.mpr (not_le.mp hpx).le) (sub_le_sub_left (hx a).1 _)
  have h₁ := haxis .x
  have h₂ := haxis .y
  have h₃ := haxis .z
  simp only [Vec3.get] at h₁ h₂ h₃
  refine ⟨c, hc, ?_⟩
  simp only [Vec3.normSquared, Vec3.dot, Vec3.x_sub, Vec3.y_sub, Vec3.z_sub]
  linarith

/-- `near` is the distance of a box from `p` and `far` that of its farthest corner. -/
structure Ranges (b : Box α) (p : Point α) (near far : α) : Prop where
  near_nonneg : 0 ≤ near
  far_nonneg : 0 ≤ far
  exists_near : ∃ x, b.contains x = true ∧ (x - p).normSquared = near * near
  near_le : ∀ x, b.contains x = true → near * near ≤ (x - p).normSquared
  exists_far : ∃ c ∈ b.corners, (c - p).normSquared = far * far
  le_far : ∀ c ∈ b.corners, (c - p).normSquared ≤ far * far

/-- The points of a box are at distances between the two. -/
theorem Ranges.between {near far d : α} (h : b.Ranges p near far) (hx : b.contains x = true)
    (hd : 0 ≤ d) (hsquare : (x - p).normSquared = d * d) : near ≤ d ∧ d ≤ far := by
  rw [mul_self_le_mul_self_iff h.near_nonneg hd, mul_self_le_mul_self_iff hd h.far_nonneg,
    ← hsquare]
  obtain ⟨c, hc, hle⟩ := exists_corner_normSquared_ge hx p
  exact ⟨h.near_le x hx, hle.trans (h.le_far c hc)⟩

end Box

/-! ## Exact roots -/

section Roots

variable (hsqrt : ∀ x : α, 0 ≤ x → 0 ≤ Scalar.sqrt x ∧ Scalar.sqrt x * Scalar.sqrt x = x)

include hsqrt

theorem sqrt_le_iff {x r : α} (hx : 0 ≤ x) (hr : 0 ≤ r) : Scalar.sqrt x ≤ r ↔ x ≤ r * r := by
  obtain ⟨hnonneg, hroot⟩ := hsqrt x hx
  rw [mul_self_le_mul_self_iff hnonneg hr, hroot]

theorem sqrt_le_sqrt {x y : α} (hx : 0 ≤ x) (hxy : x ≤ y) : Scalar.sqrt x ≤ Scalar.sqrt y := by
  obtain ⟨hnonneg, hroot⟩ := hsqrt y (hx.trans hxy)
  rw [sqrt_le_iff hsqrt hx hnonneg, hroot]
  exact hxy

end Roots

/-! ## The largest of a list -/

theorem foldl_max_mem (a : α) (xs : List α) : xs.foldl max a ∈ a :: xs := by
  induction xs generalizing a with
  | nil => exact List.mem_singleton_self a
  | cons y xs ih =>
      rw [List.foldl_cons]
      rcases List.mem_cons.mp (ih (max a y)) with hfirst | hlater
      · rw [hfirst]
        rcases max_choice a y with h | h <;> simp [h]
      · exact List.mem_cons_of_mem _ (List.mem_cons_of_mem _ hlater)

theorem le_foldl_max (a : α) (xs : List α) : ∀ x ∈ a :: xs, x ≤ xs.foldl max a := by
  induction xs generalizing a with
  | nil => simp
  | cons y xs ih =>
      have hmax := ih (max a y) _ List.mem_cons_self
      intro x hx
      rw [List.foldl_cons]
      rcases List.mem_cons.mp hx with rfl | hx
      · exact (le_max_left _ _).trans hmax
      · rcases List.mem_cons.mp hx with rfl | hx
        · exact (le_max_right _ _).trans hmax
        · exact ih (max a y) x (List.mem_cons_of_mem _ hx)

/-! ## The bracket -/

namespace BallSearch

/-- The middle of a bracket is off by at most half of its width. -/
theorem middle_spec {lower upper d w : α} (hlower : 0 ≤ lower) (hd : lower ≤ d) (hd' : d ≤ upper)
    (hw : upper - lower ≤ w) :
    0 ≤ 1 / 2 * (lower + upper) ∧ |1 / 2 * (lower + upper) - d| ≤ w / 2 :=
  ⟨by linarith, abs_le.mpr ⟨by linarith, by linarith⟩⟩

/-- Around a radius from which on the test is passed, halving ends within half of the last width. -/
theorem narrow_spec {touches : α → Bool} (tolerance : α) {d : α}
    (htouches : ∀ r, 0 ≤ r → (touches r = true ↔ d ≤ r)) {lower upper : α} (hlower : 0 ≤ lower)
    (hd : lower ≤ d) (hd' : d ≤ upper) (n : Nat) :
    0 ≤ narrow touches tolerance lower upper n ∧
      |narrow touches tolerance lower upper n - d| ≤
        max tolerance ((upper - lower) / 2 ^ n) / 2 := by
  induction n generalizing lower upper with
  | zero =>
      rw [narrow, Scalar.half_eq, pow_zero, div_one]
      exact middle_spec hlower hd hd' (le_max_right _ _)
  | succ n ih =>
      have hwidth : (upper - lower) / 2 ^ (n + 1) = (upper - lower) / 2 / 2 ^ n := by
        rw [pow_succ', div_div]
      simp only [narrow, Scalar.half_eq, hwidth]
      split_ifs with hnarrow hmid
      · exact middle_spec hlower hd hd' (hnarrow.trans (le_max_left _ _))
      · have hle := (htouches _ (by linarith)).mp hmid
        rw [show (upper - lower) / 2 = 1 / 2 * (lower + upper) - lower by ring]
        exact ih hlower hd hle
      · have hlt := not_le.mp (mt (htouches _ (by linarith)).mpr hmid)
        rw [show (upper - lower) / 2 = upper - 1 / 2 * (lower + upper) by ring]
        exact ih (by linarith) hlt.le hd'

/-- The ends of the first bracket of a search. -/
def nearEnd (b : Box α) (p : Point α) : α :=
  Scalar.sqrt (b.distanceSquared p)

def farEnd (b : Box α) (p : Point α) : α :=
  (b.corners.map fun c => (c - p).norm).foldl Scalar.max (nearEnd b p)

theorem farEnd_eq (b : Box α) (p : Point α) :
    farEnd b p = (b.corners.map fun c => (c - p).norm).foldl max (nearEnd b p) :=
  congrArg (List.foldl · _ _) (funext₂ Scalar.max_eq)

theorem distance_eq (s : BallSearch α) (p : Point α) :
    s.distance p = narrow (s.collider.touchesBall p) s.settings.tolerance
      (nearEnd s.collider.bounds p) (farEnd s.collider.bounds p) s.settings.maxTries :=
  rfl

theorem ranges (hsqrt : ∀ x : α, 0 ≤ x → 0 ≤ Scalar.sqrt x ∧ Scalar.sqrt x * Scalar.sqrt x = x)
    {b : Box α} {x : Point α} (hx : b.contains x = true) (p : Point α) :
    b.Ranges p (nearEnd b p) (farEnd b p) := by
  obtain ⟨q, hq, hnear⟩ := Box.exists_contains_normSquared_eq hx p
  obtain ⟨hnear₀, hroot⟩ := hsqrt (b.distanceSquared p) (hnear ▸ Vec3.normSquared_nonneg _)
  have hnorm := fun c : Point α => hsqrt _ (Vec3.normSquared_nonneg (c - p))
  have hcorner : ∀ c ∈ b.corners, (c - p).norm ≤ farEnd b p := fun c hc => by
    rw [farEnd_eq]
    exact le_foldl_max _ _ _ (List.mem_cons_of_mem _ (List.mem_map_of_mem hc))
  -- The near end is no farther than any corner, so the far end is the distance of one of them.
  obtain ⟨c, hc, hfar⟩ : ∃ c ∈ b.corners, (c - p).norm = farEnd b p := by
    have hmem := foldl_max_mem (nearEnd b p) (b.corners.map fun c => (c - p).norm)
    rw [← farEnd_eq] at hmem
    rcases List.mem_cons.mp hmem with hfirst | hlater
    · obtain ⟨c, hc, -⟩ := b.exists_corner fun _ => false
      refine ⟨c, hc, (hcorner c hc).antisymm ?_⟩
      rw [hfirst]
      exact sqrt_le_sqrt hsqrt (hnear ▸ Vec3.normSquared_nonneg _)
        (Box.distanceSquared_le (Box.contains_corner hx hc) p)
    · obtain ⟨c, hc, h⟩ := List.mem_map.mp hlater
      exact ⟨c, hc, h⟩
  exact {
    near_nonneg := hnear₀
    far_nonneg := hfar ▸ (hnorm c).1
    exists_near := ⟨q, hq, hnear.trans hroot.symm⟩
    near_le := fun x hx => hroot.le.trans (Box.distanceSquared_le hx p)
    exists_far := ⟨c, hc, by rw [← hfar]; exact (hnorm c).2.symm⟩
    le_far := fun d hd => (sqrt_le_iff hsqrt (Vec3.normSquared_nonneg _)
      (hfar ▸ (hnorm c).1)).mp (hcorner d hd) }

end BallSearch

/-! ## Against the exact distance -/

theorem abs_signed {d : α} (hd : 0 ≤ d) (inside : Bool) : |signed inside d| = d := by
  cases inside
  · exact (abs_neg d).trans (abs_of_nonneg hd)
  · exact abs_of_nonneg hd

/-- The exact distance is the radius of the least ball that reaches the mesh. -/
theorem TreeCollider.exists_signedDistance_eq {m : TreeCollider α} (henclosed : m.root.Enclosed)
    (hne : m.root.triangles ≠ [])
    (hsqrt : ∀ x : α, 0 ≤ x → 0 ≤ Scalar.sqrt x ∧ Scalar.sqrt x * Scalar.sqrt x = x)
    (p : Point α) :
    ∃ d, 0 ≤ d ∧ m.signedDistance p = signed ((Collider.tree m).encloses p) d ∧
      (∀ r, 0 ≤ r → ((Collider.tree m).touchesBall p r = true ↔ d ≤ r)) ∧
      ∃ x, m.bounds.contains x = true ∧ (x - p).normSquared = d * d := by
  obtain ⟨t, ht, hfound, hleast⟩ := exists_nearest_eq (p := p) henclosed hne
    fun t _ => (t.closestPoint_hasPoint p).contains_bounds
  have hsquare : 0 ≤ t.distanceSquared p := Vec3.normSquared_nonneg _
  obtain ⟨hd, hroot⟩ := hsqrt _ hsquare
  refine ⟨Scalar.sqrt (t.distanceSquared p), hd, ?_, fun r hr => ?_, t.closestPoint p, ?_,
    hroot.symm⟩
  · rw [signedDistance, pointDistance, hfound]
    rfl
  · rw [sqrt_le_iff hsqrt hsquare hr, Collider.touchesBall_iff (.tree henclosed)]
    constructor
    · rintro ⟨t', ht', htouch⟩
      exact (hleast t' ht').trans (Triangle.touchesBall_iff.mp htouch)
    · intro hle
      exact ⟨t, ht, Triangle.touchesBall_iff.mpr hle⟩
  · exact henclosed.covers_bounds ht _ (t.closestPoint_hasPoint p).contains_bounds

namespace BallSearch

theorem check_eq_ok {settings : BallSearchSettings α} (htolerance : 0 < settings.tolerance)
    (htries : settings.maxTries ≠ 0) : settings.check = .ok () := by
  rw [BallSearchSettings.check, (Scalar.isPositive_iff _).mpr htolerance]
  simp [htries]

theorem make_eq_ok {c : Collider α} {settings : BallSearchSettings α} {x : Point α}
    (hvalid : settings.check = .ok ()) (hx : c.bounds.contains x = true) :
    make c settings = .ok ⟨c, settings⟩ := by
  simp only [make, hvalid, Box.isEmpty_eq_false_of_contains hx]
  rfl

/-- A distance that is searched for and the exact one put a point on the same side, and in size they
differ by no more than half of the last bracket. -/
theorem signedDistance_tracks {ts : List (Triangle α)} (hne : ts ≠ [])
    (hsqrt : ∀ x : α, 0 ≤ x → 0 ≤ Scalar.sqrt x ∧ Scalar.sqrt x * Scalar.sqrt x = x)
    {settings : BallSearchSettings α} (hvalid : settings.check = .ok ()) (p : Point α) :
    ∃ m s, TreeCollider.ofTriangles ts = .ok m ∧ make (.tree m) settings = .ok s ∧
      let inside := (Collider.tree m).encloses p
      m.signedDistance p = signed inside |m.signedDistance p| ∧
        s.signedDistance p = signed inside |s.signedDistance p| ∧
        ∃ near far, m.bounds.Ranges p near far ∧
          |(|s.signedDistance p| - |m.signedDistance p|)| ≤
            max settings.tolerance ((far - near) / 2 ^ settings.maxTries) / 2 := by
  obtain ⟨m, hm⟩ := Collider.exists_ofTriangles_eq_ok hne
  obtain ⟨henclosed, hperm⟩ := Collider.ofTriangles_spec hm
  obtain ⟨d, hd, hexact, htouches, x, hx, hsquare⟩ :=
    TreeCollider.exists_signedDistance_eq henclosed
      (fun hnil => hne (List.nil_perm.mp (hnil ▸ hperm))) hsqrt p
  have hranges := ranges hsqrt hx p
  obtain ⟨hnear, hfar⟩ := hranges.between hx hd hsquare
  obtain ⟨hfound₀, herror⟩ := narrow_spec settings.tolerance htouches
    hranges.near_nonneg hnear hfar settings.maxTries
  have hfound : signedDistance ⟨.tree m, settings⟩ p = signed ((Collider.tree m).encloses p)
      (narrow ((Collider.tree m).touchesBall p) settings.tolerance (nearEnd m.bounds p)
        (farEnd m.bounds p) settings.maxTries) :=
    congrArg (signed _) (distance_eq ⟨.tree m, settings⟩ p)
  refine ⟨m, ⟨.tree m, settings⟩, hm, make_eq_ok hvalid hx, ?_, ?_, _, _, hranges, ?_⟩
  · rw [hexact, abs_signed hd]
  · rw [hfound, abs_signed hfound₀]
  · rw [hexact, hfound, abs_signed hd, abs_signed hfound₀]
    exact herror

/-- A unit square in two triangles, seen from beside and above, with two tries. -/
theorem signedDistance_tracks_square :
    let ts : List (Triangle RealNumber) :=
      [⟨⟨0, 0, 0⟩, ⟨1, 0, 0⟩, ⟨0, 1, 0⟩⟩, ⟨⟨1, 1, 0⟩, ⟨0, 1, 0⟩, ⟨1, 0, 0⟩⟩]
    let p : Point RealNumber := ⟨3, 0, 1⟩
    ∃ m s, TreeCollider.ofTriangles ts = .ok m ∧ make (.tree m) ⟨1, 2⟩ = .ok s ∧
      let inside := (Collider.tree m).encloses p
      m.signedDistance p = signed inside |m.signedDistance p| ∧
        s.signedDistance p = signed inside |s.signedDistance p| ∧
        ∃ near far, m.bounds.Ranges p near far ∧
          |(|s.signedDistance p| - |m.signedDistance p|)| ≤ max 1 ((far - near) / 2 ^ 2) / 2 :=
  signedDistance_tracks (List.cons_ne_nil _ _)
    (fun _ hx => ⟨RealNumber.sqrt_nonneg _, RealNumber.sqrt_mul_sqrt hx⟩)
    (check_eq_ok one_pos two_ne_zero) _

end BallSearch

end SolidSurface
