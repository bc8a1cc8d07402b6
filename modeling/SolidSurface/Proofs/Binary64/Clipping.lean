import SolidSurface.Proofs.Binary64.Arithmetic
import SolidSurface.Proofs.Collider.SearchOrder

/-! # Clipping in floating point

The ends of a clipped ray are rounded, but rounding is monotone: whatever a slab leaves of a ray
lies within what a wider slab leaves of it. A direction so small that its inverse overflows moves
the ray nowhere before infinity, where it does not matter what is clipped.
-/

namespace SolidSurface

open Binary64

theorem units?_scalar_zero : units? (Scalar.toZero : Zero Float).zero = some 0 := by
  decide +kernel

/-! ## Limits -/

namespace Extended

/-- The number of units in a limit, unless it is not a number. -/
def units? : Extended Float → Option ℤ
  | val x => Binary64.units? x
  | infinity => some limit

variable {a b : Extended Float} {m n : ℤ} (ha : a.units? = some m) (hb : b.units? = some n)

include ha hb

theorem lt_iff_of_units : a.lt b = true ↔ m < n := by
  cases a with
  | val x =>
      cases b with
      | val y => exact decide_eq_true_iff.trans (Binary64.lt_iff_of_units ha hb)
      | infinity =>
          cases hb
          have hlimit := limit_pos
          have hbounds := units?_bounds ha
          have hfinite : Scalar.isFinite x = true ↔ _ := isFinite_iff_of_units ha
          have hneg : x < (Scalar.toZero : Zero Float).zero ↔ _ :=
            Binary64.lt_iff_of_units ha units?_scalar_zero
          refine (Bool.or_eq_true _ _).to_iff.trans ?_
          rw [decide_eq_true_iff]
          refine (or_congr hfinite hneg).trans ?_
          omega
  | infinity =>
      cases ha
      refine ⟨fun h => (Bool.false_ne_true h).elim, fun hlt => ?_⟩
      cases b with
      | val y =>
          have := units?_bounds hb
          omega
      | infinity =>
          cases hb
          omega

theorem le_iff_of_units : a.le b = true ↔ m ≤ n := by
  cases a with
  | val x =>
      cases b with
      | val y => exact decide_eq_true_iff.trans (Binary64.le_iff_of_units ha hb)
      | infinity =>
          cases hb
          exact iff_of_true (beq_iff.mpr ⟨m, ha, ha⟩) (units?_bounds ha).2
  | infinity =>
      cases ha
      cases b with
      | val y =>
          have hlimit := limit_pos
          have hbounds := units?_bounds hb
          have hfinite : Scalar.isFinite y = true ↔ _ := isFinite_iff_of_units hb
          have hpos : (Scalar.toZero : Zero Float).zero < y ↔ _ :=
            Binary64.lt_iff_of_units units?_scalar_zero hb
          change (!Scalar.isFinite y && decide ((Scalar.toZero : Zero Float).zero < y)) = true ↔ _
          rw [Bool.and_eq_true, decide_eq_true_iff, Bool.not_eq_true', ← Bool.not_eq_true, hfinite,
            hpos]
          omega
      | infinity =>
          cases hb
          exact iff_of_true rfl le_rfl

end Extended

/-- The order of limits is that of their units. -/
def Measure.float : Measure Float ℤ where
  IsNumber a := ∃ m, a.units? = some m
  value a := a.units?.getD 0
  le_iff := by
    rintro a b ⟨m, hm⟩ ⟨n, hn⟩
    rw [Extended.le_iff_of_units hm hn, hm, hn]
    rfl
  lt_iff := by
    rintro a b ⟨m, hm⟩ ⟨n, hn⟩
    rw [Extended.lt_iff_of_units hm hn, hm, hn]
    rfl

theorem Measure.value_eq {a : Extended Float} {m : ℤ} (h : a.units? = some m) :
    Measure.float.value a = m :=
  (congrArg (·.getD 0) h).trans Option.getD_some

theorem Measure.isNumber_infinity : Measure.float.IsNumber .infinity :=
  ⟨limit, rfl⟩

theorem Measure.value_le_infinity {a : Extended Float} (ha : Measure.float.IsNumber a) :
    Measure.float.value a ≤ Measure.float.value .infinity := by
  have hle : a.le .infinity = true := by
    obtain ⟨m, hm⟩ := ha
    cases a with
    | val x => exact beq_iff.mpr ⟨m, hm, hm⟩
    | infinity => rfl
  exact (Measure.float.le_iff ha isNumber_infinity).mp hle

/-! ## Choices -/

section Numbers

variable {x : Float} {m : ℤ} (hx : Binary64.units? x = some m)

include hx

/-- The larger of a number and what is no number is the number. -/
theorem units?_max (y : Float) :
    Binary64.units? (Scalar.max x y) = some (max m ((Binary64.units? y).getD (-limit))) := by
  have hself : @BEq.beq Float Scalar.toBEq x x = true := beq_iff.mpr ⟨m, hx, hx⟩
  rw [Scalar.max, hself, Bool.not_true, Bool.or_false]
  by_cases h : x < y
  · obtain ⟨m', n, hx', hy, hlt⟩ := lt_iff.mp h
    cases hx.symm.trans hx'
    rw [if_pos (decide_eq_true h), hy, Option.getD_some, max_eq_right hlt.le]
  · rw [if_neg (mt of_decide_eq_true h), hx]
    cases hy : Binary64.units? y with
    | none => rw [Option.getD_none, max_eq_left (units?_bounds hx).1]
    | some n =>
        rw [Option.getD_some, max_eq_left (not_lt.mp (mt (lt_iff_of_units hx hy).mpr h))]

theorem units?_min (y : Float) :
    Binary64.units? (Scalar.min x y) = some (min m ((Binary64.units? y).getD limit)) := by
  have hself : @BEq.beq Float Scalar.toBEq x x = true := beq_iff.mpr ⟨m, hx, hx⟩
  rw [Scalar.min, hself, Bool.not_true, Bool.or_false]
  by_cases h : y < x
  · obtain ⟨n, m', hy, hx', hlt⟩ := lt_iff.mp h
    cases hx.symm.trans hx'
    rw [if_pos (decide_eq_true h), hy, Option.getD_some, min_eq_right hlt.le]
  · rw [if_neg (mt of_decide_eq_true h), hx]
    cases hy : Binary64.units? y with
    | none => rw [Option.getD_none, min_eq_left (units?_bounds hx).2]
    | some n =>
        rw [Option.getD_some, min_eq_left (not_lt.mp (mt (lt_iff_of_units hy hx).mpr h))]

end Numbers

theorem units?_capAt {a : Extended Float} {m : ℤ} (ha : a.units? = some m) (y : Float) :
    (a.capAt y).units? = some (min m ((Binary64.units? y).getD limit)) := by
  cases a with
  | val x => exact units?_min ha y
  | infinity =>
      cases ha
      rw [Extended.capAt]
      cases hy : Binary64.units? y with
      | none =>
          have hself : ¬@BEq.beq Float Scalar.toBEq y y = true := fun h => by
            obtain ⟨n, hn, -⟩ := beq_iff.mp h
            cases hy.symm.trans hn
          rw [if_neg hself, Option.getD_none, min_self]
          rfl
      | some n =>
          have hself : @BEq.beq Float Scalar.toBEq y y = true := beq_iff.mpr ⟨n, hy, hy⟩
          rw [if_pos hself, Option.getD_some, min_eq_right (units?_bounds hy).2]
          exact hy

section Pairs

variable {x y : Float} {m n : ℤ} (hx : Binary64.units? x = some m)
  (hy : Binary64.units? y = some n)

include hx hy

theorem units?_lesser : Binary64.units? (Vec3.lesser x y) = some (min m n) := by
  rw [Vec3.lesser]
  split
  · rename_i h
    rw [min_eq_left ((le_iff_of_units hx hy).mp h), hx]
  · rename_i h
    rw [min_eq_right (not_le.mp (mt (le_iff_of_units hx hy).mpr h)).le, hy]

theorem units?_greater : Binary64.units? (Vec3.greater x y) = some (max m n) := by
  rw [Vec3.greater]
  split
  · rename_i h
    rw [max_eq_left ((le_iff_of_units hy hx).mp h), hx]
  · rename_i h
    rw [max_eq_right (not_le.mp (mt (le_iff_of_units hy hx).mpr h)).le, hy]

end Pairs

section Finite

variable {x y : Float} (hx : x.isFinite = true) (hy : y.isFinite = true)

include hx hy

theorem lesser_spec :
    (Vec3.lesser x y).isFinite = true ∧ Vec3.lesser x y ≤ x ∧ Vec3.lesser x y ≤ y := by
  obtain ⟨m, hm, -⟩ := isFinite_iff.mp hx
  obtain ⟨n, hn, -⟩ := isFinite_iff.mp hy
  have hmin := units?_lesser hm hn
  refine ⟨?_, (le_iff_of_units hmin hm).mpr (min_le_left m n),
    (le_iff_of_units hmin hn).mpr (min_le_right m n)⟩
  rw [Vec3.lesser]
  split
  · exact hx
  · exact hy

theorem greater_spec :
    (Vec3.greater x y).isFinite = true ∧ x ≤ Vec3.greater x y ∧ y ≤ Vec3.greater x y := by
  obtain ⟨m, hm, -⟩ := isFinite_iff.mp hx
  obtain ⟨n, hn, -⟩ := isFinite_iff.mp hy
  have hmax := units?_greater hm hn
  refine ⟨?_, (le_iff_of_units hm hmax).mpr (le_max_left m n),
    (le_iff_of_units hn hmax).mpr (le_max_right m n)⟩
  rw [Vec3.greater]
  split
  · exact hx
  · exact hy

end Finite

/-! ## The ends of a slab -/

/-- Where a ray is in a slab of which it crosses the sides at two positions. A position that is no
number bounds nothing. -/
def slabEnds (a b : Float) : ℤ × ℤ :=
  ((Binary64.units? (Vec3.lesser a b)).getD (-limit),
    (Binary64.units? (Vec3.greater b a)).getD limit)

section Ends

variable {a b : Float} {m n : ℤ}

theorem slabEnds_of_units (ha : Binary64.units? a = some m) (hb : Binary64.units? b = some n) :
    slabEnds a b = (min m n, max m n) := by
  rw [slabEnds, units?_lesser ha hb, units?_greater hb ha, max_comm, Option.getD_some,
    Option.getD_some]

theorem slabEnds_of_left_none (ha : Binary64.units? a = none) (hb : Binary64.units? b = some n) :
    slabEnds a b = (n, (limit : ℤ)) := by
  have hle : ¬a ≤ b := fun h => by
    obtain ⟨m, n, hm, -⟩ := le_iff.mp h
    cases ha.symm.trans hm
  rw [slabEnds, Vec3.lesser, Vec3.greater, if_neg hle, if_neg hle, ha, hb, Option.getD_some,
    Option.getD_none]

theorem slabEnds_of_right_none (ha : Binary64.units? a = some m) (hb : Binary64.units? b = none) :
    slabEnds a b = (-(limit : ℤ), m) := by
  have hle : ¬a ≤ b := fun h => by
    obtain ⟨m, n, -, hn, -⟩ := le_iff.mp h
    cases hb.symm.trans hn
  rw [slabEnds, Vec3.lesser, Vec3.greater, if_neg hle, if_neg hle, ha, hb, Option.getD_some,
    Option.getD_none]

end Ends

section Inverse

variable {k p q : ℤ} {a b : Float}

/-- Whether a ray that does not move between the sides of a slab is never out of it. On a side it is
so for one sign of the inverse only. -/
def Stays (k p q : ℤ) : Prop :=
  if 0 < k then p < 0 ∧ 0 < q else p ≤ 0 ∧ 0 ≤ q

theorem Stays.mono {p' q' : ℤ} (h : Stays k p q) (hp : p' ≤ p) (hq : q ≤ q')
    (hflat : ¬(p = 0 ∧ q = 0)) : Stays k p' q' ∧ ¬(p' = 0 ∧ q' = 0) := by
  unfold Stays at h ⊢
  split_ifs at h ⊢ <;> omega

/-- A direction of which the inverse is infinite leaves a ray in the slab for good, or takes it
there at infinity, or out of it there. -/
theorem slabEnds_of_infinite (hk : k = limit ∨ k = -limit) (hpq : p ≤ q) (hflat : ¬(p = 0 ∧ q = 0))
    (ha : Binary64.units? a = if p = 0 then none else some (if 0 < p then k else -k))
    (hb : Binary64.units? b = if q = 0 then none else some (if 0 < q then k else -k)) :
    Stays k p q ∧ slabEnds a b = (-(limit : ℤ), (limit : ℤ)) ∨
      ¬Stays k p q ∧ ((slabEnds a b).1 = limit ∨ (slabEnds a b).2 = -limit) := by
  have hlimit := limit_pos
  unfold Stays
  by_cases hp : p = 0
  · have hq : 0 < q := by omega
    rw [if_pos hp] at ha
    rw [if_neg hq.ne', if_pos hq] at hb
    rw [slabEnds_of_left_none ha hb, Prod.mk.injEq]
    rcases hk with hk | hk <;> split_ifs <;> omega
  · rw [if_neg hp] at ha
    by_cases hq : q = 0
    · have hneg : ¬0 < p := by omega
      rw [if_neg hneg] at ha
      rw [if_pos hq] at hb
      rw [slabEnds_of_right_none ha hb, Prod.mk.injEq]
      rcases hk with hk | hk <;> split_ifs <;> omega
    · rw [if_neg hq] at hb
      rw [slabEnds_of_units ha hb, Prod.mk.injEq]
      rcases hk with hk | hk <;> split_ifs <;> omega

end Inverse

namespace Ray

section Slabs

variable {o d lower lower' upper upper' : Float} (ho : o.isFinite = true)
  (hlower' : lower'.isFinite = true) (hlower : lower.isFinite = true)
  (hupper : upper.isFinite = true) (hupper' : upper'.isFinite = true) (hl : lower' ≤ lower)
  (hlu : lower ≤ upper) (hu : upper ≤ upper')

include ho hlower' hlower hupper hupper' hl hlu hu

/-- The sides of two slabs, one within the other, are crossed in their order or against it. -/
theorem slabEnds_of_isFinite (hinverse : (1 / d).isFinite = true) (hpos : 0 < 1 / d ∨ 1 / d < 0) :
    (slabEnds ((lower' - o) * (1 / d)) ((upper' - o) * (1 / d))).1 ≤
        (slabEnds ((lower - o) * (1 / d)) ((upper - o) * (1 / d))).1 ∧
      (slabEnds ((lower - o) * (1 / d)) ((upper - o) * (1 / d))).2 ≤
        (slabEnds ((lower' - o) * (1 / d)) ((upper' - o) * (1 / d))).2 := by
  have hl := sub_le_sub_right hlower' hlower ho hl
  have hlu := sub_le_sub_right hlower hupper ho hlu
  have hu := sub_le_sub_right hupper hupper' ho hu
  rcases hpos with hpos | hneg
  · obtain ⟨a', a, ha', ha, h₁⟩ := le_iff.mp (mul_le_mul_of_pos hinverse hpos hl)
    obtain ⟨b, b', hb, hb', h₃⟩ := le_iff.mp (mul_le_mul_of_pos hinverse hpos hu)
    have h₂ := (le_iff_of_units ha hb).mp (mul_le_mul_of_pos hinverse hpos hlu)
    rw [slabEnds_of_units ha hb, slabEnds_of_units ha' hb']
    omega
  · obtain ⟨a, a', ha, ha', h₁⟩ := le_iff.mp (mul_le_mul_of_neg hinverse hneg hl)
    obtain ⟨b', b, hb', hb, h₃⟩ := le_iff.mp (mul_le_mul_of_neg hinverse hneg hu)
    have h₂ := (le_iff_of_units hb ha).mp (mul_le_mul_of_neg hinverse hneg hlu)
    rw [slabEnds_of_units ha hb, slabEnds_of_units ha' hb']
    omega

/-- A ray that does not move stays in the wider of two slabs as in the other, or is never there. -/
theorem slabEnds_of_not_isFinite (hinverse : (1 / d).isFinite = false) {k : ℤ}
    (hk : Binary64.units? (1 / d) = some k)
    (hflat : ¬((lower == o) = true ∧ (upper == o) = true)) :
    slabEnds ((lower' - o) * (1 / d)) ((upper' - o) * (1 / d)) =
        slabEnds ((lower - o) * (1 / d)) ((upper - o) * (1 / d)) ∨
      (slabEnds ((lower - o) * (1 / d)) ((upper - o) * (1 / d))).1 = limit ∨
      (slabEnds ((lower - o) * (1 / d)) ((upper - o) * (1 / d))).2 = -limit := by
  have hinfinite : k = limit ∨ k = -limit := by
    have hbounds := units?_bounds hk
    have hnot := (isFinite_iff_of_units hk).not.mp (Bool.eq_false_iff.mp hinverse)
    omega
  have hside : ∀ {x : Float}, x.isFinite = true → ∃ p, Binary64.units? (x - o) = some p ∧
      (p = 0 → (x == o) = true) ∧ Binary64.units? ((x - o) * (1 / d)) =
        if p = 0 then none else some (if 0 < p then k else -k) := by
    intro x hx
    obtain ⟨p, hp, hzero⟩ := exists_units?_sub hx ho
    refine ⟨p, hp, hzero, ?_⟩
    rw [units?_mul_comm, units?_mul_of_not_isFinite hinverse hk hp]
  obtain ⟨p', hp', -, ha'⟩ := hside hlower'
  obtain ⟨p, hp, hp₀, ha⟩ := hside hlower
  obtain ⟨q, hq, hq₀, hb⟩ := hside hupper
  obtain ⟨q', hq', -, hb'⟩ := hside hupper'
  have h₁ := (le_iff_of_units hp' hp).mp (sub_le_sub_right hlower' hlower ho hl)
  have h₂ := (le_iff_of_units hp hq).mp (sub_le_sub_right hlower hupper ho hlu)
  have h₃ := (le_iff_of_units hq hq').mp (sub_le_sub_right hupper hupper' ho hu)
  have hthick : ¬(p = 0 ∧ q = 0) := fun h => hflat ⟨hp₀ h.1, hq₀ h.2⟩
  rcases slabEnds_of_infinite hinfinite h₂ hthick ha hb with ⟨hstays, hends⟩ | ⟨-, hends⟩
  · obtain ⟨hstays', hthick'⟩ := hstays.mono h₁ h₃ hthick
    rcases slabEnds_of_infinite hinfinite (h₁.trans (h₂.trans h₃)) hthick' ha' hb' with
      ⟨-, hends'⟩ | ⟨hleaves, -⟩
    · exact .inl (hends'.trans hends.symm)
    · exact absurd hstays' hleaves
  · exact .inr hends

/-- A ray is in the wider of two slabs as long as in the other, unless it only gets there at
infinity or never. -/
theorem slabEnds_within (hd : d.isFinite = true) (hne : ¬(d == 0) = true)
    (hflat : ¬((lower == o) = true ∧ (upper == o) = true)) :
    (slabEnds ((lower' - o) * (1 / d)) ((upper' - o) * (1 / d))).1 ≤
        (slabEnds ((lower - o) * (1 / d)) ((upper - o) * (1 / d))).1 ∧
      (slabEnds ((lower - o) * (1 / d)) ((upper - o) * (1 / d))).2 ≤
        (slabEnds ((lower' - o) * (1 / d)) ((upper' - o) * (1 / d))).2 ∨
      (slabEnds ((lower - o) * (1 / d)) ((upper - o) * (1 / d))).1 = limit ∨
      (slabEnds ((lower - o) * (1 / d)) ((upper - o) * (1 / d))).2 = -limit := by
  obtain ⟨k, hk, hk₀⟩ := exists_units?_inverse hd hne
  cases hinverse : (1 / d).isFinite with
  | true =>
      refine .inl (slabEnds_of_isFinite ho hlower' hlower hupper hupper' hl hlu hu hinverse ?_)
      rw [lt_iff_of_units units?_zero hk, lt_iff_of_units hk units?_zero]
      exact (lt_or_gt_of_ne hk₀).symm
  | false =>
      rcases slabEnds_of_not_isFinite ho hlower' hlower hupper hupper' hl hlu hu hinverse hk hflat
        with hsame | hnever
      · rw [hsame]
        exact .inl ⟨le_rfl, le_rfl⟩
      · exact .inr hnever

end Slabs

end Ray

/-! ## Clipping -/

/-- The ends of a part of a ray in units. -/
structure RayInterval.Spans (i : RayInterval Float) (m n : ℤ) : Prop where
  start : Binary64.units? i.start = some m
  stop : i.stop.units? = some n

/-- Whether one part of a ray lies within another, which lies ahead of the origin. -/
def RayInterval.Within (i j : RayInterval Float) : Prop :=
  ∃ m n m' n', i.Spans m n ∧ j.Spans m' n' ∧ 0 ≤ m' ∧ m' ≤ m ∧ n ≤ n'

namespace Ray

variable {o d lower upper : Float} {i j : RayInterval Float} {m n : ℤ}

/-- A ray along a slab. -/
theorem clip_along (hd : (d == 0) = true) :
    clip o d lower upper i = if o < lower ∨ upper < o then none else some i :=
  if_pos hd

/-- A ray across a slab. -/
theorem clip_across (hd : ¬(d == 0) = true) (lower upper o : Float) (i : RayInterval Float) :
    ∃ j : RayInterval Float, clip o d lower upper i =
        (if j.stop.lt (.val j.start) = true then none else some j) ∧
      (∀ m, Binary64.units? i.start = some m → Binary64.units? j.start =
        some (max m (slabEnds ((lower - o) * (1 / d)) ((upper - o) * (1 / d))).1)) ∧
      ∀ n, i.stop.units? = some n → j.stop.units? =
        some (min n (slabEnds ((lower - o) * (1 / d)) ((upper - o) * (1 / d))).2) :=
  ⟨⟨_, _⟩, if_neg hd, fun _ hm => units?_max hm _, fun _ hn => units?_capAt hn _⟩

/-- Clipping moves the start of a part of a ray ahead or not at all. -/
theorem exists_start_of_clip (h : clip o d lower upper i = some j)
    (hi : Binary64.units? i.start = some m) :
    ∃ n, Binary64.units? j.start = some n ∧ m ≤ n := by
  by_cases hd : (d == 0) = true
  · rw [clip_along hd] at h
    split_ifs at h
    cases h
    exact ⟨m, hi, le_rfl⟩
  · obtain ⟨k, hclip, hstart, -⟩ := clip_across hd lower upper o i
    rw [hclip] at h
    split_ifs at h
    cases h
    exact ⟨_, hstart m hi, le_max_left _ _⟩

section Slabs

variable {lower' upper' : Float} {i' : RayInterval Float} (ho : o.isFinite = true)
  (hlower' : lower'.isFinite = true) (hlower : lower.isFinite = true)
  (hupper : upper.isFinite = true) (hupper' : upper'.isFinite = true) (hl : lower' ≤ lower)
  (hlu : lower ≤ upper) (hu : upper ≤ upper')

include ho hlower' hlower hupper hupper' hl hlu hu

/-- What a slab leaves of a part of a ray is within what a wider slab leaves of more of it, unless
it begins at infinity. -/
theorem exists_clip_within (hd : d.isFinite = true)
    (hflat : ¬((lower == o) = true ∧ (upper == o) = true)) (hi : i.Within i')
    (h : clip o d lower upper i = some j) :
    (∃ j', clip o d lower' upper' i' = some j' ∧ j.Within j') ∨
      Binary64.units? j.start = some (limit : ℤ) := by
  by_cases hzero : (d == 0) = true
  · rw [clip_along hzero] at h ⊢
    split_ifs at h with hout
    cases h
    refine .inl ⟨i', if_neg ?_, hi⟩
    rintro (hlt | hlt)
    · exact hout (.inl (lt_of_lt_of_le hlt hl))
    · exact hout (.inr (lt_of_le_of_lt hu hlt))
  · obtain ⟨m, n, m', n', hspans, hspans', hm', hm, hn⟩ := hi
    obtain ⟨k, hclip, hstart, hstop⟩ := clip_across hzero lower upper o i
    obtain ⟨k', hclip', hstart', hstop'⟩ := clip_across hzero lower' upper' o i'
    have hstart : (Extended.val k.start).units? = _ := hstart m hspans.start
    have hstop := hstop n hspans.stop
    have hstart' : (Extended.val k'.start).units? = _ := hstart' m' hspans'.start
    have hstop' := hstop' n' hspans'.stop
    have hlimit := limit_pos
    rw [hclip, if_congr (Extended.lt_iff_of_units hstop hstart) rfl rfl] at h
    rw [hclip', if_congr (Extended.lt_iff_of_units hstop' hstart') rfl rfl]
    split_ifs at h with hmiss
    cases h
    have hbounds := units?_bounds hspans.start
    rcases slabEnds_within ho hlower' hlower hupper hupper' hl hlu hu hd hzero hflat with
      hends | hnever | hnever
    · refine .inl ⟨k', if_neg (by omega), _, _, _, _, ⟨hstart, hstop⟩, ⟨hstart', hstop'⟩, ?_⟩
      omega
    · rw [hnever, max_eq_right hbounds.2] at hstart
      exact .inr hstart
    · exact absurd (hm'.trans hm) (by omega)

end Slabs

end Ray

end SolidSurface
