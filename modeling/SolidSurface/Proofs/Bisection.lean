import SolidSurface.Proofs.Closest
import SolidSurface.Proofs.Scalar.Fraction
import Mathlib.Tactic.FieldSimp
import Mathlib.Tactic.Linarith
import Mathlib.Tactic.Positivity
import Mathlib.Tactic.Ring
import SolidSurface.Solid.SurfaceEstimator

/-! # Halving a segment

After `n` halvings the segment that is left over is one of the `2 ^ n` equal parts of the first one,
and its ends still answer differently. Its middle is half of such a part away from both ends, and no
farther from the one point where the answer changes, if there is only one.
-/

namespace SolidSurface

variable {α : Type} [FieldScalar α] {p q : Point α} {s : Solid α}

/-- The point at the fraction `t` of the way from `p` to `q`. -/
def Vec3.toward (p q : Point α) (t : α) : Point α :=
  p + (q - p) * t

namespace Vec3

theorem get_toward (p q : Point α) (t : α) (a : Axis) :
    (p.toward q t).get a = p.get a + (q.get a - p.get a) * t := by
  cases a <;> rfl

theorem get_midpoint (p q : Point α) (a : Axis) :
    (p.midpoint q).get a = (p.get a + q.get a) / 2 := by
  rw [← mul_one_div, ← Scalar.half_eq]
  cases a <;> rfl

theorem toward_zero (p q : Point α) : p.toward q 0 = p := by
  refine ext_get fun a => ?_
  rw [get_toward, mul_zero, add_zero]

theorem toward_one (p q : Point α) : p.toward q 1 = q := by
  refine ext_get fun a => ?_
  rw [get_toward, mul_one, add_sub_cancel]

theorem toward_midpoint (p q : Point α) (t : α) :
    p.toward (p.midpoint q) t = p.toward q (t / 2) := by
  refine ext_get fun a => ?_
  rw [get_toward, get_toward, get_midpoint]
  ring

theorem midpoint_toward (p q : Point α) (t : α) :
    (p.midpoint q).toward q t = p.toward q ((1 + t) / 2) := by
  refine ext_get fun a => ?_
  rw [get_toward, get_toward, get_midpoint]
  ring

theorem midpoint_toward_toward (p q : Point α) (t u : α) :
    (p.toward q t).midpoint (p.toward q u) = p.toward q ((t + u) / 2) := by
  refine ext_get fun a => ?_
  rw [get_midpoint, get_toward, get_toward, get_toward]
  ring

/-- Lengths along a segment are fractions of its length. They are compared by their squares, since
there need not be roots. -/
theorem normSquared_toward_sub (p q : Point α) (t u : α) :
    (p.toward q t - p.toward q u).normSquared = (t - u) ^ 2 * (q - p).normSquared := by
  simp only [normSquared, dot, toward, x_sub, y_sub, z_sub, x_add, y_add, z_add, x_scale, y_scale,
    z_scale]
  ring

theorem normSquared_toward_sub_le {t u w : α} (p q : Point α) (h : |t - u| ≤ w) :
    (p.toward q t - p.toward q u).normSquared ≤ w ^ 2 * (q - p).normSquared := by
  rw [normSquared_toward_sub]
  exact mul_le_mul_of_nonneg_right (sq_le_sq.mpr (h.trans (le_abs_self w))) (normSquared_nonneg _)

end Vec3

/-! ## Halving -/

/-- Of the `2 ^ n` parts of a segment there is one that starts inside and ends outside, and `r` is
its middle. -/
def HalvedTo (s : Solid α) (p q : Point α) (n : Nat) (r : Point α) : Prop :=
  ∃ i : Nat, i < 2 ^ n ∧ s.contains (p.toward q (i / (2 ^ n : Nat))) = true ∧
    s.contains (p.toward q ((i + 1) / (2 ^ n : Nat))) = false ∧
    r = (p.toward q (i / (2 ^ n : Nat))).midpoint (p.toward q ((i + 1) / (2 ^ n : Nat)))

theorem halvedTo_iff {n : Nat} {r : Point α} : HalvedTo s p q n r ↔
    ∃ i : Nat, i < 2 ^ n ∧ s.contains (p.toward q (i / 2 ^ n)) = true ∧
      s.contains (p.toward q ((i + 1) / 2 ^ n)) = false ∧
      r = (p.toward q (i / 2 ^ n)).midpoint (p.toward q ((i + 1) / 2 ^ n)) := by
  simp only [HalvedTo, Nat.cast_pow, Nat.cast_ofNat]

/-- The parts of the second half come after the `2 ^ n` parts of the first one. -/
theorem HalvedTo.of_second_half {n : Nat} {r : Point α} (h : HalvedTo s (p.midpoint q) q n r) :
    HalvedTo s p q (n + 1) r := by
  have hpow : (2 : α) ^ n ≠ 0 := pow_ne_zero n two_ne_zero
  have hpart : ∀ x : α, (p.midpoint q).toward q (x / 2 ^ n) =
      p.toward q ((2 ^ n + x) / 2 ^ (n + 1)) := by
    intro x
    rw [Vec3.midpoint_toward, pow_succ]
    congr 1
    field_simp
  obtain ⟨i, hi, hinside, houtside, hmiddle⟩ := halvedTo_iff.1 h
  rw [hpart] at hinside
  rw [hpart, ← add_assoc] at houtside
  rw [hpart, hpart, ← add_assoc] at hmiddle
  have hlength : 2 ^ (n + 1) = 2 ^ n + 2 ^ n := by rw [pow_succ, Nat.mul_two]
  refine halvedTo_iff.2 ⟨2 ^ n + i, by omega, ?_⟩
  rw [Nat.cast_add, Nat.cast_pow, Nat.cast_ofNat]
  exact ⟨hinside, houtside, hmiddle⟩

theorem HalvedTo.of_first_half {n : Nat} {r : Point α} (h : HalvedTo s p (p.midpoint q) n r) :
    HalvedTo s p q (n + 1) r := by
  have hpart : ∀ x : α, p.toward (p.midpoint q) (x / 2 ^ n) = p.toward q (x / 2 ^ (n + 1)) := by
    intro x
    rw [Vec3.toward_midpoint, pow_succ, div_div]
  obtain ⟨i, hi, hinside, houtside, hmiddle⟩ := halvedTo_iff.1 h
  rw [hpart] at hinside houtside
  rw [hpart, hpart] at hmiddle
  have hlength : 2 ^ (n + 1) = 2 ^ n + 2 ^ n := by rw [pow_succ, Nat.mul_two]
  exact halvedTo_iff.2 ⟨i, by omega, hinside, houtside, hmiddle⟩

theorem halvedTo_zero (hp : s.contains p = true) (hq : s.contains q = false) :
    HalvedTo s p q 0 (p.midpoint q) := by
  refine halvedTo_iff.2 ⟨0, Nat.one_pos, ?_⟩
  rw [Nat.cast_zero, pow_zero, zero_add, div_one, div_one, Vec3.toward_zero, Vec3.toward_one]
  exact ⟨hp, hq, rfl⟩

/-- Halving ends at a change of sides. -/
theorem halvedTo_bisect (hp : s.contains p = true) (hq : s.contains q = false) (n : Nat) :
    HalvedTo s p q n (bisect s p q n) := by
  induction n generalizing p q with
  | zero =>
      rw [bisect_zero]
      exact halvedTo_zero hp hq
  | succ n ih =>
      rw [bisect_succ]
      split_ifs with hin
      · exact (ih hin hq).of_second_half
      · exact (ih hp (Bool.not_eq_true _ ▸ hin)).of_first_half

/-- Where halving ends is strictly between the ends of the segment. -/
theorem HalvedTo.exists_eq_toward {n : Nat} {r : Point α} (h : HalvedTo s p q n r) :
    ∃ t : α, 0 < t ∧ t < 1 ∧ r = p.toward q t := by
  obtain ⟨i, hi, -, -, rfl⟩ := halvedTo_iff.1 h
  have hpos : (0 : α) < 2 ^ n := pow_pos two_pos n
  have hlast : (i : α) + 1 ≤ 2 ^ n := by exact_mod_cast hi
  refine ⟨_, ?_, ?_, Vec3.midpoint_toward_toward p q _ _⟩
  · have hi₀ : (0 : α) ≤ i := Nat.cast_nonneg i
    positivity
  · rw [← add_div, div_div, div_lt_one (by positivity)]
    linarith

/-! ## How far the middle is away -/

/-- Where the answer changes only once, it does so between a point inside and a point outside. -/
theorem between_of_changesOnce {t u c : α} (ht : 0 ≤ t) (htu : t ≤ u) (hu : u ≤ 1)
    (hinside : s.contains (p.toward q t) = true) (houtside : s.contains (p.toward q u) = false)
    (hchange : ∀ x, 0 ≤ x → x ≤ 1 → x ≠ c → (s.contains (p.toward q x) = true ↔ x < c)) :
    t ≤ c ∧ c ≤ u := by
  constructor
  · by_cases heq : t = c
    · exact heq.le
    · exact ((hchange t ht (htu.trans hu) heq).mp hinside).le
  · by_cases heq : u = c
    · exact heq.ge
    · have hnot := mt (hchange u (ht.trans htu) hu heq).mpr (Bool.eq_false_iff.mp houtside)
      exact not_lt.mp hnot

/-- The next of the `2 ^ n` marks on a segment is two half parts further on. -/
theorem next_mark (n i : Nat) :
    ((i + 1 : Nat) : α) / 2 ^ n = i / 2 ^ n + 2 * (1 / 2 ^ (n + 1)) := by
  rw [pow_succ, Nat.cast_add_one]
  field_simp

/-- After `n` halvings of a segment from a point inside to a point outside, the answer is the middle
of one of its `2 ^ n` parts, which starts inside and ends outside. Both ends of that part are half of
its length away, and where the answer changes only once along the segment, so is at most the point
of change. -/
theorem bisect_brackets (hp : s.contains p = true) (hq : s.contains q = false) (n : Nat) :
    let mark := fun i : Nat => p.toward q (i / 2 ^ n)
    let r := bisect s p q n
    ∃ i : Nat, i < 2 ^ n ∧ s.contains (mark i) = true ∧ s.contains (mark (i + 1)) = false ∧
      r = (mark i).midpoint (mark (i + 1)) ∧
      (r - mark i).normSquared = (q - p).normSquared / (2 ^ (n + 1)) ^ 2 ∧
      (r - mark (i + 1)).normSquared = (q - p).normSquared / (2 ^ (n + 1)) ^ 2 ∧
      ∀ c, (∀ t, 0 ≤ t → t ≤ 1 → t ≠ c → (s.contains (p.toward q t) = true ↔ t < c)) →
        (r - p.toward q c).normSquared ≤ (q - p).normSquared / (2 ^ (n + 1)) ^ 2 := by
  intro mark r
  obtain ⟨i, hi, hinside, houtside, hmiddle⟩ := halvedTo_iff.mp (halvedTo_bisect hp hq n)
  rw [← Nat.cast_add_one] at houtside hmiddle
  have hr : r = p.toward q (i / 2 ^ n + 1 / 2 ^ (n + 1)) := by
    rw [show r = _ from hmiddle, Vec3.midpoint_toward_toward, next_mark]
    congr 1
    ring
  have hlength : (q - p).normSquared / (2 ^ (n + 1)) ^ 2 =
      (1 / 2 ^ (n + 1)) ^ 2 * (q - p).normSquared := by
    rw [div_eq_mul_one_div, mul_comm, one_div_pow]
  refine ⟨i, hi, hinside, houtside, hmiddle, ?_, ?_, fun c hchange => ?_⟩
  · rw [hr, hlength, Vec3.normSquared_toward_sub, add_sub_cancel_left]
  · rw [hr, hlength, Vec3.normSquared_toward_sub, next_mark]
    ring
  · have hlast : ((i + 1 : Nat) : α) / 2 ^ n ≤ 1 := by
      rw [div_le_one (by positivity)]
      exact_mod_cast hi
    have hhalf : (0 : α) ≤ 1 / 2 ^ (n + 1) := by positivity
    rw [next_mark] at houtside hlast
    obtain ⟨hafter, hbefore⟩ := between_of_changesOnce (by positivity) (by linarith) hlast hinside
      houtside hchange
    rw [hr, hlength]
    refine Vec3.normSquared_toward_sub_le p q (abs_le.mpr ⟨?_, ?_⟩) <;> linarith

/-- Along the x axis the answer changes at -1, 0 and 1. -/
def twoSlabs : Solid Fraction :=
  ⟨⟨⟨-1, 0, 0⟩, ⟨1, 0, 0⟩⟩, fun p => decide (p.x < -1 ∨ 0 ≤ p.x ∧ p.x ≤ 1)⟩

/-- A segment on which the answer changes three times, and one on which it changes once. -/
theorem bisect_brackets_twoSlabs :
    (∃ i : Nat, i < 2 ^ 5 ∧
        twoSlabs.contains (Vec3.toward ⟨-2, 0, 0⟩ ⟨2, 0, 0⟩ (i / 2 ^ 5)) = true ∧
        twoSlabs.contains (Vec3.toward ⟨-2, 0, 0⟩ ⟨2, 0, 0⟩ ((i + 1 : Nat) / 2 ^ 5)) = false) ∧
      (bisect twoSlabs ⟨-2, 0, 0⟩ ⟨-1 / 2, 0, 0⟩ 5 -
        Vec3.toward ⟨-2, 0, 0⟩ ⟨-1 / 2, 0, 0⟩ (2 / 3)).normSquared ≤
          ((⟨-1 / 2, 0, 0⟩ : Point Fraction) - ⟨-2, 0, 0⟩).normSquared / (2 ^ 6) ^ 2 := by
  have hin : twoSlabs.contains ⟨-2, 0, 0⟩ = true := by decide +kernel
  have hfar : twoSlabs.contains ⟨2, 0, 0⟩ = false := by decide +kernel
  have hnear : twoSlabs.contains ⟨-1 / 2, 0, 0⟩ = false := by decide +kernel
  obtain ⟨i, hi, hinside, houtside, -⟩ := bisect_brackets hin hfar 5
  obtain ⟨-, -, -, -, -, -, -, honce⟩ := bisect_brackets hin hnear 5
  refine ⟨⟨i, hi, hinside, houtside⟩, honce (2 / 3) fun t _ ht _ => ?_⟩
  have hx : (Vec3.toward ⟨-2, 0, 0⟩ ⟨-1 / 2, 0, 0⟩ t : Point Fraction).x = -2 + 3 / 2 * t := by
    change -2 + (-1 / 2 - -2) * t = -2 + 3 / 2 * t
    ring
  simp only [twoSlabs, hx, decide_eq_true_eq]
  constructor
  · rintro (h | ⟨h, -⟩) <;> linarith
  · intro h
    left
    linarith

end SolidSurface
