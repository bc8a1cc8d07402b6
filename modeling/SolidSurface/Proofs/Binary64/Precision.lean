import SolidSurface.Proofs.Binary64.Sums

/-! # Relative precision of binary floating point

Above the least normal number rounding is off by at most one part in `2 ^ 53`, and neighbours are at
least that far apart, so a square there tells its root from every larger one. Below, squares of
different numbers may be the same.
-/

namespace SolidSurface.Binary64

open Float.Model
open Float.Model.UnpackedFloat

/-! ## Rounding -/

theorem nearest_error (n s : ℕ) :
    2 * (nearest n s * 2 ^ s) ≤ 2 * n + 2 ^ s ∧ 2 * n ≤ 2 * (nearest n s * 2 ^ s) + 2 ^ s := by
  have hn := Nat.div_add_mod' n (2 ^ s)
  have hr := Nat.mod_lt n (Nat.two_pow_pos s)
  rw [nearest_eq]
  split_ifs with hlt heq
  · omega
  · rcases Nat.mod_two_eq_zero_or_one (n / 2 ^ s) with hq | hq
    · rw [hq, Nat.add_zero]
      omega
    · rw [hq, Nat.add_mul, Nat.one_mul]
      omega
  · rw [Nat.add_mul, Nat.one_mul]
    omega

/-- Where 53 bits are left, rounding is off by at most one part in `2 ^ 53`. -/
theorem rounded_error {k n : ℕ} (h : k + 52 ≤ n.log2) :
    2 ^ 53 * (rounded k n * 2 ^ k) ≤ (2 ^ 53 + 1) * n ∧
      (2 ^ 53 - 1) * n ≤ 2 ^ 53 * (rounded k n * 2 ^ k) := by
  obtain ⟨s, hs⟩ : ∃ s, n.log2 = s + 52 := ⟨n.log2 - 52, by omega⟩
  have hn : n ≠ 0 := by
    rintro rfl
    simp at hs
  have hplaces : places k n = s := by
    unfold places
    omega
  have hvalue : rounded k n * 2 ^ k = nearest n s * 2 ^ s := by
    rw [rounded, hplaces, mul_assoc, ← pow_add, Nat.sub_add_cancel (by omega)]
  have hsize : 2 ^ 52 * 2 ^ s ≤ n := by
    rw [← pow_add, Nat.add_comm 52 s, ← hs]
    exact Nat.log2_self_le hn
  obtain ⟨hhigh, hlow⟩ := nearest_error n s
  rw [hvalue]
  generalize nearest n s * 2 ^ s = a at hhigh hlow
  omega

/-! ## Neighbours -/

/-- Of two floats the smaller one is smaller by at least one part in `2 ^ 53` of the larger one. -/
theorem magnitude_gap {m m' : ℕ} {e e' : ℤ} (h : Canonical m e) (h' : Canonical m' e')
    (hlt : magnitude m e < magnitude m' e') :
    2 ^ 53 * magnitude m e ≤ (2 ^ 53 - 1) * magnitude m' e' := by
  have hm := h.lt
  have hm' := h'.lt
  rcases lt_trichotomy e e' with hless | rfl | hgreater
  · have hexponent := h.exponent
    have hfull : 2 ^ 52 ≤ m' := h'.full.resolve_right (by omega)
    have hpower : 2 ^ ((e + 1074).toNat + 1) ≤ 2 ^ (e' + 1074).toNat :=
      Nat.pow_le_pow_right (by decide) (by omega)
    calc 2 ^ 53 * (m * 2 ^ (e + 1074).toNat)
        ≤ 2 ^ 53 * ((2 ^ 53 - 1) * 2 ^ (e + 1074).toNat) :=
          Nat.mul_le_mul_left _ (Nat.mul_le_mul_right _ (by omega))
      _ = (2 ^ 53 - 1) * (2 ^ 52 * 2 ^ ((e + 1074).toNat + 1)) := by ring
      _ ≤ (2 ^ 53 - 1) * (m' * 2 ^ (e' + 1074).toNat) :=
          Nat.mul_le_mul_left _ (Nat.mul_le_mul hfull hpower)
  · have hless : m < m' := Nat.lt_of_mul_lt_mul_right hlt
    calc 2 ^ 53 * (m * 2 ^ (e + 1074).toNat) = 2 ^ 53 * m * 2 ^ (e + 1074).toNat := by ring
      _ ≤ (2 ^ 53 - 1) * m' * 2 ^ (e + 1074).toNat := Nat.mul_le_mul_right _ (by omega)
      _ = (2 ^ 53 - 1) * (m' * 2 ^ (e + 1074).toNat) := by ring
  · exact absurd hlt (magnitude_lt_of_exponent_lt h' h hgreater).asymm

/-- The size of a number is zero or that of a full mantissa, also where it is infinite. -/
theorem exists_canonical {x : Float} {m : ℤ} (hm : units? x = some m) :
    ∃ a e, Canonical a e ∧ m.natAbs = magnitude a e := by
  have hnatAbs : ∀ (s : Sign) (n : ℕ), (s.apply n).natAbs = n := by
    intro s n
    cases s <;> simp [Sign.apply]
  have hfits := fits_toModel x
  change unpackedUnits? x.toModel.unpack = some m at hm
  cases hu : x.toModel.unpack with
  | notANumber =>
      rw [hu] at hm
      cases hm
  | infinity s =>
      rw [hu] at hm
      cases hm
      exact ⟨2 ^ 52, 972, ⟨by decide, by decide, .inl le_rfl⟩, hnatAbs s _⟩
  | zero s =>
      rw [hu] at hm
      cases hm
      exact ⟨0, -1074, ⟨by decide, by decide, .inr rfl⟩, (Nat.zero_mul _).symm⟩
  | finite s a e ha =>
      rw [hu] at hm hfits
      cases hm
      exact ⟨a, e, hfits.1, hnatAbs s _⟩

/-! ## Squares -/

/-- A gap of one part in `M + 1` between roots is one between their squares, each of which is off by
one part in `M + 1`. -/
theorem square_lt_of_gap {a b A B M : ℕ} (hM : 0 < M) (hb : 0 < b) (hgap : (M + 1) * a ≤ M * b)
    (hA : (M + 1) * A ≤ (M + 2) * (a * a)) (hB : M * (b * b) ≤ (M + 1) * B) : A < B := by
  have hsquare : M * (M + 2) < (M + 1) ^ 2 := by
    have : (M + 1) ^ 2 = M * (M + 2) + 1 := by ring
    omega
  have hcube : (M + 1) ^ 2 * ((M + 1) * A) < (M + 1) ^ 2 * ((M + 1) * B) :=
    calc (M + 1) ^ 2 * ((M + 1) * A) ≤ (M + 1) ^ 2 * ((M + 2) * (a * a)) :=
          Nat.mul_le_mul_left _ hA
      _ = (M + 2) * ((M + 1) * a * ((M + 1) * a)) := by ring
      _ ≤ (M + 2) * (M * b * (M * b)) := Nat.mul_le_mul_left _ (Nat.mul_le_mul hgap hgap)
      _ = M * (M + 2) * (M * (b * b)) := by ring
      _ < (M + 1) ^ 2 * (M * (b * b)) :=
          Nat.mul_lt_mul_of_pos_right hsquare (Nat.mul_pos hM (Nat.mul_pos hb hb))
      _ ≤ (M + 1) ^ 2 * ((M + 1) * B) := Nat.mul_le_mul_left _ hB
  exact Nat.lt_of_mul_lt_mul_left (Nat.lt_of_mul_lt_mul_left hcube)

theorem rounded_square_lt {m m' k : ℕ} {e e' : ℤ} (h : Canonical m e) (h' : Canonical m' e')
    (hlt : magnitude m e < magnitude m' e')
    (hnormal : k + 52 ≤ (magnitude m e * magnitude m e).log2) :
    rounded k (magnitude m e * magnitude m e) < rounded k (magnitude m' e' * magnitude m' e') := by
  have hlarger := log2_mono (Nat.mul_le_mul hlt.le hlt.le)
  have hlow := (rounded_error hnormal).1
  have hhigh := (rounded_error (hnormal.trans hlarger)).2
  have hscaled := square_lt_of_gap (M := 2 ^ 53 - 1) (by decide) (Nat.zero_lt_of_lt hlt)
    (magnitude_gap h h' hlt) hlow hhigh
  exact Nat.lt_of_mul_lt_mul_right hscaled

/-- What is rounded to more than the least normal number has 53 bits to leave. -/
theorem le_log2_of_lt_rounded {k n : ℕ} (h : 2 ^ 52 < rounded k n) : k + 52 ≤ n.log2 := by
  by_contra hlog
  have hle : n ≤ 2 ^ 52 * 2 ^ k := by
    rw [← pow_add, Nat.add_comm]
    exact Nat.lt_log2_self.le.trans (Nat.pow_le_pow_right (by decide) (by omega))
  have hkeep : rounded k (2 ^ 52 * 2 ^ k) = 2 ^ 52 := by
    rw [rounded_mul_two_pow_eq (s := 0) (by decide) (by rw [Nat.log2_two_pow]; omega), Nat.zero_add,
      Nat.sub_self, pow_zero, Nat.mul_one]
    exact nearest_mul_two_pow (2 ^ 52) 0
  exact absurd (rounded_mono k hle) (by omega)

section Floats

variable {x y : Float} {m n : ℤ}

theorem units?_minNormal : units? Scalar.minNormal = some (2 ^ 52) := by
  decide +kernel

theorem units?_mul_self_eq_rounded (hm : units? x = some m) :
    units? (x * x) = some (clamp (rounded 1074 (m.natAbs * m.natAbs))) := by
  rw [units?_mul_self hm, ← Int.natAbs_mul_self]
  exact congrArg (fun k => some (clamp k)) (roundedInt_apply 1074 .positive _)

/-- Where a square is normal and finite, a number with no larger square is no larger itself. -/
theorem natAbs_le_of_mul_self_le (hm : units? x = some m) (hn : units? y = some n)
    (hnormal : Scalar.minNormal < y * y) (hfinite : (y * y).isFinite = true)
    (h : x * x ≤ y * y) : m.natAbs ≤ n.natAbs := by
  obtain ⟨a, e, ha, hma⟩ := exists_canonical hm
  obtain ⟨b, f, hb, hnb⟩ := exists_canonical hn
  have hx := units?_mul_self_eq_rounded hm
  have hy := units?_mul_self_eq_rounded hn
  rw [lt_iff_of_units units?_minNormal hy] at hnormal
  rw [isFinite_iff_of_units hy] at hfinite
  rw [le_iff_of_units hx hy] at h
  unfold clamp at hnormal hfinite h
  by_contra hlt
  have hrounded : rounded 1074 (n.natAbs * n.natAbs) < rounded 1074 (m.natAbs * m.natAbs) := by
    rw [hma, hnb] at hlt ⊢
    rw [hnb] at hnormal
    exact rounded_square_lt hb ha (not_le.mp hlt) (le_log2_of_lt_rounded (by omega))
  omega

end Floats

end SolidSurface.Binary64
