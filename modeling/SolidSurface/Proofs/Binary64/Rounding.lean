import SolidSurface.Proofs.Binary64.Units

/-! # Rounding of binary floating point

An operation computes an exact mantissa and exponent, cuts off places until 53 bits are left, and
rounds by what was cut off. Counted in units this is one function of the exact result, and it is
monotone.
-/

namespace SolidSurface.Binary64

open Float.Model
open Float.Model.UnpackedFloat

/-! ## Cutting off places -/

/-- `m / 2 ^ s` rounded to the nearest integer, halves to the even one. -/
def nearest (m s : ℕ) : ℕ :=
  Accuracy.roundToNearestEven (m / 2 ^ s) (accuracyOfFraction (m % 2 ^ s) (2 ^ s))

theorem nearest_eq (m s : ℕ) :
    nearest m s =
      if 2 * (m % 2 ^ s) < 2 ^ s then m / 2 ^ s
      else if 2 * (m % 2 ^ s) = 2 ^ s then m / 2 ^ s + m / 2 ^ s % 2
      else m / 2 ^ s + 1 := by
  have hp : 0 < 2 ^ s := Nat.two_pow_pos s
  rw [nearest, accuracyOfFraction]
  split_ifs with hzero hlt heq hlt heq
  · rfl
  · omega
  · omega
  · rw [compare_lt_iff_lt.mpr hlt]
    rfl
  · rw [compare_eq_iff_eq.mpr heq]
    rfl
  · rw [compare_gt_iff_gt.mpr (by omega)]
    rfl

theorem roundedMantissa_ofMantissaAndAccuracy (m : ℕ) (a : Accuracy) :
    (ExtendedMantissa.ofMantissaAndAccuracy m a).roundedMantissa = a.roundToNearestEven m := by
  rcases a with _ | _ | _ | _ <;> rfl

theorem shiftRightOne_ofMantissaAndAccuracy {q r d : ℕ} (hr : r < d) :
    (ExtendedMantissa.ofMantissaAndAccuracy q (accuracyOfFraction r d)).shiftRightOne =
      ExtendedMantissa.ofMantissaAndAccuracy (q / 2)
        (accuracyOfFraction (r + d * (q % 2)) (d * 2)) := by
  rcases Nat.mod_two_eq_zero_or_one q with hq | hq
  · rw [hq, Nat.mul_zero, Nat.add_zero]
    have hlt : compare (2 * r) (d * 2) = .lt := compare_lt_iff_lt.mpr (by omega)
    by_cases hr₀ : r = 0
    · simp [accuracyOfFraction, hr₀, hq, ExtendedMantissa.ofMantissaAndAccuracy,
        ExtendedMantissa.shiftRightOne]
    · rw [accuracyOfFraction, accuracyOfFraction, if_neg hr₀, if_neg hr₀, hlt]
      cases compare (2 * r) d <;>
        simp [hq, ExtendedMantissa.ofMantissaAndAccuracy, ExtendedMantissa.shiftRightOne]
  · rw [hq, Nat.mul_one]
    have hne : r + d ≠ 0 := by omega
    by_cases hr₀ : r = 0
    · have heq : compare (2 * (r + d)) (d * 2) = .eq := compare_eq_iff_eq.mpr (by omega)
      rw [accuracyOfFraction, accuracyOfFraction, if_pos hr₀, if_neg hne, heq]
      simp [hq, ExtendedMantissa.ofMantissaAndAccuracy, ExtendedMantissa.shiftRightOne]
    · have hgt : compare (2 * (r + d)) (d * 2) = .gt := compare_gt_iff_gt.mpr (by omega)
      rw [accuracyOfFraction, accuracyOfFraction, if_neg hr₀, if_neg hne, hgt]
      cases compare (2 * r) d <;>
        simp [hq, ExtendedMantissa.ofMantissaAndAccuracy, ExtendedMantissa.shiftRightOne]

theorem shiftRight_ofMantissaAndAccuracy (m s : ℕ) :
    ExtendedMantissa.ofMantissaAndAccuracy m .exact >>> s =
      ExtendedMantissa.ofMantissaAndAccuracy (m / 2 ^ s)
        (accuracyOfFraction (m % 2 ^ s) (2 ^ s)) := by
  change Nat.repeat ExtendedMantissa.shiftRightOne s _ = _
  induction s with
  | zero => simp [Nat.repeat, accuracyOfFraction, Nat.mod_one]
  | succ s ih =>
      rw [Nat.repeat, ih, shiftRightOne_ofMantissaAndAccuracy (Nat.mod_lt _ (Nat.two_pow_pos s)),
        Nat.mod_pow_succ, Nat.pow_succ, Nat.div_div_eq_div_mul]

/-! ## Rounding to an integer -/

theorem nearest_mono {m n : ℕ} (h : m ≤ n) (s : ℕ) : nearest m s ≤ nearest n s := by
  have hp : 0 < 2 ^ s := Nat.two_pow_pos s
  have hdiv : m / 2 ^ s ≤ n / 2 ^ s := Nat.div_le_div_right h
  have hm := Nat.div_add_mod m (2 ^ s)
  have hn := Nat.div_add_mod n (2 ^ s)
  rw [nearest_eq, nearest_eq]
  rcases hdiv.lt_or_eq with hlt | heq
  · split_ifs <;> omega
  · rw [heq] at hm ⊢
    split_ifs <;> omega

theorem nearest_mul_two_pow (a s : ℕ) : nearest (a * 2 ^ s) s = a := by
  have hp : 0 < 2 ^ s := Nat.two_pow_pos s
  rw [nearest_eq, Nat.mul_mod_left, Nat.mul_div_cancel _ hp, if_pos (by omega)]

theorem nearest_mul_two_pow_add (m s j : ℕ) : nearest (m * 2 ^ j) (s + j) = nearest m s := by
  have hp : 0 < 2 ^ j := Nat.two_pow_pos j
  rw [nearest_eq, nearest_eq, pow_add, Nat.mul_div_mul_right _ _ hp, Nat.mul_mod_mul_right,
    ← Nat.mul_assoc]
  simp only [Nat.mul_lt_mul_right hp, Nat.mul_left_inj hp.ne']

/-! ## Rounding to 53 bits -/

/-- How many places of `n` are cut off to leave 53 bits and whole multiples of `2 ^ k`. -/
def places (k n : ℕ) : ℕ :=
  max (n.log2 - 52) k

/-- `n / 2 ^ k` rounded to a whole number of 53 bits. -/
def rounded (k n : ℕ) : ℕ :=
  nearest n (places k n) * 2 ^ (places k n - k)

theorem log2_mono {m n : ℕ} (h : m ≤ n) : m.log2 ≤ n.log2 := by
  rcases Nat.eq_zero_or_pos m with rfl | hm
  · exact Nat.zero_le _
  · exact (Nat.le_log2 (by omega)).mpr ((Nat.log2_self_le hm.ne').trans h)

theorem rounded_mono (k : ℕ) {m n : ℕ} (h : m ≤ n) : rounded k m ≤ rounded k n := by
  have hlog := log2_mono h
  rcases (show places k m ≤ places k n by unfold places; omega).eq_or_lt with heq | hlt
  · rw [rounded, rounded, heq]
    exact Nat.mul_le_mul_right _ (nearest_mono h _)
  · -- Between the two lies a power of two, which both places keep.
    have hplaces : places k n = n.log2 - 52 := by unfold places at hlt ⊢; omega
    have hn : n ≠ 0 := by rintro rfl; simp [places] at hlt
    have hlow : m ≤ 2 ^ n.log2 :=
      (Nat.lt_log2_self.trans_le (Nat.pow_le_pow_right (by decide)
        (by unfold places at hlt hplaces; omega))).le
    have hpivot : ∀ s, k ≤ s → s ≤ places k n →
        nearest (2 ^ n.log2) s * 2 ^ (s - k) = 2 ^ (n.log2 - k) := by
      intro s hks hs
      have h₁ : 2 ^ n.log2 = 2 ^ (n.log2 - s) * 2 ^ s := by rw [← pow_add]; congr 1; omega
      rw [h₁, nearest_mul_two_pow, ← pow_add]
      congr 1
      omega
    calc rounded k m ≤ nearest (2 ^ n.log2) (places k m) * 2 ^ (places k m - k) :=
          Nat.mul_le_mul_right _ (nearest_mono hlow _)
      _ = nearest (2 ^ n.log2) (places k n) * 2 ^ (places k n - k) := by
          rw [hpivot (places k m) (le_max_right _ _) hlt.le,
            hpivot (places k n) (le_max_right _ _) le_rfl]
      _ ≤ rounded k n := Nat.mul_le_mul_right _ (nearest_mono (Nat.log2_self_le hn) _)

theorem log2_mul_two_pow {m : ℕ} (hm : m ≠ 0) (j : ℕ) : (m * 2 ^ j).log2 = m.log2 + j := by
  have hp : 0 < 2 ^ j := Nat.two_pow_pos j
  rw [Nat.log2_eq_iff (Nat.mul_ne_zero hm hp.ne'), pow_add, Nat.add_right_comm, pow_add]
  exact ⟨Nat.mul_le_mul_right _ (Nat.log2_self_le hm),
    Nat.mul_lt_mul_of_pos_right Nat.lt_log2_self hp⟩

/-- What has 53 bits stays as it is. -/
theorem rounded_mul_two_pow {m : ℕ} (hm : m < 2 ^ 53) (j : ℕ) :
    rounded 0 (m * 2 ^ j) = m * 2 ^ j := by
  rcases Nat.eq_zero_or_pos m with rfl | hpos
  · simp [rounded, nearest_eq]
  · have hlog : m.log2 < 53 := (Nat.log2_lt hpos.ne').mpr hm
    have hs : places 0 (m * 2 ^ j) ≤ j := by
      rw [places, log2_mul_two_pow hpos.ne']
      omega
    have hsplit : m * 2 ^ j =
        m * 2 ^ (j - places 0 (m * 2 ^ j)) * 2 ^ places 0 (m * 2 ^ j) := by
      rw [mul_assoc, ← pow_add, Nat.sub_add_cancel hs]
    have hnearest :=
      nearest_mul_two_pow (m * 2 ^ (j - places 0 (m * 2 ^ j))) (places 0 (m * 2 ^ j))
    rw [← hsplit] at hnearest
    rw [rounded, Nat.sub_zero, hnearest, ← hsplit]

/-- Rounding asks for the value only, not for the mantissa and exponent it is written with. -/
theorem rounded_mul_two_pow_eq {m j k s : ℕ} (hm : m ≠ 0) (hs : s + j = max (m.log2 + j - 52) k) :
    rounded k (m * 2 ^ j) = nearest m s * 2 ^ (s + j - k) := by
  have hplaces : places k (m * 2 ^ j) = s + j := by
    rw [places, log2_mul_two_pow hm, hs]
  rw [rounded, hplaces, nearest_mul_two_pow_add]

theorem nearest_le {m s : ℕ} (h : m.log2 ≤ s + 52) : nearest m s ≤ 2 ^ 53 := by
  have hle : m ≤ 2 ^ 53 * 2 ^ s := by
    rw [← pow_add]
    exact Nat.lt_log2_self.le.trans (Nat.pow_le_pow_right (by decide) (by omega))
  exact (nearest_mono hle s).trans_eq (nearest_mul_two_pow _ _)

theorem le_nearest {m s : ℕ} (hm : m ≠ 0) (h : s + 52 ≤ m.log2) : 2 ^ 52 ≤ nearest m s := by
  have hle : 2 ^ 52 * 2 ^ s ≤ m := by
    rw [← pow_add]
    exact (Nat.pow_le_pow_right (by decide) (by omega)).trans (Nat.log2_self_le hm)
  exact (nearest_mul_two_pow _ _).symm.trans_le (nearest_mono hle s)

/-! ## Rounding a mantissa and exponent -/

/-- The exponent after rounding. -/
def targetOf (m : ℕ) (e : ℤ) : ℤ :=
  max (m.log2 + e - 52) (-1074)

theorem targetExponent_eq (m : ℕ) (e : ℤ) :
    Format.binary64.targetExponent (totalExponent m e) = targetOf m e := by
  simp only [Format.targetExponent, totalExponent, Format.mantissaBits, Format.minExponent,
    targetOf]
  norm_num
  omega

theorem shiftToTargetExponent_eq (m : ℕ) (e : ℤ) :
    shiftToTargetExponent Format.binary64 m e .exact =
      let s := (targetOf m e - e).toNat
      (ExtendedMantissa.ofMantissaAndAccuracy (m / 2 ^ s)
        (accuracyOfFraction (m % 2 ^ s) (2 ^ s)), e + s) := by
  rw [shiftToTargetExponent, targetExponent_eq, shiftToExponent, shiftRight_ofMantissaAndAccuracy]

/-- A mantissa of at most 53 bits is left alone, and one bit more is shifted out. -/
theorem shiftToTargetExponent_of_le {r : ℕ} {e : ℤ} (hr : r ≤ 2 ^ 53) (he : -1074 ≤ e) :
    (r < 2 ^ 53 → shiftToTargetExponent Format.binary64 r e .exact = (⟨r, false, false⟩, e)) ∧
      (r = 2 ^ 53 → shiftToTargetExponent Format.binary64 r e .exact =
        (⟨2 ^ 52, false, false⟩, e + 1)) := by
  rw [shiftToTargetExponent_eq]
  constructor
  · intro hlt
    have hlog : r.log2 ≤ 52 := by
      rcases Nat.eq_zero_or_pos r with rfl | hpos
      · simp
      · exact Nat.lt_succ_iff.mp ((Nat.log2_lt hpos.ne').mpr hlt)
    have htarget : (targetOf r e - e).toNat = 0 := by unfold targetOf; omega
    simp [htarget, accuracyOfFraction, ExtendedMantissa.ofMantissaAndAccuracy, Nat.mod_one]
  · rintro rfl
    have htarget : (targetOf (2 ^ 53) e - e).toNat = 1 := by
      rw [targetOf, Nat.log2_two_pow]
      omega
    rw [htarget]
    rfl

/-- What rounding leaves: a canonical mantissa and exponent, of which the latter may be too large
for the bits of a float. -/
def IsRounded : UnpackedFloat → Prop
  | .finite _ m e _ => Canonical m e
  | _ => True

theorem roundWithAccuracy_of_shifts {f : Format} {s : Sign} {m : ℕ} {e e₁ e₂ : ℤ} {a : Accuracy}
    {em₁ em₂ : ExtendedMantissa} (h₁ : shiftToTargetExponent f m e a = (em₁, e₁))
    (h₂ : shiftToTargetExponent f em₁.roundedMantissa e₁ .exact = (em₂, e₂)) :
    roundWithAccuracy f s m e a =
      if h : em₂.mantissa = 0 then .zero s
      else .finite s em₂.mantissa e₂ (Nat.pos_of_ne_zero h) := by
  simp only [roundWithAccuracy, h₁, h₂]

/-- After the first shift and its rounding there are 53 bits left or, by a carry, one more. -/
theorem roundWithAccuracy_of_le {s : Sign} {m : ℕ} {e e' : ℤ} {a : Accuracy} {em : ExtendedMantissa}
    (hfirst : shiftToTargetExponent Format.binary64 m e a = (em, e'))
    (hle : em.roundedMantissa ≤ 2 ^ 53) (hmin : -1074 ≤ e')
    (hfull : 2 ^ 52 ≤ em.roundedMantissa ∨ e' = -1074) :
    IsRounded (roundWithAccuracy Format.binary64 s m e a) ∧
      unpackedUnits? (roundWithAccuracy Format.binary64 s m e a) =
        some (s.apply (magnitude em.roundedMantissa e')) := by
  obtain ⟨hkeep, hcarry⟩ := shiftToTargetExponent_of_le hle hmin
  rcases hle.lt_or_eq with hlt | heq
  · rw [roundWithAccuracy_of_shifts hfirst (hkeep hlt)]
    split
    · rename_i hzero
      refine ⟨trivial, ?_⟩
      rw [show em.roundedMantissa = 0 from hzero, magnitude, Nat.zero_mul]
      cases s <;> rfl
    · exact ⟨⟨hlt, hmin, hfull⟩, rfl⟩
  · rw [roundWithAccuracy_of_shifts hfirst (hcarry heq), dif_neg (by decide)]
    refine ⟨⟨by decide, by omega, .inl le_rfl⟩, congrArg (fun n : ℕ => some (s.apply n)) ?_⟩
    rw [heq, magnitude, magnitude, show (e' + 1 + 1074).toNat = (e' + 1074).toNat + 1 by omega]
    ring

/-- Rounding a mantissa and exponent rounds the number of units, which is counted in parts of a unit
of which `2 ^ k` make one. -/
theorem roundWithAccuracy_spec {s : Sign} {m : ℕ} {e : ℤ} (k : ℕ) (hm : m ≠ 0)
    (he : -1074 - k ≤ e) (htarget : e ≤ targetOf m e) :
    IsRounded (roundWithAccuracy Format.binary64 s m e .exact) ∧
      unpackedUnits? (roundWithAccuracy Format.binary64 s m e .exact) =
        some (s.apply (rounded k (m * 2 ^ (e + 1074 + k).toNat))) := by
  obtain ⟨c, hc⟩ : ∃ c : ℕ, targetOf m e = e + c := ⟨(targetOf m e - e).toNat, by omega⟩
  have hmin : -1074 ≤ e + c := hc ▸ le_max_right _ _
  have hmax : m.log2 + e - 52 ≤ e + c := hc ▸ le_max_left _ _
  have hvalue : rounded k (m * 2 ^ (e + 1074 + k).toNat) = magnitude (nearest m c) (e + c) := by
    rw [rounded_mul_two_pow_eq (s := c) hm (by unfold targetOf at hc; omega), magnitude]
    congr 2
    omega
  obtain ⟨em, hfirst, hem⟩ : ∃ em, shiftToTargetExponent Format.binary64 m e .exact = (em, e + c) ∧
      em.roundedMantissa = nearest m c := by
    rw [shiftToTargetExponent_eq, hc, add_sub_cancel_left, Int.toNat_natCast]
    exact ⟨_, rfl, roundedMantissa_ofMantissaAndAccuracy _ _⟩
  rw [hvalue, ← hem]
  refine roundWithAccuracy_of_le hfirst (hem ▸ nearest_le (by omega)) hmin ?_
  -- A mantissa that is not full has met the least exponent.
  rcases hmin.eq_or_lt with hleast | hgreater
  · exact .inr hleast.symm
  · exact .inl (hem ▸ le_nearest hm (by unfold targetOf at hc; omega))

theorem mantissa_shiftRight (em : ExtendedMantissa) (c : ℕ) :
    (em >>> c).mantissa = em.mantissa / 2 ^ c := by
  change (Nat.repeat ExtendedMantissa.shiftRightOne c em).mantissa = _
  induction c with
  | zero => exact (Nat.div_one _).symm
  | succ c ih =>
      rw [Nat.repeat, ExtendedMantissa.shiftRightOne, ih, Nat.div_div_eq_div_mul, Nat.pow_succ]

theorem roundedMantissa_bounds (em : ExtendedMantissa) :
    em.mantissa ≤ em.roundedMantissa ∧ em.roundedMantissa ≤ em.mantissa + 1 := by
  obtain ⟨m, _ | _, _ | _⟩ := em <;>
    simp only [ExtendedMantissa.roundedMantissa, ExtendedMantissa.accuracy,
      Accuracy.roundToNearestEven] <;> omega

/-- A mantissa that is full or has the least exponent does not vanish, however it is rounded. -/
theorem roundWithAccuracy_ne_zero {m : ℕ} {e : ℤ} (s : Sign) (a : Accuracy) (hm : m ≠ 0)
    (hmin : -1074 ≤ e) (hfull : 2 ^ 52 ≤ m ∨ e = -1074) :
    IsRounded (roundWithAccuracy Format.binary64 s m e a) ∧ ∃ k : ℕ, 0 < k ∧
      unpackedUnits? (roundWithAccuracy Format.binary64 s m e a) = some (s.apply k) := by
  have hlog : 2 ^ 52 ≤ m → 52 ≤ m.log2 := (Nat.le_log2 hm).mpr
  obtain ⟨c, hc⟩ : ∃ c, m.log2 - 52 = c := ⟨_, rfl⟩
  have htarget : (targetOf m e - e).toNat = c := by
    unfold targetOf
    omega
  obtain ⟨em, hem, hmantissa⟩ : ∃ em, shiftToTargetExponent Format.binary64 m e a = (em, e + c) ∧
      em.mantissa = m / 2 ^ c := by
    refine ⟨ExtendedMantissa.ofMantissaAndAccuracy m a >>> c, ?_, ?_⟩
    · rw [shiftToTargetExponent, targetExponent_eq, shiftToExponent, htarget]
    · rw [mantissa_shiftRight]
      rcases a with _ | _ | _ | _ <;> rfl
  obtain ⟨hlow, hhigh⟩ := roundedMantissa_bounds em
  rw [hmantissa] at hlow hhigh
  have hlt : m / 2 ^ c < 2 ^ 53 := by
    rw [Nat.div_lt_iff_lt_mul (Nat.two_pow_pos c), ← pow_add]
    exact Nat.lt_log2_self.trans_le (Nat.pow_le_pow_right (by decide) (by omega))
  have hge : 2 ^ (m.log2 - c) ≤ m / 2 ^ c := by
    rw [Nat.le_div_iff_mul_le (Nat.two_pow_pos c), ← pow_add, Nat.sub_add_cancel (by omega)]
    exact Nat.log2_self_le hm
  have hpos : 0 < em.roundedMantissa := (Nat.two_pow_pos _).trans_le (hge.trans hlow)
  obtain ⟨hrounded, hunits⟩ := roundWithAccuracy_of_le (s := s) hem (by omega) (by omega) <| by
    rcases hfull with hfull | hleast
    · have := hlog hfull
      rw [show m.log2 - c = 52 by omega] at hge
      exact .inl (hge.trans hlow)
    · rcases Nat.eq_zero_or_pos c with rfl | hcpos
      · exact .inr (by omega)
      · rw [show m.log2 - c = 52 by omega] at hge
        exact .inl (hge.trans hlow)
  exact ⟨hrounded, _, magnitude_pos hpos _, hunits⟩

theorem decreaseExponent_eq (m : ℕ) (e t : ℤ) :
    decreaseExponent m e t = (m * 2 ^ (e - t).toNat, e - (e - t).toNat) := by
  rw [decreaseExponent, Nat.shiftLeft_eq]

theorem round_spec {s : Sign} {m : ℕ} {e : ℤ} (hm : m ≠ 0) (he : -1074 ≤ e) :
    IsRounded (UnpackedFloat.round Format.binary64 s m e) ∧
      unpackedUnits? (UnpackedFloat.round Format.binary64 s m e) =
        some (s.apply (rounded 0 (m * 2 ^ (e + 1074).toNat))) := by
  simp only [UnpackedFloat.round, targetExponent_eq, decreaseExponent_eq]
  obtain ⟨c, hc⟩ : ∃ c : ℕ, (e - targetOf m e).toNat = c := ⟨_, rfl⟩
  have hlow : -1074 ≤ targetOf m e := le_max_right _ _
  have hp : 2 ^ c ≠ 0 := (Nat.two_pow_pos c).ne'
  have htarget : targetOf (m * 2 ^ c) (e - c) = targetOf m e := by
    rw [targetOf, targetOf, log2_mul_two_pow hm]
    congr 1
    push_cast
    ring
  have hspec := roundWithAccuracy_spec (s := s) (e := e - c) 0 (Nat.mul_ne_zero hm hp)
    (by omega) (by omega)
  have hvalue : m * 2 ^ c * 2 ^ (e - c + 1074 + (0 : ℕ)).toNat = m * 2 ^ (e + 1074).toNat := by
    rw [mul_assoc, ← pow_add]
    congr 2
    omega
  rwa [hvalue, ← hc] at hspec

/-! ## Signs -/

/-- Rounding to 53 bits on both sides of zero. -/
def roundedInt (k : ℕ) (n : ℤ) : ℤ :=
  if n < 0 then -(rounded k n.natAbs) else rounded k n.natAbs

theorem rounded_zero (k : ℕ) : rounded k 0 = 0 := by
  simp [rounded, nearest_eq]

theorem roundedInt_zero (k : ℕ) : roundedInt k 0 = 0 := by
  rw [roundedInt, if_neg (lt_irrefl 0), Int.natAbs_zero, rounded_zero, Nat.cast_zero]

theorem roundedInt_apply (k : ℕ) (s : Sign) (n : ℕ) :
    roundedInt k (s.apply n) = s.apply (rounded k n) := by
  rcases Nat.eq_zero_or_pos n with rfl | hn
  · cases s <;> simp [roundedInt, Sign.apply, rounded_zero]
  · cases s
    · simp [roundedInt, Sign.apply, hn]
    · rw [roundedInt, Sign.apply, if_neg (by omega), Int.natAbs_natCast]
      rfl

theorem roundedInt_mono (k : ℕ) {m n : ℤ} (h : m ≤ n) : roundedInt k m ≤ roundedInt k n := by
  rw [roundedInt, roundedInt]
  split_ifs with hm hn hn
  · have := rounded_mono k (m := n.natAbs) (n := m.natAbs) (by omega)
    omega
  · omega
  · omega
  · have := rounded_mono k (m := m.natAbs) (n := n.natAbs) (by omega)
    omega

theorem apply_natCast_mul (s : Sign) (a b : ℕ) : s.apply a * b = s.apply (a * b : ℕ) := by
  cases s <;> simp [Sign.apply]

theorem normalize_spec (n : ℤ) {e : ℤ} (he : -1074 ≤ e) (s : Sign) :
    IsRounded (UnpackedFloat.normalize Format.binary64 n e s) ∧
      unpackedUnits? (UnpackedFloat.normalize Format.binary64 n e s) =
        some (roundedInt 0 (n * (2 ^ (e + 1074).toNat : ℕ))) := by
  rw [UnpackedFloat.normalize]
  rcases lt_trichotomy n 0 with hlt | rfl | hgt
  · rw [compare_lt_iff_lt.mpr hlt]
    obtain ⟨a, ha, rfl⟩ : ∃ a : ℕ, a ≠ 0 ∧ n = Sign.negative.apply a :=
      ⟨n.natAbs, by omega, by simp only [Sign.apply]; omega⟩
    rw [apply_natCast_mul, roundedInt_apply, Sign.apply, neg_neg, Int.toNat_natCast]
    exact round_spec ha he
  · rw [compare_eq_iff_eq.mpr rfl, zero_mul, roundedInt_zero]
    exact ⟨trivial, rfl⟩
  · rw [compare_gt_iff_gt.mpr hgt]
    obtain ⟨a, ha, rfl⟩ : ∃ a : ℕ, a ≠ 0 ∧ n = Sign.positive.apply a :=
      ⟨n.natAbs, by omega, by simp only [Sign.apply]; omega⟩
    rw [apply_natCast_mul, roundedInt_apply, Sign.apply, Int.toNat_natCast]
    exact round_spec ha he

end SolidSurface.Binary64
