import SolidSurface.Proofs.Binary64.Rounding

/-! # Arithmetic of binary floating point

The difference and the product of two finite floats are the exact ones in units, rounded to 53 bits,
and infinite beyond the largest float. Both are monotone in the first operand, so a comparison of
floats outlives a shift and a change of scale.
-/

namespace SolidSurface.Binary64

open Float.Model
open Float.Model.UnpackedFloat

/-! ## Packing -/

/-- What lies beyond the finite floats is infinite. -/
def clamp (n : ℤ) : ℤ :=
  max (-limit) (min n limit)

theorem unpackSign_packComponents {f : Format} (s : Sign) (e : BitVec f.exponentBits)
    (m : BitVec f.mantissaBitsWithoutImplicit) :
    unpackSign (packComponents f s e m) = s.toBitVec := by
  ext i hi
  obtain rfl : i = 0 := by omega
  simp [unpackSign, packComponents, BitVec.getLsbD_append, BitVec.getElem_append]

theorem units_packComponents (s : Sign) (e : BitVec 11) (m : BitVec 52) :
    unpackedUnits? (UnpackedFloat.unpack Format.binary64 (packComponents Format.binary64 s e m)) =
      if e.toNat = 2047 then if m.toNat = 0 then some (s.apply limit) else none
      else if e.toNat = 0 then some (s.apply (magnitude m.toNat (-1074)))
      else some (s.apply (magnitude (2 ^ 52 + m.toNat) (e.toNat - 1075))) := by
  have htop : e = -1#11 ↔ e.toNat = 2047 := by
    rw [← BitVec.toNat_inj]
    rfl
  have hnil : e = 0#11 ↔ e.toNat = 0 := by
    rw [← BitVec.toNat_inj]
    rfl
  have hnone : m = 0#52 ↔ m.toNat = 0 := by
    rw [← BitVec.toNat_inj]
    rfl
  have hsign : Sign.ofBitVec s.toBitVec = s := by cases s <;> rfl
  simp only [UnpackedFloat.unpack, unpackMantissa_packComponents, unpackExponent_packComponents,
    unpackSign_packComponents, hsign, htop, hnil, hnone]
  split_ifs with hinfinite hmantissa hsubnormal hzero
  · rfl
  · rfl
  · rw [hzero, magnitude, Nat.zero_mul]
    cases s <;> rfl
  · rw [unpackedUnits?, hsubnormal]
    rfl
  · rw [unpackedUnits?, append_one]
    congr 3

theorem clamp_of_lt {n : ℤ} (h : -limit < n) (h' : n < limit) : clamp n = n := by
  rw [clamp, min_eq_left h'.le, max_eq_right h.le]

theorem clamp_apply (s : Sign) {n : ℕ} (h : limit ≤ n) : clamp (s.apply n) = s.apply limit := by
  cases s <;> simp only [clamp, Sign.apply] <;> omega

theorem clamp_magnitude (s : Sign) {m : ℕ} {e : ℤ} (h : Canonical m e) (he : e ≤ 971) :
    clamp (s.apply (magnitude m e)) = s.apply (magnitude m e) := by
  have hlt := magnitude_lt_limit h he
  apply clamp_of_lt <;> cases s <;> simp only [Sign.apply] <;> omega

theorem limit_le_magnitude {m : ℕ} {e : ℤ} (h : Canonical m e) (he : 972 ≤ e) :
    limit ≤ magnitude m e :=
  Nat.mul_le_mul (h.full.resolve_right (by omega))
    (Nat.pow_le_pow_right (by decide) (by omega))

theorem pack_finite_eq {s : Sign} {m : ℕ} {e : ℤ} {hm : 0 < m} (h : Canonical m e) :
    UnpackedFloat.pack Format.binary64 (.finite s m e hm) =
      if 972 ≤ e then packComponents Format.binary64 s (-1#11) 0#52
      else if 2 ^ 52 ≤ m then packComponents Format.binary64 s
        (BitVec.ofNat 11 (e + 1075).toNat) (BitVec.ofNat 52 m)
      else packComponents Format.binary64 s 0#11 (BitVec.ofNat 52 m) := by
  have hexponent := h.exponent
  have hbiased : (e + Format.binary64.exponentBias + (52 : ℕ)).toNat = (e + 1075).toNat := by
    congr 1
    rw [show Format.binary64.exponentBias = 1023 by decide]
    omega
  have htop : 2 ^ 11 ≤ (e + 1075).toNat + 1 ↔ 972 ≤ e := by omega
  have hlog : m.log2 + 1 = Format.binary64.mantissaBits ↔ 2 ^ 52 ≤ m := by
    have hlt := (Nat.log2_lt hm.ne').mpr h.lt
    rw [← Nat.le_log2 hm.ne', show Format.binary64.mantissaBits = 53 by decide]
    omega
  simp only [UnpackedFloat.pack, hbiased, htop, hlog]
  rfl

/-- Packing keeps what the bits of a float can hold, and gives infinity for what is beyond. -/
theorem units_pack {u : UnpackedFloat} (h : IsRounded u) :
    unpackedUnits? (UnpackedFloat.unpack Format.binary64 (UnpackedFloat.pack Format.binary64 u)) =
      (unpackedUnits? u).map clamp := by
  have hlimit := limit_pos
  cases u with
  | notANumber => rfl
  | infinity s =>
      change _ = some (clamp (s.apply limit))
      rw [clamp_apply s le_rfl]
      exact units_packComponents s (-1#11) 0#52
  | zero s =>
      change _ = some (clamp 0)
      rw [clamp_of_lt (by omega) (by omega)]
      exact (units_packComponents s 0#11 0#52).trans (by cases s <;> rfl)
  | finite s m e hm =>
      have hexponent := h.exponent
      have hlt := h.lt
      change _ = some (clamp (s.apply (magnitude m e)))
      rw [pack_finite_eq h]
      split_ifs with htop hfull
      · -- Beyond the last exponent.
        rw [clamp_apply s (limit_le_magnitude h htop)]
        exact units_packComponents s (-1#11) 0#52
      · have hbits : (BitVec.ofNat 11 (e + 1075).toNat).toNat = (e + 1075).toNat := by
          rw [BitVec.toNat_ofNat, Nat.mod_eq_of_lt (by omega)]
        have hm' : 2 ^ 52 + (BitVec.ofNat 52 m).toNat = m := by
          rw [BitVec.toNat_ofNat]
          omega
        rw [clamp_magnitude s h (by omega), units_packComponents, hbits, hm', if_neg (by omega),
          if_neg (by omega), show ((e + 1075).toNat : ℤ) - 1075 = e by omega]
      · have hm' : (BitVec.ofNat 52 m).toNat = m := by
          rw [BitVec.toNat_ofNat, Nat.mod_eq_of_lt (by omega)]
        rw [clamp_magnitude s h (by omega), units_packComponents, hm', if_neg (by decide),
          if_pos (by decide), h.full.resolve_left hfull]

theorem units?_ofModel_pack {u : UnpackedFloat} (h : IsRounded u) :
    units? (.ofModel (.pack u)) = (unpackedUnits? u).map clamp :=
  units_pack h

/-! ## Differences and products -/

theorem apply_neg (s : Sign) (n : ℤ) : (-s).apply n = -s.apply n := by
  cases s
  · exact (neg_neg n).symm
  · rfl

theorem apply_mul_apply (s t : Sign) (a b : ℕ) :
    s.apply a * t.apply b = (s * t).apply (a * b : ℕ) := by
  rw [Nat.cast_mul]
  cases s <;> cases t
  · exact neg_mul_neg _ _
  · exact neg_mul _ _
  · exact mul_neg _ _
  · rfl

theorem roundedInt_magnitude (s : Sign) {m : ℕ} {e : ℤ} (h : Canonical m e) :
    roundedInt 0 (s.apply (magnitude m e)) = s.apply (magnitude m e) := by
  rw [roundedInt_apply, magnitude, rounded_mul_two_pow h.lt]

theorem sub_spec {x y : UnpackedFloat} (hx : Fits x) (hy : Fits y) (hx' : x.isFinite = true)
    (hy' : y.isFinite = true) :
    IsRounded (UnpackedFloat.sub Format.binary64 x y) ∧ ∃ m n, unpackedUnits? x = some m ∧
      unpackedUnits? y = some n ∧
      unpackedUnits? (UnpackedFloat.sub Format.binary64 x y) = some (roundedInt 0 (m - n)) := by
  cases x with
  | notANumber => cases hx'
  | infinity s => cases hx'
  | zero s =>
      cases y with
      | notANumber => cases hy'
      | infinity t => cases hy'
      | zero t =>
          have hzero : ∃ u, UnpackedFloat.sub Format.binary64 (.zero s) (.zero t) = .zero u := by
            rw [UnpackedFloat.sub]
            split <;> exact ⟨_, rfl⟩
          obtain ⟨u, hu⟩ := hzero
          rw [hu]
          exact ⟨trivial, 0, 0, rfl, rfl, by rw [sub_self, roundedInt_zero]; rfl⟩
      | finite t n f hn =>
          refine ⟨hy.1, 0, _, rfl, rfl, ?_⟩
          rw [zero_sub, ← apply_neg, roundedInt_magnitude _ hy.1]
          rfl
  | finite s m e hm =>
      cases y with
      | notANumber => cases hy'
      | infinity t => cases hy'
      | zero t =>
          refine ⟨hx.1, _, 0, rfl, rfl, ?_⟩
          rw [sub_zero, roundedInt_magnitude _ hx.1]
          rfl
      | finite t n f hn =>
          have he := hx.1.exponent
          have hf := hy.1.exponent
          have hnormal := normalize_spec (s.apply (m * 2 ^ (e - min e f).toNat : ℕ) -
            t.apply (n * 2 ^ (f - min e f).toNat : ℕ)) (e := min e f) (by omega) .positive
          have hvalue : ∀ (s : Sign) (a : ℕ) (g : ℤ), min e f ≤ g →
              s.apply (a * 2 ^ (g - min e f).toNat : ℕ) * (2 ^ (min e f + 1074).toNat : ℕ) =
                s.apply (magnitude a g) := by
            intro s a g hg
            rw [apply_natCast_mul, magnitude, mul_assoc, ← pow_add]
            congr 4
            omega
          rw [sub_mul, hvalue s m e (min_le_left _ _), hvalue t n f (min_le_right _ _)] at hnormal
          refine ⟨?_, _, _, rfl, rfl, ?_⟩
          · simp only [UnpackedFloat.sub, decreaseExponent_eq]
            exact hnormal.1
          · simp only [UnpackedFloat.sub, decreaseExponent_eq]
            exact hnormal.2

theorem mul_spec {x y : UnpackedFloat} (hx : Fits x) (hy : Fits y) (hx' : x.isFinite = true)
    (hy' : y.isFinite = true) :
    IsRounded (UnpackedFloat.mul Format.binary64 x y) ∧ ∃ m n, unpackedUnits? x = some m ∧
      unpackedUnits? y = some n ∧
      unpackedUnits? (UnpackedFloat.mul Format.binary64 x y) = some (roundedInt 1074 (m * n)) := by
  cases x with
  | notANumber => cases hx'
  | infinity s => cases hx'
  | zero s =>
      cases y with
      | notANumber => cases hy'
      | infinity t => cases hy'
      | zero t => exact ⟨trivial, 0, 0, rfl, rfl, by rw [zero_mul, roundedInt_zero]; rfl⟩
      | finite t n f hn => exact ⟨trivial, 0, _, rfl, rfl, by rw [zero_mul, roundedInt_zero]; rfl⟩
  | finite s m e hm =>
      cases y with
      | notANumber => cases hy'
      | infinity t => cases hy'
      | zero t => exact ⟨trivial, _, 0, rfl, rfl, by rw [mul_zero, roundedInt_zero]; rfl⟩
      | finite t n f hn =>
          have he := hx.1.exponent
          have hf := hy.1.exponent
          have hmn : m * n ≠ 0 := (Nat.mul_pos hm hn).ne'
          -- A product of two short mantissas has the least exponent twice over.
          have htarget : e + f ≤ targetOf (m * n) (e + f) := by
            have hlog : 2 ^ 52 ≤ m * n → 52 ≤ (m * n).log2 := (Nat.le_log2 hmn).mpr
            rcases hx.1.full with hfull | hleast
            · have := hlog (hfull.trans (Nat.le_mul_of_pos_right m hn))
              unfold targetOf
              omega
            · rcases hy.1.full with hfull | hleast'
              · have := hlog (hfull.trans (Nat.le_mul_of_pos_left n hm))
                unfold targetOf
                omega
              · unfold targetOf
                omega
          have hround := roundWithAccuracy_spec (s := s * t) 1074 hmn (by omega) htarget
          refine ⟨hround.1, _, _, rfl, rfl, ?_⟩
          rw [apply_mul_apply, roundedInt_apply]
          have hvalue : magnitude m e * magnitude n f =
              m * n * 2 ^ (e + f + 1074 + (1074 : ℕ)).toNat := by
            rw [magnitude, magnitude, mul_mul_mul_comm, ← pow_add]
            congr 2
            omega
          rw [hvalue]
          exact hround.2

/-! ## Inverses -/

/-- The quotient of one by a mantissa and exponent has enough bits to be rounded. -/
theorem exists_divCore_one {n : ℕ} {f : ℤ} (hn : n ≠ 0) (h : Canonical n f) (hf : f ≤ 971) :
    ∃ q e a, divCore Format.binary64 (2 ^ 52) (-52) n f = (q, e, a) ∧ q ≠ 0 ∧ -1074 ≤ e ∧
      (2 ^ 52 ≤ q ∨ e = -1074) := by
  have hlog : n.log2 < 53 := (Nat.log2_lt hn).mpr h.lt
  have hbits : Format.binary64.mantissaBits = 53 := by decide
  have hleast : Format.binary64.minExponent = -1074 := by decide
  have htarget : min (-52 - f) (Format.binary64.targetExponent
      (totalExponent (2 ^ 52) (-52) - totalExponent n f)) = max (-n.log2 - f - 53) (-1074) := by
    rw [Format.targetExponent, hbits, hleast, totalExponent, totalExponent, Nat.log2_two_pow]
    omega
  obtain ⟨c, hc⟩ : ∃ c, (-52 - f - max (-n.log2 - f - 53) (-1074)).toNat = c := ⟨_, rfl⟩
  have hquotient : ∀ k, k + n.log2 + 1 ≤ 52 + c → 2 ^ k ≤ 2 ^ 52 <<< c / n := by
    intro k hk
    rw [Nat.shiftLeft_eq, ← pow_add, Nat.le_div_iff_mul_le (Nat.pos_of_ne_zero hn)]
    calc 2 ^ k * n ≤ 2 ^ k * 2 ^ (n.log2 + 1) := Nat.mul_le_mul_left _ Nat.lt_log2_self.le
      _ = 2 ^ (k + (n.log2 + 1)) := (pow_add 2 k _).symm
      _ ≤ 2 ^ (52 + c) := Nat.pow_le_pow_right (by decide) (by omega)
  refine ⟨2 ^ 52 <<< c / n, max (-n.log2 - f - 53) (-1074),
    accuracyOfFraction (2 ^ 52 <<< c % n) n, ?_, ?_, le_max_right _ _, ?_⟩
  · simp only [divCore, htarget, hc]
  · exact ((Nat.two_pow_pos _).trans_le (hquotient 0 (by omega))).ne'
  · rcases le_total (-n.log2 - f - 53 : ℤ) (-1074) with hle | hge
    · exact .inr (max_eq_right hle)
    · exact .inl (hquotient 52 (by omega))

/-! ## Floats -/

section Floats

variable {x y : Float} {m n : ℤ}

theorem fits_toModel (x : Float) : Fits x.toModel.unpack :=
  fits_unpack x.toModel.toBits.toBitVec

theorem exists_unpack_eq_infinity (hx : x.isFinite = false) (hm : units? x = some m) :
    ∃ s, x.toModel.unpack = .infinity s := by
  change x.toModel.unpack.isFinite = false at hx
  change unpackedUnits? x.toModel.unpack = some m at hm
  cases hu : x.toModel.unpack with
  | infinity s => exact ⟨s, rfl⟩
  | notANumber =>
      rw [hu] at hm
      cases hm
  | zero s =>
      rw [hu] at hx
      cases hx
  | finite s a e ha =>
      rw [hu] at hx
      cases hx

theorem units?_sub (hx : x.isFinite = true) (hy : y.isFinite = true) (hm : units? x = some m)
    (hn : units? y = some n) : units? (x - y) = some (clamp (roundedInt 0 (m - n))) := by
  obtain ⟨hrounded, m', n', hm', hn', hsub⟩ :=
    sub_spec (fits_toModel x) (fits_toModel y) hx hy
  cases hm.symm.trans hm'
  cases hn.symm.trans hn'
  change units? (.ofModel (.pack _)) = _
  rw [units?_ofModel_pack hrounded, hsub]
  rfl

theorem units?_mul (hx : x.isFinite = true) (hy : y.isFinite = true) (hm : units? x = some m)
    (hn : units? y = some n) : units? (x * y) = some (clamp (roundedInt 1074 (m * n))) := by
  obtain ⟨hrounded, m', n', hm', hn', hmul⟩ :=
    mul_spec (fits_toModel x) (fits_toModel y) hx hy
  cases hm.symm.trans hm'
  cases hn.symm.trans hn'
  change units? (.ofModel (.pack _)) = _
  rw [units?_ofModel_pack hrounded, hmul]
  rfl

theorem units?_infinity_mul (s t : Sign) {b : ℕ} (hb : 0 < b) :
    units? (.ofModel (.pack (.infinity (s * t)))) = if t.apply b = 0 then none
      else some (if 0 < (t.apply b : ℤ) then s.apply limit else -s.apply limit) := by
  rw [units?_ofModel_pack (u := .infinity (s * t)) trivial, unpackedUnits?, Option.map_some,
    clamp_apply _ le_rfl]
  cases t
  · rw [if_neg (by rw [Sign.apply]; omega), if_neg (by rw [Sign.apply]; omega)]
    cases s
    · exact congrArg some (neg_neg _).symm
    · rfl
  · rw [if_neg (by rw [Sign.apply]; omega), if_pos (by rw [Sign.apply]; omega)]
    cases s <;> rfl

/-- Of an infinite factor only the sign can change, unless the other factor is zero. -/
theorem units?_mul_of_not_isFinite (hx : x.isFinite = false) (hm : units? x = some m)
    (hn : units? y = some n) :
    units? (x * y) = if n = 0 then none else some (if 0 < n then m else -m) := by
  obtain ⟨s, hs⟩ := exists_unpack_eq_infinity hx hm
  have hm : some (s.apply limit) = some m := by rw [← hm, units?, hs]; rfl
  change unpackedUnits? y.toModel.unpack = _ at hn
  change units? (.ofModel (.pack (UnpackedFloat.mul _ x.toModel.unpack y.toModel.unpack))) = _
  rw [hs]
  cases hm
  cases hv : y.toModel.unpack with
  | notANumber =>
      rw [hv] at hn
      cases hn
  | infinity t =>
      rw [hv] at hn
      cases hn
      exact units?_infinity_mul s t limit_pos
  | zero t =>
      rw [hv] at hn
      cases hn
      rw [if_pos rfl, UnpackedFloat.mul, units?_ofModel_pack (u := .notANumber) trivial]
      rfl
  | finite t b f hb =>
      rw [hv] at hn
      cases hn
      exact units?_infinity_mul s t (magnitude_pos hb f)

theorem units?_mul_comm (x y : Float) : units? (x * y) = units? (y * x) := by
  have hsign : ∀ s t : Sign, s * t = t * s := by
    intro s t
    cases s <;> cases t <;> rfl
  have hcomm : ∀ u v : UnpackedFloat,
      UnpackedFloat.mul Format.binary64 u v = UnpackedFloat.mul Format.binary64 v u := by
    intro u v
    cases u <;> cases v <;> simp only [UnpackedFloat.mul, hsign, Nat.mul_comm, Int.add_comm]
  exact congrArg (fun u => units? (.ofModel (.pack u))) (hcomm x.toModel.unpack y.toModel.unpack)

/-! ### Order -/

theorem units?_zero : units? (0 : Float) = some 0 := by
  decide +kernel

theorem units?_bounds (hm : units? x = some m) : -limit ≤ m ∧ m ≤ limit := by
  have hpos := limit_pos
  cases hx : x.isFinite with
  | true =>
      obtain ⟨m', hm', hlt, hlt'⟩ := isFinite_iff.mp hx
      cases hm.symm.trans hm'
      exact ⟨hlt.le, hlt'.le⟩
  | false =>
      obtain ⟨s, hs⟩ := exists_unpack_eq_infinity hx hm
      rw [units?, hs, unpackedUnits?] at hm
      cases hm
      cases s <;> simp only [Sign.apply] <;> omega

theorem clamp_mono (h : m ≤ n) : clamp m ≤ clamp n :=
  max_le_max le_rfl (min_le_min h le_rfl)

theorem clamp_bounds (n : ℤ) : -limit ≤ clamp n ∧ clamp n ≤ limit := by
  have := limit_pos
  unfold clamp
  omega

/-- Only what is equal has no difference. -/
theorem exists_units?_sub (hx : x.isFinite = true) (hy : y.isFinite = true) :
    ∃ k, units? (x - y) = some k ∧ (k = 0 → (x == y) = true) := by
  obtain ⟨m, hm, -⟩ := isFinite_iff.mp hx
  obtain ⟨n, hn, -⟩ := isFinite_iff.mp hy
  have hlimit := limit_pos
  have hunit : ∀ s : Sign, roundedInt 0 (s.apply 1) = s.apply 1 := by
    intro s
    rw [show (1 : ℤ) = (1 : ℕ) from rfl, roundedInt_apply]
    exact congrArg (fun k : ℕ => s.apply k) (rounded_mul_two_pow (m := 1) (by decide) 0)
  refine ⟨_, units?_sub hx hy hm hn, fun hzero => beq_iff.mpr ⟨m, hm, ?_⟩⟩
  unfold clamp at hzero
  rcases lt_trichotomy (m - n) 0 with hneg | heq | hpos
  · have hle := roundedInt_mono 0 (show m - n ≤ Sign.negative.apply 1 by rw [Sign.apply]; omega)
    rw [hunit, Sign.apply] at hle
    omega
  · rw [hn, sub_eq_zero.mp heq]
  · have hle := roundedInt_mono 0 (show Sign.positive.apply 1 ≤ m - n by rw [Sign.apply]; omega)
    rw [hunit, Sign.apply] at hle
    omega

/-- The inverse of a finite float other than zero is a number other than zero. -/
theorem exists_units?_inverse (hx : x.isFinite = true) (hne : ¬(x == 0) = true) :
    ∃ k, units? (1 / x) = some k ∧ k ≠ 0 := by
  have hone : (1 : Float).toModel.unpack = .finite .positive (2 ^ 52) (-52) (by decide) := rfl
  have hfits := fits_toModel x
  have hlimit := limit_pos
  change x.toModel.unpack.isFinite = true at hx
  change ∃ k, units? (.ofModel (.pack (UnpackedFloat.div _ (1 : Float).toModel.unpack
    x.toModel.unpack))) = _ ∧ _
  rw [hone]
  cases hu : x.toModel.unpack with
  | notANumber =>
      rw [hu] at hx
      cases hx
  | infinity t =>
      rw [hu] at hx
      cases hx
  | zero t =>
      have hunits : units? x = some 0 := by rw [units?, hu, unpackedUnits?]
      exact absurd (beq_iff.mpr ⟨0, hunits, units?_zero⟩) hne
  | finite t n f hn =>
      rw [hu] at hfits
      obtain ⟨q, e, a, hdiv, hq, he, hfull⟩ := exists_divCore_one hn.ne' hfits.1 hfits.2
      obtain ⟨hrounded, k, hk, hunits⟩ :=
        roundWithAccuracy_ne_zero (.positive / t) a hq he hfull
      simp only [UnpackedFloat.div, hdiv]
      rw [units?_ofModel_pack hrounded, hunits]
      refine ⟨_, rfl, ?_⟩
      unfold clamp
      cases Sign.positive / t <;> simp only [Sign.apply] <;> omega

theorem sub_le_sub_right {o : Float} (hx : x.isFinite = true) (hy : y.isFinite = true)
    (ho : o.isFinite = true) (h : x ≤ y) : x - o ≤ y - o := by
  obtain ⟨m, n, hm, hn, hle⟩ := le_iff.mp h
  obtain ⟨k, hk, -⟩ := isFinite_iff.mp ho
  exact le_iff.mpr ⟨_, _, units?_sub hx ho hm hk, units?_sub hy ho hn hk,
    clamp_mono (roundedInt_mono 0 (by omega))⟩

/-- The product with a finite factor other than zero, as a function of the numbers of units. -/
def scaled (m n : ℤ) : ℤ :=
  if -limit < m ∧ m < limit then clamp (roundedInt 1074 (m * n)) else if 0 < n then m else -m

theorem units?_mul_eq_scaled (hm : units? x = some m) (hy : y.isFinite = true)
    (hn : units? y = some n) (hne : n ≠ 0) : units? (x * y) = some (scaled m n) := by
  rw [scaled]
  split_ifs with hfinite hpos
  · exact units?_mul (isFinite_iff.mpr ⟨m, hm, hfinite⟩) hy hm hn
  all_goals
    have hx : x.isFinite = false := Bool.eq_false_iff.mpr fun hx => hfinite <| by
      obtain ⟨m', hm', hbounds⟩ := isFinite_iff.mp hx
      cases hm.symm.trans hm'
      exact hbounds
    rw [units?_mul_of_not_isFinite hx hm hn, if_neg hne]
  · rw [if_pos hpos]
  · rw [if_neg hpos]

theorem scaled_mono {m m' : ℤ} (hn : 0 < n) (hm : -limit ≤ m) (hm' : m' ≤ limit) (h : m ≤ m') :
    scaled m n ≤ scaled m' n := by
  have hbounds := clamp_bounds (roundedInt 1074 (m * n))
  have hbounds' := clamp_bounds (roundedInt 1074 (m' * n))
  rw [scaled, scaled, if_pos hn, if_pos hn]
  split_ifs
  · exact clamp_mono (roundedInt_mono _ (Int.mul_le_mul_of_nonneg_right h hn.le))
  all_goals omega

theorem scaled_anti {m m' : ℤ} (hn : n < 0) (hm : -limit ≤ m) (hm' : m' ≤ limit) (h : m ≤ m') :
    scaled m' n ≤ scaled m n := by
  have hbounds := clamp_bounds (roundedInt 1074 (m * n))
  have hbounds' := clamp_bounds (roundedInt 1074 (m' * n))
  rw [scaled, scaled, if_neg hn.not_gt, if_neg hn.not_gt]
  split_ifs
  · exact clamp_mono (roundedInt_mono _ (Int.mul_le_mul_of_nonpos_right h hn.le))
  all_goals omega

variable {k : Float}

theorem mul_le_mul_of_pos (hk : k.isFinite = true) (hpos : 0 < k) (h : x ≤ y) :
    x * k ≤ y * k := by
  obtain ⟨m, n, hm, hn, hle⟩ := le_iff.mp h
  obtain ⟨z, c, hz, hc, hlt⟩ := lt_iff.mp hpos
  cases units?_zero.symm.trans hz
  exact le_iff.mpr ⟨_, _, units?_mul_eq_scaled hm hk hc hlt.ne',
    units?_mul_eq_scaled hn hk hc hlt.ne',
    scaled_mono hlt (units?_bounds hm).1 (units?_bounds hn).2 hle⟩

theorem mul_le_mul_of_neg (hk : k.isFinite = true) (hneg : k < 0) (h : x ≤ y) :
    y * k ≤ x * k := by
  obtain ⟨m, n, hm, hn, hle⟩ := le_iff.mp h
  obtain ⟨c, z, hc, hz, hlt⟩ := lt_iff.mp hneg
  cases units?_zero.symm.trans hz
  exact le_iff.mpr ⟨_, _, units?_mul_eq_scaled hn hk hc hlt.ne,
    units?_mul_eq_scaled hm hk hc hlt.ne,
    scaled_anti hlt (units?_bounds hm).1 (units?_bounds hn).2 hle⟩

end Floats

end SolidSurface.Binary64
