import SolidSurface.Proofs.Binary64.Arithmetic

/-! # Floats that nothing but a quotient tells apart

Two floats are alike when they are equal or both are no numbers. Equal floats are the same but for
the sign of zero, which sums, differences, products and comparisons do not see.
-/

namespace SolidSurface.Binary64

open Float.Model
open Float.Model.UnpackedFloat

/-! ## Unpacked floats -/

/-- The same, or zeros of any sign. -/
def Agrees (u v : UnpackedFloat) : Prop :=
  u = v ∨ ∃ s t, u = .zero s ∧ v = .zero t

namespace Agrees

variable {u v w u' v' : UnpackedFloat}

theorem refl (u : UnpackedFloat) : Agrees u u :=
  .inl rfl

theorem zero (s t : Sign) : Agrees (.zero s) (.zero t) :=
  .inr ⟨s, t, rfl, rfl⟩

theorem trans (h : Agrees u v) (h' : Agrees v w) : Agrees u w := by
  rcases h with rfl | ⟨s, t, rfl, rfl⟩
  · exact h'
  · rcases h' with rfl | ⟨s', t', -, rfl⟩
    · exact zero s t
    · exact zero s t'

/-- An operation that does not see the sign of a zero keeps agreement. -/
theorem congr {op : UnpackedFloat → UnpackedFloat → UnpackedFloat}
    (hleft : ∀ s t v, Agrees (op (.zero s) v) (op (.zero t) v))
    (hright : ∀ s t u, Agrees (op u (.zero s)) (op u (.zero t)))
    (hu : Agrees u u') (hv : Agrees v v') : Agrees (op u v) (op u' v') := by
  have hfirst : Agrees (op u v) (op u' v) := by
    rcases hu with rfl | ⟨s, t, rfl, rfl⟩
    · exact refl _
    · exact hleft s t v
  have hsecond : Agrees (op u' v) (op u' v') := by
    rcases hv with rfl | ⟨s, t, rfl, rfl⟩
    · exact refl _
    · exact hright s t u'
  exact hfirst.trans hsecond

/-- So does one for which zeros make a zero, and any zero is the same beside something else. -/
theorem congr_of_zero {op : UnpackedFloat → UnpackedFloat → UnpackedFloat}
    (hzero : ∀ s t, ∃ r, op (.zero s) (.zero t) = .zero r)
    (hleft : ∀ s t v, (∀ r, v ≠ .zero r) → op (.zero s) v = op (.zero t) v)
    (hright : ∀ s t u, (∀ r, u ≠ .zero r) → op u (.zero s) = op u (.zero t))
    (hu : Agrees u u') (hv : Agrees v v') : Agrees (op u v) (op u' v') := by
  have hzeros : ∀ s s' t t', Agrees (op (.zero s) (.zero s')) (op (.zero t) (.zero t')) := by
    intro s s' t t'
    obtain ⟨a, ha⟩ := hzero s s'
    obtain ⟨b, hb⟩ := hzero t t'
    rw [ha, hb]
    exact zero a b
  refine congr (fun s t v => ?_) (fun s t u => ?_) hu hv
  · by_cases h : ∃ r, v = .zero r
    · obtain ⟨r, rfl⟩ := h
      exact hzeros s r t r
    · exact .inl (hleft s t v fun r hr => h ⟨r, hr⟩)
  · by_cases h : ∃ r, u = .zero r
    · obtain ⟨r, rfl⟩ := h
      exact hzeros r s r t
    · exact .inl (hright s t u fun r hr => h ⟨r, hr⟩)

theorem add (f : Format) (hu : Agrees u u') (hv : Agrees v v') :
    Agrees (UnpackedFloat.add f u v) (UnpackedFloat.add f u' v') := by
  refine congr_of_zero (fun s t => ?_) (fun s t v h => ?_) (fun s t u h => ?_) hu hv
  · rw [UnpackedFloat.add]
    split <;> exact ⟨_, rfl⟩
  · cases v with
    | zero r => exact absurd rfl (h r)
    | _ => rfl
  · cases u with
    | zero r => exact absurd rfl (h r)
    | _ => rfl

theorem sub (f : Format) (hu : Agrees u u') (hv : Agrees v v') :
    Agrees (UnpackedFloat.sub f u v) (UnpackedFloat.sub f u' v') := by
  refine congr_of_zero (fun s t => ?_) (fun s t v h => ?_) (fun s t u h => ?_) hu hv
  · rw [UnpackedFloat.sub]
    split <;> exact ⟨_, rfl⟩
  · cases v with
    | zero r => exact absurd rfl (h r)
    | _ => rfl
  · cases u with
    | zero r => exact absurd rfl (h r)
    | _ => rfl

theorem mul (f : Format) (hu : Agrees u u') (hv : Agrees v v') :
    Agrees (UnpackedFloat.mul f u v) (UnpackedFloat.mul f u' v') := by
  refine congr (fun s t v => ?_) (fun s t u => ?_) hu hv
  · cases v with
    | notANumber => exact refl _
    | infinity r => exact refl _
    | zero r => exact zero _ _
    | finite r m e hm => exact zero _ _
  · cases u with
    | notANumber => exact refl _
    | infinity r => exact refl _
    | zero r => exact zero _ _
    | finite r m e hm => exact zero _ _

end Agrees

theorem eq_of_apply_eq {s t : Sign} {m n : ℕ} (hm : 0 < m) (hn : 0 < n)
    (h : s.apply m = t.apply n) : s = t ∧ m = n := by
  cases s <;> cases t <;> simp only [Sign.apply] at h
  · exact ⟨rfl, by omega⟩
  · omega
  · omega
  · exact ⟨rfl, by omega⟩

theorem eq_of_magnitude_eq {m n : ℕ} {e f : ℤ} (hm : Canonical m e) (hn : Canonical n f)
    (h : magnitude m e = magnitude n f) : m = n ∧ e = f := by
  have hexponent : e = f := by
    rcases lt_trichotomy e f with hlt | heq | hgt
    · exact absurd h (magnitude_lt_of_exponent_lt hm hn hlt).ne
    · exact heq
    · exact absurd h (magnitude_lt_of_exponent_lt hn hm hgt).ne'
  subst hexponent
  exact ⟨Nat.eq_of_mul_eq_mul_right (Nat.two_pow_pos _) h, rfl⟩

theorem ne_zero_of_apply {s : Sign} {m : ℕ} (hm : 0 < m) : s.apply m ≠ 0 := by
  cases s <;> simp only [Sign.apply] <;> omega

/-- The number of units tells everything but the sign of a zero. -/
theorem agrees_of_units_eq {u v : UnpackedFloat} (hu : Fits u) (hv : Fits v)
    (h : unpackedUnits? u = unpackedUnits? v) : Agrees u v := by
  cases u with
  | notANumber =>
      cases v with
      | notANumber => exact .refl _
      | _ => cases h
  | infinity s =>
      cases v with
      | notANumber => cases h
      | infinity t =>
          obtain ⟨rfl, -⟩ := eq_of_apply_eq limit_pos limit_pos (Option.some.inj h)
          exact .refl _
      | zero t => exact absurd (Option.some.inj h) (ne_zero_of_apply limit_pos)
      | finite t n f hn =>
          have hlt := magnitude_lt_limit hv.1 hv.2
          have heq := eq_of_apply_eq limit_pos (magnitude_pos hn f) (Option.some.inj h)
          exact absurd heq.2 hlt.ne'
  | zero s =>
      cases v with
      | notANumber => cases h
      | infinity t => exact absurd (Option.some.inj h).symm (ne_zero_of_apply limit_pos)
      | zero t => exact .zero s t
      | finite t n f hn =>
          exact absurd (Option.some.inj h).symm (ne_zero_of_apply (magnitude_pos hn f))
  | finite s m e hm =>
      cases v with
      | notANumber => cases h
      | infinity t =>
          have hlt := magnitude_lt_limit hu.1 hu.2
          have heq := eq_of_apply_eq (magnitude_pos hm e) limit_pos (Option.some.inj h)
          exact absurd heq.2 hlt.ne
      | zero t => exact absurd (Option.some.inj h) (ne_zero_of_apply (magnitude_pos hm e))
      | finite t n f hn =>
          obtain ⟨rfl, heq⟩ := eq_of_apply_eq (magnitude_pos hm e) (magnitude_pos hn f)
            (Option.some.inj h)
          obtain ⟨rfl, rfl⟩ := eq_of_magnitude_eq hu.1 hv.1 heq
          exact .refl _

/-! ## Floats -/

/-- Equal, or both no numbers. -/
def Alike (x y : Float) : Prop :=
  units? x = units? y

namespace Alike

variable {x y x' y' : Float}

theorem refl (x : Float) : Alike x x :=
  rfl

theorem of_beq (h : (x == y) = true) : Alike x y := by
  obtain ⟨m, hx, hy⟩ := beq_iff.mp h
  exact hx.trans hy.symm

theorem agrees (h : Alike x y) : Agrees x.toModel.unpack y.toModel.unpack :=
  agrees_of_units_eq (fits_toModel x) (fits_toModel y) h

theorem of_agrees {u v : UnpackedFloat} (h : Agrees u v) :
    Alike (.ofModel (.pack u)) (.ofModel (.pack v)) := by
  rcases h with rfl | ⟨s, t, rfl, rfl⟩
  · exact refl _
  · exact (units?_ofModel_pack (u := .zero s) trivial).trans
      (units?_ofModel_pack (u := .zero t) trivial).symm

theorem add (hx : Alike x x') (hy : Alike y y') : Alike (x + y) (x' + y') :=
  of_agrees (hx.agrees.add _ hy.agrees)

theorem sub (hx : Alike x x') (hy : Alike y y') : Alike (x - y) (x' - y') :=
  of_agrees (hx.agrees.sub _ hy.agrees)

theorem mul (hx : Alike x x') (hy : Alike y y') : Alike (x * y) (x' * y') :=
  of_agrees (hx.agrees.mul _ hy.agrees)

theorem lt_iff (hx : Alike x x') (hy : Alike y y') : x < y ↔ x' < y' := by
  rw [Binary64.lt_iff, Binary64.lt_iff, hx, hy]

theorem le_iff (hx : Alike x x') (hy : Alike y y') : x ≤ y ↔ x' ≤ y' := by
  rw [Binary64.le_iff, Binary64.le_iff, hx, hy]

theorem beq_eq (hx : Alike x x') (hy : Alike y y') : (x == y) = (x' == y') := by
  rw [Bool.eq_iff_iff, beq_iff, beq_iff, hx, hy]

theorem isFinite_eq (h : Alike x x') : x.isFinite = x'.isFinite := by
  rw [Bool.eq_iff_iff, isFinite_iff, isFinite_iff, h]

end Alike

end SolidSurface.Binary64
