import SolidSurface.Proofs.Binary64.Alike

/-! # Keys of floats

Adding the positive zero takes the sign off a zero and leaves everything else as it is. So two
floats have one key just when they are alike, and the float that is made of a key has that key
again.
-/

namespace SolidSurface.Binary64

open Float.Model
open Float.Model.UnpackedFloat

variable {x y : Float}

/-- The bits of a float hold what was unpacked from them. -/
theorem alike_pack_unpack (x : Float) : Alike (.ofModel (.pack x.toModel.unpack)) x := by
  have hfits := fits_toModel x
  change units? _ = unpackedUnits? x.toModel.unpack
  cases hx : x.toModel.unpack with
  | notANumber => exact units?_ofModel_pack (u := .notANumber) trivial
  | infinity s =>
      rw [units?_ofModel_pack (u := .infinity s) trivial]
      exact congrArg some (clamp_apply s le_rfl)
  | zero s =>
      have hlimit := limit_pos
      rw [units?_ofModel_pack (u := .zero s) trivial]
      exact congrArg some (clamp_of_lt (by omega) (by omega))
  | finite s m e hm =>
      rw [hx] at hfits
      rw [units?_ofModel_pack (u := .finite s m e hm) hfits.1]
      exact congrArg some (clamp_magnitude s hfits.1 hfits.2)

theorem unpack_zero : (0.0 : Float).toModel.unpack = .zero .positive := by
  with_unfolding_all rfl

theorem add_zero_eq_pack (x : Float) :
    x + 0.0 = .ofModel (.pack (UnpackedFloat.add .binary64 x.toModel.unpack (.zero .positive))) := by
  rw [← unpack_zero]
  rfl

theorem add_zero_alike (x : Float) : Alike (x + 0.0) x := by
  rw [add_zero_eq_pack]
  refine .trans (Alike.of_agrees ?_) (alike_pack_unpack x)
  cases x.toModel.unpack with
  | zero s => cases s <;> exact .zero _ _
  | _ => exact .refl _

theorem add_zero_congr (h : Alike x y) : x + 0.0 = y + 0.0 := by
  rw [add_zero_eq_pack, add_zero_eq_pack]
  rcases h.agrees with heq | ⟨s, t, hs, ht⟩
  · rw [heq]
  · -- Zeros of either sign become the positive one.
    rw [hs, ht]
    cases s <;> cases t <;> rfl

theorem alike_of_toBits_eq (h : x.toBits = y.toBits) : Alike x y :=
  congrArg (fun b : UInt64 => unpackedUnits? (UnpackedFloat.unpack .binary64 b.toBitVec)) h

/-- Keys tell floats apart as far as equality does, with all that is no number under one key. -/
theorem key_eq_key_iff : Keyed.key x = Keyed.key y ↔ Alike x y := by
  constructor
  · intro h
    calc units? x = units? (x + 0.0) := (add_zero_alike x).symm
      _ = units? (y + 0.0) := alike_of_toBits_eq h
      _ = units? y := add_zero_alike y
  · intro h
    exact congrArg Float.toBits (add_zero_congr h)

/-- The float that a key stands for has this key. -/
theorem key_value_key (x : Float) :
    Keyed.key (Keyed.value (Keyed.key x) : Float) = Keyed.key x :=
  key_eq_key_iff.mpr ((alike_pack_unpack (x + 0.0)).trans (add_zero_alike x))

end SolidSurface.Binary64
