import SolidSurface.Mesh.Key
import SolidSurface.Scalar

/-! # Binary floating point as scalars

The operations of `Float` are IEEE 754 binary64, each rounded to nearest, ties to even. Fused
multiplication and addition is computed on the exact integer significands and rounded once.
-/

namespace SolidSurface.Binary64

open Float.Model (Format UnpackedFloat)

/-- Significand with its sign, in units of `2 ^ e` for an exponent `e` at or below its own. -/
def scaledTo (e : Int) (sign : UnpackedFloat.Sign) (mantissa : Nat) (exponent : Int) : Int :=
  sign.apply (mantissa <<< (exponent - e).toNat : Nat)

/-- `m * 2 ^ e` rounded to nearest. The bits that do not fit are cut off at once and enter the
rounding as a fraction of the last place. -/
def roundMagnitude (sign : UnpackedFloat.Sign) (m : Nat) (e : Int) : UnpackedFloat :=
  let target := Format.binary64.targetExponent (Float.Model.totalExponent m e)
  if e < target then
    let surplus := (target - e).toNat
    let unit := 1 <<< surplus
    UnpackedFloat.roundWithAccuracy Format.binary64 sign (m >>> surplus) target
      (UnpackedFloat.accuracyOfFraction (m % unit) unit)
  else UnpackedFloat.round Format.binary64 sign m e

/-- `n * 2 ^ e` rounded to nearest; zero is positive. -/
def roundSigned (n e : Int) : Float :=
  .ofModel (.pack (match compare n 0 with
    | .lt => roundMagnitude .negative n.natAbs e
    | .eq => .zero .positive
    | .gt => roundMagnitude .positive n.natAbs e))

/-- `x * y + z`, rounded once. -/
def mulAdd (x y z : Float) : Float :=
  match x.toModel.unpack, y.toModel.unpack, z.toModel.unpack with
  | .finite s₁ m₁ e₁ _, .finite s₂ m₂ e₂ _, .finite s₃ m₃ e₃ _ =>
      let e := min (e₁ + e₂) e₃
      roundSigned (scaledTo e (s₁ * s₂) (m₁ * m₂) (e₁ + e₂) + scaledTo e s₃ m₃ e₃) e
  | .finite .., .finite .., .zero _ => x * y
  | .finite .., .finite .., .infinity _ => z
  | _, _, _ => x * y + z

/-- Bits of a float, rearranged so that unsigned comparison is the IEEE total order. -/
def orderBits (x : Float) : UInt64 :=
  let bits := x.toBits
  if bits < 0x8000000000000000 then bits ||| 0x8000000000000000 else ~~~bits

def totalLE (x y : Float) : Bool :=
  orderBits x ≤ orderBits y

instance : Scalar Float where
  zero := 0.0
  one := 1.0
  decideLT := inferInstance
  decideLE := inferInstance
  ofNat n := n.toUInt64.toFloat
  decimal m k := Float.ofScientific m true k
  infinity := Float.ofBits 0x7ff0000000000000
  epsilon := Float.ofBits 0x3cb0000000000000
  minNormal := Float.ofBits 0x0010000000000000
  pi := Float.ofBits 0x400921fb54442d18
  sqrt := Float.sqrt
  abs := Float.abs
  floor := Float.floor
  ceil := Float.ceil
  round := Float.round
  sin := Float.sin
  cos := Float.cos
  toNat x := x.toUInt64.toNat
  wrapIndex n := n % Nat.pow 2 64
  mulAdd := mulAdd
  isFinite := Float.isFinite
  totalLE := totalLE

/-- A key is the bit pattern of a coordinate, where the negative zero counts as the positive one. -/
instance : Keyed Float UInt64 where
  key x := (x + 0.0).toBits
  value := Float.ofBits

end SolidSurface.Binary64
