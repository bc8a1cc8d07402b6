import SolidSurface.Scalar.Binary64

/-! # Bit patterns and fixed-point values of floats

A float can be written without loss as the sixteen hexadecimal digits of its bit pattern. A coarser
form counts it in units of `2 ^ (-20)`.
-/

namespace SolidSurface.Binary64

/-- The last `n` hexadecimal digits of a number, leading zeros included. -/
def hexDigits (value : Nat) : Nat → List Char
  | 0 => []
  | n + 1 => hexDigits (value / 16) n ++ [Nat.digitChar (value % 16)]

/-- Sixteen lower-case hexadecimal digits. -/
def hexWord (w : UInt64) : String :=
  String.ofList (hexDigits w.toNat 16)

def hexDigitValue? (c : Char) : Option Nat :=
  if '0' ≤ c ∧ c ≤ '9' then some (c.toNat - '0'.toNat)
  else if 'a' ≤ c ∧ c ≤ 'f' then some (c.toNat - 'a'.toNat + 10)
  else if 'A' ≤ c ∧ c ≤ 'F' then some (c.toNat - 'A'.toNat + 10)
  else none

/-- Reads sixteen hexadecimal digits. -/
def ofHexWord? (s : String) : Option UInt64 := do
  let digits ← s.toList.mapM hexDigitValue?
  if digits.length == 16 then
    return UInt64.ofNat (digits.foldl (fun n d => 16 * n + d) 0)
  else none

/-- A float in units of `2 ^ (-20)`, rounded to the nearest and halves away from zero, kept within
the range of 64 bits; zero for what is not a number. -/
def fixedPoint (x : Float) : Int64 :=
  (x * Float.ofBits 0x4130000000000000).round.toInt64

/-- Reads `mantissa / 10 ^ places`, rounded to nearest. -/
def ofDecimal (mantissa : Int) (places : Nat) : Float :=
  let magnitude := Float.ofScientific mantissa.natAbs true places
  if mantissa < 0 then -magnitude else magnitude

end SolidSurface.Binary64
