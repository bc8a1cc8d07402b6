import SolidSurface.Scalar.Binary64

/-! # Decimal text of binary floating point

A finite float is written with the fewest decimal digits that read back as it, the nearest such
digits if there are several and the larger of two that are equally near, in positional notation. The
reals that read back as `m * 2 ^ e` are those within half a step of it; the two ends belong to them
when `m` is even.
-/

namespace SolidSurface.Binary64

/-- Reals that round to one positive float, as integers over the common denominator `den`. -/
structure RoundingInterval where
  lower : Nat
  value : Nat
  upper : Nat
  den : Nat
  closed : Bool

namespace RoundingInterval

/-- Around `m * 2 ^ e`. Below a power of two the floats lie twice as dense as above it, except at
the least exponent. -/
def around (m : Nat) (e : Int) : RoundingInterval :=
  let dense := m == Nat.pow 2 52 && decide (-1074 < e)
  let shift := (e - 2).toNat
  ⟨(4 * m - if dense then 1 else 2) <<< shift, (4 * m) <<< shift, (4 * m + 2) <<< shift,
    1 <<< (2 - e).toNat, m % 2 == 0⟩

/-- Whether `num / den` reads back, for the denominator of the interval. -/
def holds (i : RoundingInterval) (num : Nat) : Bool :=
  if i.closed then i.lower ≤ num && num ≤ i.upper else i.lower < num && num < i.upper

/-- The multiple of `10 ^ k` nearest to the value among those that read back, divided by `10 ^ k`.
Only the two multiples on either side of the value can be nearest; a value in the middle goes to the
upper one. -/
def digitsAt? (i : RoundingInterval) (k : Int) : Option Nat :=
  let up := Nat.pow 10 (-k).toNat
  let down := i.den * Nat.pow 10 k.toNat
  let i := { i with lower := i.lower * up, value := i.value * up, upper := i.upper * up }
  let below := i.value / down
  let above := below + 1
  match i.holds (below * down), i.holds (above * down) with
  | true, true => some (if 2 * (i.value % down) < down then below else above)
  | true, false => some below
  | false, true => some above
  | false, false => none

/-- The coarsest decimal grid, from `10 ^ k` down through `fuel` steps, that has a point in the
interval, and that point. -/
def shortest? (i : RoundingInterval) (k : Int) : Nat → Option (Nat × Int)
  | 0 => none
  | fuel + 1 =>
    match i.digitsAt? k with
    | some d => some (d, k)
    | none => i.shortest? (k - 1) fuel

end RoundingInterval

/-- `d * 10 ^ k` without an exponent. -/
def positional (d : Nat) (k : Int) : String :=
  let digits := Nat.toDigits 10 d
  if 0 ≤ k then String.ofList (digits ++ List.replicate k.toNat '0')
  else
    let places := (-k).toNat
    let padded := List.replicate (places + 1 - digits.length) '0' ++ digits
    let whole := padded.length - places
    String.ofList (padded.take whole ++ '.' :: padded.drop whole)

/-- Every float lies below `10 ^ 309`, and a grid as fine as `10 ^ (-324)` has a point in every
interval, so the search always ends with a value. -/
def magnitudeText (m : Nat) (e : Int) : String :=
  match (RoundingInterval.around m e).shortest? 309 700 with
  | some (d, k) => positional d k
  | none => "0"

def text (x : Float) : String :=
  match x.toModel.unpack with
  | .notANumber => "NaN"
  | .infinity .positive => "inf"
  | .infinity .negative => "-inf"
  | .zero .positive => "0"
  | .zero .negative => "-0"
  | .finite .positive m e _ => magnitudeText m e
  | .finite .negative m e _ => "-" ++ magnitudeText m e

def pointText (p : Point Float) : String :=
  "\x7b" ++ text p.x ++ ", " ++ text p.y ++ ", " ++ text p.z ++ "\x7d"

end SolidSurface.Binary64
