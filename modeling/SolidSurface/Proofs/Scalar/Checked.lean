import SolidSurface.Proofs.Scalar.Field
import SolidSurface.Triangle

/-! # Checked division

A field has a value for every quotient, also where the divisor is zero. Scalars with one more value,
which stands for such a quotient and for everything computed from it, tell whether a computation
has divided by zero: then its result is not defined.
-/

namespace SolidSurface

/-- A scalar, or none after a division by zero. -/
def Checked (α : Type) : Type :=
  Option α

namespace Checked

variable {α : Type}

def of (a : α) : Checked α :=
  some a

/-- What is computed from a quotient by zero. -/
def undefined : Checked α :=
  none

/-- The value of an operation, where there is one. -/
def lift (f : α → α) : Checked α → Checked α :=
  Option.map f

def lift₂ (f : α → α → Checked α) : Checked α → Checked α → Checked α
  | some a, some b => f a b
  | _, _ => undefined

/-- A comparison fails when there is nothing to compare. -/
def Compares (r : α → α → Prop) : Checked α → Checked α → Prop
  | some a, some b => r a b
  | _, _ => False

def test (r : α → α → Bool) : Checked α → Checked α → Bool
  | some a, some b => r a b
  | _, _ => false

instance decidableCompares (r : α → α → Prop) [DecidableRel r] (a b : Checked α) :
    Decidable (Compares r a b) :=
  match a, b with
  | some a, some b => inferInstanceAs (Decidable (r a b))
  | none, _ => isFalse not_false
  | some _, none => isFalse not_false

variable [Scalar α]

/-- The quotient, unless the divisor is zero. -/
def quotient (a b : α) : Checked α :=
  if b == 0 then undefined else of (a / b)

instance : Scalar (Checked α) where
  zero := of 0
  one := of 1
  add := lift₂ fun a b => of (a + b)
  sub := lift₂ fun a b => of (a - b)
  mul := lift₂ fun a b => of (a * b)
  div := lift₂ quotient
  neg := lift fun a => -a
  lt := Compares (· < ·)
  le := Compares (· ≤ ·)
  beq := test (· == ·)
  decideLT := decidableCompares _
  decideLE := decidableCompares _
  ofNat n := of (Scalar.ofNat n)
  decimal m k := of (Scalar.decimal m k)
  infinity := of Scalar.infinity
  epsilon := of Scalar.epsilon
  minNormal := of Scalar.minNormal
  pi := of Scalar.pi
  sqrt := lift Scalar.sqrt
  abs := lift Scalar.abs
  floor := lift Scalar.floor
  ceil := lift Scalar.ceil
  round := lift Scalar.round
  sin := lift Scalar.sin
  cos := lift Scalar.cos
  toNat a := a.elim 0 Scalar.toNat
  wrapIndex := Scalar.wrapIndex α
  mulAdd a b c := lift₂ (fun a b => lift (fun c => Scalar.mulAdd a b c) c) a b
  isFinite a := a.any Scalar.isFinite
  totalLE := test Scalar.totalLE

theorem of_zero : (0 : Checked α) = of 0 := rfl

theorem of_minNormal : (Scalar.minNormal : Checked α) = of Scalar.minNormal := rfl

theorem abs_of (a : α) : Scalar.abs (of a) = of (Scalar.abs a) := rfl

theorem of_add (a b : α) : of a + of b = of (a + b) := rfl

theorem of_sub (a b : α) : of a - of b = of (a - b) := rfl

theorem of_mul (a b : α) : of a * of b = of (a * b) := rfl

theorem of_le_of {a b : α} : of a ≤ of b ↔ a ≤ b := Iff.rfl

theorem of_div_of_ne_zero {α : Type} [FieldScalar α] (a : α) {b : α} (h : b ≠ 0) :
    of a / of b = of (a / b) :=
  if_neg (mt (FieldScalar.beq_iff b 0).mp h)

theorem of_div_zero {α : Type} [FieldScalar α] (a : α) : of a / of 0 = undefined :=
  if_pos (Scalar.beq_self 0)

end Checked

variable {α : Type}

/-- A vector as one of checked scalars. -/
def Vec3.checked (v : Vec3 α) : Vec3 (Checked α) :=
  v.map .of

def Triangle.checked (t : Triangle α) : Triangle (Checked α) :=
  t.map Vec3.checked

namespace Vec3

variable [Scalar α]

theorem checked_sub (v w : Vec3 α) : v.checked - w.checked = (v - w).checked := rfl

theorem dot_checked (v w : Vec3 α) : v.checked.dot w.checked = .of (v.dot w) := rfl

/-- A step of undefined length leads nowhere. -/
theorem get_add_scale_undefined (v w : Vec3 α) (i : Axis) :
    (v.checked + w.checked * (Checked.undefined : Checked α)).get i = .undefined := by
  cases i <;> rfl

end Vec3

end SolidSurface
