import SolidSurface.Scalar

/-! # Vectors and points

Positions and directions share one type of coordinate triples. Every operation fixes the order of
its scalar steps, so that a rounding scalar gives one definite answer.
-/

namespace SolidSurface

inductive Axis where
  | x
  | y
  | z
  deriving DecidableEq, Repr

namespace Axis

def all : List Axis := [x, y, z]

end Axis

structure Vec3 (α : Type) where
  x : α
  y : α
  z : α
  deriving DecidableEq, Repr

abbrev Point (α : Type) := Vec3 α

namespace Vec3

section Structure

variable {α β γ : Type}

@[inline] def get (v : Vec3 α) : Axis → α
  | .x => v.x
  | .y => v.y
  | .z => v.z

@[inline] def map (f : α → β) (v : Vec3 α) : Vec3 β :=
  ⟨f v.x, f v.y, f v.z⟩

@[inline] def zipWith (f : α → β → γ) (v : Vec3 α) (w : Vec3 β) : Vec3 γ :=
  ⟨f v.x w.x, f v.y w.y, f v.z w.z⟩

@[inline] def repeated (a : α) : Vec3 α :=
  ⟨a, a, a⟩

@[inline] def all (p : α → Bool) (v : Vec3 α) : Bool :=
  p v.x && p v.y && p v.z

def toList (v : Vec3 α) : List α :=
  [v.x, v.y, v.z]

@[simp] theorem get_map (f : α → β) (v : Vec3 α) (a : Axis) : (v.map f).get a = f (v.get a) := by
  cases a <;> rfl

@[simp] theorem get_zipWith (f : α → β → γ) (v : Vec3 α) (w : Vec3 β) (a : Axis) :
    (zipWith f v w).get a = f (v.get a) (w.get a) := by
  cases a <;> rfl

theorem get_repeated (x : α) (a : Axis) : (repeated x).get a = x := by
  cases a <;> rfl

theorem ext_get {v w : Vec3 α} (h : ∀ a, v.get a = w.get a) : v = w := by
  cases v
  cases w
  exact Vec3.mk.injEq .. ▸ ⟨h .x, h .y, h .z⟩

theorem all_eq_true_iff {p : α → Bool} {v : Vec3 α} : v.all p = true ↔ ∀ a, p (v.get a) = true := by
  constructor
  · intro h a
    simp only [all, Bool.and_eq_true] at h
    cases a
    · exact h.1.1
    · exact h.1.2
    · exact h.2
  · intro h
    simp [all, show p v.x = true from h .x, show p v.y = true from h .y,
      show p v.z = true from h .z]

end Structure

variable {α : Type} [Scalar α]

instance : Zero (Vec3 α) := ⟨⟨0, 0, 0⟩⟩

@[inline] protected def add (v w : Vec3 α) : Vec3 α :=
  ⟨v.x + w.x, v.y + w.y, v.z + w.z⟩

@[inline] protected def sub (v w : Vec3 α) : Vec3 α :=
  ⟨v.x - w.x, v.y - w.y, v.z - w.z⟩

@[inline] protected def scale (v : Vec3 α) (s : α) : Vec3 α :=
  ⟨v.x * s, v.y * s, v.z * s⟩

@[inline] protected def quotient (v : Vec3 α) (s : α) : Vec3 α :=
  ⟨v.x / s, v.y / s, v.z / s⟩

instance : Add (Vec3 α) := ⟨Vec3.add⟩

instance : Sub (Vec3 α) := ⟨Vec3.sub⟩

instance : HMul (Vec3 α) α (Vec3 α) := ⟨Vec3.scale⟩

instance : HDiv (Vec3 α) α (Vec3 α) := ⟨Vec3.quotient⟩

/-- Equality of all coordinates in the sense of the scalars. -/
@[inline] def coincides (v w : Vec3 α) : Bool :=
  v.x == w.x && v.y == w.y && v.z == w.z

@[inline] def dot (v w : Vec3 α) : α :=
  v.x * w.x + v.y * w.y + v.z * w.z

@[inline] def cross (v w : Vec3 α) : Vec3 α :=
  ⟨v.y * w.z - v.z * w.y, v.z * w.x - v.x * w.z, v.x * w.y - v.y * w.x⟩

@[inline] def normSquared (v : Vec3 α) : α :=
  0 + v.dot v

@[inline] def norm (v : Vec3 α) : α :=
  Scalar.sqrt v.normSquared

@[inline] def normalize (v : Vec3 α) : Vec3 α :=
  v / v.norm

/-- The direction of a vector, unless its length is at most `least`. -/
@[inline] def normalize? (v : Vec3 α) (least : α) : Option (Vec3 α) :=
  if v.norm ≤ least then none else some (v / v.norm)

@[inline] def unitX : Vec3 α :=
  ⟨1, 0, 0⟩

@[inline] def isFinite (v : Vec3 α) : Bool :=
  v.all Scalar.isFinite

@[inline] def lesser (a b : α) : α :=
  if a ≤ b then a else b

@[inline] def greater (a b : α) : α :=
  if b ≤ a then a else b

/-- Coordinatewise smaller of two points; of equal coordinates the first. -/
@[inline] def inf (v w : Vec3 α) : Vec3 α :=
  zipWith lesser v w

/-- Coordinatewise larger of two points; of equal coordinates the first. -/
@[inline] def sup (v w : Vec3 α) : Vec3 α :=
  zipWith greater v w

@[inline] def midpoint (v w : Vec3 α) : Vec3 α :=
  (v + w) * (Scalar.half : α)

/-- Left to right, starting from zero. -/
@[inline] def sum (vs : List (Vec3 α)) : Vec3 α :=
  vs.foldl (· + ·) 0

section Equations

@[simp] theorem x_zero : (0 : Vec3 α).x = 0 := rfl
@[simp] theorem y_zero : (0 : Vec3 α).y = 0 := rfl
@[simp] theorem z_zero : (0 : Vec3 α).z = 0 := rfl
@[simp] theorem x_add (v w : Vec3 α) : (v + w).x = v.x + w.x := rfl
@[simp] theorem y_add (v w : Vec3 α) : (v + w).y = v.y + w.y := rfl
@[simp] theorem z_add (v w : Vec3 α) : (v + w).z = v.z + w.z := rfl
@[simp] theorem x_sub (v w : Vec3 α) : (v - w).x = v.x - w.x := rfl
@[simp] theorem y_sub (v w : Vec3 α) : (v - w).y = v.y - w.y := rfl
@[simp] theorem z_sub (v w : Vec3 α) : (v - w).z = v.z - w.z := rfl
@[simp] theorem x_scale (v : Vec3 α) (s : α) : (v * s).x = v.x * s := rfl
@[simp] theorem y_scale (v : Vec3 α) (s : α) : (v * s).y = v.y * s := rfl
@[simp] theorem z_scale (v : Vec3 α) (s : α) : (v * s).z = v.z * s := rfl
@[simp] theorem x_quotient (v : Vec3 α) (s : α) : (v / s).x = v.x / s := rfl
@[simp] theorem y_quotient (v : Vec3 α) (s : α) : (v / s).y = v.y / s := rfl
@[simp] theorem z_quotient (v : Vec3 α) (s : α) : (v / s).z = v.z / s := rfl

theorem get_add (v w : Vec3 α) (a : Axis) : (v + w).get a = v.get a + w.get a := by
  cases a <;> rfl

theorem get_sub (v w : Vec3 α) (a : Axis) : (v - w).get a = v.get a - w.get a := by
  cases a <;> rfl

theorem get_scale (v : Vec3 α) (s : α) (a : Axis) : (v * s).get a = v.get a * s := by
  cases a <;> rfl

theorem get_quotient (v : Vec3 α) (s : α) (a : Axis) : (v / s).get a = v.get a / s := by
  cases a <;> rfl

end Equations

end Vec3

end SolidSurface
