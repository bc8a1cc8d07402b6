import SolidSurface.Proofs.Binary64.Alike
import SolidSurface.Ray

/-! # Boxes of floats that coincide

Boxes that coincide differ at most in the signs of zeros. A ray is clipped by them to intervals that
are alike, and their distances from a point are alike.
-/

namespace SolidSurface

open Binary64

/-! ## Choices and limits -/

/-- The same choice on both sides of a relation. -/
theorem rel_ite {β γ : Type} {R : β → γ → Prop} {p q : Prop} [Decidable p] [Decidable q]
    (h : p ↔ q) {x y : β} {x' y' : γ} (hx : R x x') (hy : R y y') :
    R (if p then x else y) (if q then x' else y') := by
  by_cases hp : p
  · rw [if_pos hp, if_pos (h.mp hp)]
    exact hx
  · rw [if_neg hp, if_neg (mt h.mpr hp)]
    exact hy

/-- Limits that are alike. -/
def Extended.Alike : Extended Float → Extended Float → Prop
  | val x, val y => Binary64.Alike x y
  | infinity, infinity => True
  | _, _ => False

structure RayInterval.Alike (i j : RayInterval Float) : Prop where
  start : Binary64.Alike i.start j.start
  stop : i.stop.Alike j.stop

namespace Binary64.Alike

variable {x y x' y' : Float}

theorem max (hx : Alike x x') (hy : Alike y y') : Alike (Scalar.max x y) (Scalar.max x' y') := by
  refine rel_ite (Bool.eq_iff_iff.mp ?_) hy hx
  rw [hx.beq_eq hx, decide_eq_decide.mpr (hx.lt_iff hy)]

theorem min (hx : Alike x x') (hy : Alike y y') : Alike (Scalar.min x y) (Scalar.min x' y') := by
  refine rel_ite (Bool.eq_iff_iff.mp ?_) hy hx
  rw [hx.beq_eq hx, decide_eq_decide.mpr (hy.lt_iff hx)]

theorem lesser (hx : Alike x x') (hy : Alike y y') :
    Alike (Vec3.lesser x y) (Vec3.lesser x' y') :=
  rel_ite (hx.le_iff hy) hx hy

theorem greater (hx : Alike x x') (hy : Alike y y') :
    Alike (Vec3.greater x y) (Vec3.greater x' y') :=
  rel_ite (hy.le_iff hx) hx hy

end Binary64.Alike

namespace Extended.Alike

variable {a b : Extended Float} {x y : Float}

theorem capAt (h : a.Alike b) (hx : Binary64.Alike x y) : (a.capAt x).Alike (b.capAt y) := by
  cases a with
  | val v =>
      cases b with
      | val w => exact Binary64.Alike.min h hx
      | infinity => exact h.elim
  | infinity =>
      cases b with
      | val w => exact h.elim
      | infinity =>
          exact rel_ite (Bool.eq_iff_iff.mp (hx.beq_eq hx)) hx trivial

theorem lt_eq (h : a.Alike b) (hx : Binary64.Alike x y) : a.lt (.val x) = b.lt (.val y) := by
  cases a with
  | val v =>
      cases b with
      | val w => exact decide_eq_decide.mpr (Binary64.Alike.lt_iff h hx)
      | infinity => exact h.elim
  | infinity =>
      cases b with
      | val w => exact h.elim
      | infinity => rfl

end Extended.Alike

/-! ## Rays and distances -/

namespace Ray

variable {o d lower upper lower' upper' : Float} {i j : RayInterval Float}

theorem clip_alike (hl : Alike lower lower') (hu : Alike upper upper') (hi : i.Alike j) :
    Option.Rel RayInterval.Alike (clip o d lower upper i) (clip o d lower' upper' j) := by
  have hout : o < lower ∨ upper < o ↔ o < lower' ∨ upper' < o :=
    or_congr ((Alike.refl o).lt_iff hl) (hu.lt_iff (.refl o))
  have ha := (hl.sub (.refl o)).mul (.refl (1 / d))
  have hb := (hu.sub (.refl o)).mul (.refl (1 / d))
  have hstart := hi.start.max (rel_ite (ha.le_iff hb) ha hb)
  have hstop := hi.stop.capAt (rel_ite (ha.le_iff hb) hb ha)
  refine rel_ite Iff.rfl (rel_ite hout .none (.some hi)) ?_
  exact rel_ite (Bool.eq_iff_iff.mp (hstop.lt_eq hstart)) .none (.some ⟨hstart, hstop⟩)

theorem rel_bind {β γ : Type} {R : β → β → Prop} {S : γ → γ → Prop} {x y : Option β}
    {f g : β → Option γ} (h : Option.Rel R x y) (hfg : ∀ a b, R a b → Option.Rel S (f a) (g b)) :
    Option.Rel S (x.bind f) (y.bind g) := by
  cases h with
  | some hab => exact hfg _ _ hab
  | none => exact .none

theorem isNone_eq_of_rel {β : Type} {R : β → β → Prop} {x y : Option β} (h : Option.Rel R x y) :
    x.isNone = y.isNone := by
  cases h <;> rfl

end Ray

theorem Vec3.alike_of_coincides {v w : Vec3 Float} (h : v.coincides w = true) (a : Axis) :
    Alike (v.get a) (w.get a) := by
  simp only [Vec3.coincides, Bool.and_eq_true] at h
  cases a
  · exact .of_beq h.1.1
  · exact .of_beq h.1.2
  · exact .of_beq h.2

theorem Box.alike_of_coincides {b c : Box Float} (h : b.coincides c = true) (a : Axis) :
    Alike (b.lower.get a) (c.lower.get a) ∧ Alike (b.upper.get a) (c.upper.get a) := by
  rw [Box.coincides, Bool.and_eq_true] at h
  exact ⟨Vec3.alike_of_coincides h.1 a, Vec3.alike_of_coincides h.2 a⟩

/-- A ray misses both of two boxes that coincide, or none. -/
theorem Ray.isNone_intervalIn?_eq {b c : Box Float} (r : Ray Float) (h : b.coincides c = true) :
    (r.intervalIn? b).isNone = (r.intervalIn? c).isNone := by
  have hbox := Box.alike_of_coincides h
  have hclip : ∀ a i j, RayInterval.Alike i j →
      Option.Rel RayInterval.Alike (r.clipAlong b a i) (r.clipAlong c a j) :=
    fun a _ _ => clip_alike (hbox a).1 (hbox a).2
  have hrel : Option.Rel RayInterval.Alike (r.intervalIn? b) (r.intervalIn? c) :=
    rel_bind (hclip .x _ _ ⟨.refl _, trivial⟩) fun i j hij =>
      rel_bind (hclip .y i j hij) fun i j hij => hclip .z i j hij
  exact isNone_eq_of_rel hrel

/-- Boxes that coincide are at distances that are alike. -/
theorem Box.distanceSquared_alike {b c : Box Float} (h : b.coincides c = true) (p : Point Float) :
    Alike (b.distanceSquared p) (c.distanceSquared p) := by
  have haxis : ∀ a, Alike (p.get a - (b.clamp p).get a) (p.get a - (c.clamp p).get a) := by
    intro a
    obtain ⟨hlower, hupper⟩ := Box.alike_of_coincides h a
    simp only [Box.clamp, Vec3.inf, Vec3.sup, Vec3.get_zipWith]
    exact (Alike.refl _).sub (((Alike.refl _).greater hlower).lesser hupper)
  have hsquare := fun a => (haxis a).mul (haxis a)
  exact (Alike.refl _).add (((hsquare .x).add (hsquare .y)).add (hsquare .z))

end SolidSurface
