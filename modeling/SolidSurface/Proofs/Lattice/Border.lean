import SolidSurface.Extraction.DualContour.Sweep

/-! # Points, steps and the border of a lattice -/

namespace SolidSurface

open DualContour

namespace LatticePoint

variable {n : Vec3 Nat} {p : LatticePoint} {a b : Axis}

/-- Whether all coordinates are below those of `n`. -/
def Below (n : Vec3 Nat) (p : LatticePoint) : Prop :=
  p.x < n.x ∧ p.y < n.y ∧ p.z < n.z

instance (n : Vec3 Nat) (p : LatticePoint) : Decidable (p.Below n) :=
  inferInstanceAs (Decidable (_ ∧ _))

theorem below_iff_forall_get : p.Below n ↔ ∀ a, p.get a < n.get a := by
  constructor
  · rintro ⟨hx, hy, hz⟩ (_ | _ | _)
    · exact hx
    · exact hy
    · exact hz
  · intro h
    exact ⟨h .x, h .y, h .z⟩

theorem isBorder_of_get (a : Axis) (h : p.get a = 0 ∨ p.get a + 1 = n.get a) :
    p.isBorder n = true := by
  cases a <;> rcases h with h | h <;> simp only [Vec3.get] at h <;> simp [isBorder, h]

theorem exists_get_of_isBorder (h : p.isBorder n = true) :
    ∃ a, p.get a = 0 ∨ p.get a + 1 = n.get a := by
  simp only [isBorder, Bool.or_eq_true, beq_iff_eq] at h
  rcases h with ((((hx | hy) | hz) | hx) | hy) | hz
  · exact ⟨.x, .inl hx⟩
  · exact ⟨.y, .inl hy⟩
  · exact ⟨.z, .inl hz⟩
  · exact ⟨.x, .inr hx⟩
  · exact ⟨.y, .inr hy⟩
  · exact ⟨.z, .inr hz⟩

/-- Where no point on the border is inside. -/
theorem inside_eq_false_of_isBorder {inside : LatticePoint → Bool}
    (h : anyBelow n (fun p => inside p && p.isBorder n) = false) (hp : p.Below n)
    (hborder : p.isBorder n = true) : inside p = false := by
  rw [← Bool.not_eq_true]
  intro hin
  have hleak : anyBelow n (fun p => inside p && p.isBorder n) = true := by
    rw [anyBelow_eq_true_iff]
    exact ⟨p, hp, by rw [hin, hborder]; rfl⟩
  rw [h] at hleak
  cases hleak

/-! ## Numbering a layer -/

theorem index_lt {width height : Nat} (hx : p.x < width) (hy : p.y < height) :
    p.x + width * p.y < width * height :=
  calc p.x + width * p.y
      < width + width * p.y := Nat.add_lt_add_right hx _
    _ = width * (p.y + 1) := by rw [Nat.mul_succ, Nat.add_comm]
    _ ≤ width * height := Nat.mul_le_mul_left _ hy

theorem pointAt_index {width : Nat} (hx : p.x < width) :
    pointAt width p.z (p.x + width * p.y) = p := by
  have hpos : 0 < width := Nat.zero_lt_of_lt hx
  simp only [pointAt, Nat.add_mul_mod_self_left, Nat.mod_eq_of_lt hx,
    Nat.add_mul_div_left _ _ hpos, Nat.div_eq_of_lt hx, Nat.zero_add]

theorem pointAt_lt {width height k i : Nat} (hi : i < width * height) :
    (pointAt width k i).x < width ∧ (pointAt width k i).y < height := by
  have hpos : 0 < width := Nat.pos_of_mul_pos_right (Nat.zero_lt_of_lt hi)
  exact ⟨Nat.mod_lt _ hpos, Nat.div_lt_of_lt_mul hi⟩

/-! ## Steps along an axis -/

@[simp] theorem get_stepForward_self (p : LatticePoint) (a : Axis) :
    (stepForward p a).get a = p.get a + 1 := by
  cases a <;> rfl

theorem get_stepForward_of_ne (p : LatticePoint) (h : b ≠ a) :
    (stepForward p a).get b = p.get b := by
  cases a <;> cases b <;> first | exact absurd rfl h | rfl

theorem Below.of_stepForward (h : (stepForward p a).Below n) : p.Below n := by
  rw [below_iff_forall_get] at h ⊢
  intro b
  have hb := h b
  by_cases hba : b = a
  · rw [hba, get_stepForward_self] at hb
    rw [hba]
    omega
  · rwa [get_stepForward_of_ne p hba] at hb

theorem Below.stepForward (hp : p.Below n) (h : p.get a + 1 < n.get a) :
    (stepForward p a).Below n := by
  rw [below_iff_forall_get] at hp ⊢
  intro b
  by_cases hba : b = a
  · rwa [hba, get_stepForward_self]
  · rw [get_stepForward_of_ne p hba]
    exact hp b

/-- The corners of a lattice face at either end of an axis lie on the border. -/
theorem isBorder_of_face (hother : ∀ b, b ≠ a → p.get b < (n.map (· - 1)).get b)
    (hpos : 0 < (n.map (· - 1)).get a)
    (hend : p.get a = 0 ∨ p.get a = (n.map (· - 1)).get a) {q : LatticePoint}
    (hqa : q.get a = p.get a) (hq : ∀ b, q.get b ≤ p.get b + 1) :
    q.Below n ∧ q.isBorder n = true := by
  simp only [Vec3.get_map] at hother hpos hend
  constructor
  · rw [below_iff_forall_get]
    intro b
    by_cases hb : b = a
    · rw [hb, hqa]
      omega
    · have := hother b hb
      have := hq b
      omega
  · apply isBorder_of_get a
    omega

/-! ## Points inside -/

section Inside

variable {inside : LatticePoint → Bool}
  (hborder : ∀ p : LatticePoint, p.Below n → p.isBorder n = true → inside p = false)

include hborder

/-- Nothing is inside on a lattice face at either end of an axis. -/
theorem inside_eq_false_of_face (hother : ∀ b, b ≠ a → p.get b < (n.map (· - 1)).get b)
    (hpos : 0 < (n.map (· - 1)).get a)
    (hend : p.get a = 0 ∨ p.get a = (n.map (· - 1)).get a) {q : LatticePoint}
    (hqa : q.get a = p.get a) (hq : ∀ b, q.get b ≤ p.get b + 1) : inside q = false := by
  obtain ⟨hbelow, hq'⟩ := isBorder_of_face hother hpos hend hqa hq
  exact hborder q hbelow hq'

theorem get_of_inside (hp : p.Below n) (hin : inside p = true) (a : Axis) :
    0 < p.get a ∧ p.get a + 1 < n.get a := by
  have hends : ¬(p.get a = 0 ∨ p.get a + 1 = n.get a) := by
    intro hend
    rw [hborder p hp (isBorder_of_get a hend)] at hin
    cases hin
  have hlt := below_iff_forall_get.mp hp a
  omega

/-- On the way from a point inside to the border there is a last one inside. -/
theorem exists_crossed (a : Axis) {p : LatticePoint} (hp : p.Below n) (hin : inside p = true) :
    ∃ q : LatticePoint, q.Below n ∧ inside q = true ∧ (stepForward q a).Below n ∧
      inside (stepForward q a) = false := by
  have hroom := (get_of_inside hborder hp hin a).2
  by_cases hnext : inside (stepForward p a) = true
  · exact exists_crossed a (hp.stepForward hroom) hnext
  · exact ⟨p, hp, hin, hp.stepForward hroom, Bool.not_eq_true _ ▸ hnext⟩
termination_by n.get a - p.get a
decreasing_by
  rw [get_stepForward_self]
  omega

end Inside

end LatticePoint

end SolidSurface
