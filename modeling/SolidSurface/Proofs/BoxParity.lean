import SolidSurface.Proofs.BoxSurface

/-! # Counting the crossings of a box

A ray that rises along every axis enters a box through lower faces and leaves it through upper ones.
At both places it meets as many halves of faces as there are orders of the axes that sort the
fractional coordinates: an odd number, if no two of them agree, which is to say that the place is on
no side of a triangle. Where the ray only touches the box both counts are the same.
-/

namespace SolidSurface

variable {α : Type} [FieldScalar α]

/-! ## Rising through a box -/

/-- Fractional coordinates that increase with a position, all positive beyond `enter` and all below
one before `leave`. -/
structure Passage (f : α → Axis → α) (enter leave : α) : Prop where
  nonneg_iff : ∀ s, (∀ i, 0 ≤ f s i) ↔ enter ≤ s
  pos_iff : ∀ s, (∀ i, 0 < f s i) ↔ enter < s
  le_one_iff : ∀ s, (∀ i, f s i ≤ 1) ↔ s ≤ leave
  lt_one_iff : ∀ s, (∀ i, f s i < 1) ↔ s < leave

namespace HalfFace

/-- The order of the axes in which the points of a half have their fractional coordinates sorted. -/
def order (h : HalfFace) : AxisOrder :=
  if h.upper then ⟨h.lesser, h.greater, h.normal⟩ else ⟨h.normal, h.lesser, h.greater⟩

theorem ofLower_mem {o : AxisOrder} (ho : o ∈ AxisOrder.all) : ofLower o ∈ all :=
  all_perm.mem_iff.mpr (List.mem_append_left _ (List.mem_map_of_mem ho))

theorem ofUpper_mem {o : AxisOrder} (ho : o ∈ AxisOrder.all) : ofUpper o ∈ all :=
  all_perm.mem_iff.mpr (List.mem_append_right _ (List.mem_map_of_mem ho))

theorem order_mem {h : HalfFace} (hh : h ∈ all) : h.order ∈ AxisOrder.all := by
  revert h
  decide

end HalfFace

namespace Passage

variable {f : α → Axis → α} {enter leave s : α} {h : HalfFace}

/-- A lower face is met where the ray enters and an upper one where it leaves, in the halves whose
order sorts the fractional coordinates there. -/
theorem holds_iff (hf : Passage f enter leave) (hh : h ∈ HalfFace.all) :
    h.Holds (f s) ↔
      s = (if h.upper then leave else enter) ∧ enter ≤ leave ∧ h.order.Sorts (f s) := by
  have hnonneg := hf.nonneg_iff s
  have hpos := hf.pos_iff s
  have hle := hf.le_one_iff s
  have hlt := hf.lt_one_iff s
  rw [HalfFace.forall_axis hh] at hnonneg hpos hle hlt
  obtain ⟨upper, n, l, g⟩ := h
  cases upper with
  | false =>
      simp only [HalfFace.order, AxisOrder.Sorts, Bool.false_eq_true, if_false]
      constructor
      · rintro ⟨hn, hl, hlg, hg⟩
        simp only [Bool.false_eq_true, if_false] at hn hl hlg hg
        have henter : s = enter := by
          refine (not_lt.mp fun h => ?_).antisymm (hnonneg.mp ⟨hn.ge, hl, hl.trans hlg⟩)
          exact absurd (hpos.mpr h).1 hn.not_gt
        refine ⟨henter, ?_, hn ▸ hl, hlg⟩
        rw [← henter]
        exact hle.mp ⟨hn.le.trans zero_le_one, hlg.trans hg, hg⟩
      · rintro ⟨rfl, hleave, hnl, hlg⟩
        obtain ⟨hn, hl, hg⟩ := hnonneg.mpr le_rfl
        refine ⟨?_, hl, hlg, (hle.mpr hleave).2.2⟩
        refine (not_lt.mp fun h => ?_).antisymm hn
        exact absurd (hpos.mp ⟨h, h.trans_le hnl, h.trans_le (hnl.trans hlg)⟩) (lt_irrefl _)
  | true =>
      simp only [HalfFace.order, AxisOrder.Sorts, if_true]
      constructor
      · rintro ⟨hn, hl, hlg, hg⟩
        simp only [if_true] at hn hl hlg hg
        have hleave : s = leave := by
          refine (hle.mp ⟨hn.le, hlg.trans hg, hg⟩).antisymm (not_lt.mp fun h => ?_)
          exact absurd (hlt.mpr h).1 hn.not_lt
        refine ⟨hleave, ?_, hlg, hn ▸ hg⟩
        rw [← hleave]
        exact hnonneg.mp ⟨zero_le_one.trans hn.ge, hl, hl.trans hlg⟩
      · rintro ⟨rfl, henter, hlg, hgn⟩
        obtain ⟨hn, hl, hg⟩ := hle.mpr le_rfl
        refine ⟨?_, (hnonneg.mpr henter).2.1, hlg, hg⟩
        refine hn.antisymm (not_lt.mp fun h => ?_)
        exact absurd (hlt.mp ⟨h, (hlg.trans hgn).trans_lt h, hgn.trans_lt h⟩) (lt_irrefl _)

theorem exists_holds_iff (hf : Passage f enter leave) :
    (∃ h ∈ HalfFace.all, h.Holds (f s)) ↔ (s = enter ∨ s = leave) ∧ enter ≤ leave := by
  constructor
  · rintro ⟨h, hh, hholds⟩
    obtain ⟨hs, hle, -⟩ := (hf.holds_iff hh).mp hholds
    refine ⟨?_, hle⟩
    split at hs
    · exact .inr hs
    · exact .inl hs
  · rintro ⟨hs, hle⟩
    obtain ⟨o, ho, hsorts⟩ := AxisOrder.exists_sorts (f s)
    rcases hs with hs | hs
    · have hmem := HalfFace.ofLower_mem ho
      exact ⟨_, hmem, (hf.holds_iff hmem).mpr ⟨hs, hle, hsorts⟩⟩
    · have hmem := HalfFace.ofUpper_mem ho
      exact ⟨_, hmem, (hf.holds_iff hmem).mpr ⟨hs, hle, hsorts⟩⟩

/-- Unless the ray only touches the box, it is on a side of a half exactly where two fractional
coordinates agree on the surface. -/
theorem exists_onRim_iff (hf : Passage f enter leave) (hthrough : enter < leave) :
    (∃ h ∈ HalfFace.all, h.OnRim (f s)) ↔
      (s = enter ∨ s = leave) ∧ ¬Function.Injective (f s) := by
  have hrim : ∀ h ∈ HalfFace.all, h.Holds (f s) →
      ((f s h.lesser = 0 ∨ f s h.lesser = f s h.greater ∨ f s h.greater = 1) ↔
        ¬Function.Injective (f s)) := by
    intro h hh hholds
    obtain ⟨hs, -, hsorts⟩ := (hf.holds_iff hh).mp hholds
    have hnormal := hholds.normal
    rw [AxisOrder.Sorts.injective_iff (HalfFace.order_mem hh) hsorts]
    obtain ⟨upper, n, l, g⟩ := h
    cases upper with
    | false =>
        simp only [HalfFace.order, Bool.false_eq_true, if_false] at hs hnormal ⊢
        have hone : f s g ≠ 1 := ((hf.lt_one_iff s).mpr (hs ▸ hthrough) g).ne
        rw [hnormal, eq_comm (a := (0 : α)), or_iff_left hone]
    | true =>
        simp only [HalfFace.order, if_true] at hs hnormal ⊢
        have hzero : f s l ≠ 0 := ((hf.pos_iff s).mpr (hs ▸ hthrough) l).ne'
        rw [hnormal, or_iff_right hzero]
  rw [← and_iff_left hthrough.le (a := s = enter ∨ s = leave), ← hf.exists_holds_iff]
  constructor
  · rintro ⟨h, hh, hholds, hsame⟩
    exact ⟨⟨h, hh, hholds⟩, (hrim h hh hholds).mp hsame⟩
  · rintro ⟨⟨h, hh, hholds⟩, hsame⟩
    exact ⟨h, hh, hholds, (hrim h hh hholds).mpr hsame⟩

/-- A half is met ahead if the ray enters, or leaves, ahead and the order of the half sorts the
fractional coordinates there. -/
theorem exists_pos_holds_iff (hf : Passage f enter leave) (hh : h ∈ HalfFace.all) :
    (∃ s, 0 < s ∧ h.Holds (f s)) ↔
      (0 < (if h.upper then leave else enter) ∧ enter ≤ leave) ∧
        h.order.Sorts (f (if h.upper then leave else enter)) := by
  simp only [hf.holds_iff hh]
  constructor
  · rintro ⟨s, hs, rfl, hle, hsorts⟩
    exact ⟨⟨hs, hle⟩, hsorts⟩
  · rintro ⟨⟨hs, hle⟩, hsorts⟩
    exact ⟨_, hs, rfl, hle, hsorts⟩

/-- The halves that are met ahead: one for each order that sorts the fractional coordinates where
the ray enters, and one for each where it leaves. -/
theorem countP_crossed (hf : Passage f enter leave) {crossed : HalfFace → Bool}
    (hcrossed : ∀ h ∈ HalfFace.all, crossed h = true ↔ ∃ s, 0 < s ∧ h.Holds (f s)) :
    HalfFace.all.countP crossed =
      (if 0 < enter ∧ enter ≤ leave then AxisOrder.all.countP (·.Sorts (f enter)) else 0) +
      (if 0 < leave ∧ enter ≤ leave then AxisOrder.all.countP (·.Sorts (f leave)) else 0) := by
  rw [HalfFace.all_perm.countP_eq, List.countP_append, List.countP_map, List.countP_map]
  congr 1 <;> refine AxisOrder.countP_eq_ite fun o ho => ?_
  · have hmem := HalfFace.ofLower_mem ho
    exact (hcrossed _ hmem).trans (hf.exists_pos_holds_iff hmem)
  · have hmem := HalfFace.ofUpper_mem ho
    exact (hcrossed _ hmem).trans (hf.exists_pos_holds_iff hmem)

omit [FieldScalar α] in
/-- Of two candidates exactly one is chosen. -/
theorem existsUnique_pair {a b : α} (hab : a ≠ b) {P : α → Prop} :
    (∃! s, (s = a ∨ s = b) ∧ P s) ↔ ¬(P a ↔ P b) := by
  constructor
  · rintro ⟨s, ⟨hs, hP⟩, hunique⟩ hiff
    have ha : P a := hs.elim (· ▸ hP) fun hsb => hiff.mpr (hsb ▸ hP)
    exact hab ((hunique a ⟨.inl rfl, ha⟩).trans (hunique b ⟨.inr rfl, hiff.mp ha⟩).symm)
  · intro hne
    by_cases ha : P a
    · have hb : ¬P b := fun hb => hne ⟨fun _ => hb, fun _ => ha⟩
      exact ⟨a, ⟨.inl rfl, ha⟩, fun s ⟨hs, hP⟩ => hs.elim id fun hsb => absurd (hsb ▸ hP) hb⟩
    · have hb : P b := by_contra fun hb => hne ⟨fun h => absurd h ha, fun h => absurd h hb⟩
      exact ⟨b, ⟨.inr rfl, hb⟩, fun s ⟨hs, hP⟩ => hs.elim (fun hsa => absurd (hsa ▸ hP) ha) id⟩

/-- The count of the halves ahead is odd for positions inside and even for those outside, except
that it is the other way around if the ray passes through the box and is ahead on sides of halves
exactly once. -/
theorem odd_crossed_iff (hf : Passage f enter leave) (hoff : ∀ h ∈ HalfFace.all, ¬h.Holds (f 0))
    {crossed : HalfFace → Bool}
    (hcrossed : ∀ h ∈ HalfFace.all, crossed h = true ↔ ∃ s, 0 < s ∧ h.Holds (f s)) :
    (HalfFace.all.countP crossed % 2 = 1 ↔ enter < 0 ∧ 0 < leave) ↔
      ¬((∃ s, 0 < s ∧ enter < s ∧ s < leave) ∧
        ∃! s, 0 < s ∧ ∃ h ∈ HalfFace.all, h.OnRim (f s)) := by
  have hcount := hf.countP_crossed hcrossed
  rcases lt_or_ge enter leave with hthrough | hnot
  · have hne : enter ≠ 0 ∧ leave ≠ 0 := by
      constructor <;> rintro rfl <;>
        obtain ⟨h, hh, hholds⟩ := (hf.exists_holds_iff (s := 0)).mpr ⟨by simp, hthrough.le⟩ <;>
        exact hoff h hh hholds
    have hodd := fun s => AxisOrder.odd_countP_sorts (f s)
    have hrim : (∃! s, 0 < s ∧ ∃ h ∈ HalfFace.all, h.OnRim (f s)) ↔
        ¬(0 < enter ∧ ¬Function.Injective (f enter) ↔
          0 < leave ∧ ¬Function.Injective (f leave)) := by
      simp only [hf.exists_onRim_iff hthrough, and_left_comm (a := (0 : α) < _)]
      exact existsUnique_pair hthrough.ne
    have hinside : (∃ s, 0 < s ∧ enter < s ∧ s < leave) ↔ 0 < leave := by
      constructor
      · rintro ⟨s, hs, -, hleave⟩
        exact hs.trans hleave
      · intro hleave
        obtain ⟨s, hs, hs'⟩ := exists_between (max_lt hleave hthrough)
        exact ⟨s, (le_max_left _ _).trans_lt hs, (le_max_right _ _).trans_lt hs, hs'⟩
    rw [hrim, hinside, hcount, ← hodd, ← hodd]
    simp only [hthrough.le, and_true]
    rcases hne.1.lt_or_gt with henter | henter
    · rcases hne.2.lt_or_gt with hleave | hleave
      · simp [henter, henter.not_gt, hleave.not_gt]
      · simp [henter, henter.not_gt, hleave]
    · simp only [henter, henter.not_gt, henter.trans hthrough, if_true, true_and, false_and,
        iff_false, not_not]
      omega
  · have hempty : ¬∃ s, 0 < s ∧ enter < s ∧ s < leave :=
      fun ⟨_, _, h, h'⟩ => hnot.not_gt (h.trans h')
    have houtside : ¬(enter < 0 ∧ 0 < leave) := fun h => hnot.not_gt (h.1.trans h.2)
    have heven : ¬HalfFace.all.countP crossed % 2 = 1 := by
      rw [hcount]
      rcases hnot.lt_or_eq with hmiss | htouch
      · rw [if_neg fun h => hmiss.not_ge h.2, if_neg fun h => hmiss.not_ge h.2]
        decide
      · rw [htouch]
        omega
    simp [hempty, houtside, heven]

end Passage

end SolidSurface
