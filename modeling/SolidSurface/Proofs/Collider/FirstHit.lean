import SolidSurface.Proofs.Scalar.Field
import SolidSurface.Proofs.Collider.SearchOrder

/-! # First hits

A search for the first hit is correct when it gives the hit of the least position among all those
below its limit, or nothing when there is none. In exact arithmetic all hits are due and every
position is a number; the choice of the earliest hit of several parts keeps this up.
-/

namespace SolidSurface

variable {α : Type} [FieldScalar α]

/-- Whether `first` is a hit of least position among the hits below a limit, or `none` for want of
any. -/
def IsFirst (hits : List (RayHit α)) (limit : WithTop α) : Option (RayHit α) → Prop
  | none => ∀ h ∈ hits, limit ≤ h.scale
  | some first => first ∈ hits ∧ (first.scale : WithTop α) < limit ∧
      ∀ h ∈ hits, first.scale ≤ h.scale

theorem IsFirst.perm {hits hits' : List (RayHit α)} {limit : WithTop α} {o : Option (RayHit α)}
    (h : IsFirst hits limit o) (hperm : hits.Perm hits') : IsFirst hits' limit o := by
  cases o with
  | none => exact fun g hg => h g (hperm.mem_iff.mpr hg)
  | some first =>
      obtain ⟨hmem, hlimit, hleast⟩ := h
      exact ⟨hperm.mem_iff.mp hmem, hlimit, fun g hg => hleast g (hperm.mem_iff.mpr hg)⟩

/-- The order behind the comparison of limits is that of the field with a top. -/
def Measure.exact : Measure α (WithTop α) where
  IsNumber _ := True
  value := Extended.toWithTop
  le_iff _ _ := Extended.le_eq_true_iff
  lt_iff _ _ := Extended.lt_eq_true_iff

theorem isFirst_iff {hits : List (RayHit α)} {limit : Extended α} {o : Option (RayHit α)} :
    IsFirst hits limit.toWithTop o ↔
      FindsFirst .exact {h | h ∈ hits} {h | h ∈ hits} limit o := by
  cases o with
  | none => exact Iff.rfl
  | some first =>
      refine and_congr_right fun _ => and_congr_right fun _ => forall₂_congr fun h _ => ?_
      exact WithTop.coe_le_coe.symm

theorem isFirst_strike?_filter (o : Option (RayHit α)) (limit : Extended α) :
    IsFirst o.toList limit.toWithTop (o.filter fun h => (Extended.val h.scale).lt limit) := by
  cases o with
  | none => exact fun h hh => absurd hh List.not_mem_nil
  | some h =>
      exact isFirst_iff.mpr (findsFirst_filter trivial trivial (List.mem_singleton_self h)
        fun g hg => List.mem_singleton.mp hg)

/-! ## Several parts -/

namespace Collider

theorem exists_earlier (g h : RayHit α) :
    ∃ e, (if Scalar.totalLE g.scale h.scale then g else h) = e ∧ (e = g ∨ e = h) ∧
      e.scale ≤ g.scale ∧ e.scale ≤ h.scale := by
  by_cases hle : Scalar.totalLE g.scale h.scale = true
  · refine ⟨g, if_pos hle, .inl rfl, le_rfl, (FieldScalar.totalLE_iff _ _).mp hle⟩
  · refine ⟨h, if_neg hle, .inr rfl, ?_, le_rfl⟩
    rw [FieldScalar.totalLE_iff, not_le] at hle
    exact hle.le

theorem foldl_earlier_spec (best : RayHit α) (hs : List (RayHit α)) :
    ∃ e, hs.foldl (fun best h => if Scalar.totalLE best.scale h.scale then best else h) best = e ∧
      e ∈ best :: hs ∧ ∀ h ∈ best :: hs, e.scale ≤ h.scale := by
  induction hs generalizing best with
  | nil =>
      refine ⟨best, rfl, List.mem_singleton_self best, fun h hh => ?_⟩
      rw [List.mem_singleton.mp hh]
  | cons g hs ih =>
      obtain ⟨e, he, heq, hebest, heg⟩ := exists_earlier best g
      obtain ⟨first, hfirst, hmem, hleast⟩ := ih e
      refine ⟨first, by rw [List.foldl_cons, he, hfirst], ?_, fun h hh => ?_⟩
      · rcases List.mem_cons.mp hmem with rfl | hmem
        · rcases heq with rfl | rfl
          · exact List.mem_cons_self
          · exact List.mem_cons_of_mem _ List.mem_cons_self
        · exact List.mem_cons_of_mem _ (List.mem_cons_of_mem _ hmem)
      · have hfirste := hleast e List.mem_cons_self
        rcases List.mem_cons.mp hh with rfl | hh
        · exact hfirste.trans hebest
        · rcases List.mem_cons.mp hh with rfl | hh
          · exact hfirste.trans heg
          · exact hleast h (List.mem_cons_of_mem _ hh)

theorem earliest?_isFirst (hs : List (RayHit α)) : IsFirst hs ⊤ (earliest? hs) := by
  cases hs with
  | nil => exact fun h hh => absurd hh List.not_mem_nil
  | cons h hs =>
      obtain ⟨first, hfirst, hmem, hleast⟩ := foldl_earlier_spec h hs
      rw [earliest?, hfirst]
      exact ⟨hmem, WithTop.coe_lt_top _, hleast⟩

/-- The earliest of the first hits of several parts is the first hit of all. -/
theorem earliest?_filterMap_isFirst {β : Type} {parts : List β} {hits : β → List (RayHit α)}
    {first : β → Option (RayHit α)} (h : ∀ c ∈ parts, IsFirst (hits c) ⊤ (first c)) :
    IsFirst (parts.flatMap hits) ⊤ (earliest? (parts.filterMap first)) := by
  have hearliest := earliest?_isFirst (parts.filterMap first)
  cases ho : earliest? (parts.filterMap first) with
  | none =>
      rw [ho] at hearliest
      intro g hg
      obtain ⟨c, hc, hg⟩ := List.mem_flatMap.mp hg
      have hc' := h c hc
      cases hfirst : first c with
      | none =>
          rw [hfirst] at hc'
          exact hc' g hg
      | some f =>
          have hf := hearliest f (List.mem_filterMap.mpr ⟨c, hc, hfirst⟩)
          exact absurd hf (not_le.mpr (WithTop.coe_lt_top _))
  | some e =>
      rw [ho] at hearliest
      obtain ⟨hmem, hlimit, hleast⟩ := hearliest
      obtain ⟨c, hc, hfirst⟩ := List.mem_filterMap.mp hmem
      have hc' := h c hc
      rw [hfirst] at hc'
      refine ⟨List.mem_flatMap.mpr ⟨c, hc, hc'.1⟩, hlimit, fun g hg => ?_⟩
      obtain ⟨d, hd, hg⟩ := List.mem_flatMap.mp hg
      have hd' := h d hd
      cases hfd : first d with
      | none =>
          rw [hfd] at hd'
          exact absurd (hd' g hg) (not_le.mpr (WithTop.coe_lt_top _))
      | some f =>
          rw [hfd] at hd'
          exact (hleast f (List.mem_filterMap.mpr ⟨d, hd, hfd⟩)).trans (hd'.2.2 g hg)

end Collider

end SolidSurface
