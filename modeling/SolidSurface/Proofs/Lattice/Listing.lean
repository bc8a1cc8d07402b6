import Mathlib.Data.List.Nodup
import Mathlib.Data.List.Pairwise
import SolidSurface.Extraction.Grid
import SolidSurface.Proofs.Lattice.Border

/-! # Listing the points of a lattice

Every point with coordinates below those of `n` is listed once, so lists that are put together point
by point have no repetitions when those of single points have none and no two of them meet. The
samples of a layer are in the same order, and a read at the number of a point gives its sample.
-/

namespace SolidSurface

namespace LatticePoint

variable {β γ : Type} {n : Vec3 Nat}

theorem flatMapBelow_congr {f g : LatticePoint → List β}
    (h : ∀ p : LatticePoint, p.Below n → f p = g p) : flatMapBelow n f = flatMapBelow n g := by
  refine List.flatMap_congr fun z hz => List.flatMap_congr fun y hy =>
    List.flatMap_congr fun x hx => ?_
  exact h ⟨x, y, z⟩ ⟨List.mem_range.mp hx, List.mem_range.mp hy, List.mem_range.mp hz⟩

def allBelow (n : Vec3 Nat) : List LatticePoint :=
  flatMapBelow n fun p => [p]

theorem flatMapBelow_eq_flatMap_allBelow (f : LatticePoint → List β) :
    flatMapBelow n f = (allBelow n).flatMap f := by
  simp only [allBelow, flatMapBelow, List.flatMap_assoc, List.flatMap_cons, List.flatMap_nil,
    List.append_nil]

theorem mem_allBelow {p : LatticePoint} : p ∈ allBelow n ↔ p.Below n := by
  rw [allBelow, mem_flatMapBelow]
  constructor
  · rintro ⟨q, hq, hp⟩
    rw [List.mem_singleton] at hp
    exact hp ▸ hq
  · intro h
    exact ⟨p, h, List.mem_singleton_self p⟩

/-- Lists whose members tell the index they come from. -/
theorem nodup_flatMap_of_tag {l : List γ} {f : γ → List β} (tag : β → γ) (hl : l.Nodup)
    (hf : ∀ i ∈ l, (f i).Nodup) (htag : ∀ i, ∀ b ∈ f i, tag b = i) : (l.flatMap f).Nodup := by
  rw [List.nodup_flatMap]
  refine ⟨hf, hl.imp fun {i j} hne b hi hj => hne ?_⟩
  rw [← htag i b hi, ← htag j b hj]

theorem nodup_allBelow (n : Vec3 Nat) : (allBelow n).Nodup := by
  refine nodup_flatMap_of_tag Vec3.z List.nodup_range (fun z _ => ?_) (by simp +contextual)
  refine nodup_flatMap_of_tag Vec3.y List.nodup_range (fun y _ => ?_) (by simp +contextual)
  exact nodup_flatMap_of_tag Vec3.x List.nodup_range (by simp) (by simp)

theorem nodup_flatMapBelow_iff {f : LatticePoint → List β} :
    (flatMapBelow n f).Nodup ↔ (∀ p : LatticePoint, p.Below n → (f p).Nodup) ∧
      ∀ p q : LatticePoint, p.Below n → q.Below n → p ≠ q → ∀ b ∈ f p, b ∉ f q := by
  rw [flatMapBelow_eq_flatMap_allBelow, List.nodup_flatMap]
  simp only [mem_allBelow]
  refine and_congr_right fun _ => ⟨fun h p q hp hq hne b hb hb' => ?_, fun h => ?_⟩
  · have : Std.Symm (Function.onFun List.Disjoint f) := ⟨fun _ _ hd _ hb hb' => hd hb' hb⟩
    exact h.forall (mem_allBelow.mpr hp) (mem_allBelow.mpr hq) hne hb hb'
  · refine (nodup_allBelow n).pairwise_of_forall_ne fun p hp q hq hne b hb => ?_
    exact h p q (mem_allBelow.mp hp) (mem_allBelow.mp hq) hne b hb

end LatticePoint

/-! ## Samples of one layer -/

section SampleLayer

variable {n : Vec3 Nat} {inside : LatticePoint → Bool}

theorem getElem?_sampleLayer {p : LatticePoint} (hx : p.x < n.x) (hy : p.y < n.y) :
    (sampleLayer n inside p.z)[p.x + n.x * p.y]? = some (inside p) := by
  rw [sampleLayer, Array.getElem?_ofFn, dif_pos (LatticePoint.index_lt hx hy)]
  exact congrArg (fun q => some (inside q)) (LatticePoint.pointAt_index hx)

theorem layerLeaks_sampleLayer_iff {z : Nat} : layerLeaks n z (sampleLayer n inside z) = true ↔
    ∃ p : LatticePoint, (p.x < n.x ∧ p.y < n.y ∧ p.z = z) ∧ p.isBorder n = true ∧
      inside p = true := by
  simp only [layerLeaks, ← Array.any_toList, List.any_eq_true, Array.toList_zipIdx,
    List.mem_zipIdx_iff_getElem?, Array.getElem?_toList, Bool.and_eq_true, Prod.exists]
  constructor
  · rintro ⟨b, i, hb, hin, hborder⟩
    rw [sampleLayer, Array.getElem?_ofFn] at hb
    obtain ⟨hi, hb⟩ := Option.dite_none_right_eq_some.mp hb
    obtain ⟨hx, hy⟩ := LatticePoint.pointAt_lt (k := z) hi
    exact ⟨_, ⟨hx, hy, rfl⟩, hborder, (Option.some.inj hb).trans hin⟩
  · rintro ⟨p, ⟨hx, hy, rfl⟩, hborder, hin⟩
    refine ⟨inside p, _, getElem?_sampleLayer hx hy, hin, ?_⟩
    exact (congrArg (LatticePoint.isBorder n) (LatticePoint.pointAt_index hx)).trans hborder

end SampleLayer

end SolidSurface
