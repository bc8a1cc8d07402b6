import SolidSurface.Extraction.DualContour
import SolidSurface.Proofs.DualContour.Writing

/-! # Streaming

Whatever number of layers a sweep keeps, it gives the triangles of the whole lattice in their order,
or fails with it. The invariant is that the layers seen by the windows so far stand as `swept` says
and that their triangles have been written out.
-/

namespace SolidSurface

namespace DualContour

variable {γ ν : Type} {F : LatticeField γ ν} {w : Window} {slots : Slots γ ν} {seen : Nat}

/-! ## The invariant of a sweep -/

/-- The state of a sweep at window `w`, with `written` behind it. -/
structure Sweeping (F : LatticeField γ ν) (seen : Nat) (w : Window) (slots : Slots γ ν)
    (written : Array (Facet ν)) : Prop where
  reached : Reached F.dimensions.z seen w
  resident : Resident w slots fun k => F.layerAt (.swept seen k) k
  clear : F.ClearBelow seen
  written_eq : written = (F.facetsBelow (seen - 1)).toArray

theorem layerAt_swept_of_le {k : Nat} (h : seen ≤ k) :
    F.layerAt (.swept seen k) k = Layer.blank F.dimensions := by
  rw [← LatticeField.layerAt_blank k]
  simp [Progress.swept, Nat.not_lt.mpr h, Nat.not_lt.mpr (Nat.le_succ_of_le h)]

theorem sweeping_first (F : LatticeField γ ν) (requested : Nat) :
    Sweeping F 0 (.first (Window.grantedRows F.dimensions.z requested))
      (.replicate (Window.grantedRows F.dimensions.z requested) (.blank F.dimensions)) #[] where
  reached := ⟨Window.first_spans _ _, rfl, Nat.zero_le _, .inl rfl⟩
  resident := (resident_replicate _ _).congr fun _ _ => (layerAt_swept_of_le (Nat.zero_le _)).symm
  clear _ _ hz := absurd hz (Nat.not_lt_zero _)
  written_eq := rfl

/-- Filling a window meets a sample that leaks, or finds out all there is to know. -/
theorem fillWindow_cases {written : Array (Facet ν)} (h : Sweeping F seen w slots written) :
    (fillWindow F w slots = .error .insideOnBorder ∧ F.leaks = true) ∨
      ∃ filled, fillWindow F w slots = .ok filled ∧ F.ClearBelow w.stop ∧
        Resident w filled fun k => F.layerAt (.filled seen w.stop k) k := by
  have hfits := h.reached.spans.fits
  have hcorners := h.resident.fillCorners hfits
  have hleaks := leaks_eq_true_iff hcorners (fun _ _ => rfl) hfits
  by_cases hleak : leaks F.dimensions w (fillCorners F w slots) = true
  · left
    refine ⟨by rw [fillWindow, if_pos hleak]; rfl, ?_⟩
    obtain ⟨p, hx, hy, hz, hin, hborder⟩ := hleaks.mp hleak
    rw [LatticeField.leaks, LatticePoint.anyBelow_eq_true_iff]
    exact ⟨p, ⟨hx, hy, Nat.lt_of_lt_of_le hz.2 h.reached.spans.stop_le⟩, by rw [hin, hborder]; rfl⟩
  · right
    obtain ⟨found, hfound, hedges⟩ := hcorners.fillEdges (fun _ _ => rfl) hfits
    obtain ⟨filled, hfilled, hcubes⟩ := hedges.fillCubes
      (fun k _ => by
        simp only [Progress.swept]
        split_ifs <;> simp [Stage.resolve])
      (fun k _ hnext => by
        simp only [Progress.swept, if_pos hnext]
        split_ifs <;> simp [Stage.resolve])
      hfits
    refine ⟨filled, ?_, ?_, hcubes.congr fun k hk => ?_⟩
    · rw [fillWindow, if_neg hleak]
      simp only [hfound, hfilled, Except.mapError, bind, Except.bind]
    · intro p hp hz hborder
      by_cases hseen : p.z < seen
      · exact h.clear p hp hseen hborder
      · rw [← Bool.not_eq_true]
        intro hin
        have hstart := h.reached.start_eq
        exact hleak (hleaks.mpr ⟨p, hp.1, hp.2.1, ⟨by omega, hz⟩, hin, hborder⟩)
    · have hle := h.reached.seen_le_stop
      have hstop := hk.2
      congr 1
      simp only [Progress.swept, Progress.filled, Progress.mk.injEq, true_and]
      refine ⟨?_, ?_, ?_⟩
      · split_ifs <;> rfl
      · split_ifs <;> rfl
      · rw [← Bool.decide_or, decide_eq_decide]
        omega

/-- A shift leads from one window to the next. -/
theorem Sweeping.shift {written : Array (Facet ν)} {filled : Slots γ ν}
    (h : Sweeping F seen w slots written) (hadv : w.Advances F.dimensions.z)
    (hlt : w.stop < F.dimensions.z) (hclear : F.ClearBelow w.stop)
    (hfilled : Resident w filled fun k => F.layerAt (.filled seen w.stop k) k) :
    ∃ next, recycle F.dimensions w (markWindowWritten w filled) = .ok next ∧
      Sweeping F w.stop (w.shift F.dimensions.z) next (F.facetsBelow (w.stop - 1)).toArray := by
  have hmarked := Resident.markWindowWritten h.reached hclear hfilled
  obtain ⟨next, hnext, hresident⟩ := hmarked.recycle h.reached.spans hadv hlt
  refine ⟨next, hnext, ?_, hresident.congr fun k _ => ?_, hclear, rfl⟩
  · exact
      { spans := h.reached.spans.shift
        start_eq := rfl
        seen_le_stop := Nat.le_of_lt (Window.stop_lt_stop_shift hadv hlt)
        first_or_later := .inr (Nat.le_of_add_left_le (h.reached.spans.start_add_two_le hadv hlt)) }
  · split_ifs with hk
    · rfl
    · exact (layerAt_swept_of_le (Nat.le_of_not_lt hk)).symm

/-! ## The whole sweep -/

/-- From any window on, a sweep gives the surface of the whole lattice. -/
theorem sweepFrom_eq_surface {seen : Nat} {w : Window} {slots : Slots γ ν}
    {written : Array (Facet ν)} (hadv : w.Advances F.dimensions.z)
    (h : Sweeping F seen w slots written) : sweepFrom F w hadv slots written = F.surface := by
  rw [sweepFrom]
  rcases fillWindow_cases h with ⟨hfault, hleaks⟩ | ⟨filled, hfilled, hclear, hres⟩
  · rw [hfault, LatticeField.surface, if_pos hleaks]
  · rw [hfilled]
    simp only [windowFacets_eq h.reached hclear hres]
    have hwritten : written ++ (w.layers.flatMap fun k =>
        if seen ≤ k + 1 ∧ k + 1 < w.stop then F.layerFacets k else []) =
        (F.facetsBelow (w.stop - 1)).toArray := by
      rw [h.written_eq, ← facetsBelow_append h.reached]
      simp
    rw [hwritten]
    by_cases hlt : w.stop < F.dimensions.z
    · obtain ⟨next, hnext, hsweeping⟩ := h.shift hadv hlt hclear hres
      rw [dif_pos hlt]
      simp only [hnext]
      exact sweepFrom_eq_surface (hadv.shift hlt) hsweeping
    · rw [dif_neg hlt]
      have hstop : w.stop = F.dimensions.z :=
        Nat.le_antisymm h.reached.spans.stop_le (Nat.le_of_not_lt hlt)
      rw [hstop] at hclear
      rw [LatticeField.surface, LatticeField.leaks_eq_false_of_clearBelow hclear, hstop]
      rfl
termination_by F.dimensions.z - w.stop
decreasing_by
  have := Window.stop_lt_stop_shift hadv hlt
  omega

theorem sweep_eq_surface (F : LatticeField γ ν) (rows : Nat) : sweep F rows = F.surface :=
  sweepFrom_eq_surface _ (sweeping_first F rows)

end DualContour

open DualContour

variable {α κ : Type} [Scalar α] [BEq κ] [Hashable κ]

/-- Streaming through a window of any size gives what keeping all layers gives, be it the triangles
in their order or a fault, so the memory budget has no bearing on the surface. -/
theorem sweep_eq_sweep_allLayers (e : SurfaceEstimator α) (g : Grid α) (regularization : α)
    (clip : Bool) (rows : Nat) :
    sweep (field e g regularization clip) rows =
        sweep (field e g regularization clip) g.dimensions.z ∧
      ∀ (c : DualContourSettings α) (budget : Nat),
        (dualContourUsing e { c with memoryBudget := budget } : Except _ (Mesh α κ)) =
          dualContourUsing e c := by
  constructor
  · rw [sweep_eq_surface, sweep_eq_surface]
  · intro c budget
    simp only [dualContourUsing, sweep_eq_surface]
    rfl

end SolidSurface
