import SolidSurface.Proofs.DualContour.Residency

/-! # The windows of a sweep

As long as a window has no more layers than slots, slots and resident layers determine each other. A
sweep comes to one window after another. Each ends behind the one before it, until one reaches the
last layer, and a shift leaves alone what is stored of the two layers that stay.
-/

namespace SolidSurface.DualContour

namespace Window

variable {w : Window} {nz : Nat}

/-! ## One after another -/

/-- The windows that a sweep through `nz` layers comes to, from `w` on. -/
def sequence (nz : Nat) (w : Window) (hw : w.Advances nz) : List Window :=
  if h : w.stop < nz then w :: sequence nz (w.shift nz) (hw.shift h) else [w]
termination_by nz - w.stop
decreasing_by
  have := stop_lt_stop_shift hw h
  omega

/-- The windows of a whole sweep with the requested number of rows. -/
def windows (nz requested : Nat) : List Window :=
  sequence nz (first (grantedRows nz requested)) (first_advances nz requested)

/-- What a shift preserves holds of every window. -/
theorem forall_mem_sequence {P : Window → Prop} (hw : w.Advances nz) (hfirst : P w)
    (hshift : ∀ v : Window, v.Advances nz → v.stop < nz → P v → P (v.shift nz)) :
    ∀ v ∈ sequence nz w hw, P v := by
  fun_induction sequence nz w hw with
  | case1 w hw hlt ih =>
      exact List.forall_mem_cons.mpr ⟨hfirst, ih (hshift w hw hlt hfirst)⟩
  | case2 w hw hlast => exact List.forall_mem_singleton.mpr hfirst

/-- A sweep does not end before the last layer. -/
theorem exists_mem_sequence_stop_eq (hw : w.Advances nz) (hspans : w.Spans nz) :
    ∃ v ∈ sequence nz w hw, v.stop = nz := by
  fun_induction sequence nz w hw with
  | case1 w hw hlt ih =>
      obtain ⟨v, hv, hstop⟩ := ih hspans.shift
      exact ⟨v, List.mem_cons_of_mem _ hv, hstop⟩
  | case2 w hw hlast =>
      exact ⟨w, List.mem_cons_self, Nat.le_antisymm hspans.stop_le (Nat.le_of_not_lt hlast)⟩

theorem spans_of_mem_windows {requested : Nat} (h : w ∈ windows nz requested) :
    w.Spans nz ∧ w.Advances nz :=
  forall_mem_sequence (P := fun v => v.Spans nz ∧ v.Advances nz) _
    ⟨first_spans nz requested, first_advances nz requested⟩
    (fun _ hadv hlt hv => ⟨hv.1.shift, hadv.shift hlt⟩) w h

end Window

variable {γ ν : Type}

/-- What a sweep does in one window. It carries the slots and the triangles written out so far. -/
def sweepWindow (F : LatticeField γ ν) (state : Slots γ ν × Array (Facet ν)) (w : Window) :
    Except Fault (Slots γ ν × Array (Facet ν)) := do
  let filled ← fillWindow F w state.1
  let facets ← windowFacets F.dimensions w filled
  let next ← (recycle F.dimensions w (markWindowWritten w filled)).mapError .outOfRange
  return (next, state.2 ++ facets)

/-- Behind the last layer nothing enters. -/
theorem recycle_eq_ok_of_last {n : Vec3 Nat} {w : Window} (h : ¬w.stop < n.z) (slots : Slots γ ν) :
    recycle n w slots = .ok slots := by
  have hstop : (w.shift n.z).stop - w.stop = 0 := by
    simp only [Window.shift]
    omega
  rw [recycle, Window.entering, hstop]
  rfl

theorem foldlM_sequence (F : LatticeField γ ν) {w : Window} (hw : w.Advances F.dimensions.z)
    (state : Slots γ ν × Array (Facet ν)) :
    (w.sequence F.dimensions.z hw).foldlM (sweepWindow F) state =
      sweepWindow F state w >>= fun next =>
        if h : w.stop < F.dimensions.z then
          ((w.shift F.dimensions.z).sequence F.dimensions.z (hw.shift h)).foldlM (sweepWindow F) next
        else .ok next := by
  rw [Window.sequence]
  by_cases hlt : w.stop < F.dimensions.z
  · simp only [dif_pos hlt, List.foldlM_cons]
  · simp only [dif_neg hlt, List.foldlM_cons, List.foldlM_nil]
    rfl

/-- A sweep does one window after the other. -/
theorem sweepFrom_eq_foldlM (F : LatticeField γ ν) {w : Window} (hw : w.Advances F.dimensions.z)
    (slots : Slots γ ν) (written : Array (Facet ν)) :
    sweepFrom F w hw slots written =
      ((w.sequence F.dimensions.z hw).foldlM (sweepWindow F) (slots, written)).map Prod.snd := by
  fun_induction sweepFrom F w hw slots written with
  | case1 w hw slots written fault hfill =>
      simp only [foldlM_sequence, sweepWindow, hfill, bind, Except.bind, Except.map]
  | case2 w hw slots written filled hfill fault hfacets =>
      simp only [foldlM_sequence, sweepWindow, hfill, hfacets, bind, Except.bind, Except.map]
  | case3 w hw slots written filled hfill facets hfacets hlt access hrecycle =>
      rw [foldlM_sequence F hw]
      simp only [sweepWindow, hfill, hfacets, hrecycle, bind, Except.bind, Except.mapError,
        Except.map]
  | case4 w hw slots written filled hfill facets hfacets written' hlt next hrecycle ih =>
      rw [ih, foldlM_sequence F hw]
      simp only [sweepWindow, hfill, hfacets, hrecycle, bind, Except.bind, Except.mapError, pure,
        Except.pure, dif_pos hlt]
      rfl
  | case5 w hw slots written filled hfill facets hfacets written' hlast =>
      rw [foldlM_sequence F hw]
      simp only [sweepWindow, hfill, hfacets, recycle_eq_ok_of_last hlast, bind, Except.bind,
        Except.mapError, pure, Except.pure, dif_neg hlast]
      rfl

/-! ## What a shift keeps -/

namespace Window

variable {w : Window} {k nz : Nat}

/-- The layers that stay with a shift are the last two. -/
theorem Spans.holds_shift_iff (h : w.Spans nz) (hadv : w.Advances nz) (hlt : w.stop < nz) :
    w.Holds k ∧ (w.shift nz).Holds k ↔ w.stop - 2 ≤ k ∧ k < w.stop := by
  have hstart := h.start_add_two_le hadv hlt
  have hstop := stop_lt_stop_shift hadv hlt
  have hfirst : (w.shift nz).start = w.stop - 2 := rfl
  simp only [Holds, hfirst]
  omega

end Window

variable {w : Window} {slots : Slots γ ν} {n : Vec3 Nat} {k : Nat}

/-- Slots of any contents can be read by layers. -/
theorem resident_getD (hw : w.Fits) (hsize : slots.size = w.rows) (b : Layer γ ν) :
    Resident w slots fun k => slots[w.slot k]?.getD b where
  size_eq := hsize
  getElem?_slot k hk := by
    have hlt : w.slot k < slots.size := hsize ▸ Window.slot_lt hw hk
    rw [Array.getElem?_eq_getElem hlt, Option.getD_some]

/-- Whatever the slots hold, a shift empties those of the layers that enter and no other. -/
theorem exists_recycle_eq_ok (hw : w.Spans n.z) (hadv : w.Advances n.z) (hlt : w.stop < n.z)
    (hsize : slots.size = w.rows) :
    ∃ next, recycle n w slots = .ok next ∧ ∀ k, (w.shift n.z).Holds k →
      (w.Holds k → next[w.slot k]? = slots[w.slot k]?) ∧
      (¬w.Holds k → next[w.slot k]? = some (.blank n)) := by
  have hread := resident_getD hw.fits hsize (.blank n)
  obtain ⟨next, hnext, hresident⟩ := hread.recycle hw hadv hlt
  refine ⟨next, hnext, fun k hk => ?_⟩
  have hkept : next[w.slot k]? = _ := hresident.getElem?_slot k hk
  constructor
  · intro hin
    rw [hkept, if_pos hin.2]
    exact (hread.getElem?_slot k hin).symm
  · intro hout
    have hnew : ¬k < w.stop := fun hold =>
      hout ((hw.holds_shift_iff hadv hlt).mpr ⟨hk.1, hold⟩).1
    rw [hkept, if_neg hnew]

/-- A sweep does its windows one after the other, up to the last layer. In any window with no more
layers than slots the resident layers and the slots that hold one determine each other, and nothing
is subtracted from less. After each window of the sweep but the last, the next one ends further on
and within the lattice. The layers that stay are the last two; they keep their slots and what is
stored there, and only the slots of the layers that enter are emptied. -/
theorem sweep_windows (F : LatticeField γ ν) (requested : Nat) :
    let nz := F.dimensions.z
    let rows := Window.grantedRows nz requested
    sweep F requested = ((Window.windows nz requested).foldlM (sweepWindow F)
        (.replicate rows (.blank F.dimensions), #[])).map Prod.snd ∧
      (∃ w ∈ Window.windows nz requested, w.stop = nz) ∧
      (∀ w : Window, 0 < w.rows → w.start ≤ w.stop → w.stop ≤ w.start + w.rows →
        (∀ k, w.Holds k → w.layer? (w.slot k) = some k) ∧
        ∀ slot < w.rows, w.start % w.rows ≤ slot + w.rows ∧
          ∀ k, w.layer? slot = some k → w.Holds k ∧ w.slot k = slot) ∧
      ∀ w ∈ Window.windows nz requested, w.stop < nz →
        2 ≤ w.stop ∧ w.stop < (w.shift nz).stop ∧ (w.shift nz).stop ≤ nz ∧
        (∀ k, w.Holds k ∧ (w.shift nz).Holds k ↔ w.stop - 2 ≤ k ∧ k < w.stop) ∧
        (∀ k, (w.shift nz).slot k = w.slot k) ∧
        ∀ slots : Slots γ ν, slots.size = w.rows → ∃ next,
          recycle F.dimensions w slots = .ok next ∧ ∀ k, (w.shift nz).Holds k →
            (w.Holds k → next[w.slot k]? = slots[w.slot k]?) ∧
            (¬w.Holds k → next[w.slot k]? = some (.blank F.dimensions)) := by
  refine ⟨sweepFrom_eq_foldlM F _ _ _,
    Window.exists_mem_sequence_stop_eq _ (Window.first_spans _ _), fun w hrows _ hfits => ?_,
    fun w hw hlt => ?_⟩
  · exact ⟨fun k hk => Window.layer?_slot hfits hk, fun slot hslot =>
      ⟨w.start_mod_le hrows slot, fun k hk => Window.slot_eq_of_layer? hslot hk⟩⟩
  · obtain ⟨hspans, hadv⟩ := Window.spans_of_mem_windows hw
    have hstart := hspans.start_add_two_le hadv hlt
    exact ⟨Nat.le_of_add_left_le hstart, Window.stop_lt_stop_shift hadv hlt, hspans.shift.stop_le,
      fun k => hspans.holds_shift_iff hadv hlt, fun k => rfl,
      fun slots hsize => exists_recycle_eq_ok hspans hadv hlt hsize⟩

/-- Four rows on eleven layers. The second window has the layers 2 to 5; behind it layer 5 stays in
its slot, and layer 6 gets an empty one. -/
theorem sweep_windows_elevenLayers :
    let F : LatticeField Unit Unit := ⟨⟨2, 2, 11⟩, fun _ => false, fun _ _ _ => (), fun _ _ _ => ()⟩
    let w : Window := ⟨4, 2, 6⟩
    (Window.windows 11 4).map (fun w => (w.start, w.stop)) =
        [(0, 4), (2, 6), (4, 8), (6, 10), (8, 11)] ∧
      w.layer? (w.slot 5) = some 5 ∧
      ∀ slots : Slots Unit Unit, slots.size = 4 → ∃ next,
        recycle F.dimensions w slots = .ok next ∧ next[w.slot 5]? = slots[w.slot 5]? ∧
          next[w.slot 6]? = some (.blank F.dimensions) := by
  intro F w
  have hmem : w ∈ Window.windows 11 4 := by decide +kernel
  obtain ⟨-, -, hslots, hshift⟩ := sweep_windows F 4
  obtain ⟨-, -, -, -, -, hrecycle⟩ := hshift w hmem (by decide)
  have hold : w.Holds 5 := ⟨by decide, by decide⟩
  have hnew : ¬w.Holds 6 := fun h => absurd h.2 (by decide)
  refine ⟨by decide +kernel, (hslots w (by decide) (by decide) (by decide)).1 5 hold,
    fun slots hsize => ?_⟩
  obtain ⟨next, hnext, hslot⟩ := hrecycle slots hsize
  exact ⟨next, hnext, (hslot 5 ⟨by decide, by decide⟩).1 hold,
    (hslot 6 ⟨by decide, by decide⟩).2 hnew⟩

end SolidSurface.DualContour
