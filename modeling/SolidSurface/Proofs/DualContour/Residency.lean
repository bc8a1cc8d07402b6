import Mathlib.Data.List.Induction
import SolidSurface.Extraction.DualContour.Sweep

/-! # Layers in their slots

As long as a window has no more layers than slots, no two of its layers share a slot. Its slots can
then be read as a function from the resident layers to what is stored of them, and what is done to
the slots as what is done to that function.
-/

namespace SolidSurface.DualContour

namespace Window

variable {w : Window} {k l nz slot : Nat}

/-- Whether layer `k` is resident. -/
def Holds (w : Window) (k : Nat) : Prop :=
  w.start ≤ k ∧ k < w.stop

theorem mem_layers : k ∈ w.layers ↔ w.Holds k := by
  rw [layers, List.mem_range'_1, Holds]
  omega

/-- No more resident layers than slots. -/
def Fits (w : Window) : Prop :=
  w.stop ≤ w.start + w.rows

theorem rows_pos (hw : w.Fits) (hk : w.Holds k) : 0 < w.rows := by
  simp only [Fits] at hw
  simp only [Holds] at hk
  omega

theorem slot_lt (hw : w.Fits) (hk : w.Holds k) : w.slot k < w.rows :=
  Nat.mod_lt _ (rows_pos hw hk)

/-- The resident layer in the slot of a resident layer is that layer. -/
theorem layer?_slot (hw : w.Fits) (hk : w.Holds k) : w.layer? (w.slot k) = some k := by
  obtain ⟨hstart, hstop⟩ := hk
  obtain ⟨d, rfl⟩ := Nat.exists_eq_add_of_le hstart
  simp only [Fits] at hw
  have hd : d < w.rows := by omega
  have hmod : w.start % w.rows < w.rows := Nat.mod_lt _ (by omega)
  have hoffset : ((w.start + d) % w.rows + w.rows - w.start % w.rows) % w.rows = d := by
    rw [Nat.add_mod, Nat.mod_eq_of_lt hd]
    by_cases hwrap : w.start % w.rows + d < w.rows
    · rw [Nat.mod_eq_of_lt hwrap, show w.start % w.rows + d + w.rows - w.start % w.rows =
        d + w.rows by omega, Nat.add_mod_right, Nat.mod_eq_of_lt hd]
    · have hback : (w.start % w.rows + d) % w.rows = w.start % w.rows + d - w.rows := by
        rw [Nat.mod_eq_sub_mod (by omega), Nat.mod_eq_of_lt (by omega)]
      rw [hback, show w.start % w.rows + d - w.rows + w.rows - w.start % w.rows = d by omega,
        Nat.mod_eq_of_lt hd]
  simp only [layer?, slot, hoffset]
  rw [if_pos hstop]

theorem start_mod_le (w : Window) (hrows : 0 < w.rows) (slot : Nat) :
    w.start % w.rows ≤ slot + w.rows :=
  Nat.le_trans (Nat.le_of_lt (Nat.mod_lt _ hrows)) (Nat.le_add_left _ _)

/-- The resident layer in a slot has that slot. -/
theorem slot_eq_of_layer? (hslot : slot < w.rows) (h : w.layer? slot = some k) :
    w.Holds k ∧ w.slot k = slot := by
  have hle := w.start_mod_le (Nat.zero_lt_of_lt hslot) slot
  simp only [layer?, Option.ite_none_right_eq_some, Option.some.injEq] at h
  obtain ⟨hstop, rfl⟩ := h
  refine ⟨⟨Nat.le_add_right _ _, hstop⟩, ?_⟩
  calc (w.start + (slot + w.rows - w.start % w.rows) % w.rows) % w.rows
      = (w.start % w.rows + (slot + w.rows - w.start % w.rows)) % w.rows := by
        rw [Nat.add_mod_mod, Nat.mod_add_mod]
    _ = (slot + w.rows) % w.rows := by rw [Nat.add_sub_cancel' hle]
    _ = slot := by rw [Nat.add_mod_right, Nat.mod_eq_of_lt hslot]

theorem eq_of_slot_eq (hw : w.Fits) (hk : w.Holds k) (hl : w.Holds l)
    (h : w.slot k = w.slot l) : k = l := by
  have hsome := layer?_slot hw hk
  rw [h, layer?_slot hw hl] at hsome
  exact (Option.some.inj hsome).symm

/-- A window of a sweep through `nz` layers ends at the last slot or at the last layer. -/
def Spans (nz : Nat) (w : Window) : Prop :=
  w.stop = min (w.start + w.rows) nz

theorem Spans.fits (h : w.Spans nz) : w.Fits := by
  simp only [Spans] at h
  simp only [Fits]
  omega

theorem Spans.shift (_h : w.Spans nz) : (w.shift nz).Spans nz := rfl

theorem Spans.stop_le (h : w.Spans nz) : w.stop ≤ nz := by
  simp only [Spans] at h
  omega

theorem first_spans (nz requested : Nat) : (first (grantedRows nz requested)).Spans nz := by
  simp only [Spans, first, grantedRows]
  omega

/-- A window that is shifted holds two layers and more. -/
theorem Spans.start_add_two_le (h : w.Spans nz) (hadv : w.Advances nz) (hlt : w.stop < nz) :
    w.start + 2 ≤ w.stop := by
  simp only [Spans] at h
  simp only [Advances] at hadv
  omega

theorem mem_entering : k ∈ w.entering nz ↔ w.stop ≤ k ∧ k < (w.shift nz).stop := by
  rw [entering, List.mem_range'_1]
  omega

end Window

/-! ## Reading the slots by layers -/

variable {γ ν : Type} {w : Window} {slots : Slots γ ν} {L : Nat → Layer γ ν}

/-- Every resident layer `k` is stored as `L k`. -/
structure Resident (w : Window) (slots : Slots γ ν) (L : Nat → Layer γ ν) : Prop where
  size_eq : slots.size = w.rows
  getElem?_slot : ∀ k, w.Holds k → slots[w.slot k]? = some (L k)

theorem Resident.congr {L' : Nat → Layer γ ν} (h : Resident w slots L)
    (heq : ∀ k, w.Holds k → L k = L' k) : Resident w slots L' where
  size_eq := h.size_eq
  getElem?_slot k hk := by rw [← heq k hk, h.getElem?_slot k hk]

theorem Resident.updateResident (hw : w.Fits) (h : Resident w slots L)
    (f : Nat → Layer γ ν → Layer γ ν) :
    Resident w (updateResident w slots f) fun k => f k (L k) where
  size_eq := by rw [DualContour.updateResident, Array.size_mapIdx, h.size_eq]
  getElem?_slot k hk := by
    rw [DualContour.updateResident, Array.getElem?_mapIdx, h.getElem?_slot k hk, Option.map_some,
      Window.layer?_slot hw hk]

theorem Resident.getElem?_of_layer? {slot k : Nat} (h : Resident w slots L)
    (hslot : slot < slots.size) (hk : w.layer? slot = some k) :
    w.Holds k ∧ slots[slot]? = some (L k) := by
  obtain ⟨hholds, rfl⟩ := Window.slot_eq_of_layer? (h.size_eq ▸ hslot) hk
  exact ⟨hholds, h.getElem?_slot k hholds⟩

/-- What is found out about every resident layer can be stored. -/
theorem Resident.resolveResident {L' : Nat → Layer γ ν} (hw : w.Fits) (h : Resident w slots L)
    {f : Nat → Layer γ ν → Except OutOfRange (Layer γ ν)}
    (hf : ∀ k, w.Holds k → f k (L k) = .ok (L' k)) :
    ∃ found, resolveResident w slots f = .ok found ∧ Resident w found L' := by
  let found : Nat → Layer γ ν → Layer γ ν := fun slot layer => (w.layer? slot).elim layer L'
  refine ⟨slots.mapIdx found, replaceEach_eq_ok fun slot layer hlayer => ?_, ?_, fun k hk => ?_⟩
  · simp only [found]
    cases hk : w.layer? slot with
    | none => rfl
    | some k =>
        obtain ⟨hslot, -⟩ := Array.getElem?_eq_some_iff.mp hlayer
        obtain ⟨hholds, hstored⟩ := h.getElem?_of_layer? hslot hk
        rw [hstored] at hlayer
        exact Option.some.inj hlayer ▸ hf k hholds
  · rw [Array.size_mapIdx, h.size_eq]
  · rw [Array.getElem?_mapIdx, h.getElem?_slot k hk, Option.map_some]
    simp only [found, Window.layer?_slot hw hk, Option.elim_some]

theorem resident_replicate (rows : Nat) (b : Layer γ ν) :
    Resident (.first rows) (.replicate rows b) fun _ => b where
  size_eq := Array.size_replicate
  getElem?_slot k hk := by
    have hlt : k % rows < rows := Nat.mod_lt _ (Nat.zero_lt_of_lt hk.2)
    rw [Array.getElem?_replicate]
    exact if_pos hlt

/-! ## Moving the window on -/

theorem size_foldl_setIfInBounds {β : Type} (slot : Nat → Nat) (b : β) (ks : List Nat)
    (xs : Array β) : (ks.foldl (fun xs k => xs.setIfInBounds (slot k) b) xs).size = xs.size := by
  induction ks generalizing xs with
  | nil => rfl
  | cons k ks ih => rw [List.foldl_cons, ih, Array.size_setIfInBounds]

theorem getElem?_foldl_setIfInBounds_of_mem {β : Type} {slot : Nat → Nat} {b : β} {ks : List Nat}
    {xs : Array β} {k : Nat} (hk : k ∈ ks) (hlt : slot k < xs.size) :
    (ks.foldl (fun xs k => xs.setIfInBounds (slot k) b) xs)[slot k]? = some b := by
  -- The last layer written to the slot counts, so the list is taken apart from its end.
  induction ks using List.reverseRecOn with
  | nil => cases hk
  | append_singleton ks l ih =>
      rw [List.foldl_append, List.foldl_cons, List.foldl_nil, Array.getElem?_setIfInBounds,
        size_foldl_setIfInBounds]
      by_cases hslot : slot l = slot k
      · rw [if_pos hslot, if_pos (hslot ▸ hlt)]
      · rw [if_neg hslot]
        rw [List.mem_append, List.mem_singleton] at hk
        rcases hk with hk | rfl
        · exact ih hk
        · exact absurd rfl hslot

theorem getElem?_foldl_setIfInBounds_of_forall_ne {β : Type} {slot : Nat → Nat} {b : β}
    {ks : List Nat} {xs : Array β} {j : Nat} (hj : ∀ k ∈ ks, slot k ≠ j) :
    (ks.foldl (fun xs k => xs.setIfInBounds (slot k) b) xs)[j]? = xs[j]? := by
  induction ks generalizing xs with
  | nil => rfl
  | cons k ks ih =>
      rw [List.foldl_cons, ih fun l hl => hj l (List.mem_cons_of_mem _ hl),
        Array.getElem?_setIfInBounds, if_neg (hj k List.mem_cons_self)]

/-- A shift finds a slot for every layer that enters. -/
theorem recycle_eq_ok {n : Vec3 Nat} (hw : w.Spans n.z) (hsize : slots.size = w.rows) :
    recycle n w slots = .ok ((w.entering n.z).foldl
      (fun slots k => slots.setIfInBounds ((w.shift n.z).slot k) (.blank n)) slots) := by
  have hslot : ∀ k ∈ w.entering n.z, (w.shift n.z).slot k < w.rows := by
    intro k hk
    obtain ⟨hstop, hk⟩ := Window.mem_entering.mp hk
    exact Window.slot_lt hw.shift.fits ⟨Nat.le_trans (Nat.sub_le _ _) hstop, hk⟩
  rw [recycle]
  generalize w.entering n.z = ks at hslot
  induction ks generalizing slots with
  | nil => rfl
  | cons k ks ih =>
      have hlt := hslot k List.mem_cons_self
      rw [List.foldlM_cons, writeAt_eq_ok (hsize ▸ hlt), List.foldl_cons]
      exact ih (by rw [Array.size_setIfInBounds, hsize])
        fun l hl => hslot l (List.mem_cons_of_mem _ hl)

/-- A shift keeps the last two layers and empties the slots of those that enter. -/
theorem Resident.recycle {n : Vec3 Nat} (hw : w.Spans n.z) (hadv : w.Advances n.z)
    (hlt : w.stop < n.z) (h : Resident w slots L) :
    ∃ next, recycle n w slots = .ok next ∧
      Resident (w.shift n.z) next fun k => if k < w.stop then L k else .blank n := by
  refine ⟨_, recycle_eq_ok hw h.size_eq, ?_, fun k hk => ?_⟩
  · rw [size_foldl_setIfInBounds, h.size_eq]
    rfl
  · have hfits : (w.shift n.z).Fits := hw.shift.fits
    by_cases hold : k < w.stop
    · rw [if_pos hold, getElem?_foldl_setIfInBounds_of_forall_ne]
      · have hstart := hw.start_add_two_le hadv hlt
        have hk' : w.stop - 2 ≤ k := hk.1
        exact h.getElem?_slot k ⟨by omega, hold⟩
      · intro l hl hslot
        rw [Window.mem_entering] at hl
        have hl' : (w.shift n.z).Holds l := ⟨Nat.le_trans (Nat.sub_le _ _) hl.1, hl.2⟩
        have := Window.eq_of_slot_eq hfits hl' hk hslot
        omega
    · rw [if_neg hold]
      apply getElem?_foldl_setIfInBounds_of_mem
      · exact Window.mem_entering.mpr ⟨Nat.le_of_not_lt hold, hk.2⟩
      · rw [h.size_eq]
        exact Window.slot_lt hfits hk

end SolidSurface.DualContour
