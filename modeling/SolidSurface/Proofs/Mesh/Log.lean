import SolidSurface.Proofs.Mesh.Winding

/-! # Logs of triangles

What a mesh holds is a log: a list with one entry for each triangle that was ever added, in which a
removed triangle leaves a gap. The handle of a triangle is its place in the log.
-/

namespace SolidSurface

variable {α κ : Type}

/-- Whether a triangle has a corner of the given key. -/
def Triangle.touches [BEq κ] [Keyed α κ] (t : Triangle α) (k : PointKey κ) : Bool :=
  t.corners.any fun v => PointKey.ofPoint v == k

abbrev TriangleLog (α : Type) := List (Option (Triangle α))

namespace TriangleLog

def get? (l : TriangleLog α) (id : TriangleHandle) : Option (Triangle α) :=
  l[id.slot.toNat]?.join

/-- The live triangles with their handles. -/
def entries (l : TriangleLog α) : List (TriangleHandle × Triangle α) :=
  l.zipIdx.filterMap fun (slot, i) => slot.map fun t => (⟨.ofNat i⟩, t)

/-- Number of live triangles. -/
def live (l : TriangleLog α) : Nat :=
  l.countP Option.isSome

/-- As long as there are handles enough, every place in the log has one of its own. -/
theorem toNat_ofNat_of_mem_zipIdx {l : TriangleLog α} (hl : l.length ≤ handleCount)
    {e : Option (Triangle α) × Nat} (he : e ∈ l.zipIdx) : (UInt32.ofNat e.2).toNat = e.2 := by
  have hlt := List.snd_lt_of_mem_zipIdx he
  rw [Nat.add_zero] at hlt
  exact UInt32.toNat_ofNat_of_lt (Nat.lt_of_lt_of_le hlt hl)

theorem mem_entries {l : TriangleLog α} (hl : l.length ≤ handleCount) {id : TriangleHandle}
    {t : Triangle α} : (id, t) ∈ l.entries ↔ l.get? id = some t := by
  simp only [entries, List.mem_filterMap, Option.map_eq_some_iff, Prod.mk.injEq, get?,
    Option.join_eq_some_iff]
  constructor
  · rintro ⟨⟨slot, i⟩, hmem, u, rfl, rfl, rfl⟩
    rw [toNat_ofNat_of_mem_zipIdx hl hmem]
    exact List.mem_zipIdx_iff_getElem?.mp hmem
  · intro h
    exact ⟨(some t, id.slot.toNat), List.mem_zipIdx_iff_getElem?.mpr h, t, rfl,
      congrArg TriangleHandle.mk UInt32.ofNat_toNat, rfl⟩

theorem pairwise_entries {l : TriangleLog α} (hl : l.length ≤ handleCount) :
    l.entries.Pairwise fun e f => e.1.slot < f.1.slot := by
  have hslots : l.zipIdx.Pairwise fun a b => a.2 < b.2 := by
    rw [← List.pairwise_map, List.zipIdx_map_snd]
    exact List.pairwise_lt_range'
  rw [entries, List.pairwise_filterMap]
  refine hslots.imp_of_mem ?_
  rintro ⟨slot, i⟩ ⟨slot', j⟩ hi hj hij e he f hf
  obtain ⟨t, -, rfl⟩ := Option.map_eq_some_iff.mp he
  obtain ⟨u, -, rfl⟩ := Option.map_eq_some_iff.mp hf
  rw [UInt32.lt_iff_toNat_lt, toNat_ofNat_of_mem_zipIdx hl hi, toNat_ofNat_of_mem_zipIdx hl hj]
  exact hij

/-- Clearing an entry takes away the triangle that it holds. -/
theorem live_set_none {l : TriangleLog α} {i : Nat} {t : Triangle α} (h : l[i]?.join = some t) :
    live (l.set i none) = l.live - 1 := by
  obtain ⟨hi, ht⟩ := List.getElem?_eq_some_iff.mp (Option.join_eq_some_iff.mp h)
  rw [live, List.countP_set hi, ht, live]
  rfl

/-- Only a live entry makes a difference when it is cleared. -/
theorem set_none_eq_self {l : TriangleLog α} {i : Nat} (h : l[i]?.join = none) :
    l.set i none = l := by
  apply List.ext_getElem?
  intro j
  rw [List.getElem?_set]
  split
  · rename_i hij
    subst hij
    cases hl : l[i]? with
    | none => simp [List.getElem?_eq_none_iff.mp hl]
    | some slot =>
        rw [hl] at h
        cases slot with
        | none => simp [(List.getElem?_eq_some_iff.mp hl).1]
        | some t => cases h
  · rfl

section Filter

variable {l : TriangleLog α} (hl : l.length ≤ handleCount) (P : Triangle α → Bool)

include hl

theorem mem_map_filter_entries {id : TriangleHandle} :
    id ∈ (l.entries.filter fun e => P e.2).map Prod.fst ↔
      ∃ t, l.get? id = some t ∧ P t = true := by
  simp only [List.mem_map, List.mem_filter]
  constructor
  · rintro ⟨⟨_, t⟩, ⟨hmem, ht⟩, rfl⟩
    exact ⟨t, (mem_entries hl).mp hmem, ht⟩
  · rintro ⟨t, hget, ht⟩
    exact ⟨(id, t), ⟨(mem_entries hl).mpr hget, ht⟩, rfl⟩

theorem pairwise_map_filter_entries :
    ((l.entries.filter fun e => P e.2).map Prod.fst).Pairwise fun id id' => id.slot < id'.slot :=
  ((pairwise_entries hl).filter _).map _ fun _ _ h => h

end Filter

section Keys

variable [BEq κ] [Keyed α κ]

/-- Handles of the live triangles with a corner of the given key. -/
def handlesAt (l : TriangleLog α) (k : PointKey κ) : List TriangleHandle :=
  (l.entries.filter fun e => e.2.touches k).map Prod.fst

variable {l : TriangleLog α} (hl : l.length ≤ handleCount)

include hl

theorem mem_handlesAt {k : PointKey κ} {id : TriangleHandle} :
    id ∈ l.handlesAt k ↔ ∃ t, l.get? id = some t ∧ t.touches k = true :=
  mem_map_filter_entries hl fun t => t.touches k

theorem pairwise_handlesAt (k : PointKey κ) :
    (l.handlesAt k).Pairwise fun id id' => id.slot < id'.slot :=
  pairwise_map_filter_entries hl fun t => t.touches k

end Keys

end TriangleLog

namespace Mesh

variable [BEq κ] [Hashable κ]

/-- The log of a mesh. -/
def log (m : Mesh α κ) : TriangleLog α :=
  m.slots.toList

theorem length_log_le (m : Mesh α κ) : m.log.length ≤ handleCount :=
  m.size_slots_le

theorem get?_eq_log (m : Mesh α κ) (id : TriangleHandle) : m.get? id = m.log.get? id := by
  rw [get?, TriangleLog.get?, log, Array.getElem?_toList]

theorem entries_eq_log (m : Mesh α κ) : m.entries = m.log.entries := rfl

theorem map_snd_entries (m : Mesh α κ) : m.entries.map Prod.snd = m.triangles := by
  have hslot : ∀ e : Option (Triangle α) × Nat,
      (e.1.map fun t => ((⟨.ofNat e.2⟩ : TriangleHandle), t)).map Prod.snd = e.1 := by
    rintro ⟨_ | t, i⟩ <;> rfl
  rw [entries, triangles, List.map_filterMap]
  simp only [hslot]
  rw [← List.zipIdx_map_fst 0 m.slots.toList, List.filterMap_map, List.zipIdx_map_fst]
  rfl

end Mesh

end SolidSurface
