import Mathlib.Data.Set.Basic
import Mathlib.Order.Defs.LinearOrder
import SolidSurface.Collider.Basic

/-! # Searching subtrees in the order of entry

Two subtrees are searched in the order in which a ray enters them, each below the best position so
far. What this finds comes no later than any hit that is due, that is, any hit at or behind the
entry into its subtree. The argument needs no more of positions than that their comparisons are
those of some linear order.
-/

namespace SolidSurface

variable {α β : Type} [Scalar α] [LinearOrder β]

/-- A linear order behind the comparison of limits, for those that are numbers. -/
structure Measure (α β : Type) [Scalar α] [LinearOrder β] where
  IsNumber : Extended α → Prop
  value : Extended α → β
  le_iff {a b : Extended α} : IsNumber a → IsNumber b → (a.le b = true ↔ value a ≤ value b)
  lt_iff {a b : Extended α} : IsNumber a → IsNumber b → (a.lt b = true ↔ value a < value b)

/-- The position of a hit. -/
def Measure.position (μ : Measure α β) (h : RayHit α) : β :=
  μ.value (.val h.scale)

variable {μ : Measure α β} {found due : Set (RayHit α)} {limit : Extended α}

/-- Whether the result of a search below a limit is one of the hits that may be found and passes
over none of those that are due. -/
def FindsFirst (μ : Measure α β) (found due : Set (RayHit α)) (limit : Extended α) :
    Option (RayHit α) → Prop
  | none => ∀ h ∈ due, μ.value limit ≤ μ.position h
  | some first => first ∈ found ∧ μ.position first < μ.value limit ∧
      ∀ h ∈ due, μ.position first ≤ μ.position h

/-- A search result stands when more may be found and less is due. -/
theorem FindsFirst.mono {found' due' : Set (RayHit α)} (hfound : found ⊆ found') (hdue : due' ⊆ due)
    {o : Option (RayHit α)} (h : FindsFirst μ found due limit o) :
    FindsFirst μ found' due' limit o := by
  cases o with
  | none => exact fun g hg => h g (hdue hg)
  | some first =>
      obtain ⟨hmem, hlimit, hleast⟩ := h
      exact ⟨hfound hmem, hlimit, fun g hg => hleast g (hdue hg)⟩

theorem findsFirst_filter {h : RayHit α} (hlimit : μ.IsNumber limit)
    (hscale : μ.IsNumber (.val h.scale)) (hfound : h ∈ found) (hdue : ∀ g ∈ due, g = h) :
    FindsFirst μ found due limit
      ((some h).filter fun h => (Extended.val h.scale).lt limit) := by
  by_cases hlt : (Extended.val h.scale).lt limit = true
  · rw [Option.filter_some, if_pos hlt]
    refine ⟨hfound, (μ.lt_iff hscale hlimit).mp hlt, fun g hg => ?_⟩
    rw [hdue g hg]
  · rw [Option.filter_some, if_neg hlt]
    rw [μ.lt_iff hscale hlimit, not_lt] at hlt
    intro g hg
    rw [hdue g hg]
    exact hlt

namespace TriangleTree

/-- The search of a subtree is correct below every limit that comes after its entry, and no hit that
is due comes before the entry. -/
structure Subtree.Finds (μ : Measure α β) (s : Subtree α) (found due : Set (RayHit α)) : Prop where
  isNumber_entry : μ.IsNumber s.entry
  isNumber_scale : ∀ h ∈ found, μ.IsNumber (.val h.scale)
  entry_le : ∀ h ∈ due, μ.value s.entry ≤ μ.position h
  findsFirst : ∀ limit, μ.IsNumber limit → μ.value s.entry < μ.value limit →
    FindsFirst μ found due limit (s.search limit)

variable {near far : Subtree α} {nearFound nearDue farFound farDue : Set (RayHit α)}

/-- With nothing found near, what is found far is what there is. -/
theorem findsFirst_of_near_none (hnear : ∀ h ∈ nearDue, μ.value limit ≤ μ.position h)
    {o : Option (RayHit α)} (hfar : FindsFirst μ farFound farDue limit o) :
    FindsFirst μ (nearFound ∪ farFound) (nearDue ∪ farDue) limit o := by
  cases o with
  | none =>
      rintro h (hh | hh)
      · exact hnear h hh
      · exact hfar h hh
  | some first =>
      obtain ⟨hmem, hlimit, hleast⟩ := hfar
      refine ⟨.inr hmem, hlimit, ?_⟩
      rintro h (hh | hh)
      · exact hlimit.le.trans (hnear h hh)
      · exact hleast h hh

/-- A hit found near stands unless an earlier one is found far. -/
theorem findsFirst_of_near_some {hit : RayHit α}
    (hnear : FindsFirst μ nearFound nearDue limit (some hit)) {o : Option (RayHit α)}
    (hfar : FindsFirst μ farFound farDue (.val hit.scale) o) :
    FindsFirst μ (nearFound ∪ farFound) (nearDue ∪ farDue) limit (o.or (some hit)) := by
  obtain ⟨hmem, hlimit, hleast⟩ := hnear
  cases o with
  | none =>
      refine ⟨.inl hmem, hlimit, ?_⟩
      rintro h (hh | hh)
      · exact hleast h hh
      · exact hfar h hh
  | some first =>
      obtain ⟨hmem', hlimit', hleast'⟩ := hfar
      refine ⟨.inr hmem', hlimit'.trans hlimit, ?_⟩
      rintro h (hh | hh)
      · exact hlimit'.le.trans (hleast h hh)
      · exact hleast' h hh

theorem searchInOrder_findsFirst (hnear : near.Finds μ nearFound nearDue)
    (hfar : far.Finds μ farFound farDue) (horder : μ.value near.entry ≤ μ.value far.entry)
    (hlimit : μ.IsNumber limit) :
    FindsFirst μ (nearFound ∪ farFound) (nearDue ∪ farDue) limit
      (searchInOrder near far limit) := by
  -- A subtree that is passed over is entered at the limit or later, and so are its hits.
  have hpassed : ∀ l, μ.value l ≤ μ.value far.entry → ∀ h ∈ farDue, μ.value l ≤ μ.position h :=
    fun l hl h hh => hl.trans (hfar.entry_le h hh)
  rw [searchInOrder]
  split
  · rename_i hskip
    rw [μ.le_iff hlimit hnear.isNumber_entry] at hskip
    exact findsFirst_of_near_none (fun h hh => hskip.trans (hnear.entry_le h hh)) (o := none)
      (hpassed limit (hskip.trans horder))
  · rename_i henter
    rw [μ.le_iff hlimit hnear.isNumber_entry, not_le] at henter
    have hfound := hnear.findsFirst limit hlimit henter
    split
    · rename_i hnone
      rw [hnone] at hfound
      split
      · rename_i hskip
        rw [μ.le_iff hlimit hfar.isNumber_entry] at hskip
        exact findsFirst_of_near_none hfound (o := none) (hpassed limit hskip)
      · rename_i henter
        rw [μ.le_iff hlimit hfar.isNumber_entry, not_le] at henter
        exact findsFirst_of_near_none hfound (hfar.findsFirst limit hlimit henter)
    · rename_i hit hsome
      rw [hsome] at hfound
      have hscale := hnear.isNumber_scale hit hfound.1
      split
      · rename_i hskip
        rw [μ.le_iff hscale hfar.isNumber_entry] at hskip
        exact findsFirst_of_near_some hfound (o := none) (hpassed _ hskip)
      · rename_i henter
        rw [μ.le_iff hscale hfar.isNumber_entry, not_le] at henter
        exact findsFirst_of_near_some hfound (hfar.findsFirst _ hscale henter)

/-- The order of the two subtrees does not show in what is found. -/
theorem searchByEntry_findsFirst {left right : Subtree α}
    {leftFound leftDue rightFound rightDue : Set (RayHit α)}
    (hleft : left.Finds μ leftFound leftDue) (hright : right.Finds μ rightFound rightDue)
    (hlimit : μ.IsNumber limit) :
    FindsFirst μ (leftFound ∪ rightFound) (leftDue ∪ rightDue) limit
      (if right.entry.lt left.entry then searchInOrder right left limit
        else searchInOrder left right limit) := by
  split
  · rename_i horder
    rw [μ.lt_iff hright.isNumber_entry hleft.isNumber_entry] at horder
    rw [Set.union_comm leftFound, Set.union_comm leftDue]
    exact searchInOrder_findsFirst hright hleft horder.le hlimit
  · rename_i horder
    rw [μ.lt_iff hright.isNumber_entry hleft.isNumber_entry, not_lt] at horder
    exact searchInOrder_findsFirst hleft hright horder hlimit

end TriangleTree

end SolidSurface
