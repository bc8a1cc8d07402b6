/-! # Vectors in memory

A vector takes up no more bytes than a signed index can count, and an index into it is checked. A
loop over a vector ends at its first failure. Where no turn of it fails it is the plain loop.
-/

namespace SolidSurface

/-- The largest number of bytes that a vector can take up. -/
def vectorBytes : Nat :=
  UInt64.size / 2 - 1

/-- Whether there can be a vector of `n` elements that take up `bytes` bytes each. -/
def VectorFits (n bytes : Nat) : Prop :=
  n * bytes ≤ vectorBytes

instance (n bytes : Nat) : Decidable (VectorFits n bytes) :=
  inferInstanceAs (Decidable (_ ≤ _))

/-- The end of a program that asks for a vector that does not fit. -/
def capacityMessage : String :=
  "capacity overflow"

/-- A read or a write at an index that a vector does not have. -/
structure OutOfRange where
  index : Nat
  size : Nat
  deriving DecidableEq, Repr

def OutOfRange.message (r : OutOfRange) : String :=
  "index out of bounds: the len is " ++ toString r.size ++ " but the index is " ++ toString r.index

section Reading

variable {β : Type} {xs : Array β} {i : Nat} {b : β}

@[inline] def readAt (xs : Array β) (i : Nat) : Except OutOfRange β :=
  if h : i < xs.size then .ok xs[i] else .error ⟨i, xs.size⟩

@[inline] def writeAt (xs : Array β) (i : Nat) (b : β) : Except OutOfRange (Array β) :=
  if h : i < xs.size then .ok (xs.set i b) else .error ⟨i, xs.size⟩

theorem readAt_eq_ok (h : xs[i]? = some b) : readAt xs i = .ok b := by
  obtain ⟨hi, rfl⟩ := Array.getElem?_eq_some_iff.mp h
  exact dif_pos hi

theorem writeAt_eq_ok (h : i < xs.size) : writeAt xs i b = .ok (xs.setIfInBounds i b) := by
  rw [writeAt, dif_pos h, Array.setIfInBounds_def, dif_pos h]

end Reading

/-! ## Loops -/

section Loops

variable {β δ ε : Type}

/-- Replaces every element of a vector, given its index. -/
@[inline] def replaceEach (xs : Array β) (f : Nat → β → Except ε δ) : Except ε (Array δ) :=
  (xs.toList.zipIdx.mapM fun (b, i) => f i b).map List.toArray

theorem eq_ok_of_mapError_eq_ok {ε' : Type} {f : ε → ε'} {x : Except ε β} {b : β}
    (h : x.mapError f = .ok b) : x = .ok b := by
  cases x with
  | ok _ => exact congrArg Except.ok (Except.ok.inj h)
  | error _ => cases h

theorem mapM_eq_ok {l : List β} {f : β → Except ε δ} {g : β → δ} (h : ∀ b ∈ l, f b = .ok (g b)) :
    l.mapM f = .ok (l.map g) := by
  induction l with
  | nil => rfl
  | cons b l ih =>
      rw [List.mapM_cons, h b List.mem_cons_self, ih fun c hc => h c (List.mem_cons_of_mem _ hc)]
      rfl

theorem foldlM_eq_ok {l : List β} {f : δ → β → Except ε δ} {g : δ → β → δ}
    (h : ∀ b ∈ l, ∀ d, f d b = .ok (g d b)) (d : δ) : l.foldlM f d = .ok (l.foldl g d) := by
  induction l generalizing d with
  | nil => rfl
  | cons b l ih =>
      rw [List.foldlM_cons, h b List.mem_cons_self, List.foldl_cons]
      exact ih (fun c hc => h c (List.mem_cons_of_mem _ hc)) _

theorem replaceEach_eq_ok {xs : Array β} {f : Nat → β → Except ε δ} {g : Nat → β → δ}
    (h : ∀ i b, xs[i]? = some b → f i b = .ok (g i b)) : replaceEach xs f = .ok (xs.mapIdx g) := by
  have heach : ∀ entry ∈ xs.toList.zipIdx, f entry.2 entry.1 = .ok (g entry.2 entry.1) := by
    rintro ⟨b, i⟩ hmem
    apply h
    rwa [List.mem_zipIdx_iff_getElem?, Array.getElem?_toList] at hmem
  rw [replaceEach, mapM_eq_ok heach]
  refine congrArg Except.ok (Array.toList_inj.mp ?_)
  simp [List.mapIdx_eq_zipIdx_map]

end Loops

end SolidSurface
