import Rustyfill.Collections.Buffer
import Rustyfill.Lib.Slots

/-!
# Shrinking a buffer

`try_shrink_to` of `Vec` and `VecDeque`, down to the memory that is reallocated. A view of a
buffer carries that its first slots are initialised and in the allocation, so that a vector can
be made of it again.
-/

namespace Rustyfill.Collections

open RawSlots

set_option autoImplicit false

variable {l : Layout} {T : Type}

structure AllocError where

/-- The buffer of a vector of `len` elements. A buffer of elements without a size has room for
all of them. -/
structure RawVecInnerView (l : Layout) (T : Type) (len : Nat) where
  ptr : Slots T
  cap : Nat
  init : ∀ i, i < len → (ptr i).isSome
  room : len ≤ cap
  zeroSized : l.size = 0 → cap = usizeMax

namespace RawVecInnerView

variable {len : Nat}

/-- `current_memory`: the size of the allocation, where there is one. -/
def currentMemory (v : RawVecInnerView l T len) : Option Nat :=
  if l.size = 0 ∨ v.cap = 0 then none else some (l.size * v.cap)

theorem sized_of_memory {v : RawVecInnerView l T len} (h : v.currentMemory ≠ none) :
    l.size ≠ 0 := by
  intro hzero
  rw [currentMemory, if_pos (.inl hzero)] at h
  exact h rfl

/-- `shrink_unchecked`: the memory is given back where nothing is to stay, and reallocated
otherwise. A refused reallocation leaves the view as it is. -/
def shrinkUnchecked (v : RawVecInnerView l T len) (cap : Nat) (h : len ≤ cap) (m : Memory) :
    Except AllocError Unit × RawVecInnerView l T len × Memory :=
  if hmem : v.currentMemory = none then (.ok (), v, m)
  else if hcap : cap = 0 then
    (.ok (), {
      ptr := .uninit
      cap := 0
      init := fun i hi => absurd (Nat.lt_of_lt_of_le hi (hcap ▸ h)) (Nat.not_lt_zero i)
      room := hcap ▸ h
      zeroSized := fun hzero => absurd hzero (sized_of_memory hmem) }, m)
  else
    match m.request (l.size * cap) with
    | (false, m) => (.error ⟨⟩, v, m)
    | (true, m) =>
      (.ok (), {
        ptr := fun i => if i < cap then v.ptr i else none
        cap := cap
        init := fun i hi => by
          rw [if_pos (Nat.lt_of_lt_of_le hi h)]
          exact v.init i hi
        room := h
        zeroSized := fun hzero => absurd hzero (sized_of_memory hmem) }, m)

variable {v : RawVecInnerView l T len} {cap : Nat} {m : Memory}

/-- The first slots are where they were, and the capacity is the new one unless the view is. -/
theorem shrinkUnchecked_spec (h : len ≤ cap) (hlt : cap < v.cap) :
    (∀ i, i < len → (v.shrinkUnchecked cap h m).2.1.ptr i = v.ptr i) ∧
      (v.shrinkUnchecked cap h m).2.1.cap =
        if l.size ≠ 0 ∧ (v.shrinkUnchecked cap h m).1.isOk then cap else v.cap := by
  have hpos : v.cap ≠ 0 := Nat.ne_of_gt (Nat.zero_lt_of_lt hlt)
  by_cases hsize : l.size = 0
  · have hmem : v.currentMemory = none := if_pos (.inl hsize)
    simp [shrinkUnchecked, hmem, hsize]
  · have hmem : v.currentMemory ≠ none := by
      simp [currentMemory, hsize, hpos]
    by_cases hcap : cap = 0
    · subst hcap
      have hlen : len = 0 := Nat.eq_zero_of_le_zero h
      subst hlen
      simp [shrinkUnchecked, hmem, hsize]
    · rcases hreq : m.request (l.size * cap) with ⟨_ | _, m'⟩
      · simp [shrinkUnchecked, hmem, hcap, hreq]
      · simp only [shrinkUnchecked, hmem, hcap, hreq, dif_neg, not_false_eq_true, isOk_ok,
          hsize, ne_eq, and_self, if_true, and_true]
        intro i hi
        exact if_pos (Nat.lt_of_lt_of_le hi h)

end RawVecInnerView

/-! ## Vectors -/

structure RawVec (l : Layout) (T : Type) where
  len : Nat
  buf : RawVecInnerView l T len

namespace RawVec

def capacity (v : RawVec l T) : Nat := v.buf.cap

def contents (v : RawVec l T) : List T := (List.range v.len).filterMap v.buf.ptr

def tryShrinkTo (v : RawVec l T) (minCapacity : Nat) (m : Memory) :
    Except TryReserveError Unit × RawVec l T × Memory :=
  let target := max v.len minCapacity
  if v.capacity ≤ target then (.ok (), v, m)
  else
    match v.buf.shrinkUnchecked target (Nat.le_max_left ..) m with
    | (.ok (), currentRaw, m) => (.ok (), ⟨v.len, currentRaw⟩, m)
    | (.error _, currentRaw, m) => (.error .allocError, ⟨v.len, currentRaw⟩, m)

def tryShrinkToFit (v : RawVec l T) (m : Memory) :
    Except TryReserveError Unit × RawVec l T × Memory :=
  v.tryShrinkTo v.len m

variable {v : RawVec l T} {minCapacity : Nat} {m : Memory}

theorem contents_eq {buf : RawVecInnerView l T v.len}
    (h : ∀ i, i < v.len → buf.ptr i = v.buf.ptr i) :
    (⟨v.len, buf⟩ : RawVec l T).contents = v.contents := by
  apply List.filterMap_congr
  intro i hi
  exact h i (List.mem_range.mp hi)

end RawVec

/-- What is left of the contents and the capacity of a collection of `len` elements. -/
structure Shrinks (l : Layout) (len minCapacity : Nat) (contents contents' : List T)
    (capacity capacity' : Nat) (ok : Bool) : Prop where
  contents : contents' = contents
  shrunk : ok = true → capacity' =
    if l.size ≠ 0 ∧ max len minCapacity < capacity then max len minCapacity else capacity
  refused : ok = false → capacity' = capacity

theorem RawVec.tryShrinkTo_shrinks (v : RawVec l T) (minCapacity : Nat) (m : Memory) :
    Shrinks l v.len minCapacity v.contents (v.tryShrinkTo minCapacity m).2.1.contents
      v.capacity (v.tryShrinkTo minCapacity m).2.1.capacity
      (v.tryShrinkTo minCapacity m).1.isOk := by
  by_cases hle : v.capacity ≤ max v.len minCapacity
  · rw [tryShrinkTo, if_pos hle]
    refine ⟨rfl, fun _ => ?_, fun _ => rfl⟩
    rw [if_neg fun h => Nat.not_lt_of_le hle h.2]
  · have hlt : max v.len minCapacity < v.capacity := Nat.lt_of_not_le hle
    obtain ⟨hslots, hcap⟩ := v.buf.shrinkUnchecked_spec (m := m) (Nat.le_max_left ..) hlt
    rw [tryShrinkTo, if_neg hle]
    rcases hres : v.buf.shrinkUnchecked (max v.len minCapacity) (Nat.le_max_left ..) m with
      ⟨_ | _, raw, m'⟩
    · rw [hres] at hslots hcap
      refine ⟨contents_eq hslots, fun h => (nomatch h), fun _ => ?_⟩
      rwa [isOk_error, if_neg (by simp)] at hcap
    · rw [hres] at hslots hcap
      refine ⟨contents_eq hslots, fun _ => ?_, fun h => (nomatch h)⟩
      simp only [RawVec.capacity] at hcap hlt ⊢
      rw [hcap]
      simp [hlt]

/-! ## Ring buffers -/

def wrapIndex (capacity i : Nat) : Nat := if i < capacity then i else i - capacity

/-- A `VecDeque`: the elements start at `head` and wrap around the end of the buffer. -/
structure RawDeque (l : Layout) (T : Type) where
  ptr : Slots T
  cap : Nat
  head : Nat
  len : Nat
  init : ∀ i, i < len → (ptr (wrapIndex cap (head + i))).isSome
  room : len ≤ cap
  inside : head ≤ cap
  zeroSized : l.size = 0 → cap = usizeMax

namespace RawDeque

def capacity (d : RawDeque l T) : Nat := d.cap

def slot (d : RawDeque l T) (i : Nat) : Option T := d.ptr (wrapIndex d.cap (d.head + i))

def contents (d : RawDeque l T) : List T := (List.range d.len).filterMap d.slot

/-- `Vec::from(VecDeque)`: the elements are moved to the start of the same buffer. -/
def toVec (d : RawDeque l T) : RawVec l T where
  len := d.len
  buf := {
    ptr := fun i => if i < d.len then d.slot i else d.ptr i
    cap := d.cap
    init := fun i hi => by
      rw [if_pos hi]
      exact d.init i hi
    room := d.room
    zeroSized := d.zeroSized }

/-- `VecDeque::from(Vec)`: the same buffer, from its start. -/
def ofVec (v : RawVec l T) : RawDeque l T where
  ptr := v.buf.ptr
  cap := v.buf.cap
  head := 0
  len := v.len
  init := fun i hi => by
    rw [Nat.zero_add, wrapIndex, if_pos (Nat.lt_of_lt_of_le hi v.buf.room)]
    exact v.buf.init i hi
  room := v.buf.room
  inside := Nat.zero_le _
  zeroSized := v.buf.zeroSized

def tryShrinkTo (d : RawDeque l T) (minCapacity : Nat) (m : Memory) :
    Except TryReserveError Unit × RawDeque l T × Memory :=
  let target := max d.len minCapacity
  if d.capacity ≤ target then (.ok (), d, m)
  else
    match d.toVec.tryShrinkTo target m with
    | (result, vec, m) => (result, ofVec vec, m)

def tryShrinkToFit (d : RawDeque l T) (m : Memory) :
    Except TryReserveError Unit × RawDeque l T × Memory :=
  d.tryShrinkTo d.len m

theorem contents_toVec (d : RawDeque l T) : d.toVec.contents = d.contents := by
  apply List.filterMap_congr
  intro i hi
  exact if_pos (List.mem_range.mp hi)

theorem contents_ofVec (v : RawVec l T) : (ofVec v).contents = v.contents := by
  apply List.filterMap_congr
  intro i hi
  have hlt : i < v.buf.cap := Nat.lt_of_lt_of_le (List.mem_range.mp hi) v.buf.room
  rw [slot, ofVec, Nat.zero_add, wrapIndex, if_pos hlt]

theorem tryShrinkTo_shrinks (d : RawDeque l T) (minCapacity : Nat) (m : Memory) :
    Shrinks l d.len minCapacity d.contents (d.tryShrinkTo minCapacity m).2.1.contents
      d.capacity (d.tryShrinkTo minCapacity m).2.1.capacity
      (d.tryShrinkTo minCapacity m).1.isOk := by
  by_cases hle : d.capacity ≤ max d.len minCapacity
  · rw [tryShrinkTo, if_pos hle]
    refine ⟨rfl, fun _ => ?_, fun _ => rfl⟩
    rw [if_neg fun h => Nat.not_lt_of_le hle h.2]
  · rw [tryShrinkTo, if_neg hle]
    have hvec := d.toVec.tryShrinkTo_shrinks (max d.len minCapacity) m
    generalize d.toVec.tryShrinkTo (max d.len minCapacity) m = shrunk at hvec ⊢
    obtain ⟨result, vec, m'⟩ := shrunk
    have hmax : max d.toVec.len (max d.len minCapacity) = max d.len minCapacity :=
      Nat.max_eq_right (Nat.le_max_left ..)
    refine ⟨?_, fun hok => ?_, hvec.refused⟩
    · rw [contents_ofVec, hvec.contents, contents_toVec]
    · have hshrunk := hvec.shrunk hok
      rwa [hmax] at hshrunk

end RawDeque

/-! ## What shrinking keeps -/

theorem shrinkTo_keeps_contents (l : Layout) (T : Type) (v : RawVec l T) (d : RawDeque l T)
    (minCapacity : Nat) (m : Memory) :
    Shrinks l v.len minCapacity v.contents (v.tryShrinkTo minCapacity m).2.1.contents
        v.capacity (v.tryShrinkTo minCapacity m).2.1.capacity
        (v.tryShrinkTo minCapacity m).1.isOk ∧
      Shrinks l v.len v.len v.contents (v.tryShrinkToFit m).2.1.contents
        v.capacity (v.tryShrinkToFit m).2.1.capacity (v.tryShrinkToFit m).1.isOk ∧
      Shrinks l d.len minCapacity d.contents (d.tryShrinkTo minCapacity m).2.1.contents
        d.capacity (d.tryShrinkTo minCapacity m).2.1.capacity
        (d.tryShrinkTo minCapacity m).1.isOk ∧
      Shrinks l d.len d.len d.contents (d.tryShrinkToFit m).2.1.contents
        d.capacity (d.tryShrinkToFit m).2.1.capacity (d.tryShrinkToFit m).1.isOk :=
  ⟨v.tryShrinkTo_shrinks minCapacity m, v.tryShrinkTo_shrinks v.len m,
    d.tryShrinkTo_shrinks minCapacity m, d.tryShrinkTo_shrinks d.len m⟩

/-- A vector of elements without a size has all the capacity there is, whatever it is asked
for. -/
theorem zeroSized_keeps_capacity : ¬ ∀ (l : Layout) (v : RawVec l Unit) (minCapacity : Nat)
    (m : Memory), (v.tryShrinkTo minCapacity m).1.isOk = true →
      (v.tryShrinkTo minCapacity m).2.1.capacity =
        if max v.len minCapacity < v.capacity then max v.len minCapacity else v.capacity := by
  intro h
  let v : RawVec ⟨0, 1⟩ Unit :=
    ⟨0, .uninit, usizeMax, fun i hi => absurd hi (Nat.not_lt_zero i), Nat.zero_le _, fun _ => rfl⟩
  have hcap := h ⟨0, 1⟩ v 5 ⟨fun _ _ => true, 0⟩ (by decide)
  exact absurd hcap (by decide)

end Rustyfill.Collections
