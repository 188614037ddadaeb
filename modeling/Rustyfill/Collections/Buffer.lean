import Rustyfill.Lib.Guarded
import Rustyfill.Runtime

/-!
# Growable buffers

What `Vec`, `VecDeque` and `BinaryHeap` keep their elements in, as far as the fallible methods
see it: the elements in order, the capacity, and the requests for a larger buffer. The
allocator is a schedule that may look at the size of a request as well as at its number.
-/

namespace Rustyfill.Collections

open Guarded

set_option autoImplicit false

/-- The global allocator: which requests, by number and size, it grants. -/
structure Memory where
  grants : Nat → Nat → Bool
  requests : Nat

def Memory.request (m : Memory) (size : Nat) : Bool × Memory :=
  (m.grants m.requests size, { m with requests := m.requests + 1 })

structure Layout where
  size : Nat
  align : Nat

namespace Layout

/-- `RawVec::MIN_NON_ZERO_CAP`. -/
def minNonZeroCap (l : Layout) : Nat :=
  if l.size = 1 then 8 else if l.size ≤ 1024 then 4 else 1

/-- The capacity of a buffer that was never allocated. -/
def capacityNew (l : Layout) : Nat := if l.size = 0 then usizeMax else 0

/-- Whether `Layout::array` has a layout for so many elements: no object is larger than
`isize::MAX`, rounded up to its alignment. -/
def fits (l : Layout) (n : Nat) : Prop := n * l.size ≤ usizeMax / 2 + 1 - l.align

instance (l : Layout) (n : Nat) : Decidable (l.fits n) :=
  inferInstanceAs (Decidable (n * l.size ≤ usizeMax / 2 + 1 - l.align))

/-- The capacity `RawVec::grow_amortized` asks for. -/
def amortized (l : Layout) (capacity required : Nat) : Nat :=
  max l.minNonZeroCap (max (2 * capacity) required)

theorem fits_le {l : Layout} {n : Nat} (hsize : l.size ≠ 0) (h : l.fits n) : n ≤ usizeMax := by
  have hle : n * 1 ≤ n * l.size := Nat.mul_le_mul_left n (Nat.pos_of_ne_zero hsize)
  simp only [fits, usizeMax] at h ⊢
  omega

end Layout

structure Buffer (T : Type) where
  elems : List T
  capacity : Nat
  room : elems.length ≤ capacity
  bounded : capacity ≤ usizeMax

namespace Buffer

variable {T : Type} {l : Layout} {b b' : Buffer T} {m m' : Memory} {n : Nat}

def new (l : Layout) : Buffer T :=
  ⟨[], l.capacityNew, Nat.zero_le _, by rw [Layout.capacityNew]; split <;> simp⟩

def len (b : Buffer T) : Nat := b.elems.length

/-- The same elements in a larger buffer. -/
def withCapacity (b : Buffer T) (capacity : Nat) (h : capacity ≤ usizeMax) : Buffer T :=
  ⟨b.elems, max b.capacity capacity, Nat.le_trans b.room (Nat.le_max_left ..),
    Nat.max_le.mpr ⟨b.bounded, h⟩⟩

/-- `push`, where the room is there. -/
def append (b : Buffer T) (x : T) (h : b.len < b.capacity) : Buffer T :=
  ⟨b.elems ++ [x], b.capacity, by rw [List.length_append]; exact h, b.bounded⟩

def truncate (b : Buffer T) (n : Nat) : Buffer T :=
  ⟨b.elems.take n, b.capacity, Nat.le_trans (List.length_take_le' n _) b.room, b.bounded⟩

/-- `try_reserve`: no request where the room is there, otherwise one for an amortised larger
buffer. A buffer of elements without a size cannot grow. -/
def tryReserve (l : Layout) (b : Buffer T) (additional : Nat) (m : Memory) :
    Except TryReserveError (Buffer T) × Memory :=
  if additional ≤ b.capacity - b.len then (.ok b, m)
  else
    let capacity := l.amortized b.capacity (b.len + additional)
    if h : l.size ≠ 0 ∧ l.fits capacity then
      match m.request (capacity * l.size) with
      | (true, m) => (.ok (b.withCapacity capacity (Layout.fits_le h.1 h.2)), m)
      | (false, m) => (.error .allocError, m)
    else (.error .capacityOverflow, m)

@[simp] theorem truncate_elems : (b.truncate n).elems = b.elems.take n := rfl

@[simp] theorem withCapacity_elems (h : n ≤ usizeMax) : (b.withCapacity n h).elems = b.elems := rfl

theorem tryReserve_ok (h : b.tryReserve l n m = (.ok b', m')) :
    b'.elems = b.elems ∧ b.len + n ≤ b'.capacity := by
  rw [tryReserve] at h
  split at h
  · rename_i hroom
    obtain ⟨⟨rfl⟩, -⟩ := Prod.mk.inj h
    have hle := b.room
    refine ⟨rfl, ?_⟩
    simp only [len] at hroom ⊢
    omega
  · simp only at h
    split at h
    · split at h
      · obtain ⟨⟨rfl⟩, -⟩ := Prod.mk.inj h
        refine ⟨rfl, ?_⟩
        simp only [withCapacity, Layout.amortized]
        omega
      · cases h
    · cases h

end Buffer

end Rustyfill.Collections
