import Rustyfill.Lib.MaxHeap
import Rustyfill.Collections.Rollback

/-!
# `BinaryHeap::try_append`

The heap that is larger takes the elements of the other, so the two are exchanged first where
that is the other one. The reservation comes after the exchange, and when it is refused the
heaps stay exchanged.
-/

namespace Rustyfill.Collections

open Guarded

set_option autoImplicit false

/-- A buffer of which the elements are a heap. -/
structure BinaryHeap (T : Type) [LE T] where
  data : Buffer T
  heap : MaxHeap.IsHeap data.elems

/-- When a reservation succeeds: the room is there, or the request is granted. -/
def Buffer.Grows {T : Type} (l : Layout) (b : Buffer T) (additional : Nat) (m : Memory) : Prop :=
  additional ≤ b.capacity - b.len ∨
    (l.size ≠ 0 ∧ l.fits (l.amortized b.capacity (b.len + additional))) ∧
      m.grants m.requests (l.amortized b.capacity (b.len + additional) * l.size) = true

theorem Buffer.tryReserve_ok_iff {T : Type} {l : Layout} {b : Buffer T} {n : Nat} {m : Memory} :
    (∃ b' m', b.tryReserve l n m = (.ok b', m')) ↔ b.Grows l n m := by
  rw [Buffer.tryReserve, Buffer.Grows]
  by_cases hroom : n ≤ b.capacity - b.len
  · rw [if_pos hroom]
    exact ⟨fun _ => .inl hroom, fun _ => ⟨b, m, rfl⟩⟩
  · rw [if_neg hroom]
    by_cases hfits : l.size ≠ 0 ∧ l.fits (l.amortized b.capacity (b.len + n))
    · simp only [dif_pos hfits, Memory.request]
      cases m.grants m.requests (l.amortized b.capacity (b.len + n) * l.size) with
      | true => exact ⟨fun _ => .inr ⟨hfits, rfl⟩, fun _ => ⟨_, _, rfl⟩⟩
      | false => exact ⟨fun h => by simp at h, fun h => by simp [hroom] at h⟩
    · simp only [dif_neg hfits]
      constructor
      · rintro ⟨b', m', ⟨⟩⟩
      · rintro (h | ⟨h, -⟩)
        · exact absurd h hroom
        · exact absurd h hfits

namespace BinaryHeap

section
variable {T E : Type} [LE T] (l : Layout)

def len (a : BinaryHeap T) : Nat := a.data.len

def elems (a : BinaryHeap T) : List T := a.data.elems

/-- The heap without an element. -/
def drained (a : BinaryHeap T) : BinaryHeap T where
  data := a.data.truncate 0
  heap := fun _ h => absurd h (by simp)

def withData (a : BinaryHeap T) (b : Buffer T) (h : b.elems = a.data.elems) : BinaryHeap T :=
  ⟨b, h ▸ a.heap⟩

/-- `try_reserve` on the first of the two heaps. -/
def reserve (additional : Nat) : Method (BinaryHeap T × BinaryHeap T) TryReserveError Unit :=
    fun w =>
  match h : w.store.1.data.tryReserve l additional w.memory with
  | (.ok b, m) =>
    (.ok (), { w with
      store := (w.store.1.withData b (Buffer.tryReserve_ok h).1, w.store.2), memory := m })
  | (.error e, m) => (.error (.error e), { w with memory := m })

/-- The larger of the two heaps becomes the first. -/
def swapIfLarger : Method (BinaryHeap T × BinaryHeap T) E Unit := do
  let (a, b) ← store
  if a.len < b.len then
    setStore (b, a)

variable [DecidableLE T] [Std.IsLinearPreorder T]

/-- The elements of `b` behind those of `a`, in a buffer that has the room. -/
def joined (a b : BinaryHeap T) (data : Buffer T)
    (h : data.elems = a.data.elems ∧ a.data.len + b.len ≤ data.capacity) : BinaryHeap T where
  data := {
    elems := MaxHeap.append a.elems b.elems
    capacity := data.capacity
    room := by
      rw [(MaxHeap.append_perm a.elems b.elems).length_eq, List.length_append]
      exact h.2
    bounded := data.bounded }
  heap := MaxHeap.append_isHeap a.heap b.elems

/-- `Vec::append`, which reserves infallibly, and the loops that make the elements that came
last part of the heap. -/
def appendData : Method (BinaryHeap T × BinaryHeap T) E Unit := fun w =>
  match h : w.store.1.data.tryReserve l w.store.2.len w.memory with
  | (.ok data, m) =>
    (.ok (), { w with
      store := (joined w.store.1 w.store.2 data (Buffer.tryReserve_ok h), w.store.2.drained)
      memory := m })
  | (.error _, m) => (.error .abort, { w with memory := m })

/-- `append` of the standard library. -/
def append : Method (BinaryHeap T × BinaryHeap T) E Unit := do
  swapIfLarger
  appendData l

def tryAppend : Method (BinaryHeap T × BinaryHeap T) TryReserveError Unit := do
  let (_, other) ← store
  let extra := other.len
  if extra = 0 then
    return ()
  swapIfLarger
  reserve l extra
  append l

/-! ### What the calls do -/

variable {l} {w : World (BinaryHeap T × BinaryHeap T)}

omit [DecidableLE T] [Std.IsLinearPreorder T] in
theorem swapIfLarger_meets {Q : Unit → World (BinaryHeap T × BinaryHeap T) → Prop}
    {F : Exit E → World (BinaryHeap T × BinaryHeap T) → Prop} : swapIfLarger.Meets w Q F ↔
      Q () (if w.store.1.len < w.store.2.len then { w with store := w.store.swap } else w) := by
  change Body.Meets (if w.store.1.len < w.store.2.len then _ else _) w Q F ↔ _
  split
  · rfl
  · rfl

omit [DecidableLE T] [Std.IsLinearPreorder T] in
theorem reserve_meets {n : Nat} : (reserve l n).Meets w
    (fun _ w' => w'.store.1.elems = w.store.1.elems ∧ w'.store.2 = w.store.2 ∧
      w.store.1.len + n ≤ w'.store.1.data.capacity ∧ w.store.1.data.Grows l n w.memory)
    (fun e w' => e ≠ .abort ∧ w'.store = w.store ∧ ¬ w.store.1.data.Grows l n w.memory) := by
  simp only [Body.Meets]
  rcases h : reserve l n w with ⟨e | u, w'⟩
  · rw [reserve] at h
    split at h
    · cases h
    · rename_i e' m hres
      cases h
      refine ⟨Exit.error_ne_abort _, rfl, fun hgrows => ?_⟩
      obtain ⟨b', m', hok⟩ := Buffer.tryReserve_ok_iff.mpr hgrows
      rw [hok] at hres
      cases hres
  · rw [reserve] at h
    split at h
    · rename_i b m hres
      cases h
      obtain ⟨helems, hle⟩ := Buffer.tryReserve_ok hres
      exact ⟨helems, rfl, hle, Buffer.tryReserve_ok_iff.mp ⟨b, m, hres⟩⟩
    · cases h

theorem appendData_meets {F : Exit E → World (BinaryHeap T × BinaryHeap T) → Prop}
    (hroom : w.store.1.len + w.store.2.len ≤ w.store.1.data.capacity) :
    (appendData l).Meets w (fun _ w' =>
      w'.store.1.elems.Perm (w.store.1.elems ++ w.store.2.elems) ∧ w'.store.2.elems = []) F := by
  have hgrows : w.store.1.data.Grows l w.store.2.len w.memory := by
    left
    simp only [len] at hroom ⊢
    omega
  obtain ⟨b, m, hres⟩ := Buffer.tryReserve_ok_iff.mpr hgrows
  simp only [Body.Meets]
  rcases h : (appendData l : Method _ E Unit) w with ⟨e | u, w'⟩
  · rw [appendData] at h
    split at h
    · cases h
    · rename_i hres'
      rw [hres] at hres'
      cases hres'
  · rw [appendData] at h
    split at h
    · cases h
      exact ⟨MaxHeap.append_perm .., rfl⟩
    · cases h

theorem append_meets {F : Exit E → World (BinaryHeap T × BinaryHeap T) → Prop}
    (hle : w.store.2.len ≤ w.store.1.len)
    (hroom : w.store.1.len + w.store.2.len ≤ w.store.1.data.capacity) :
    (append l).Meets w (fun _ w' =>
      w'.store.1.elems.Perm (w.store.1.elems ++ w.store.2.elems) ∧ w'.store.2.elems = []) F := by
  rw [append, Body.meets_bind, swapIfLarger_meets, if_neg (Nat.not_lt.mpr hle)]
  exact appendData_meets hroom

/-- The union in one heap and nothing in the other, or each heap as it was. -/
def Appends (w : World (BinaryHeap T × BinaryHeap T))
    (p : Method (BinaryHeap T × BinaryHeap T) TryReserveError Unit) : Prop :=
  p.Meets w
    (fun _ w' => w'.store.1.elems.Perm (w.store.1.elems ++ w.store.2.elems) ∧
      w'.store.2.elems = [])
    (fun e w' => e ≠ .abort ∧ w'.store.1.elems.Perm w.store.1.elems ∧
      w'.store.2.elems.Perm w.store.2.elems)

theorem tryAppend_meets {Q : Unit → World (BinaryHeap T × BinaryHeap T) → Prop}
    {F : Exit TryReserveError → World (BinaryHeap T × BinaryHeap T) → Prop} :
    (tryAppend l).Meets w Q F ↔
      if w.store.2.len = 0 then Q () w
      else (reserve l w.store.2.len).Meets
        (if w.store.1.len < w.store.2.len then { w with store := w.store.swap } else w)
        (fun _ w' => (append l).Meets w' Q F) F := by
  change Body.Meets (if w.store.2.len = 0 then _ else _) w Q F ↔ _
  split
  · rfl
  · rw [Body.meets_bind, swapIfLarger_meets, Body.meets_bind]

/-- The heaps are kept exactly where the first is no smaller, or the reservation of as many
elements as the second holds, on top of the second, succeeds. -/
theorem tryAppend_iff : Appends w (tryAppend l) ↔
    w.store.2.len ≤ w.store.1.len ∨ w.store.2.data.Grows l w.store.2.len w.memory := by
  rw [Appends, tryAppend_meets]
  split
  · rename_i hzero
    have hempty : w.store.2.elems = [] := List.eq_nil_of_length_eq_zero hzero
    rw [hempty, List.append_nil]
    exact ⟨fun _ => .inl (by omega), fun _ => ⟨.refl _, rfl⟩⟩
  · by_cases hlt : w.store.1.len < w.store.2.len
    · rw [if_pos hlt]
      constructor
      · -- A refused reservation leaves heaps of different lengths exchanged.
        intro h
        right
        by_contra hnot
        apply Body.not_meets_false
        apply (h.and reserve_meets).mono
        · rintro _ w' ⟨-, -, -, -, hgrows⟩
          exact hnot hgrows
        · rintro e w' ⟨⟨-, hperm, -⟩, -, hstore, -⟩
          rw [hstore] at hperm
          have hlen : w.store.2.len = w.store.1.len := hperm.length_eq
          omega
      · rintro (hle | hgrows)
        · omega
        · apply reserve_meets.mono
          · rintro _ w' ⟨hfirst, hsecond, hroom, -⟩
            have hlen : w'.store.1.len = w.store.2.len := congrArg List.length hfirst
            have hlen' : w'.store.2.len = w.store.1.len := congrArg len hsecond
            have hcap : w.store.2.len + w.store.2.len ≤ w'.store.1.data.capacity := hroom
            apply (append_meets (by omega) (by omega)).mono
            · rintro _ w'' ⟨hperm, hempty⟩
              rw [hfirst, hsecond] at hperm
              exact ⟨hperm.trans List.perm_append_comm, hempty⟩
            · intro _ _ h
              exact h
          · rintro e w' ⟨-, -, hnot⟩
            exact absurd hgrows hnot
    · rw [if_neg hlt]
      have hle : w.store.2.len ≤ w.store.1.len := by omega
      refine ⟨fun _ => .inl hle, fun _ => ?_⟩
      apply reserve_meets.mono
      · rintro _ w' ⟨hfirst, hsecond, hroom, -⟩
        have hlen : w'.store.1.len = w.store.1.len := congrArg List.length hfirst
        rw [← hfirst, ← hsecond]
        apply append_meets
        · rw [hlen, hsecond]
          exact hle
        · rw [hlen, hsecond]
          exact hroom
      · rintro e w' ⟨habort, hstore, -⟩
        rw [hstore]
        exact ⟨habort, .refl _, .refl _⟩

end

/-- One element and two, in buffers without room. -/
def smallAndLarge : World (BinaryHeap Nat × BinaryHeap Nat) where
  store := (⟨⟨[5], 1, by decide, by decide⟩, by decide⟩,
    ⟨⟨[2, 1], 2, by decide, by decide⟩, by decide⟩)
  memory := ⟨fun _ _ => false, 0⟩
  calls := 0

theorem tryAppend_iff_smallAndLarge : Appends smallAndLarge (tryAppend ⟨4, 4⟩) ↔
    smallAndLarge.store.2.len ≤ smallAndLarge.store.1.len ∨
      smallAndLarge.store.2.data.Grows ⟨4, 4⟩ smallAndLarge.store.2.len smallAndLarge.memory :=
  tryAppend_iff

/-- When the one request is refused, the first heap holds the elements of the second. -/
theorem tryAppend_leaves_swapped : ¬ Appends smallAndLarge (tryAppend ⟨4, 4⟩) := by
  rintro ⟨-, hperm, -⟩
  have hlen : [2, 1].length = [5].length := hperm.length_eq
  cases hlen

end BinaryHeap

end Rustyfill.Collections
