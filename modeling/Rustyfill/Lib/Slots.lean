import Mathlib.Data.List.InsertIdx

/-!
# Arrays of slots that may be uninitialised

Slots are moved and written as raw memory is. The first ones may hold the elements of a list,
and then a shift and a write insert into the list, and a move takes a part of it.
-/

namespace RawSlots

set_option autoImplicit false

/-- A slot that was never written is `none`. -/
def Slots (α : Type) := Nat → Option α

variable {α β : Type} {s d : Slots α} {l : List α} {i j n : Nat} {x : α}

namespace Slots

def uninit : Slots α := fun _ => none

def write (s : Slots α) (i : Nat) (x : α) : Slots α := fun k => if k = i then some x else s k

/-- Copy `n` slots of `s` from `i` on into `d`, from `j` on. The two may be the same array. -/
def copy (s : Slots α) (i : Nat) (d : Slots α) (j n : Nat) : Slots α := fun k =>
  if j ≤ k ∧ k < j + n then s (k - j + i) else d k

def Holds (s : Slots α) (l : List α) : Prop := ∀ i, i < l.length → s i = l[i]?

@[simp] theorem holds_nil : s.Holds [] := fun _ h => absurd h (Nat.not_lt_zero _)

theorem Holds.get (h : s.Holds l) (hi : i < l.length) : s i = some l[i] := by
  rw [h i hi, List.getElem?_eq_getElem hi]

theorem Holds.take (h : s.Holds l) : s.Holds (l.take n) := by
  intro i hi
  rw [List.length_take] at hi
  rw [h i (by omega), List.getElem?_take_of_lt (by omega)]

theorem Holds.copy_drop (h : s.Holds l) : (s.copy i d 0 (l.length - i)).Holds (l.drop i) := by
  intro k hk
  rw [List.length_drop] at hk
  rw [copy, if_pos (by omega), List.getElem?_drop, Nat.sub_zero, Nat.add_comm k i]
  exact h (i + k) (by omega)

/-- The elements from `i` on make room, and a new one is written. -/
theorem Holds.insert (h : s.Holds l) (hi : i ≤ l.length) :
    ((s.copy i s (i + 1) (l.length - i)).write i x).Holds (l.insertIdx i x) := by
  intro k hk
  rw [List.length_insertIdx_of_le_length hi] at hk
  rw [List.getElem?_insertIdx, write, copy]
  rcases Nat.lt_trichotomy k i with hlt | heq | hgt
  · rw [if_neg (by omega), if_neg (by omega), if_pos hlt]
    exact h k (by omega)
  · rw [if_pos heq, if_neg (by omega), if_pos heq, if_pos (by omega)]
  · rw [if_neg (by omega), if_pos (by omega), if_neg (by omega), if_neg (by omega)]
    have hk' : k - (i + 1) + i = k - 1 := by omega
    rw [hk']
    exact h (k - 1) (by omega)

@[simp] theorem copy_zero : s.copy i d j 0 = d := by
  funext k
  rw [copy, if_neg (by omega)]

theorem Holds.push (h : s.Holds l) : (s.write l.length x).Holds (l.insertIdx l.length x) := by
  have hinsert := h.insert (x := x) (Nat.le_refl _)
  rwa [Nat.sub_self, copy_zero] at hinsert

theorem Holds.set (h : s.Holds l) : (s.write i x).Holds (l.set i x) := by
  intro k hk
  rw [List.length_set] at hk
  rw [write]
  split
  · rename_i heq
    rw [heq, List.getElem?_set_self (heq ▸ hk)]
  · rename_i hne
    rw [List.getElem?_set_ne (Ne.symm hne)]
    exact h k hk

end Slots

end RawSlots
