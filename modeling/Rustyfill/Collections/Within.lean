import Rustyfill.Collections.Atomic

/-!
# `try_extend_from_within`

The ends of the range are resolved to indices, where one past `usize::MAX` is a capacity
overflow, and a range without an element is answered before its ends are compared with the
length. So an empty or inverted range beyond the end is accepted.
-/

namespace Rustyfill.Collections

open Guarded

set_option autoImplicit false

/-- The index a range with this lower end starts from. -/
def Bound.startsAt : Bound → Nat
  | .included i _ => i
  | .excluded i _ => i + 1
  | .unbounded => 0

/-- The index a range with this upper end stops at. -/
def Bound.stopsAt (len : Nat) : Bound → Nat
  | .included i _ => i + 1
  | .excluded i _ => i
  | .unbounded => len

namespace RangeBounds

def start (range : RangeBounds) : Nat := range.startBound.startsAt

def stop (range : RangeBounds) (len : Nat) : Nat := range.endBound.stopsAt len

structure InBounds (range : RangeBounds) (len : Nat) : Prop where
  ordered : range.start ≤ range.stop len
  inside : range.stop len ≤ len

/-- The ranges whose bounds the methods compare with the length, and those in bounds. -/
def Checked (range : RangeBounds) (len : Nat) : Prop :=
  range.InBounds len ∨ (range.start < range.stop len ∧ range.stop len ≤ usizeMax)

end RangeBounds

namespace Buffer

section
variable {T E ε : Type} {l : Layout} {w : World (Buffer T)} {mapReserve : TryReserveError → E}
  {outOfBounds : E} {mapClone : ε → E} {clone : Nat → T → Answer T ε} {range : RangeBounds}

theorem onePast_meets {i : Nat} {Q : Nat → World (Buffer T) → Prop}
    {F : Exit E → World (Buffer T) → Prop} : (onePast mapReserve i).Meets w Q F ↔
      if i + 1 ≤ usizeMax then Q (i + 1) w else F (.error (mapReserve .capacityOverflow)) w := by
  by_cases hle : i + 1 ≤ usizeMax
  · simp [onePast, checkedAdd, hle]
  · simp [onePast, checkedAdd, hle, fail]

theorem startIndex_meets (bound : Bound) {Q : Nat → World (Buffer T) → Prop}
    {F : Exit E → World (Buffer T) → Prop} : (startIndex mapReserve bound).Meets w Q F ↔
      if bound.startsAt ≤ usizeMax then Q bound.startsAt w
      else F (.error (mapReserve .capacityOverflow)) w := by
  cases bound with
  | included i h =>
    rw [Bound.startsAt, if_pos h]
    rfl
  | excluded i h => exact onePast_meets
  | unbounded =>
    rw [Bound.startsAt, if_pos (Nat.zero_le _)]
    rfl

theorem endIndex_meets (bound : Bound) {Q : Nat → World (Buffer T) → Prop}
    {F : Exit E → World (Buffer T) → Prop} :
    (endIndex mapReserve w.store.len bound).Meets w Q F ↔
      if bound.stopsAt w.store.len ≤ usizeMax then Q (bound.stopsAt w.store.len) w
      else F (.error (mapReserve .capacityOverflow)) w := by
  cases bound with
  | included i h => exact onePast_meets
  | excluded i h =>
    rw [Bound.stopsAt, if_pos h]
    rfl
  | unbounded =>
    have hlen : w.store.len ≤ usizeMax := Nat.le_trans w.store.room w.store.bounded
    rw [Bound.stopsAt, if_pos hlen]
    rfl

/-- The loop over the indices of the elements, which stay where they are. -/
theorem guarded_range_meets {start count : Nat} (hin : start + count ≤ w.store.len)
    (hroom : w.store.len + count ≤ w.store.capacity) :
    (guarded (pushEach (push l)
      (fun i => do
        let item ← index i
        tryClone clone item mapClone)
      (List.range' start count))).Meets w
      (fun _ w' => ∃ xs, Made clone w.calls ((w.store.elems.drop start).take count) xs ∧
        w'.store.elems = w.store.elems ++ xs)
      (Exits Buffer.elems (· = w.store.elems)) := by
  have hlen : (List.range' start count).length = count := List.length_range'
  have hloop : (guarded (pushEach (push l)
      (fun i => do
        let item ← index i
        tryClone clone item mapClone)
      (List.range' start count))).Meets w
      (fun _ w' => ∃ xs, Made (fun n i => (w.store.elems[i]?).elim .panic (clone n)) w.calls
        (List.range' start count) xs ∧ w'.store.elems = w.store.elems ++ xs)
      (Exits Buffer.elems (· = w.store.elems)) := by
    apply guarded_pushEach_meets (by rwa [hlen])
    intro done i rest w' his hpushed
    obtain ⟨xs, -, helems⟩ := hpushed.elems
    have hi : i < w.store.elems.length := by
      have hmem : i ∈ List.range' start count := his ▸ List.mem_append_right _ List.mem_cons_self
      have hlt := (List.mem_range'_1.mp hmem).2
      simp only [len] at hin
      omega
    have hget : w'.store.elems[i]? = some w.store.elems[i] := by
      rw [helems, List.getElem?_append_left hi, List.getElem?_eq_getElem hi]
    have hindex : (index i : Method (Buffer T) E T) w' = (.ok w.store.elems[i], w') := by
      rw [index, hget]
    rw [Body.meets_bind, Body.Meets, hindex, List.getElem?_eq_getElem hi]
    exact call_meets
  apply hloop.mono
  · rintro _ w' ⟨xs, hxs, helems⟩
    refine ⟨xs, hxs.congr (List.forall₂_iff_get.mpr ⟨?_, ?_⟩), helems⟩
    · rw [hlen, List.length_take, List.length_drop]
      simp only [len] at hin
      omega
    · intro k hk hk' n
      have hlt : start + k < w.store.elems.length := by
        rw [hlen] at hk
        simp only [len] at hin
        omega
      have hget : w.store.elems[start + k]? = some w.store.elems[start + k] :=
        List.getElem?_eq_getElem hlt
      simp [hget]
  · intro _ _ h
    exact h

theorem cloneRange_meets {start count : Nat} (hin : start + count ≤ w.store.len) :
    (cloneRange l clone mapReserve mapClone start count).Meets w
      (fun _ w' => ∃ xs, Made clone w.calls ((w.store.elems.drop start).take count) xs ∧
        w'.store.elems = w.store.elems ++ xs)
      (Exits Buffer.elems (· = w.store.elems)) := by
  rw [cloneRange, Body.meets_bind]
  apply reserve_meets.mono
  · rintro _ w' ⟨hcalls, helems, hroom⟩
    rw [← hcalls, ← helems]
    apply guarded_range_meets
    · rwa [len, helems]
    · exact hroom
  · intro _ _ h
    exact h

theorem push_exits {x : T} : (push l x : Method (Buffer T) E Unit).Meets w (fun _ _ => True)
    (fun e _ => e = .abort) := by
  simp only [Body.Meets]
  rcases h : (push l x : Method (Buffer T) E Unit) w with ⟨e | u, w'⟩
  · rw [push] at h
    split at h
    · cases h
    · split at h
      · cases h
      · cases h
        rfl
  · trivial

/-- The elements of a range are cloned with no other errors than these. -/
theorem cloneRange_exitsOnly {start count : Nat} : Body.ExitsOnly
    (fun e => ∀ x, e = .error x → (∃ e, x = mapReserve e) ∨ ∃ e, x = mapClone e)
    (cloneRange l clone mapReserve mapClone start count : Method (Buffer T) E Unit) := by
  apply Body.ExitsOnly.bind
  · intro w
    simp only [Body.Meets, reserve]
    rcases w.store.tryReserve l count w.memory with ⟨e | b, m⟩
    · rintro _ ⟨⟩
      exact .inl ⟨e, rfl⟩
    · trivial
  · intro _
    apply Body.ExitsOnly.guarded
    apply Body.ExitsOnly.forEach
    intro i
    apply Body.ExitsOnly.bind
    · apply Body.ExitsOnly.bind
      · intro w
        simp only [Body.Meets, index]
        cases w.store.elems[i]? with
        | none =>
          intro x hx
          cases hx
        | some x => trivial
      · intro item w
        simp only [Body.Meets, tryClone, call]
        cases clone w.calls item with
        | ok x => trivial
        | error e =>
          rintro _ ⟨⟩
          exact .inr ⟨e, rfl⟩
        | panic =>
          intro x hx
          cases hx
    · intro x w
      apply push_exits.mono
      · intro _ _ _
        trivial
      · rintro _ _ rfl
        intro x hx
        cases hx

theorem extendFromWithin_meets {Q : Unit → World (Buffer T) → Prop}
    {F : Exit E → World (Buffer T) → Prop} :
    (extendFromWithin l clone mapReserve outOfBounds mapClone range).Meets w Q F ↔
      if range.start ≤ usizeMax ∧ range.stop w.store.len ≤ usizeMax then
        if range.stop w.store.len ≤ range.start then Q () w
        else if w.store.len < range.stop w.store.len then F (.error outOfBounds) w
        else (cloneRange l clone mapReserve mapClone range.start
          (range.stop w.store.len - range.start)).Meets w Q F
      else F (.error (mapReserve .capacityOverflow)) w := by
  rw [extendFromWithin, Body.meets_bind, startIndex_meets]
  simp only [Body.meets_bind]
  change (if _ then Body.Meets (endIndex mapReserve w.store.len _) w _ _ else _) ↔ _
  rw [endIndex_meets]
  simp only [RangeBounds.start, RangeBounds.stop]
  by_cases hstart : range.startBound.startsAt ≤ usizeMax
  · by_cases hstop : range.endBound.stopsAt w.store.len ≤ usizeMax
    · simp only [hstart, hstop, and_self, if_true]
      by_cases hempty : range.endBound.stopsAt w.store.len ≤ range.startBound.startsAt
      · simp only [hempty, if_true]
        rfl
      · by_cases hout : w.store.len < range.endBound.stopsAt w.store.len
        · simp only [hempty, hout, gt_iff_lt, true_or, if_true, if_false]
          rfl
        · have hstart' : ¬ w.store.len < range.startBound.startsAt := by omega
          simp only [hempty, hout, hstart', or_self, if_false]
    · simp only [hstart, hstop, and_false, if_true, if_false]
  · simp only [hstart, false_and, if_false]

/-- The bounds are checked, and the clones of the elements in range are appended or taken
back. -/
def ExtendsWithin (outOfBounds : E) (clone : Nat → T → Answer T ε) (range : RangeBounds)
    (w : World (Buffer T)) (p : Method (Buffer T) E Unit) : Prop :=
  p.Meets w
    (fun _ w' => range.InBounds w.store.len ∧ ∃ xs,
      Made clone w.calls
        ((w.store.elems.drop range.start).take (range.stop w.store.len - range.start)) xs ∧
      w'.store.elems = w.store.elems ++ xs)
    (fun e w' => (e = .error outOfBounds ↔ ¬ range.InBounds w.store.len) ∧ e ≠ .abort ∧
      w'.store.elems = w.store.elems)

theorem extendFromWithin_iff (hreserve : ∀ e, outOfBounds ≠ mapReserve e)
    (hclone : ∀ e, outOfBounds ≠ mapClone e) :
    ExtendsWithin outOfBounds clone range w
      (extendFromWithin l clone mapReserve outOfBounds mapClone range) ↔
      range.Checked w.store.len := by
  have hlen : w.store.len ≤ usizeMax := Nat.le_trans w.store.room w.store.bounded
  rw [ExtendsWithin, extendFromWithin_meets]
  split
  · rename_i hmax
    split
    · rename_i hempty
      constructor
      · rintro ⟨hin, -⟩
        exact .inl hin
      · rintro (hin | ⟨hlt, -⟩)
        · have hzero : range.stop w.store.len - range.start = 0 := Nat.sub_eq_zero_of_le hempty
          rw [hzero, List.take_zero]
          exact ⟨hin, [], rfl, (List.append_nil _).symm⟩
        · omega
    · rename_i hlt
      split
      · rename_i hout
        have hnot : ¬ range.InBounds w.store.len := fun hin => by
          have hinside := hin.inside
          omega
        constructor
        · intro _
          exact .inr ⟨by omega, hmax.2⟩
        · intro _
          exact ⟨⟨fun _ => hnot, fun _ => rfl⟩, nofun, rfl⟩
      · rename_i hinside
        have hin : range.InBounds w.store.len := ⟨by omega, by omega⟩
        constructor
        · intro _
          exact .inl hin
        · intro _
          have hcount : range.start + (range.stop w.store.len - range.start) ≤ w.store.len := by
            omega
          apply ((cloneRange_meets hcount).and (cloneRange_exitsOnly w)).mono
          · rintro _ w' ⟨hclones, -⟩
            exact ⟨hin, hclones⟩
          · rintro e w' ⟨⟨habort, helems⟩, herror⟩
            refine ⟨⟨fun he => ?_, fun hnot => absurd hin hnot⟩, habort, helems⟩
            rcases herror _ he with ⟨e, he⟩ | ⟨e, he⟩
            · exact absurd he (hreserve e)
            · exact absurd he (hclone e)
  · rename_i hmax
    constructor
    · rintro ⟨hbounds, -, -⟩
      by_cases hin : range.InBounds w.store.len
      · exact .inl hin
      · have he := hbounds.mpr hin
        exact absurd (Exit.error.inj he).symm (hreserve _)
    · rintro (hin | ⟨hlt, hle⟩)
      · have hordered := hin.ordered
        have hinside := hin.inside
        omega
      · omega

end

end Buffer

/-- For every collection and every schedule of failures, the bounds are checked as documented
for exactly the ranges that are in bounds, or that hold an index and stop within `usize`. -/
theorem tryExtendFromWithin_iff {T ε : Type} (l : Layout) (clone : Nat → T → Answer T ε)
    (range : RangeBounds) (w : World (Buffer T)) :
    (Buffer.ExtendsWithin .outOfBounds clone range w (Vec.tryExtendFromWithin l clone range) ↔
      range.Checked w.store.len) ∧
    (Buffer.ExtendsWithin .outOfBounds clone range w (VecDeque.tryExtendFromWithin l clone range) ↔
      range.Checked w.store.len) := by
  constructor
  · exact Buffer.extendFromWithin_iff (fun _ => nofun) (fun _ => nofun)
  · exact Buffer.extendFromWithin_iff (fun _ => nofun) (fun _ => nofun)

/-- Three bytes, all requests granted, no call so far. -/
def threeBytes : World (Buffer Nat) where
  store := ⟨[1, 2, 3], 8, by decide, by decide⟩
  memory := ⟨fun _ _ => true, 0⟩
  calls := 0

def inverted : RangeBounds := ⟨.included 2 two_le_usizeMax, .excluded 1 one_le_usizeMax⟩

/-- A `TryClone` that never fails. -/
def copied (_ : Nat) (x : Nat) : Answer Nat Empty := .ok x

/-- An inverted range is answered with success. -/
theorem inverted_accepted :
    ¬ Buffer.ExtendsWithin .outOfBounds copied inverted threeBytes
      (Vec.tryExtendFromWithin ⟨1, 1⟩ copied inverted) ∧
    ¬ Buffer.ExtendsWithin .outOfBounds copied inverted threeBytes
      (VecDeque.tryExtendFromWithin ⟨1, 1⟩ copied inverted) := by
  have hnot : ¬ inverted.InBounds threeBytes.store.len := fun h => absurd h.ordered (by decide)
  constructor
  · rintro ⟨hin, -⟩
    exact hnot hin
  · rintro ⟨hin, -⟩
    exact hnot hin

end Rustyfill.Collections
