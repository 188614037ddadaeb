import Rustyfill.Lib.Lists
import Rustyfill.Lib.Run
import Rustyfill.Secondary.Basic

/-!
# What an operation can do to the map

Every operation is a run of rewrites of single slots, of growth by vacant slots, and of changes
of the capacity. The count of elements is right after each of them.
-/

namespace Rustyfill.Secondary

open Slotmap (KeyData maxSlotsLen TryCloneError)
open Transition ListUpdate

set_option autoImplicit false

variable {V E : Type} {sm sm' : SecondaryMap V}

structure Wf (sm : SecondaryMap V) : Prop where
  count : sm.numElems = sm.slots.countP Slot.isOccupied
  length_pos : 0 < sm.slots.length
  length_le : sm.slots.length ≤ maxSlotsLen - 1

inductive Change (V : Type) where
  | resize
  | grow (n : Nat)
  | fill (key : KeyData) (value : V)
  | vacate (idx : Nat)
  | write (idx : Nat) (value : V)

inductive Elem : SecondaryMap V → Change V → SecondaryMap V → Prop where
  | resize (sm : SecondaryMap V) (capacity : Nat) : Elem sm .resize { sm with capacity }
  | grow {sm : SecondaryMap V} {n : Nat} (capacity : Nat)
      (h : sm.slots.length + n ≤ maxSlotsLen - 1) :
      Elem sm (.grow n) { sm with slots := sm.slots ++ List.replicate n .vacant, capacity }
  | fill {sm : SecondaryMap V} {key : KeyData} {value : V}
      (h : sm.slots[key.idx]? = some .vacant) :
      Elem sm (.fill key value) { sm with
        slots := sm.slots.set key.idx (.occupied value (versionOf key))
        numElems := sm.numElems + 1 }
  | refill {sm : SecondaryMap V} {key : KeyData} {value old : V} {version : Version}
      (h : sm.slots[key.idx]? = some (.occupied old version)) :
      Elem sm (.fill key value)
        { sm with slots := sm.slots.set key.idx (.occupied value (versionOf key)) }
  | vacate {sm : SecondaryMap V} {idx : Nat} {old : V} {version : Version}
      (h : sm.slots[idx]? = some (.occupied old version)) :
      Elem sm (.vacate idx)
        { sm with slots := sm.slots.set idx .vacant, numElems := sm.numElems - 1 }
  | write {sm : SecondaryMap V} {idx : Nat} {old : V} {version : Version} (value : V)
      (h : sm.slots[idx]? = some (.occupied old version)) :
      Elem sm (.write idx value)
        { sm with slots := sm.slots.set idx (.occupied value version) }

namespace Wf

theorem of_set (h : Wf sm) {idx n : Nat} {old new : Slot V} (hold : sm.slots[idx]? = some old)
    (hn : n + (if old.isOccupied then 1 else 0) = sm.numElems + if new.isOccupied then 1 else 0) :
    Wf { sm with slots := sm.slots.set idx new, numElems := n } := by
  have hcount := countP_set_getElem? Slot.isOccupied new hold
  refine ⟨?_, ?_, ?_⟩
  · have := h.count
    dsimp only
    omega
  · rw [List.length_set]
    exact h.length_pos
  · rw [List.length_set]
    exact h.length_le

theorem numElems_pos (h : Wf sm) {idx : Nat} {value : V} {version : Version}
    (hs : sm.slots[idx]? = some (.occupied value version)) : 0 < sm.numElems := by
  rw [h.count]
  apply List.countP_pos_iff.mpr
  exact ⟨_, List.mem_of_getElem? hs, rfl⟩

theorem numElems_le (h : Wf sm) : sm.numElems ≤ sm.slots.length := by
  rw [h.count]
  exact List.countP_le_length

theorem elem (h : Wf sm) {c : Change V} (he : Elem sm c sm') : Wf sm' := by
  cases he with
  | resize capacity => exact ⟨h.count, h.length_pos, h.length_le⟩
  | @grow n capacity hlen =>
    refine ⟨?_, ?_, ?_⟩
    · have hnone : (List.replicate n .vacant : List (Slot V)).countP Slot.isOccupied = 0 := by
        simp [List.countP_replicate, Slot.isOccupied]
      rw [List.countP_append, hnone]
      exact h.count
    · rw [List.length_append]
      exact Nat.add_pos_left h.length_pos _
    · rw [List.length_append, List.length_replicate]
      exact hlen
  | fill hs => exact h.of_set hs rfl
  | refill hs => exact h.of_set hs rfl
  | vacate hs =>
    have hpos := h.numElems_pos hs
    apply h.of_set hs
    simp only [Slot.isOccupied, if_true, Bool.false_eq_true, if_false]
    omega
  | write value hs => exact h.of_set hs rfl

theorem run (h : Wf sm) {cs : List (Change V)} (hr : Run Elem sm cs sm') : Wf sm' :=
  hr.invariant (fun _ _ _ hs he => hs.elem he) h

end Wf

def Seated (sm : SecondaryMap V) : Prop := sm.slots[0]? = some .vacant

/-- A change that does not fill the sentinel slot. -/
def Change.Above : Change V → Prop
  | .fill key _ => key.idx ≠ 0
  | _ => True

theorem Seated.elem (h : Seated sm) {c : Change V} (he : Elem sm c sm') (hc : c.Above) :
    Seated sm' := by
  have hne : ∀ {idx : Nat} {value : V} {version : Version},
      sm.slots[idx]? = some (.occupied value version) → idx ≠ 0 := by
    rintro idx value version hs rfl
    rw [h] at hs
    simp at hs
  cases he with
  | resize capacity => exact h
  | grow capacity hlen =>
    have hlt := (List.getElem?_eq_some_iff.mp h).1
    unfold Seated
    rw [List.getElem?_append_left hlt]
    exact h
  | fill hs =>
    unfold Seated
    rw [List.getElem?_set_ne hc]
    exact h
  | refill hs =>
    unfold Seated
    rw [List.getElem?_set_ne hc]
    exact h
  | vacate hs =>
    unfold Seated
    rw [List.getElem?_set_ne (hne hs)]
    exact h
  | write value hs =>
    unfold Seated
    rw [List.getElem?_set_ne (hne hs)]
    exact h

theorem Seated.run (h : Seated sm) {cs : List (Change V)} (hr : Run Elem sm cs sm')
    (hcs : ∀ c ∈ cs, c.Above) : Seated sm' := by
  induction hr with
  | nil => exact h
  | cons he _ ih =>
    obtain ⟨hc, hrest⟩ := List.forall_mem_cons.mp hcs
    exact ih (h.elem he hc) hrest

/-! ## What a key is bound to -/

namespace SecondaryMap

/-- The slot of an index; what lies beyond the slots is as good as vacant. -/
def slotAt (sm : SecondaryMap V) (idx : Nat) : Slot V := sm.slots[idx]?.getD .vacant

def lookup (sm : SecondaryMap V) (key : KeyData) : Option V :=
  match sm.slotAt key.idx with
  | .occupied value version => if version.val = key.version then some value else none
  | .vacant => none

theorem slotAt_of_getElem? {idx : Nat} {s : Slot V} (h : sm.slots[idx]? = some s) :
    sm.slotAt idx = s := by
  rw [slotAt, h]
  rfl

theorem slotAt_occupied {idx : Nat} {value : V} {version : Version} :
    sm.slotAt idx = .occupied value version ↔ sm.slots[idx]? = some (.occupied value version) := by
  rw [slotAt]
  cases sm.slots[idx]? <;> simp

theorem slotAt_set (sm : SecondaryMap V) {idx : Nat} (h : idx < sm.slots.length) (s : Slot V)
    (i : Nat) :
    ({ sm with slots := sm.slots.set idx s } : SecondaryMap V).slotAt i =
      if i = idx then s else sm.slotAt i := by
  split
  · rename_i hi
    rw [hi]
    exact slotAt_of_getElem? (List.getElem?_set_self h)
  · rename_i hi
    rw [slotAt, slotAt, List.getElem?_set_ne (Ne.symm hi)]

theorem get_eq (sm : SecondaryMap V) (key : KeyData) : sm.get key = .ok (sm.lookup key) := by
  have hodd := key.version_odd
  rcases hs : sm.slots[key.idx]? with _ | ⟨value, version⟩ | _
  · simp [get, lookup, slotAt, hs]
  · by_cases hversion : version.val = key.version
    · simp [get, lookup, slotAt, hs, Slot.version, hversion, Slot.getUnchecked, Except.map]
    · simp [get, lookup, slotAt, hs, Slot.version, hversion]
  · have hzero : ¬ 0 = key.version := by omega
    simp [get, lookup, slotAt, hs, Slot.version, hzero]

theorem containsKey_eq (sm : SecondaryMap V) (key : KeyData) :
    sm.containsKey key = (sm.lookup key).isSome := by
  have hodd := key.version_odd
  rcases hs : sm.slots[key.idx]? with _ | ⟨value, version⟩ | _
  · simp [containsKey, lookup, slotAt, hs]
  · by_cases hversion : version.val = key.version
    · simp [containsKey, lookup, slotAt, hs, Slot.version, hversion]
    · simp [containsKey, lookup, slotAt, hs, Slot.version, hversion]
  · have hzero : ¬ 0 = key.version := by omega
    simp [containsKey, lookup, slotAt, hs, Slot.version, hzero]

theorem lookup_congr {key : KeyData} (h : sm'.slotAt key.idx = sm.slotAt key.idx) :
    sm'.lookup key = sm.lookup key := by
  simp only [lookup, h]

theorem lookup_of_occupied {key : KeyData} {value : V} {version : Version}
    (h : sm.slotAt key.idx = .occupied value version) :
    sm.lookup key = if version.val = key.version then some value else none := by
  simp only [lookup, h]

theorem lookup_eq_some {key : KeyData} {value : V} :
    sm.lookup key = some value ↔ sm.slotAt key.idx = .occupied value (versionOf key) := by
  rcases hs : sm.slotAt key.idx with ⟨value', version⟩ | _
  · rw [lookup_of_occupied hs]
    constructor
    · intro h
      split at h
      · rename_i hversion
        obtain rfl := Option.some.inj h
        congr 1
        exact Subtype.ext hversion
      · simp at h
    · intro h
      simp only [Slot.occupied.injEq] at h
      rw [h.1, h.2]
      exact if_pos rfl
  · simp [lookup, hs]

end SecondaryMap

open SecondaryMap

/-! ## The operations -/

theorem newOccupied_eq (key : KeyData) (value : V) :
    Slot.newOccupied key.version value = .occupied value (versionOf key) := by
  unfold Slot.newOccupied versionOf
  congr 2
  exact KeyData.new_version key.version_odd key.version_le

theorem vacate_spec (h : Wf sm) {idx : Nat} {value : V} {version : Version}
    (hs : sm.slots[idx]? = some (.occupied value version)) :
    sm.vacate idx =
        .ok { sm with slots := sm.slots.set idx .vacant, numElems := sm.numElems - 1 } ∧
      Elem sm (.vacate idx)
        { sm with slots := sm.slots.set idx .vacant, numElems := sm.numElems - 1 } := by
  refine ⟨?_, .vacate hs⟩
  rw [SecondaryMap.vacate, expect_checkedSub _ (h.numElems_pos hs)]
  rfl

theorem vacantInsert_spec (h : Wf sm) {kd : KeyData} {s : Slot V}
    (hs : sm.slots[kd.idx]? = some s) (value : V) : ∃ sm', sm.vacantInsert kd value = .ok sm' ∧
      Elem sm (.fill kd value) sm' ∧
      sm'.slots = sm.slots.set kd.idx (.occupied value (versionOf kd)) := by
  cases s with
  | occupied old version =>
    refine ⟨_, ?_, .refill hs, rfl⟩
    simp only [SecondaryMap.vacantInsert, hs, newOccupied_eq]
  | vacant =>
    have hle : sm.numElems + 1 ≤ usizeMax := by
      have hnum := h.numElems_le
      have hlen := h.length_le
      simp only [maxSlotsLen, Slotmap.danglingSentinel, u32Max] at hlen
      unfold usizeMax
      omega
    refine ⟨_, ?_, .fill hs, rfl⟩
    simp only [SecondaryMap.vacantInsert, hs, newOccupied_eq, expect_checkedAdd _ hle, ok_bind]

theorem growTo_cases [RawVec (Slot V)] {targetLen : Nat} (hlen : targetLen ≤ maxSlotsLen - 1)
    (a : Allocator) :
    (∃ a', sm.growTo targetLen a = (.ok (), sm, a') ∧ targetLen ≤ sm.slots.length) ∨
    (∃ capacity a', sm.growTo targetLen a = (.ok (), { sm with
        slots := sm.slots ++ List.replicate (targetLen - sm.slots.length) .vacant, capacity }, a') ∧
      sm.slots.length < targetLen ∧ Elem sm (.grow (targetLen - sm.slots.length)) { sm with
        slots := sm.slots ++ List.replicate (targetLen - sm.slots.length) .vacant, capacity }) ∨
    ∃ e a', sm.growTo targetLen a = (.error e, sm, a') := by
  by_cases hlt : sm.slots.length < targetLen
  · refine Or.inr ?_
    rcases hreserve : vecTryReserve (Slot V) sm.slots.length sm.capacity
      (targetLen - sm.slots.length) a with ⟨e | capacity, a'⟩
    · refine Or.inr ⟨e, a', ?_⟩
      simp only [SecondaryMap.growTo, if_pos hlt, hreserve]
    · refine Or.inl ⟨capacity, a', ?_, hlt, .grow capacity (by omega)⟩
      simp only [SecondaryMap.growTo, if_pos hlt, hreserve]
  · refine Or.inl ⟨a, ?_, Nat.le_of_not_lt hlt⟩
    rw [SecondaryMap.growTo, if_neg hlt]

def entryOf (key : KeyData) (s : Slot V) : Option Entry :=
  if key.version = s.version then some (.occupied key)
  else if isOlderVersion key.version s.version then none
  else some (.vacant key)

/-- The key has an index that a slot can have. -/
structure Usable (key : KeyData) : Prop where
  idx_lt : key.idx < maxSlotsLen - 1

theorem Usable.not_null {key : KeyData} (h : Usable key) : isNull key = false := by
  have hlt := h.idx_lt
  simp only [maxSlotsLen, Slotmap.danglingSentinel, u32Max] at hlt
  simp only [isNull, u32Max, beq_eq_false_iff_ne]
  omega

/-- Growing changes no binding. -/
structure SameSlots (sm sm' : SecondaryMap V) : Prop where
  slotAt_eq : ∀ i, sm'.slotAt i = sm.slotAt i
  numElems_eq : sm'.numElems = sm.numElems
  run : ∃ cs, Run Elem sm cs sm' ∧ ∀ c ∈ cs, c.Above

theorem SameSlots.refl (sm : SecondaryMap V) : SameSlots sm sm :=
  ⟨fun _ => rfl, rfl, [], .nil sm, by simp⟩

theorem slotAt_grow (n capacity i : Nat) : ({ sm with
    slots := sm.slots ++ List.replicate n .vacant, capacity } : SecondaryMap V).slotAt i =
      sm.slotAt i := by
  simp only [slotAt]
  rcases Nat.lt_or_ge i sm.slots.length with hlt | hge
  · rw [List.getElem?_append_left hlt]
  · rw [List.getElem?_append_right hge, List.getElem?_eq_none hge, List.getElem?_replicate]
    split <;> rfl

theorem tryEntry_usable [RawVec (Slot V)] (sm : SecondaryMap V) {key : KeyData}
    (hkey : Usable key) (a : Allocator) :
    (∃ sm' a', sm.tryEntry key a = .ok (.ok (entryOf key (sm.slotAt key.idx)), sm', a') ∧
      SameSlots sm sm' ∧ key.idx < sm'.slots.length) ∨
    ∃ e a', sm.tryEntry key a = .ok (.error e, sm, a') := by
  have hlt := hkey.idx_lt
  have htarget : expect "slot index below MAX_SLOTS_LEN" (checkedAdd usizeMax key.idx 1) =
      .ok (key.idx + 1) := by
    apply expect_checkedAdd
    simp only [maxSlotsLen, Slotmap.danglingSentinel, u32Max] at hlt
    unfold usizeMax
    omega
  have hnull : ¬ isNull key = true := by simp [hkey.not_null]
  have hfound : ∀ {sm' : SecondaryMap V} {a' : Allocator},
      sm.growTo (key.idx + 1) a = (.ok (), sm', a') → key.idx < sm'.slots.length →
      sm'.slotAt key.idx = sm.slotAt key.idx →
      sm.tryEntry key a = .ok (.ok (entryOf key (sm.slotAt key.idx)), sm', a') := by
    intro sm' a' hgrow hidx hsame
    have hs : sm'.slots[key.idx]? = some sm'.slots[key.idx] := List.getElem?_eq_getElem hidx
    rw [← hsame, slotAt_of_getElem? hs, entryOf]
    simp only [tryEntry, if_neg hnull, if_neg (Nat.not_le.mpr hlt), htarget, ok_bind, hgrow, hs]
    split
    · rfl
    · split <;> rfl
  rcases @growTo_cases V sm _ _ (show key.idx + 1 ≤ maxSlotsLen - 1 by omega) a with
    ⟨a', hgrow, hle⟩ | ⟨capacity, a', hgrow, hlen, helem⟩ | ⟨e, a', hgrow⟩
  · exact Or.inl ⟨sm, a', hfound hgrow (by omega) rfl, .refl sm, by omega⟩
  · have hidx : key.idx < (sm.slots ++ List.replicate (key.idx + 1 - sm.slots.length)
        (.vacant : Slot V)).length := by
      rw [List.length_append, List.length_replicate]
      omega
    refine Or.inl ⟨_, a', hfound hgrow hidx (slotAt_grow _ _ _), ⟨slotAt_grow _ _, rfl, _,
      .single helem, ?_⟩, hidx⟩
    simp [Change.Above]
  · refine Or.inr ⟨e, a', ?_⟩
    simp only [tryEntry, if_neg hnull, if_neg (Nat.not_le.mpr hlt), htarget, ok_bind, hgrow]

theorem tryEntry_unusable [RawVec (Slot V)] (sm : SecondaryMap V) {key : KeyData}
    (hkey : ¬ Usable key) (a : Allocator) :
    sm.tryEntry key a = .ok (.ok none, sm, a) ∨
      sm.tryEntry key a = .ok (.error .capacityOverflow, sm, a) := by
  by_cases hnull : isNull key
  · exact Or.inl (if_pos hnull)
  · refine Or.inr ?_
    have hge : maxSlotsLen - 1 ≤ key.idx := Nat.le_of_not_lt fun h => hkey ⟨h⟩
    rw [tryEntry, if_neg hnull, if_pos hge]

theorem getUncheckedMut_spec {idx : Nat} {old : V} {version : Version}
    (hs : sm.slots[idx]? = some (.occupied old version)) (write : V → V) :
    ∃ sm', sm.getUncheckedMut idx write = .ok (old, sm') ∧ Elem sm (.write idx (write old)) sm' ∧
      sm'.slots = sm.slots.set idx (.occupied (write old) version) := by
  refine ⟨_, ?_, .write (write old) hs, rfl⟩
  simp only [getUncheckedMut, hs]

/-- The slot of a key has been filled under it, and no other slot has changed. -/
structure Filled (sm : SecondaryMap V) (key : KeyData) (value : V) (sm' : SecondaryMap V) :
    Prop where
  slotAt_eq : ∀ i, sm'.slotAt i =
    if i = key.idx then .occupied value (versionOf key) else sm.slotAt i
  run : ∃ cs, Run Elem sm cs sm' ∧ (key.idx ≠ 0 → ∀ c ∈ cs, c.Above)

theorem Filled.of_set {sm₁ : SecondaryMap V} {key : KeyData} {value : V} {c : Change V}
    (h : SameSlots sm sm₁) (hidx : key.idx < sm₁.slots.length) (he : Elem sm₁ c sm')
    (hslots : sm'.slots = sm₁.slots.set key.idx (.occupied value (versionOf key)))
    (hc : key.idx ≠ 0 → c.Above) : Filled sm key value sm' := by
  obtain ⟨cs, hrun, habove⟩ := h.run
  refine ⟨fun i => ?_, cs ++ [c], hrun.snoc he, fun hne => ?_⟩
  · have hset := slotAt_set sm₁ hidx (.occupied value (versionOf key)) i
    rw [h.slotAt_eq] at hset
    rw [← hset, slotAt, slotAt, hslots]
  · exact List.forall_mem_append.mpr ⟨habove, by simpa using hc hne⟩

theorem occupied_of_version {key : KeyData} {s : Slot V} (h : key.version = s.version) :
    ∃ value, s = .occupied value (versionOf key) := by
  cases s with
  | occupied value version => exact ⟨value, congrArg _ (Subtype.ext h.symm)⟩
  | vacant =>
    have hodd := key.version_odd
    rw [h, Slot.version] at hodd
    omega

/-- An insertion does nothing under an entry that is none, and fills the slot otherwise. -/
theorem tryInsert_spec [RawVec (Slot V)] (h : Wf sm) {key : KeyData} (hkey : Usable key) (value : V)
    (a : Allocator) :
    (∃ sm' a', sm.tryInsert key value a = .ok (.ok none, sm', a') ∧
      entryOf key (sm.slotAt key.idx) = none ∧ SameSlots sm sm') ∨
    (∃ old sm' a', sm.tryInsert key value a = .ok (.ok old, sm', a') ∧
      (entryOf key (sm.slotAt key.idx)).isSome ∧ old = sm.lookup key ∧ Filled sm key value sm') ∨
    ∃ e a', sm.tryInsert key value a = .ok (.error e, sm, a') := by
  rcases tryEntry_usable sm hkey a with ⟨sm₁, a₁, hentry, hsame, hidx⟩ | ⟨e, a', hentry⟩
  · have hwf : Wf sm₁ := by
      obtain ⟨cs, hrun, -⟩ := hsame.run
      exact h.run hrun
    have hs : sm₁.slots[key.idx]? = some sm₁.slots[key.idx] := List.getElem?_eq_getElem hidx
    have hslot : sm₁.slots[key.idx] = sm.slotAt key.idx := by
      rw [← hsame.slotAt_eq, slotAt_of_getElem? hs]
    rw [hslot] at hs
    by_cases heq : key.version = (sm.slotAt key.idx).version
    · have hsome : entryOf key (sm.slotAt key.idx) = some (.occupied key) := if_pos heq
      obtain ⟨old, hold⟩ := occupied_of_version heq
      rw [hold] at hs
      obtain ⟨sm', hwrite, helem, hslots⟩ := getUncheckedMut_spec hs fun _ => value
      refine Or.inr (Or.inl ⟨some old, sm', a₁, ?_, by rw [hsome]; rfl,
        (lookup_eq_some.mpr hold).symm, .of_set hsame hidx helem hslots fun _ => trivial⟩)
      simp only [tryInsert, tryInsertGiveBack, hentry, hsome, ok_bind, occupiedInsert, hwrite]
    · have hlookup : sm.lookup key = none := by
        cases hcase : sm.slotAt key.idx with
        | occupied old version =>
          rw [lookup_of_occupied hcase]
          rw [hcase] at heq
          exact if_neg fun h => heq h.symm
        | vacant => simp only [lookup, hcase]
      by_cases holder : isOlderVersion key.version (sm.slotAt key.idx).version
      · have hnone : entryOf key (sm.slotAt key.idx) = none := by
          rw [entryOf, if_neg heq, if_pos holder]
        refine Or.inl ⟨sm₁, a₁, ?_, hnone, hsame⟩
        simp only [tryInsert, tryInsertGiveBack, hentry, hnone, ok_bind]
      · have hsome : entryOf key (sm.slotAt key.idx) = some (.vacant key) := by
          rw [entryOf, if_neg heq, if_neg holder]
        obtain ⟨sm', hinsert, helem, hslots⟩ := vacantInsert_spec hwf hs value
        refine Or.inr (Or.inl ⟨none, sm', a₁, ?_, by rw [hsome]; rfl, hlookup.symm,
          .of_set hsame hidx helem hslots fun hne => hne⟩)
        simp only [tryInsert, tryInsertGiveBack, hentry, hsome, ok_bind, hinsert]
  · refine Or.inr (Or.inr ⟨e, a', ?_⟩)
    simp only [tryInsert, tryInsertGiveBack, hentry, ok_bind]

theorem Filled.lookup_eq {key : KeyData} {value : V} (h : Filled sm key value sm') :
    sm'.lookup key = some value := by
  rw [lookup_eq_some, h.slotAt_eq, if_pos rfl]

end Rustyfill.Secondary
