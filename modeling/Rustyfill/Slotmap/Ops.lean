import Rustyfill.Slotmap.Invariant

/-!
# Each operation as a run of elementary rewrites

Under the invariant no operation faults, `reattach` of a key that is not detached apart.
Each lemma names the rewrites the operation amounts to and relates them to its result, so
that callers never unfold an operation again.
-/

namespace Rustyfill.Slotmap

open Transition

set_option autoImplicit false

variable {V E : Type} {sm : SlotMap V}

/-- The pairs the occupied slots hold; `i` is the index of the first slot of the list. -/
def entries : Nat → List (Slot V) → List (KeyData × V)
  | _, [] => []
  | i, ⟨.value v, version⟩ :: rest => (KeyData.new i version, v) :: entries (i + 1) rest
  | i, ⟨.nextFree _, _⟩ :: rest => entries (i + 1) rest

namespace SlotMap

def pairs (sm : SlotMap V) : List (KeyData × V) := entries 1 (sm.slots.drop 1)

def lookup (sm : SlotMap V) (key : KeyData) : Option V :=
  match sm.slots[key.idx]? with
  | some ⟨.value v, version⟩ => if version = key.version then some v else none
  | _ => none

def IsDetached (sm : SlotMap V) (key : KeyData) : Prop :=
  sm.slots[key.idx]? = some ⟨.nextFree danglingSentinel, wrappingSucc key.version⟩

theorem lookup_eq_some {key : KeyData} {v : V} :
    sm.lookup key = some v ↔ sm.slots[key.idx]? = some ⟨.value v, key.version⟩ := by
  unfold lookup
  split
  · rename_i w version h
    rw [h]
    constructor
    · intro hl
      split at hl
      · rename_i hver
        rw [hver, Option.some.inj hl]
      · simp at hl
    · intro hs
      simp only [Option.some.injEq, Slot.mk.injEq, SlotUnion.value.injEq] at hs
      rw [if_pos hs.2, hs.1]
  · rename_i hne
    constructor
    · intro hl
      simp at hl
    · intro hs
      exact absurd hs (hne v key.version)

end SlotMap

namespace Wf

theorem index_le (h : Wf sm) {i : Nat} {s : Slot V} (hs : sm.slots[i]? = some s) : i ≤ u32Max := by
  have h1 := (List.getElem?_eq_some_iff.mp hs).1
  have h2 := h.length_le
  unfold maxSlotsLen danglingSentinel at h2
  omega

theorem key_of_slot (h : Wf sm) {i version : Nat} {v : V}
    (hs : sm.slots[i]? = some ⟨.value v, version⟩) :
    (KeyData.new i version).idx = i ∧ (KeyData.new i version).version = version :=
  ⟨KeyData.new_idx (h.index_le hs),
    KeyData.new_version (h.slot_tagged hs).2 (h.slot_tagged hs).1⟩

theorem slot_of_key (h : Wf sm) {i version : Nat} {v : V}
    (hs : sm.slots[i]? = some ⟨.value v, version⟩) :
    sm.slots[(KeyData.new i version).idx]? = some ⟨.value v, (KeyData.new i version).version⟩ := by
  rw [(h.key_of_slot hs).1, (h.key_of_slot hs).2]
  exact hs

theorem value_of_version (h : Wf sm) {key : KeyData} {s : Slot V}
    (hs : sm.slots[key.idx]? = some s) (hver : s.version = key.version) :
    ∃ v, s = ⟨.value v, key.version⟩ := by
  have hodd := key.version_odd
  have htag := h.slot_tagged hs
  obtain ⟨u, version⟩ := s
  cases u with
  | value v => exact ⟨v, by rw [← hver]⟩
  | nextFree n =>
    have := htag.2
    simp only at this hver
    omega

theorem lookup_eq_none (h : Wf sm) {key : KeyData} {s : Slot V}
    (hs : sm.slots[key.idx]? = some s) : sm.lookup key = none ↔ s.version ≠ key.version := by
  constructor
  · intro hl hver
    obtain ⟨v, rfl⟩ := h.value_of_version hs hver
    rw [SlotMap.lookup_eq_some.mpr hs] at hl
    simp at hl
  · intro hne
    rcases hl : sm.lookup key with _ | v
    · rfl
    · rw [SlotMap.lookup_eq_some, hs, Option.some.injEq] at hl
      exact absurd (by rw [hl]) hne

end Wf

/-! ## Queries -/

theorem containsKey_eq (h : Wf sm) (key : KeyData) :
    sm.containsKey key = (sm.lookup key).isSome := by
  unfold SlotMap.containsKey
  split
  · rename_i s hs
    by_cases hver : s.version = key.version
    · obtain ⟨v, rfl⟩ := h.value_of_version hs hver
      simp [SlotMap.lookup_eq_some.mpr hs]
    · simp [(h.lookup_eq_none hs).mpr hver, hver]
  · rename_i hs
    simp [SlotMap.lookup, hs]

theorem get_eq (h : Wf sm) (key : KeyData) : sm.get key = .ok (sm.lookup key) := by
  unfold SlotMap.get
  split
  · rename_i hs
    simp [SlotMap.lookup, hs]
  · rename_i s hs
    split
    · rename_i hver
      obtain ⟨v, rfl⟩ := h.value_of_version hs hver
      rw [SlotMap.lookup_eq_some.mpr hs]
      rfl
    · rename_i hver
      rw [(h.lookup_eq_none hs).mpr hver]

theorem getMut_spec (h : Wf sm) (key : KeyData) (write : V → V) :
    ∃ sm', sm.getMut key write = .ok (sm.lookup key, sm') ∧
      Run Elem sm ((sm.lookup key).toList.map fun v => .write key (write v)) sm' := by
  unfold SlotMap.getMut
  split
  · rename_i hs
    refine ⟨sm, by simp [SlotMap.lookup, hs], ?_⟩
    simpa [SlotMap.lookup, hs] using Run.nil sm
  · rename_i s hs
    split
    · rename_i hver
      obtain ⟨v, rfl⟩ := h.value_of_version hs hver
      rw [SlotMap.lookup_eq_some.mpr hs]
      exact ⟨_, rfl, .single (.write hs)⟩
    · rename_i hver
      rw [(h.lookup_eq_none hs).mpr hver]
      exact ⟨sm, rfl, .nil sm⟩

/-! ## Insertion -/

/-- What an insertion may do: bind a new key to the value the closure gave for it, or nothing. -/
def Inserts (sm : SlotMap V) (f : KeyData → Except E V)
    (r : Except (SlotMapInsertWithError E) KeyData) (sm' : SlotMap V) : Prop :=
  match r with
  | .ok key => ∃ value, f key = .ok value ∧ Elem sm (.insert key value) sm'
  | .error (.closure e) => (∃ key, f key = .error e) ∧ Elem sm .resize sm'
  | .error (.reserve _) => Elem sm .resize sm'

theorem Wf.fill_key (h : Wf sm) {i next ver : Nat}
    (hs : sm.slots[i]? = some ⟨.nextFree next, ver⟩) :
    (KeyData.new i (ver ||| 1)).idx = i ∧ (KeyData.new i (ver ||| 1)).version = ver + 1 := by
  have htag := h.slot_tagged hs
  have hodd : (ver ||| 1) = ver + 1 := lor_one_of_even htag.2
  have hle : ver + 1 ≤ u32Max := by
    have h1 := htag.1
    have h2 := htag.2
    simp only at h1 h2
    unfold u32Max at *
    omega
  refine ⟨KeyData.new_idx (h.index_le hs), ?_⟩
  rw [KeyData.new_version (lor_one_mod_two ver) (hodd ▸ hle), hodd]

theorem Wf.numElems_add (h : Wf sm) :
    expect "element count below MAX_SLOTS_LEN" (checkedAdd u32Max sm.numElems 1) =
      .ok (sm.numElems + 1) := by
  have h1 := h.numElems_lt
  have h2 := h.length_le
  exact expect_checkedAdd _ (by unfold maxSlotsLen danglingSentinel at h2; omega)

section
variable [RawVec (Slot V)]

theorem insertInner_fill (h : Wf sm) {s : Slot V} (hs : sm.slots[sm.freeHead]? = some s)
    (f : KeyData → Except E V) (a : Allocator) :
    ∃ r sm', sm.insertInner f a = .ok (r, sm', a) ∧ Inserts sm f r sm' := by
  obtain ⟨_, next, ver, hs', _⟩ := h.free.freeSlot_head hs
  obtain ⟨hidx, hver⟩ := h.fill_key hs'
  simp only [SlotMap.insertInner, hs']
  cases hf : f (KeyData.new sm.freeHead (ver ||| 1)) with
  | error e => exact ⟨_, _, rfl, ⟨_, hf⟩, .resize sm sm.capacity⟩
  | ok value =>
    simp only [SlotUnion.readNextFree, h.numElems_add, ok_bind]
    refine ⟨_, _, rfl, value, hf, ?_⟩
    have helem : Elem sm (.insert _ value) _ := .fill hidx (by rw [hidx]; exact hs') hver
    rw [hidx, hver, ← lor_one_of_even (h.slot_tagged hs').2] at helem
    exact helem

theorem insertInner_push (h : Wf sm) (hs : sm.slots[sm.freeHead]? = none)
    (f : KeyData → Except E V) (a : Allocator) :
    ∃ r sm' a', sm.insertInner f a = .ok (r, sm', a') ∧ Inserts sm f r sm' := by
  have hhead : sm.freeHead = sm.slots.length :=
    Nat.le_antisymm h.freeHead_le (List.getElem?_eq_none_iff.mp hs)
  simp only [SlotMap.insertInner, hs]
  by_cases hfull : maxSlotsLen ≤ sm.slots.length
  · rw [if_pos hfull]
    exact ⟨_, _, _, rfl, .resize sm sm.capacity⟩
  · have hlt : sm.slots.length < maxSlotsLen := by omega
    have hroom : sm.slots.length + 1 ≤ u32Max := by
      unfold maxSlotsLen danglingSentinel at hlt
      omega
    have hidx : (KeyData.new sm.slots.length 1).idx = sm.slots.length := KeyData.new_idx (by omega)
    have hver : (KeyData.new sm.slots.length 1).version = 1 :=
      KeyData.new_version rfl (by simp [u32Max])
    rw [if_neg hfull]
    rcases vecTryReserve (Slot V) sm.slots.length sm.capacity 1 a with ⟨_ | capacity, a'⟩
    · exact ⟨_, _, _, rfl, .resize sm sm.capacity⟩
    · cases hf : f (KeyData.new sm.slots.length 1) with
      | error e => exact ⟨_, _, _, rfl, ⟨_, hf⟩, .resize sm capacity⟩
      | ok value =>
        simp only [hidx, h.numElems_add, expect_checkedAdd _ hroom, ok_bind]
        exact ⟨_, _, _, rfl, value, hf, .push capacity hhead hidx hver hlt⟩

theorem insertInner_spec (h : Wf sm) (f : KeyData → Except E V) (a : Allocator) :
    ∃ r sm' a', sm.insertInner f a = .ok (r, sm', a') ∧ Inserts sm f r sm' := by
  cases hs : sm.slots[sm.freeHead]? with
  | none => exact insertInner_push h hs f a
  | some s =>
    obtain ⟨r, sm', heq, hr⟩ := insertInner_fill h hs f a
    exact ⟨r, sm', a, heq, hr⟩

theorem tryInsertWithKey_spec (h : Wf sm) (f : KeyData → Except E V) (a : Allocator) :
    ∃ r sm' a', sm.tryInsertWithKey f a = .ok (r, sm', a') ∧ Inserts sm f r sm' :=
  insertInner_spec h f a

theorem tryInsert_spec (h : Wf sm) (value : V) (a : Allocator) :
    ∃ r sm' a', sm.tryInsert value a = .ok (r, sm', a') ∧
      match r with
      | .ok key => Elem sm (.insert key value) sm'
      | .error _ => Elem sm .resize sm' := by
  obtain ⟨r, sm', a', heq, hr⟩ := insertInner_spec (E := Unit) h (fun _ => .ok value) a
  unfold SlotMap.tryInsert
  rw [heq, ok_bind]
  rcases r with (e | e) | key
  · exact ⟨_, _, _, rfl, hr⟩
  · obtain ⟨⟨key, hkey⟩, _⟩ := hr
    simp at hkey
  · obtain ⟨value', hvalue, he⟩ := hr
    rw [← Except.ok.inj hvalue] at he
    exact ⟨_, _, _, rfl, he⟩

end

/-! ## Removal, detaching and reattaching -/

theorem removeFromSlot_spec (h : Wf sm) {key : KeyData} {v : V}
    (hs : sm.slots[key.idx]? = some ⟨.value v, key.version⟩) :
    ∃ sm', sm.removeFromSlot key.idx = .ok (v, sm') ∧ Elem sm (.vacate key v) sm' ∧
      sm'.slots = sm.slots.set key.idx ⟨.nextFree sm.freeHead, wrappingSucc key.version⟩ := by
  have hsub := expect_checkedSub "at least one element present" (h.numElems_pos hs)
  simp only [SlotMap.removeFromSlot, hs, SlotUnion.readValue, hsub, ok_bind]
  exact ⟨_, rfl, .vacate hs, rfl⟩

theorem remove_spec (h : Wf sm) (key : KeyData) :
    ∃ sm', sm.remove key = .ok (sm.lookup key, sm') ∧
      Run Elem sm ((sm.lookup key).toList.map (.vacate key)) sm' := by
  unfold SlotMap.remove
  rw [containsKey_eq h]
  cases hl : sm.lookup key with
  | none => exact ⟨sm, rfl, .nil sm⟩
  | some v =>
    obtain ⟨sm', heq, he, _⟩ := removeFromSlot_spec h (SlotMap.lookup_eq_some.mp hl)
    simp only [Option.isSome_some, if_true, heq, ok_bind]
    exact ⟨sm', rfl, .single he⟩

theorem detach_spec (h : Wf sm) (key : KeyData) :
    ∃ sm', sm.detach key = .ok (sm.lookup key, sm') ∧
      Run Elem sm ((sm.lookup key).toList.map (.detach key)) sm' := by
  unfold SlotMap.detach
  rw [containsKey_eq h]
  cases hl : sm.lookup key with
  | none => exact ⟨sm, rfl, .nil sm⟩
  | some v =>
    have hs := SlotMap.lookup_eq_some.mp hl
    have hsub := expect_checkedSub "at least one element present" (h.numElems_pos hs)
    simp only [Option.isSome_some, if_true, hs, SlotUnion.readValue, hsub, ok_bind]
    exact ⟨_, rfl, .single (.detach hs)⟩

/-- No read in `reattach` is of the wrong union member, and it finds exactly the detached keys. -/
theorem detachedSlot_eq (h : Wf sm) (key : KeyData) :
    (sm.IsDetached key ∧ sm.detachedSlot key =
      .ok (some ⟨.nextFree danglingSentinel, wrappingSucc key.version⟩)) ∨
    (¬ sm.IsDetached key ∧ sm.detachedSlot key = .ok none) := by
  unfold SlotMap.detachedSlot SlotMap.IsDetached
  cases hs : sm.slots[key.idx]? with
  | none => exact .inr ⟨by simp, rfl⟩
  | some s =>
    obtain ⟨u, version⟩ := s
    by_cases hver : version = wrappingSucc key.version
    · have htag := h.slot_tagged hs
      have heven := wrappingSucc_even key.version_odd
      cases u with
      | value v =>
        have := htag.2
        simp only at this
        omega
      | nextFree n =>
        simp only [hver, if_true, SlotUnion.readNextFree, ok_bind]
        by_cases hn : n = danglingSentinel
        · subst hn
          exact .inl ⟨rfl, by rw [if_pos rfl]⟩
        · exact .inr ⟨by simp [hn], by rw [if_neg hn]⟩
    · exact .inr ⟨by simp [hver], by simp [hver]⟩

theorem reattach_spec (h : Wf sm) {key : KeyData} (hkey : sm.IsDetached key) (value : V) :
    ∃ sm', sm.reattach key value = .ok sm' ∧ Elem sm (.reattach key value) sm' := by
  rcases detachedSlot_eq h key with ⟨_, heq⟩ | ⟨hno, _⟩
  · simp only [SlotMap.reattach, heq, ok_bind, expect]
    have hadd := h.numElems_add
    simp only [expect] at hadd
    rw [hadd, ok_bind, wrappingPred_wrappingSucc key.version_le]
    exact ⟨_, rfl, .reattach hkey⟩
  · exact absurd hkey hno

theorem reattach_undetached (h : Wf sm) {key : KeyData} (hkey : ¬ sm.IsDetached key) (value : V) :
    sm.reattach key value = .error (.expect "key is not detached") := by
  rcases detachedSlot_eq h key with ⟨hyes, _⟩ | ⟨_, heq⟩
  · exact absurd hyes hkey
  · simp only [SlotMap.reattach, heq, ok_bind]
    rfl

end Rustyfill.Slotmap
