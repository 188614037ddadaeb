import Rustyfill.Slotmap.Runs

/-!
# References to several values at once

`get_disjoint_mut` finds a key that is given twice by flipping the version of every slot it
has taken a reference to, so that the second time the key is not contained any more. The
flips are undone for the keys that were visited, whether all of them were contained or not.
-/

namespace Rustyfill.Slotmap

open Transition

set_option autoImplicit false

variable {V E : Type} {sm : SlotMap V}

/-! ## The scan and the undo -/

/-- `[K; N]`: the length of an array is a `usize`. -/
structure KeyArray where
  keys : List KeyData
  length_le : keys.length ≤ usizeMax

def Slot.flip (s : Slot V) : Slot V := { s with version := s.version ^^^ 1 }

namespace SlotMap

def flipSlot (sm : SlotMap V) (idx : Nat) : SlotMap V :=
  { sm with slots := sm.slots.modify idx Slot.flip }

/-- The `while` loop from key `i` on: the slots that were pointed at, the index it stopped at,
and the map. A reference is to the `value` member, which is a read of it. -/
def disjointScan : Nat → List KeyData → SlotMap V → Except Fault (List Nat × Nat × SlotMap V)
  | i, [], sm => .ok ([], i, sm)
  | i, key :: rest, sm =>
    if sm.containsKey key then
      match sm.slots[key.idx]? with
      | none => .error .undefined
      | some slot => do
        let _ ← slot.u.readValue
        let nextI ← expect "loop index below N" (checkedAdd usizeMax i 1)
        let (ptrs, stop, sm) ← disjointScan nextI rest (sm.flipSlot key.idx)
        .ok (key.idx :: ptrs, stop, sm)
    else .ok ([], i, sm)

/-- The `for` loop over the visited keys; a write past the slots is not defined. -/
def disjointUndo : List KeyData → SlotMap V → Except Fault (SlotMap V)
  | [], sm => .ok sm
  | key :: rest, sm =>
    if key.idx < sm.slots.length then disjointUndo rest (sm.flipSlot key.idx)
    else .error .undefined

/-- A reference is the index of the slot whose value it points at. -/
def getDisjointMut (sm : SlotMap V) (keys : KeyArray) :
    Except Fault (Option (List Nat) × SlotMap V) := do
  let (ptrs, i, sm) ← disjointScan 0 keys.keys sm
  let sm ← disjointUndo (keys.keys.take i) sm
  .ok (if i = keys.keys.length then some ptrs else none, sm)

/-- The map with the slots of some keys flipped, one after the other. -/
def flipAll (keys : List KeyData) (sm : SlotMap V) : SlotMap V :=
  keys.foldl (fun sm key => sm.flipSlot key.idx) sm

@[simp] theorem flipAll_nil : flipAll [] sm = sm := rfl

theorem flipAll_cons (key : KeyData) (keys : List KeyData) :
    flipAll (key :: keys) sm = flipAll keys (sm.flipSlot key.idx) := rfl

theorem flipAll_concat (keys : List KeyData) (key : KeyData) :
    flipAll (keys ++ [key]) sm = (flipAll keys sm).flipSlot key.idx := by
  simp [flipAll]

end SlotMap

/-! ## Flipping twice -/

@[simp] theorem Slot.flip_flip (s : Slot V) : s.flip.flip = s := by
  obtain ⟨u, version⟩ := s
  simp only [Slot.flip, Nat.xor_assoc, Nat.xor_self, Nat.xor_zero]

theorem Slot.flip_version_ne {s : Slot V} (h : s.version % 2 = 1) (key : KeyData) :
    s.flip.version ≠ key.version := by
  have hodd := key.version_odd
  have hflip : ¬ (s.version ^^^ 1) % 2 = 1 := by
    rw [Nat.xor_mod_two_eq_one]
    simp [h]
  intro heq
  change s.version ^^^ 1 = key.version at heq
  omega

namespace SlotMap

theorem flipSlot_flipSlot (i : Nat) : (sm.flipSlot i).flipSlot i = sm := by
  have hid : (Slot.flip ∘ Slot.flip : Slot V → Slot V) = id := funext Slot.flip_flip
  simp [flipSlot, List.modify_modify_eq, hid]

theorem flipSlot_comm (i j : Nat) :
    (sm.flipSlot i).flipSlot j = (sm.flipSlot j).flipSlot i := by
  by_cases hij : i = j
  · rw [hij]
  · simp [flipSlot, List.modify_modify_ne _ _ _ hij]

theorem flipAll_flipSlot (keys : List KeyData) (i : Nat) :
    flipAll keys (sm.flipSlot i) = (flipAll keys sm).flipSlot i := by
  induction keys generalizing sm with
  | nil => rfl
  | cons key rest ih => rw [flipAll_cons, flipAll_cons, flipSlot_comm, ih]

theorem flipAll_flipAll (keys : List KeyData) : flipAll keys (flipAll keys sm) = sm := by
  induction keys generalizing sm with
  | nil => rfl
  | cons key rest ih => rw [flipAll_cons, flipAll_cons, ← flipAll_flipSlot, flipSlot_flipSlot, ih]

@[simp] theorem flipSlot_length (i : Nat) : (sm.flipSlot i).slots.length = sm.slots.length := by
  simp [flipSlot]

@[simp] theorem flipAll_length (keys : List KeyData) :
    (flipAll keys sm).slots.length = sm.slots.length := by
  induction keys generalizing sm with
  | nil => rfl
  | cons key rest ih => rw [flipAll_cons, ih, flipSlot_length]

theorem flipAll_slot {keys : List KeyData} (hnodup : (keys.map KeyData.idx).Nodup) (i : Nat) :
    (flipAll keys sm).slots[i]? =
      if i ∈ keys.map KeyData.idx then sm.slots[i]?.map Slot.flip else sm.slots[i]? := by
  induction keys generalizing sm with
  | nil => rfl
  | cons key rest ih =>
    obtain ⟨hout, hrest⟩ := List.nodup_cons.mp hnodup
    rw [flipAll_cons, ih hrest, List.map_cons, flipSlot]
    by_cases hi : i = key.idx
    · rw [if_neg (hi ▸ hout), if_pos (hi ▸ List.mem_cons_self), hi, List.getElem?_modify_eq]
      rfl
    · simp only [List.mem_cons, hi, false_or, List.getElem?_modify_ne _ _ (Ne.symm hi)]

theorem disjointUndo_eq {keys : List KeyData} (h : ∀ key ∈ keys, key.idx < sm.slots.length) :
    disjointUndo keys sm = .ok (flipAll keys sm) := by
  induction keys generalizing sm with
  | nil => rfl
  | cons key rest ih =>
    obtain ⟨hkey, hrest⟩ := List.forall_mem_cons.mp h
    rw [disjointUndo, if_pos hkey, flipAll_cons]
    exact ih (by simpa using hrest)

end SlotMap

/-! ## The scan -/

theorem contained_slot (h : Wf sm) {key : KeyData} (hkey : sm.containsKey key = true) :
    ∃ v, sm.slots[key.idx]? = some ⟨.value v, key.version⟩ := by
  rw [containsKey_eq h] at hkey
  obtain ⟨v, hv⟩ := Option.isSome_iff_exists.mp hkey
  exact ⟨v, SlotMap.lookup_eq_some.mp hv⟩

theorem contained_idx_lt (h : Wf sm) {key : KeyData} (hkey : sm.containsKey key = true) :
    key.idx < sm.slots.length := by
  obtain ⟨v, hs⟩ := contained_slot h hkey
  exact (List.getElem?_eq_some_iff.mp hs).1

theorem contained_idx_inj (h : Wf sm) {key key' : KeyData} (hkey : sm.containsKey key = true)
    (hkey' : sm.containsKey key' = true) (hidx : key.idx = key'.idx) : key = key' := by
  obtain ⟨v, hs⟩ := contained_slot h hkey
  obtain ⟨v', hs'⟩ := contained_slot h hkey'
  rw [hidx, hs', Option.some.injEq, Slot.mk.injEq] at hs
  exact KeyData.ext hidx hs.2.symm

theorem contained_idx_nodup (h : Wf sm) {keys : List KeyData}
    (hkeys : ∀ key ∈ keys, sm.containsKey key = true) (hnodup : keys.Nodup) :
    (keys.map KeyData.idx).Nodup := by
  apply List.Nodup.map_on _ hnodup
  intro key hkey key' hkey' hidx
  exact contained_idx_inj h (hkeys key hkey) (hkeys key' hkey') hidx

/-- While some contained keys are flipped, the other ones are contained as before. -/
theorem containsKey_flipAll (h : Wf sm) {keys : List KeyData}
    (hkeys : ∀ key ∈ keys, sm.containsKey key = true) (hnodup : keys.Nodup) (key : KeyData) :
    (sm.flipAll keys).containsKey key = true ↔ sm.containsKey key = true ∧ key ∉ keys := by
  have hslot := @SlotMap.flipAll_slot _ sm _ (contained_idx_nodup h hkeys hnodup) key.idx
  by_cases hidx : key.idx ∈ keys.map KeyData.idx
  · obtain ⟨old, hold, heq⟩ := List.mem_map.mp hidx
    obtain ⟨v, hs⟩ := contained_slot h (hkeys old hold)
    rw [if_pos hidx, ← heq, hs, heq] at hslot
    have hflip := Slot.flip_version_ne (s := ⟨.value v, old.version⟩) old.version_odd key
    refine iff_of_false ?_ ?_
    · simpa [SlotMap.containsKey, hslot] using hflip
    · rintro ⟨hkey, hout⟩
      exact hout (contained_idx_inj h (hkeys old hold) hkey heq ▸ hold)
  · rw [if_neg hidx] at hslot
    have hout : key ∉ keys := fun hmem => hidx (List.mem_map_of_mem hmem)
    simp only [SlotMap.containsKey, hslot, hout, not_false_eq_true, and_true]

/-- The scan takes the keys up to the first that is not contained or was taken before. -/
theorem disjointScan_spec (h : Wf sm) {taken : List KeyData}
    (htaken : ∀ key ∈ taken, sm.containsKey key = true) (hnodup : taken.Nodup)
    (rest : List KeyData) (hlen : taken.length + rest.length ≤ usizeMax) :
    ∃ more left, rest = more ++ left ∧
      SlotMap.disjointScan taken.length rest (sm.flipAll taken) =
        .ok (more.map KeyData.idx, taken.length + more.length, sm.flipAll (taken ++ more)) ∧
      (∀ key ∈ more, sm.containsKey key = true) ∧ (taken ++ more).Nodup ∧
      ∀ key ∈ left.head?, ¬ (sm.containsKey key = true ∧ key ∉ taken ++ more) := by
  induction rest generalizing taken with
  | nil => exact ⟨[], [], rfl, by simp [SlotMap.disjointScan], by simp, by simpa, by simp⟩
  | cons key rest ih =>
    have hiff := containsKey_flipAll h htaken hnodup key
    by_cases hkey : sm.containsKey key = true ∧ key ∉ taken
    · obtain ⟨hin, hout⟩ := hkey
      obtain ⟨v, hs⟩ := contained_slot h hin
      have hnodup' : (taken ++ [key]).Nodup := by
        refine List.nodup_append.mpr ⟨hnodup, List.nodup_singleton key, ?_⟩
        intro a ha b hb heq
        rw [heq, List.mem_singleton.mp hb] at ha
        exact hout ha
      have htaken' : ∀ k ∈ taken ++ [key], sm.containsKey k = true := by
        intro k hk
        rcases List.mem_append.mp hk with hk | hk
        · exact htaken k hk
        · rw [List.mem_singleton.mp hk]
          exact hin
      rw [List.length_cons] at hlen
      obtain ⟨more, left, hrest, hscan, hmore, hall, hleft⟩ :=
        ih htaken' hnodup' (by simp only [List.length_append, List.length_singleton]; omega)
      have hslot : (sm.flipAll taken).slots[key.idx]? = some ⟨.value v, key.version⟩ := by
        have hidx : key.idx ∉ taken.map KeyData.idx := by
          intro hmem
          obtain ⟨old, hold, heq⟩ := List.mem_map.mp hmem
          exact hout (contained_idx_inj h (htaken old hold) hin heq ▸ hold)
        rw [SlotMap.flipAll_slot (contained_idx_nodup h htaken hnodup), if_neg hidx, hs]
      rw [List.append_assoc, List.singleton_append] at hscan hall hleft
      refine ⟨key :: more, left, by rw [hrest]; rfl, ?_, ?_, hall, hleft⟩
      · rw [List.length_append, List.length_singleton, SlotMap.flipAll_concat] at hscan
        simp only [SlotMap.disjointScan, hiff.mpr ⟨hin, hout⟩, if_true, hslot, SlotUnion.readValue,
          expect_checkedAdd "loop index below N" (by omega : taken.length + 1 ≤ usizeMax), ok_bind,
          hscan, List.map_cons, List.length_cons]
        rw [Nat.add_assoc, Nat.add_comm 1]
      · exact List.forall_mem_cons.mpr ⟨hin, hmore⟩
    · refine ⟨[], key :: rest, rfl, ?_, by simp, by simpa using hnodup, ?_⟩
      · rw [SlotMap.disjointScan, if_neg (fun hin => hkey (hiff.mp hin))]
        simp
      · simpa using hkey

/-- The references are to the values of the keys, in order, and no two are to one value; there
are some exactly when every key is contained and no key is there twice; and the map is what it
was. -/
theorem getDisjointMut_spec [RawVec (Slot V)] {sm₀ : SlotMap V} {calls : List (Op V E × Out V E)}
    (hinit : Initial sm₀) (hr : Run Call sm₀ calls sm) (keys : KeyArray) :
    ∃ r, sm.getDisjointMut keys = .ok (r, sm) ∧
      (r.isSome ↔ (∀ key ∈ keys.keys, sm.containsKey key = true) ∧ keys.keys.Nodup) ∧
      ∀ ptrs, r = some ptrs → ptrs.Nodup ∧ List.Forall₂ (fun key ptr => ∃ v,
        sm.get key = .ok (some v) ∧ sm.slots[ptr]? = some ⟨.value v, key.version⟩)
        keys.keys ptrs := by
  have h := reachable_wf hinit hr
  obtain ⟨taken, left, hkeys, hscan, htaken, hnodup, hleft⟩ := disjointScan_spec h
    (List.forall_mem_nil _) List.nodup_nil keys.keys (by simpa using keys.length_le)
  simp only [List.nil_append, List.length_nil, Nat.zero_add, SlotMap.flipAll_nil] at *
  have hlt : ∀ key ∈ taken, key.idx < (sm.flipAll taken).slots.length := by
    intro key hkey
    rw [SlotMap.flipAll_length]
    exact contained_idx_lt h (htaken key hkey)
  have htake : keys.keys.take taken.length = taken := by rw [hkeys, List.take_left]
  refine ⟨if taken.length = keys.keys.length then some (taken.map KeyData.idx) else none, ?_, ?_,
    ?_⟩
  · simp only [SlotMap.getDisjointMut, hscan, ok_bind, htake, SlotMap.disjointUndo_eq hlt,
      SlotMap.flipAll_flipAll]
  · rw [hkeys]
    cases left with
    | nil =>
      rw [List.append_nil, if_pos rfl]
      exact iff_of_true rfl ⟨htaken, hnodup⟩
    | cons key left =>
      rw [if_neg (by simp)]
      refine iff_of_false (by simp) ?_
      rintro ⟨hall, hdistinct⟩
      refine hleft key rfl ⟨hall key (by simp), fun hmem => ?_⟩
      exact (List.nodup_append.mp hdistinct).2.2 key hmem key List.mem_cons_self rfl
  · intro ptrs hptrs
    split at hptrs
    · rename_i hfull
      obtain rfl : left = [] := by
        rw [hkeys, List.length_append] at hfull
        exact List.eq_nil_of_length_eq_zero (by omega)
      rw [hkeys, List.append_nil, ← Option.some.inj hptrs]
      refine ⟨contained_idx_nodup h htaken hnodup, ?_⟩
      rw [List.forall₂_map_right_iff, List.forall₂_same]
      intro key hkey
      obtain ⟨v, hs⟩ := contained_slot h (htaken key hkey)
      exact ⟨v, by rw [get_eq h, SlotMap.lookup_eq_some.mpr hs], hs⟩
    · simp at hptrs

/-- Two keys of a map with two elements, one of them given twice as well. -/
theorem getDisjointMut_pair : ∃ sm : SlotMap Nat,
    Run (Call (E := Unit)) fresh
      [(.tryInsert 7 ⟨fun _ => true, 0⟩, .inserted (.ok (.new 1 1))),
        (.tryInsert 8 ⟨fun _ => true, 0⟩, .inserted (.ok (.new 2 1)))] sm ∧
    (∃ r, sm.getDisjointMut ⟨[.new 2 1, .new 1 1], by simp [usizeMax]⟩ = .ok (r, sm) ∧ r.isSome) ∧
    ∃ r, sm.getDisjointMut ⟨[.new 2 1, .new 2 1], by simp [usizeMax]⟩ = .ok (r, sm) ∧
      ¬ r.isSome := by
  have hr : Run (Call (E := Unit)) fresh
      [(.tryInsert 7 ⟨fun _ => true, 0⟩, .inserted (.ok (.new 1 1))),
        (.tryInsert 8 ⟨fun _ => true, 0⟩, .inserted (.ok (.new 2 1)))] _ :=
    .cons rfl (.cons rfl (.nil _))
  refine ⟨_, hr, ?_, ?_⟩
  · obtain ⟨r, heq, hiff, _⟩ := getDisjointMut_spec fresh_initial hr
      ⟨[.new 2 1, .new 1 1], by simp [usizeMax]⟩
    exact ⟨r, heq, hiff.mpr ⟨by simp; exact ⟨rfl, rfl⟩, by decide⟩⟩
  · obtain ⟨r, heq, hiff, _⟩ := getDisjointMut_spec fresh_initial hr
      ⟨[.new 2 1, .new 2 1], by simp [usizeMax]⟩
    exact ⟨r, heq, fun hsome => by simpa using (hiff.mp hsome).2⟩

end Rustyfill.Slotmap
