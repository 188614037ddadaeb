import Rustyfill.Slotmap.Abstract

/-!
# Versions count vacations

A slot that was put back on the free list `n` times has version `2n` while it is free and
`2n + 1` while it is occupied; a detached slot has the successor of `2n + 1`. Detaching and
reattaching do not change `n`. So the keys given out for one slot have the versions
`1, 3, 5, …` in order, until `n` reaches `2^31` and the versions wrap.
-/

namespace Rustyfill.Slotmap

open Transition

set_option autoImplicit false

variable {V : Type}

/-- How often a slot was put back on the free list before its version wraps. -/
def maxVacations : Nat := 2 ^ 31

/-- How many of the keys are of slot `i`. -/
def timesOf (i : Nat) (keys : List KeyData) : Nat := keys.countP (·.idx = i)

theorem timesOf_append (i : Nat) (keys keys' : List KeyData) :
    timesOf i (keys ++ keys') = timesOf i keys + timesOf i keys' := List.countP_append

theorem timesOf_singleton_self (key : KeyData) : timesOf key.idx [key] = 1 := by
  simp [timesOf]

theorem timesOf_singleton_ne {i : Nat} {key : KeyData} (h : key.idx ≠ i) : timesOf i [key] = 0 := by
  simp [timesOf, h]

/-- The key a rewrite gives out, and the key it makes invalid for good. -/
def Change.inserted : Change V → List KeyData
  | .insert key _ => [key]
  | _ => []

def Change.vacated : Change V → List KeyData
  | .vacate key _ => [key]
  | _ => []

def insertedKeys (cs : List (Change V)) : List KeyData := cs.flatMap Change.inserted

def vacatedKeys (cs : List (Change V)) : List KeyData := cs.flatMap Change.vacated

@[simp] theorem insertedKeys_nil : insertedKeys ([] : List (Change V)) = [] := rfl

@[simp] theorem vacatedKeys_nil : vacatedKeys ([] : List (Change V)) = [] := rfl

@[simp] theorem insertedKeys_cons (c : Change V) (cs : List (Change V)) :
    insertedKeys (c :: cs) = c.inserted ++ insertedKeys cs := rfl

@[simp] theorem vacatedKeys_cons (c : Change V) (cs : List (Change V)) :
    vacatedKeys (c :: cs) = c.vacated ++ vacatedKeys cs := rfl

@[simp] theorem insertedKeys_append (cs ds : List (Change V)) :
    insertedKeys (cs ++ ds) = insertedKeys cs ++ insertedKeys ds := List.flatMap_append

@[simp] theorem vacatedKeys_append (cs ds : List (Change V)) :
    vacatedKeys (cs ++ ds) = vacatedKeys cs ++ vacatedKeys ds := List.flatMap_append

/-- What a slot with `n` vacations behind it looks like. -/
def Slot.Counts (s : Slot V) (n : Nat) : Prop :=
  match s with
  | ⟨.value _, ver⟩ => ver = 2 * n + 1
  | ⟨.nextFree next, ver⟩ =>
    if next = danglingSentinel then ver = wrappingSucc (2 * n + 1) else ver = 2 * n

/-- The slots of the map, after a run that gave out and made invalid the listed keys. -/
structure Versions (ins vac : List KeyData) (sm : SlotMap V) : Prop where
  counts : ∀ i s, 1 ≤ i → sm.slots[i]? = some s → s.Counts (timesOf i vac)
  beyond : ∀ key ∈ ins ++ vac, key.idx < sm.slots.length
  inserted : ∀ key ∈ ins, key.version < 2 * timesOf key.idx vac + 1 ∨
    (key.version = 2 * timesOf key.idx vac + 1 ∧ ¬ FreeSlot sm.slots key.idx)
  vacated : ∀ key ∈ vac, key.version < 2 * timesOf key.idx vac + 1
  nodup : ins.Nodup

theorem timesOf_eq_zero {i : Nat} {keys : List KeyData} (h : ∀ key ∈ keys, key.idx ≠ i) :
    timesOf i keys = 0 := by
  simpa [timesOf, List.countP_eq_zero] using h

section Steps
variable {ins vac : List KeyData} {sm sm' : SlotMap V}

theorem freeSlot_set_ne {slots : List (Slot V)} {i j : Nat} {s : Slot V} (h : i ≠ j) :
    FreeSlot (slots.set i s) j ↔ FreeSlot slots j := by
  simp only [FreeSlot, List.getElem?_set_ne h]

/-- A rewrite of one slot that gives out no key and vacates none: it may only pass between
occupied and detached. -/
theorem Versions.set {key : KeyData} {t : Slot V} {capacity head n : Nat}
    (h : Versions ins vac sm) (hcount : 1 ≤ key.idx → t.Counts (timesOf key.idx vac))
    (hfree : ¬ FreeSlot (sm.slots.set key.idx t) key.idx) :
    Versions ins vac ⟨sm.slots.set key.idx t, capacity, head, n⟩ where
  counts := by
    intro i s hi hs
    by_cases hidx : key.idx = i
    · subst hidx
      obtain ⟨hlt, hs⟩ := List.getElem?_eq_some_iff.mp hs
      rw [← hs, List.getElem_set_self]
      exact hcount hi
    · rw [List.getElem?_set_ne hidx] at hs
      exact h.counts i s hi hs
  beyond := by simpa using h.beyond
  inserted := by
    intro k hk
    rcases h.inserted k hk with hlt | ⟨heq, hnot⟩
    · exact .inl hlt
    · refine .inr ⟨heq, ?_⟩
      by_cases hidx : key.idx = k.idx
      · rw [← hidx]
        exact hfree
      · rwa [freeSlot_set_ne hidx]
  vacated := h.vacated
  nodup := h.nodup

theorem Versions.insert {key : KeyData} (h : Versions ins vac sm)
    (hcounts : ∀ i s, 1 ≤ i → sm'.slots[i]? = some s → s.Counts (timesOf i vac))
    (hlen : sm.slots.length ≤ sm'.slots.length) (hkey : key.idx < sm'.slots.length)
    (hver : key.version = 2 * timesOf key.idx vac + 1)
    (hother : ∀ k ∈ ins, k.idx ≠ key.idx → FreeSlot sm'.slots k.idx → FreeSlot sm.slots k.idx)
    (hfree : key.idx < sm.slots.length → FreeSlot sm.slots key.idx)
    (hnot : ¬ FreeSlot sm'.slots key.idx) : Versions (ins ++ [key]) vac sm' := by
  have hfresh : ∀ k ∈ ins, k.idx = key.idx → k.version < 2 * timesOf key.idx vac + 1 := by
    intro k hk hidx
    rcases h.inserted k hk with hlt | ⟨_, hocc⟩
    · rwa [hidx] at hlt
    · refine absurd (hfree ?_) (hidx ▸ hocc)
      have := h.beyond k (List.mem_append_left vac hk)
      omega
  refine ⟨hcounts, ?_, ?_, h.vacated, ?_⟩
  · intro k hk
    simp only [List.mem_append, List.mem_singleton] at hk
    rcases hk with (hk | rfl) | hk
    · exact Nat.lt_of_lt_of_le (h.beyond k (List.mem_append_left vac hk)) hlen
    · exact hkey
    · exact Nat.lt_of_lt_of_le (h.beyond k (List.mem_append_right ins hk)) hlen
  · intro k hk
    rcases List.mem_append.mp hk with hk | hk
    · by_cases hidx : k.idx = key.idx
      · exact .inl (hidx ▸ hfresh k hk hidx)
      · rcases h.inserted k hk with hlt | ⟨heq, hocc⟩
        · exact .inl hlt
        · exact .inr ⟨heq, fun hf => hocc (hother k hk hidx hf)⟩
    · rw [List.mem_singleton.mp hk]
      exact .inr ⟨hver, hnot⟩
  · rw [List.nodup_append]
    refine ⟨h.nodup, List.pairwise_singleton _ key, ?_⟩
    rintro k hk _ hk' rfl
    rw [List.mem_singleton.mp hk'] at hk
    have := hfresh key hk rfl
    omega

theorem Versions.vacate {key : KeyData} {value : V} {head n : Nat} (h : Versions ins vac sm)
    (hwf : Wf sm) (hslot : sm.slots[key.idx]? = some ⟨.value value, key.version⟩)
    (hbound : timesOf key.idx (vac ++ [key]) < maxVacations) :
    Versions ins (vac ++ [key])
      { sm with
        slots := sm.slots.set key.idx ⟨.nextFree sm.freeHead, wrappingSucc key.version⟩
        freeHead := head, numElems := n } := by
  have hpos := hwf.index_pos hslot (by have := key.version_odd; intro h0; simp only at h0; omega)
  have hlt := (List.getElem?_eq_some_iff.mp hslot).1
  have hver : key.version = 2 * timesOf key.idx vac + 1 := h.counts _ _ hpos hslot
  have htimes : timesOf key.idx (vac ++ [key]) = timesOf key.idx vac + 1 := by
    rw [timesOf_append, timesOf_singleton_self]
  have hmono : ∀ i, timesOf i vac ≤ timesOf i (vac ++ [key]) := fun i => by
    rw [timesOf_append]
    omega
  have hother : ∀ i, key.idx ≠ i → timesOf i (vac ++ [key]) = timesOf i vac := fun i hi => by
    rw [timesOf_append, timesOf_singleton_ne hi]
    rfl
  have hsucc : wrappingSucc key.version = 2 * timesOf key.idx (vac ++ [key]) := by
    rw [hver]
    unfold maxVacations at hbound
    unfold wrappingSucc u32Max
    omega
  refine ⟨?_, ?_, ?_, ?_, h.nodup⟩
  · intro i s hi hs
    by_cases hidx : key.idx = i
    · subst hidx
      obtain ⟨_, hs⟩ := List.getElem?_eq_some_iff.mp hs
      rw [← hs, List.getElem_set_self]
      simp only [Slot.Counts, hwf.freeHead_ne, if_false, hsucc]
    · rw [List.getElem?_set_ne hidx] at hs
      rw [hother i hidx]
      exact h.counts i s hi hs
  · intro k hk
    rw [List.length_set]
    rw [← List.append_assoc, List.mem_append] at hk
    rcases hk with hk | hk
    · exact h.beyond k hk
    · rw [List.mem_singleton.mp hk]
      exact hlt
  · intro k hk
    by_cases hidx : key.idx = k.idx
    · left
      rcases h.inserted k hk with hlt | ⟨heq, _⟩ <;> rw [← hidx] at * <;> omega
    · rw [hother _ hidx]
      rcases h.inserted k hk with hlt | ⟨heq, hocc⟩
      · exact .inl hlt
      · exact .inr ⟨heq, by rwa [freeSlot_set_ne hidx]⟩
  · intro k hk
    rcases List.mem_append.mp hk with hk | hk
    · have h1 := h.vacated k hk
      have h2 := hmono k.idx
      omega
    · rw [List.mem_singleton.mp hk]
      omega

end Steps

/-- Each rewrite keeps the count, unless a slot is vacated once too often. -/
theorem Versions.step {ins vac : List KeyData} {sm sm' : SlotMap V} {c : Change V}
    (h : Versions ins vac sm) (hwf : Wf sm) (he : Elem sm c sm')
    (hbound : ∀ i, timesOf i (vac ++ c.vacated) < maxVacations) :
    Versions (ins ++ c.inserted) (vac ++ c.vacated) sm' := by
  cases he with
  | resize capacity =>
    simp only [Change.inserted, Change.vacated, List.append_nil]
    exact ⟨h.counts, h.beyond, h.inserted, h.vacated, h.nodup⟩
  | @fill key value next ver hidx hslot hver =>
    have hfree := hwf.free.freeSlot_head (hidx ▸ hslot)
    rw [← hidx] at hfree
    obtain ⟨hpos, next', ver', hslot', hne⟩ := id hfree
    rw [hslot] at hslot'
    simp only [Option.some.injEq, Slot.mk.injEq, SlotUnion.nextFree.injEq] at hslot'
    have hcount := h.counts _ _ hpos hslot
    simp only [Slot.Counts, hslot'.1, hne, if_false] at hcount
    have hlt := (List.getElem?_eq_some_iff.mp hslot).1
    simp only [Change.inserted, Change.vacated, List.append_nil]
    refine h.insert ?_ (by simp) (by simpa using hlt) (by rw [hver, hcount]) ?_ (fun _ => hfree) ?_
    · intro i s hi hs
      by_cases hki : key.idx = i
      · subst hki
        obtain ⟨_, hs⟩ := List.getElem?_eq_some_iff.mp hs
        rw [← hs, List.getElem_set_self]
        simp only [Slot.Counts, hver, hcount]
      · rw [List.getElem?_set_ne hki] at hs
        exact h.counts i s hi hs
    · intro k _ hki hf
      rwa [freeSlot_set_ne (Ne.symm hki)] at hf
    · exact not_freeSlot_value (by rw [List.getElem?_set_self hlt])
  | @push key value capacity hhead hidx hver hlt =>
    have hzero : timesOf key.idx vac = 0 := timesOf_eq_zero fun k hk => by
      have := h.beyond k (List.mem_append_right ins hk)
      omega
    have hself : (sm.slots ++ [(⟨.value value, 1⟩ : Slot V)])[key.idx]? =
      some ⟨.value value, 1⟩ := by
      rw [hidx, List.getElem?_append_right (Nat.le_refl _), Nat.sub_self]
      rfl
    simp only [Change.inserted, Change.vacated, List.append_nil]
    refine h.insert ?_ (by simp) (by simp [hidx]) (by rw [hver, hzero]) ?_ (fun h => by omega)
      (not_freeSlot_value hself)
    · intro i s hi hs
      by_cases hil : i < sm.slots.length
      · rw [List.getElem?_append_left hil] at hs
        exact h.counts i s hi hs
      · obtain ⟨hi', _⟩ := List.getElem?_eq_some_iff.mp hs
        have hik : i = key.idx := by
          rw [List.length_append, List.length_singleton] at hi'
          omega
        rw [hik, hself, Option.some.injEq] at hs
        rw [hik, ← hs, hzero]
        rfl
    · rintro k hk _ ⟨hpos, next, ver, hs, hne⟩
      rw [List.getElem?_append_left (h.beyond k (List.mem_append_left vac hk))] at hs
      exact ⟨hpos, next, ver, hs, hne⟩
  | @vacate key value hslot =>
    simp only [Change.inserted, Change.vacated, List.append_nil]
    exact h.vacate hwf hslot (hbound key.idx)
  | @detach key value hslot =>
    simp only [Change.inserted, Change.vacated, List.append_nil]
    refine h.set (fun hpos => ?_) ?_
    · have hver : key.version = 2 * timesOf key.idx vac + 1 := h.counts _ _ hpos hslot
      simp only [Slot.Counts, if_true, hver]
    · exact not_freeSlot_detached
        (by rw [List.getElem?_set_self (List.getElem?_eq_some_iff.mp hslot).1])
  | @reattach key value hslot =>
    simp only [Change.inserted, Change.vacated, List.append_nil] at hbound ⊢
    refine h.set (fun hpos => ?_) ?_
    · have hver := h.counts _ _ hpos hslot
      simp only [Slot.Counts, if_true] at hver
      have hkey := hbound key.idx
      unfold maxVacations at hkey
      exact wrappingSucc_injective key.version_le (by unfold u32Max; omega) hver
    · exact not_freeSlot_value
        (by rw [List.getElem?_set_self (List.getElem?_eq_some_iff.mp hslot).1])
  | @write key old value hslot =>
    simp only [Change.inserted, Change.vacated, List.append_nil]
    refine h.set (fun hpos => ?_) ?_
    · have hver : key.version = 2 * timesOf key.idx vac + 1 := h.counts _ _ hpos hslot
      exact hver
    · exact not_freeSlot_value
        (by rw [List.getElem?_set_self (List.getElem?_eq_some_iff.mp hslot).1])

/-- A run of rewrites that vacates no slot once too often keeps the count. -/
theorem Versions.run {ins vac : List KeyData} {sm sm' : SlotMap V} {cs : List (Change V)}
    (h : Versions ins vac sm) (hwf : Wf sm) (hr : Run Elem sm cs sm')
    (hbound : ∀ i, timesOf i (vac ++ vacatedKeys cs) < maxVacations) :
    Versions (ins ++ insertedKeys cs) (vac ++ vacatedKeys cs) sm' := by
  induction hr generalizing ins vac with
  | nil => simpa using h
  | @cons s t u c cs he _ ih =>
    simp only [insertedKeys_cons, vacatedKeys_cons, ← List.append_assoc] at hbound ⊢
    refine ih (h.step hwf he fun i => ?_) (he.wf hwf) hbound
    have := hbound i
    rw [timesOf_append] at this
    omega

theorem Versions.invalid {ins vac : List KeyData} {sm : SlotMap V} (h : Versions ins vac sm)
    (hwf : Wf sm) (hbound : ∀ i, timesOf i vac < maxVacations) {key : KeyData} (hkey : key ∈ vac) :
    sm.lookup key = none ∧ ¬ sm.IsDetached key := by
  have hlt := h.vacated key hkey
  constructor
  · rcases hl : sm.lookup key with _ | v
    · rfl
    · have hs := SlotMap.lookup_eq_some.mp hl
      have hpos := hwf.index_pos hs (by have := key.version_odd; intro h0; simp only at h0; omega)
      have hver : key.version = 2 * timesOf key.idx vac + 1 := h.counts _ _ hpos hs
      omega
  · intro hs
    have hver := h.counts _ _ (hwf.index_pos_sentinel hs) hs
    simp only [Slot.Counts, if_true] at hver
    have hb := hbound key.idx
    unfold maxVacations at hb
    have := wrappingSucc_injective key.version_le (by unfold u32Max; omega) hver
    omega

end Rustyfill.Slotmap
