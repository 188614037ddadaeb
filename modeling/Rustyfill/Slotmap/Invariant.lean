import Rustyfill.Lib.Lists
import Rustyfill.Lib.Run
import Rustyfill.Slotmap.Basic

/-!
# The representation invariant of the slot map

`Elem` lists the rewrites of the slots that any operation is made of, with their guards;
`Wf` is the invariant, and it is preserved rewrite by rewrite. The free list is a chain
through the slots, so each case says what the rewrite does to that chain.
-/

namespace Rustyfill.Slotmap

set_option autoImplicit false

open ListUpdate

variable {V E : Type}

/-- What an elementary rewrite means to a caller. -/
inductive Change (V : Type) where
  | resize
  | insert (key : KeyData) (value : V)
  | vacate (key : KeyData) (value : V)
  | detach (key : KeyData) (value : V)
  | reattach (key : KeyData) (value : V)
  | write (key : KeyData) (value : V)

inductive Elem : SlotMap V → Change V → SlotMap V → Prop where
  | resize (sm : SlotMap V) (capacity : Nat) : Elem sm .resize { sm with capacity }
  | fill {sm : SlotMap V} {key : KeyData} {value : V} {next ver : Nat} :
      key.idx = sm.freeHead → sm.slots[key.idx]? = some ⟨.nextFree next, ver⟩ →
      key.version = ver + 1 →
      Elem sm (.insert key value) { sm with
        slots := sm.slots.set key.idx ⟨.value value, key.version⟩,
        freeHead := next, numElems := sm.numElems + 1 }
  | push {sm : SlotMap V} {key : KeyData} {value : V} (capacity : Nat) :
      sm.freeHead = sm.slots.length → key.idx = sm.slots.length → key.version = 1 →
      sm.slots.length < maxSlotsLen →
      Elem sm (.insert key value)
        ⟨sm.slots ++ [⟨.value value, 1⟩], capacity, sm.slots.length + 1, sm.numElems + 1⟩
  | vacate {sm : SlotMap V} {key : KeyData} {value : V} :
      sm.slots[key.idx]? = some ⟨.value value, key.version⟩ →
      Elem sm (.vacate key value) { sm with
        slots := sm.slots.set key.idx ⟨.nextFree sm.freeHead, wrappingSucc key.version⟩,
        freeHead := key.idx, numElems := sm.numElems - 1 }
  | detach {sm : SlotMap V} {key : KeyData} {value : V} :
      sm.slots[key.idx]? = some ⟨.value value, key.version⟩ →
      Elem sm (.detach key value) { sm with
        slots := sm.slots.set key.idx ⟨.nextFree danglingSentinel, wrappingSucc key.version⟩,
        numElems := sm.numElems - 1 }
  | reattach {sm : SlotMap V} {key : KeyData} {value : V} :
      sm.slots[key.idx]? = some ⟨.nextFree danglingSentinel, wrappingSucc key.version⟩ →
      Elem sm (.reattach key value) { sm with
        slots := sm.slots.set key.idx ⟨.value value, key.version⟩,
        numElems := sm.numElems + 1 }
  | write {sm : SlotMap V} {key : KeyData} {old value : V} :
      sm.slots[key.idx]? = some ⟨.value old, key.version⟩ →
      Elem sm (.write key value) { sm with
        slots := sm.slots.set key.idx ⟨.value value, key.version⟩ }

/-- The chain of `next_free` links from an index, ending one past the last slot. -/
inductive FreeChain (slots : List (Slot V)) : Nat → List Nat → Prop where
  | nil : FreeChain slots slots.length []
  | cons {i next ver : Nat} {l : List Nat} : slots[i]? = some ⟨.nextFree next, ver⟩ →
      FreeChain slots next l → FreeChain slots i (i :: l)

/-- A vacant slot that is neither the sentinel slot nor detached. -/
def FreeSlot (slots : List (Slot V)) (i : Nat) : Prop :=
  1 ≤ i ∧ ∃ next ver, slots[i]? = some ⟨.nextFree next, ver⟩ ∧ next ≠ danglingSentinel

def FreeList (slots : List (Slot V)) (head : Nat) : Prop :=
  ∃ l, FreeChain slots head l ∧ l.Nodup ∧ ∀ i, i ∈ l ↔ FreeSlot slots i

/-- The parity of the version names the union member that is there. -/
def Slot.Tagged (s : Slot V) : Prop :=
  s.version ≤ u32Max ∧ match s.u with
    | .value _ => s.version % 2 = 1
    | .nextFree _ => s.version % 2 = 0

structure Wf (sm : SlotMap V) : Prop where
  sentinel : sm.slots[0]? = some ⟨.nextFree 0, 0⟩
  length_le : sm.slots.length ≤ maxSlotsLen
  tagged : ∀ s ∈ sm.slots, s.Tagged
  count : sm.numElems = sm.slots.countP Slot.occupied
  free : FreeList sm.slots sm.freeHead

theorem wrappingSucc_even {n : Nat} (hodd : n % 2 = 1) : wrappingSucc n % 2 = 0 := by
  unfold wrappingSucc u32Max
  omega

theorem wrappingSucc_le (n : Nat) : wrappingSucc n ≤ u32Max := by
  unfold wrappingSucc u32Max
  omega

theorem wrappingPred_wrappingSucc {n : Nat} (h : n ≤ u32Max) :
    wrappingPred (wrappingSucc n) = n := by
  unfold wrappingPred wrappingSucc u32Max at *
  omega

namespace Slot

theorem occupied_value {v : V} {ver : Nat} (h : ver % 2 = 1) :
    (⟨.value v, ver⟩ : Slot V).occupied = true := by simp [occupied, h]

theorem occupied_nextFree {n ver : Nat} (h : ver % 2 = 0) :
    (⟨.nextFree n, ver⟩ : Slot V).occupied = false := by simp [occupied, h]

theorem Tagged.value {v : V} {k : KeyData} : (⟨.value v, k.version⟩ : Slot V).Tagged :=
  ⟨k.version_le, k.version_odd⟩

theorem Tagged.nextFree {n : Nat} {k : KeyData} :
    (⟨.nextFree n, wrappingSucc k.version⟩ : Slot V).Tagged :=
  ⟨wrappingSucc_le _, wrappingSucc_even k.version_odd⟩

end Slot

section Chain
variable {slots : List (Slot V)} {head : Nat} {l : List Nat}

theorem FreeChain.mem {i : Nat} (h : FreeChain slots head l) (hi : i ∈ l) :
    ∃ next ver, slots[i]? = some ⟨.nextFree next, ver⟩ := by
  induction h with
  | nil => simp at hi
  | cons hslot _ ih =>
    rcases List.mem_cons.mp hi with rfl | hi
    · exact ⟨_, _, hslot⟩
    · exact ih hi

theorem FreeChain.set {i : Nat} {s : Slot V} (h : FreeChain slots head l) (hi : i ∉ l) :
    FreeChain (slots.set i s) head l := by
  induction h with
  | nil => simpa using (FreeChain.nil : FreeChain (slots.set i s) _ [])
  | cons hslot _ ih =>
    simp only [List.mem_cons, not_or] at hi
    exact .cons (by rw [List.getElem?_set_ne hi.1]; exact hslot) (ih hi.2)

theorem FreeChain.head_le (h : FreeChain slots head l) : head ≤ slots.length := by
  cases h with
  | nil => exact Nat.le_refl _
  | cons hslot _ => exact Nat.le_of_lt (List.getElem?_eq_some_iff.mp hslot).1

theorem FreeChain.head_mem {s : Slot V} (h : FreeChain slots head l)
    (hs : slots[head]? = some s) : head ∈ l := by
  cases h with
  | nil => simp at hs
  | cons _ _ => exact List.mem_cons_self

theorem FreeList.freeSlot_head {s : Slot V} (h : FreeList slots head)
    (hs : slots[head]? = some s) : FreeSlot slots head := by
  obtain ⟨l, hchain, _, hmem⟩ := h
  exact (hmem head).mp (hchain.head_mem hs)

theorem FreeChain.eq_nil (h : FreeChain slots slots.length l) : l = [] := by
  generalize hn : slots.length = n at h
  cases h with
  | nil => rfl
  | cons hslot _ =>
    have := (List.getElem?_eq_some_iff.mp hslot).1
    omega

theorem FreeList.set {i : Nat} {s : Slot V} (h : FreeList slots head)
    (hold : ¬ FreeSlot slots i)
    (hnew : ∀ next ver, s = ⟨.nextFree next, ver⟩ → next = danglingSentinel) :
    FreeList (slots.set i s) head := by
  obtain ⟨l, hchain, hnodup, hmem⟩ := h
  have hi : i ∉ l := fun hi => hold ((hmem i).mp hi)
  refine ⟨l, hchain.set hi, hnodup, fun j => ?_⟩
  rw [hmem j]
  by_cases hij : i = j
  · subst hij
    refine ⟨fun hj => absurd hj hold, fun ⟨_, next, ver, hs, hne⟩ => ?_⟩
    obtain ⟨hlt, hs⟩ := List.getElem?_eq_some_iff.mp hs
    rw [List.getElem_set_self] at hs
    exact absurd (hnew next ver hs) hne
  · simp only [FreeSlot, List.getElem?_set_ne hij]

theorem FreeList.pop {next ver : Nat} {s : Slot V} (h : FreeList slots head)
    (hhead : slots[head]? = some ⟨.nextFree next, ver⟩)
    (hnew : ∀ next ver, s ≠ ⟨.nextFree next, ver⟩) : FreeList (slots.set head s) next := by
  obtain ⟨l, hchain, hnodup, hmem⟩ := h
  cases hchain with
  | nil => simp at hhead
  | @cons _ next' ver' l hslot htail =>
    rw [hhead] at hslot
    obtain ⟨rfl, rfl⟩ : next = next' ∧ ver = ver' := by simpa using hslot
    have hout := (List.nodup_cons.mp hnodup).1
    refine ⟨l, htail.set hout, (List.nodup_cons.mp hnodup).2, fun j => ?_⟩
    by_cases hj : head = j
    · subst hj
      refine ⟨fun hj => absurd hj hout, fun ⟨_, n, v, hs, _⟩ => ?_⟩
      obtain ⟨hlt, hs⟩ := List.getElem?_eq_some_iff.mp hs
      rw [List.getElem_set_self] at hs
      exact absurd hs (hnew n v)
    · have hj' := hmem j
      simp only [List.mem_cons, Ne.symm hj, false_or] at hj'
      simpa only [FreeSlot, List.getElem?_set_ne hj] using hj'

theorem FreeList.link {i ver : Nat} (h : FreeList slots head) (hi : 1 ≤ i) (hlt : i < slots.length)
    (hold : ¬ FreeSlot slots i) (hhead : head ≠ danglingSentinel) :
    FreeList (slots.set i ⟨.nextFree head, ver⟩) i := by
  obtain ⟨l, hchain, hnodup, hmem⟩ := h
  have hout : i ∉ l := fun h => hold ((hmem i).mp h)
  have hself : (slots.set i (⟨.nextFree head, ver⟩ : Slot V))[i]? = some ⟨.nextFree head, ver⟩ := by
    rw [List.getElem?_set_self hlt]
  refine ⟨i :: l, .cons hself (hchain.set hout), List.nodup_cons.mpr ⟨hout, hnodup⟩, fun j => ?_⟩
  by_cases hij : i = j
  · subst hij
    exact ⟨fun _ => ⟨hi, head, ver, hself, hhead⟩, fun _ => List.mem_cons_self⟩
  · simp only [List.mem_cons, Ne.symm hij, false_or, hmem j, FreeSlot, List.getElem?_set_ne hij]

/-- Growing the vector by an occupied slot, when no slot is free. -/
theorem FreeList.push {v : V} {ver : Nat} (h : FreeList slots slots.length) :
    FreeList (slots ++ [⟨.value v, ver⟩]) (slots.length + 1) := by
  obtain ⟨l, hchain, hnodup, hmem⟩ := h
  obtain rfl := hchain.eq_nil
  refine ⟨[], ?_, List.nodup_nil, fun j => ?_⟩
  · simpa using (FreeChain.nil : FreeChain (slots ++ [(⟨.value v, ver⟩ : Slot V)]) _ [])
  · have hj := hmem j
    simp only [List.not_mem_nil, false_iff] at hj ⊢
    rintro ⟨hpos, next, ver', hs, hne⟩
    rw [List.getElem?_append] at hs
    split at hs
    · exact hj ⟨hpos, next, ver', hs, hne⟩
    · rw [List.getElem?_singleton] at hs
      split at hs <;> simp at hs

end Chain

section WfLemmas
variable {sm : SlotMap V} {i : Nat} {s : Slot V}

theorem not_freeSlot_value {slots : List (Slot V)} {v : V} {ver : Nat}
    (h : slots[i]? = some ⟨.value v, ver⟩) : ¬ FreeSlot slots i := by
  rintro ⟨_, next, ver', hs, _⟩
  simp [h] at hs

theorem not_freeSlot_detached {slots : List (Slot V)} {ver : Nat}
    (h : slots[i]? = some ⟨.nextFree danglingSentinel, ver⟩) : ¬ FreeSlot slots i := by
  rintro ⟨_, next, ver', hs, hne⟩
  simp only [h, Option.some.injEq, Slot.mk.injEq, SlotUnion.nextFree.injEq] at hs
  exact hne hs.1.symm

theorem Wf.slot_tagged (h : Wf sm) (hs : sm.slots[i]? = some s) : s.Tagged :=
  h.tagged s (List.mem_of_getElem? hs)

theorem Wf.index_pos (h : Wf sm) (hs : sm.slots[i]? = some s) (hver : s.version ≠ 0) : 1 ≤ i := by
  rcases Nat.eq_zero_or_pos i with rfl | hi
  · rw [h.sentinel, Option.some.injEq] at hs
    exact absurd (hs ▸ rfl) hver
  · exact hi

theorem Wf.index_pos_sentinel (h : Wf sm) {ver : Nat}
    (hs : sm.slots[i]? = some ⟨.nextFree danglingSentinel, ver⟩) : 1 ≤ i := by
  rcases Nat.eq_zero_or_pos i with rfl | hi
  · rw [h.sentinel] at hs
    simp [danglingSentinel, u32Max] at hs
  · exact hi

theorem Wf.length_pos (h : Wf sm) : 0 < sm.slots.length :=
  (List.getElem?_eq_some_iff.mp h.sentinel).1

theorem Wf.freeHead_le (h : Wf sm) : sm.freeHead ≤ sm.slots.length := by
  obtain ⟨l, hchain, _⟩ := h.free
  exact hchain.head_le

theorem Wf.freeHead_ne (h : Wf sm) : sm.freeHead ≠ danglingSentinel := by
  have h1 := h.freeHead_le
  have h2 := h.length_le
  unfold maxSlotsLen danglingSentinel u32Max at *
  omega

theorem Wf.numElems_pos (h : Wf sm) {v : V} {ver : Nat}
    (hs : sm.slots[i]? = some ⟨.value v, ver⟩) : 1 ≤ sm.numElems := by
  rw [h.count]
  exact List.countP_pos_iff.mpr
    ⟨_, List.mem_of_getElem? hs, Slot.occupied_value (h.slot_tagged hs).2⟩

/-- The sentinel slot is never counted, so there is always room for one more element. -/
theorem Wf.numElems_lt (h : Wf sm) : sm.numElems < sm.slots.length := by
  rw [h.count]
  refine Nat.lt_of_le_of_ne List.countP_le_length fun heq => ?_
  have hall := List.countP_eq_length.mp heq _ (List.mem_of_getElem? h.sentinel)
  simp [Slot.occupied] at hall

/-- The slots of a rewrite at a slot that is not the sentinel one. -/
theorem Wf.set {t : Slot V} {head n : Nat} (h : Wf sm) (hi : 1 ≤ i) (ht : t.Tagged)
    (hcount : n = (sm.slots.set i t).countP Slot.occupied)
    (hfree : FreeList (sm.slots.set i t) head) :
    Wf { sm with slots := sm.slots.set i t, freeHead := head, numElems := n } where
  sentinel := by rw [List.getElem?_set_ne (by omega)]; exact h.sentinel
  length_le := by rw [List.length_set]; exact h.length_le
  tagged := forall_mem_set h.tagged ht
  count := hcount
  free := hfree

end WfLemmas

theorem Elem.wf {sm sm' : SlotMap V} {c : Change V} (h : Wf sm) (he : Elem sm c sm') : Wf sm' := by
  cases he with
  | resize capacity => exact ⟨h.sentinel, h.length_le, h.tagged, h.count, h.free⟩
  | @fill key value next ver hidx hslot hver =>
    rw [hidx] at hslot
    have hold := h.slot_tagged hslot
    have hpos := (h.free.freeSlot_head hslot).1
    have hfree := h.free.pop (s := ⟨.value value, key.version⟩) hslot (by simp)
    have hcount := countP_set_getElem? Slot.occupied (⟨.value value, key.version⟩ : Slot V) hslot
    rw [Slot.occupied_value key.version_odd, Slot.occupied_nextFree hold.2] at hcount
    rw [hidx]
    exact h.set hpos .value (by simpa [h.count] using hcount.symm) hfree
  | @push key value capacity hhead hidx hver hlt =>
    refine ⟨?_, ?_, ?_, ?_, ?_⟩
    · rw [List.getElem?_append_left h.length_pos]
      exact h.sentinel
    · simpa [Nat.succ_le_iff] using hlt
    · intro s hs
      rcases List.mem_append.mp hs with hs | hs
      · exact h.tagged s hs
      · rw [List.mem_singleton.mp hs]
        exact ⟨by simp [u32Max], rfl⟩
    · simp [h.count, List.countP_append, Slot.occupied]
    · exact (hhead ▸ h.free).push
  | @vacate key value hslot =>
    have hcount := countP_set_getElem? Slot.occupied
      (⟨.nextFree sm.freeHead, wrappingSucc key.version⟩ : Slot V) hslot
    rw [Slot.occupied_value key.version_odd,
      Slot.occupied_nextFree (wrappingSucc_even key.version_odd)] at hcount
    have hpos := h.index_pos hslot (by have := key.version_odd; intro h0; simp only at h0; omega)
    have hlt := (List.getElem?_eq_some_iff.mp hslot).1
    refine h.set hpos .nextFree ?_
      (h.free.link hpos hlt (not_freeSlot_value hslot) h.freeHead_ne)
    rw [h.count]
    simp only [if_true, Bool.false_eq_true, if_false] at hcount
    omega
  | @detach key value hslot =>
    have hcount := countP_set_getElem? Slot.occupied
      (⟨.nextFree danglingSentinel, wrappingSucc key.version⟩ : Slot V) hslot
    rw [Slot.occupied_value key.version_odd,
      Slot.occupied_nextFree (wrappingSucc_even key.version_odd)] at hcount
    have hpos := h.index_pos hslot (by have := key.version_odd; intro h0; simp only at h0; omega)
    refine h.set hpos .nextFree ?_ (h.free.set (not_freeSlot_value hslot) (by simp_all))
    rw [h.count]
    simp only [if_true, Bool.false_eq_true, if_false] at hcount
    omega
  | @reattach key value hslot =>
    have hcount := countP_set_getElem? Slot.occupied (⟨.value value, key.version⟩ : Slot V) hslot
    rw [Slot.occupied_value key.version_odd,
      Slot.occupied_nextFree (wrappingSucc_even key.version_odd)] at hcount
    refine h.set (h.index_pos_sentinel hslot) .value ?_
      (h.free.set (not_freeSlot_detached hslot) (by simp))
    simpa [h.count] using hcount.symm
  | @write key old value hslot =>
    have hcount := countP_set_getElem? Slot.occupied (⟨.value value, key.version⟩ : Slot V) hslot
    rw [Slot.occupied_value key.version_odd, Slot.occupied_value key.version_odd] at hcount
    have hpos := h.index_pos hslot (by have := key.version_odd; intro h0; simp only at h0; omega)
    refine h.set hpos .value ?_ (h.free.set (not_freeSlot_value hslot) (by simp))
    rw [h.count]
    omega

theorem wf_of_run {sm sm' : SlotMap V} {cs : List (Change V)} (hr : Transition.Run Elem sm cs sm')
    (h : Wf sm) : Wf sm' :=
  hr.invariant (fun _ _ _ h he => he.wf h) h

end Rustyfill.Slotmap
