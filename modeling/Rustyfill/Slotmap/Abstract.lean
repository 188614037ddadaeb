import Mathlib.Data.Set.Insert
import Mathlib.Logic.Function.Basic
import Rustyfill.Slotmap.Invariant
import Rustyfill.Slotmap.Ops

/-!
# The partial map a slot map stands for

The abstraction reads a key as bound, detached or neither. Each elementary rewrite acts on
it as its name says, and, as long as no slot has been vacated often enough for its version
to wrap, the version of a slot counts how often it was vacated: no key is given out twice,
and no key comes back once it was vacated.
-/

namespace Rustyfill.Slotmap

open Transition

set_option autoImplicit false

variable {V : Type}

/-- The bindings, and the keys whose value is checked out. -/
@[ext] structure AbsMap (V : Type) where
  live : KeyData → Option V
  detached : Set KeyData

namespace AbsMap

def empty : AbsMap V := ⟨fun _ => none, ∅⟩

def assign (m : AbsMap V) (key : KeyData) (o : Option V) : AbsMap V :=
  { m with live := Function.update m.live key o }

end AbsMap

/-- A rewrite, on bindings. -/
def Change.apply (m : AbsMap V) : Change V → AbsMap V
  | .resize => m
  | .insert key value => m.assign key (some value)
  | .vacate key _ => m.assign key none
  | .detach key _ => { m.assign key none with detached := m.detached ∪ {key} }
  | .reattach key value => { m.assign key (some value) with detached := m.detached \ {key} }
  | .write key value => m.assign key (some value)

/-- When a rewrite can happen. -/
def Change.Enabled (m : AbsMap V) : Change V → Prop
  | .resize => True
  | .insert key _ => m.live key = none ∧ key ∉ m.detached
  | .vacate key value => m.live key = some value
  | .detach key value => m.live key = some value
  | .reattach key _ => key ∈ m.detached
  | .write key _ => (m.live key).isSome

/-- The key whose binding a rewrite may change. -/
def Change.key : Change V → Option KeyData
  | .resize => none
  | .insert key _ => some key
  | .vacate key _ => some key
  | .detach key _ => some key
  | .reattach key _ => some key
  | .write key _ => some key

def SlotMap.abs (sm : SlotMap V) : AbsMap V := ⟨sm.lookup, {key | sm.IsDetached key}⟩

@[simp] theorem SlotMap.abs_live (sm : SlotMap V) : sm.abs.live = sm.lookup := rfl

@[simp] theorem SlotMap.mem_detached (sm : SlotMap V) (key : KeyData) :
    key ∈ sm.abs.detached ↔ sm.IsDetached key := Iff.rfl

def Slot.bound (s : Slot V) (version : Nat) : Option V :=
  match s with
  | ⟨.value v, ver⟩ => if ver = version then some v else none
  | ⟨.nextFree _, _⟩ => none

theorem lookup_of_slot {sm : SlotMap V} {key : KeyData} {s : Slot V}
    (hs : sm.slots[key.idx]? = some s) : sm.lookup key = s.bound key.version := by
  obtain ⟨v | n, ver⟩ := s <;> simp [SlotMap.lookup, hs, Slot.bound]

theorem wrappingSucc_injective {m n : Nat} (hm : m ≤ u32Max) (hn : n ≤ u32Max)
    (h : wrappingSucc m = wrappingSucc n) : m = n := by
  rw [← wrappingPred_wrappingSucc hm, h, wrappingPred_wrappingSucc hn]

section Rewrites
variable {sm sm' : SlotMap V} {i : Nat} {s t : Slot V}

theorem lookup_congr {key : KeyData} (h : sm'.slots[key.idx]? = sm.slots[key.idx]?) :
    sm'.lookup key = sm.lookup key := by
  simp only [SlotMap.lookup, h]

/-- A rewrite of one slot that keeps every binding but the one of `key`. -/
theorem abs_live_of_set {key : KeyData} {o : Option V} (hold : sm.slots[key.idx]? = some s)
    (hnew : sm'.slots = sm.slots.set key.idx t)
    (hkeep : ∀ ver, ver ≠ key.version → t.bound ver = s.bound ver) (ho : t.bound key.version = o) :
    sm'.lookup = Function.update sm.lookup key o := by
  have hlt := (List.getElem?_eq_some_iff.mp hold).1
  funext k
  by_cases hk : k = key
  · subst hk
    rw [Function.update_self, lookup_of_slot (s := t) (by rw [hnew, List.getElem?_set_self hlt]),
      ho]
  · rw [Function.update_of_ne hk]
    by_cases hidx : k.idx = key.idx
    · have hver : k.version ≠ key.version := fun hver => hk (KeyData.ext hidx hver)
      rw [lookup_of_slot (s := t) (by rw [hnew, hidx, List.getElem?_set_self hlt]),
        lookup_of_slot (s := s) (by rw [hidx, hold]), hkeep _ hver]
    · exact lookup_congr (by rw [hnew, List.getElem?_set_ne (Ne.symm hidx)])

theorem isDetached_of_set {key : KeyData} (hold : sm.slots[key.idx]? = some s)
    (hnew : sm'.slots = sm.slots.set key.idx t) (k : KeyData) :
    sm'.IsDetached k ↔
      if k.idx = key.idx then t = ⟨.nextFree danglingSentinel, wrappingSucc k.version⟩
      else sm.IsDetached k := by
  have hlt := (List.getElem?_eq_some_iff.mp hold).1
  unfold SlotMap.IsDetached
  split
  · rename_i hidx
    rw [hnew, hidx, List.getElem?_set_self hlt, Option.some.injEq]
  · rename_i hidx
    rw [hnew, List.getElem?_set_ne (Ne.symm hidx)]

theorem detached_eq_of_set {key : KeyData} (hold : sm.slots[key.idx]? = some s)
    (hnew : sm'.slots = sm.slots.set key.idx t)
    (hs : ∀ ver, s ≠ ⟨.nextFree danglingSentinel, ver⟩)
    (ht : ∀ ver, t ≠ ⟨.nextFree danglingSentinel, ver⟩) :
    sm'.abs.detached = sm.abs.detached := by
  ext k
  rw [SlotMap.mem_detached, SlotMap.mem_detached, isDetached_of_set hold hnew k]
  split
  · rename_i hidx
    refine iff_of_false (ht _) fun hk => ?_
    rw [SlotMap.IsDetached, hidx, hold, Option.some.injEq] at hk
    exact hs _ hk
  · rfl

end Rewrites

/-- Each elementary rewrite acts on the bindings as its name says. -/
theorem Elem.abs_eq {sm sm' : SlotMap V} {c : Change V} (h : Wf sm) (he : Elem sm c sm') :
    sm'.abs = c.apply sm.abs := by
  cases he with
  | resize capacity => rfl
  | @fill key value next ver hidx hslot hver =>
    have hfree := h.free.freeSlot_head (hidx ▸ hslot)
    obtain ⟨_, next', ver', hslot', hne⟩ := hfree
    rw [← hidx, hslot] at hslot'
    simp only [Option.some.injEq, Slot.mk.injEq, SlotUnion.nextFree.injEq] at hslot'
    refine AbsMap.ext (abs_live_of_set hslot rfl ?_ ?_) (detached_eq_of_set hslot rfl ?_ ?_)
    · intro ver hne
      simp [Slot.bound, Ne.symm hne]
    · simp [Slot.bound]
    · rintro ver heq
      simp only [Slot.mk.injEq, SlotUnion.nextFree.injEq] at heq
      exact hne (hslot'.1 ▸ heq.1)
    · simp
  | @push key value capacity hhead hidx hver hlt =>
    have hnone : ∀ k : KeyData, k.idx = sm.slots.length → sm.slots[k.idx]? = none := by
      intro k hk
      exact List.getElem?_eq_none_iff.mpr (by omega)
    have hother : ∀ k : KeyData, k.idx ≠ sm.slots.length →
        (sm.slots ++ [(⟨.value value, 1⟩ : Slot V)])[k.idx]? = sm.slots[k.idx]? := by
      intro k hk
      by_cases hlt : k.idx < sm.slots.length
      · rw [List.getElem?_append_left hlt]
      · rw [List.getElem?_eq_none_iff.mpr
            (by rw [List.length_append, List.length_singleton]; omega),
          List.getElem?_eq_none_iff.mpr (by omega)]
    have hself : ∀ k : KeyData, k.idx = sm.slots.length →
        (sm.slots ++ [(⟨.value value, 1⟩ : Slot V)])[k.idx]? = some ⟨.value value, 1⟩ := by
      intro k hk
      rw [hk, List.getElem?_append_right (Nat.le_refl _), Nat.sub_self]
      rfl
    refine AbsMap.ext ?_ ?_
    · funext k
      change _ = Function.update sm.lookup key (some value) k
      by_cases hk : k = key
      · subst hk
        rw [Function.update_self]
        exact (lookup_of_slot (hself k hidx)).trans (by simp [Slot.bound, hver])
      · rw [Function.update_of_ne hk]
        by_cases hki : k.idx = sm.slots.length
        · have hne : k.version ≠ 1 := fun h1 =>
            hk (KeyData.ext (hki.trans hidx.symm) (h1.trans hver.symm))
          refine (lookup_of_slot (hself k hki)).trans ?_
          simp [Slot.bound, SlotMap.lookup, hnone k hki, Ne.symm hne]
        · exact lookup_congr (hother k hki)
    · ext k
      change SlotMap.IsDetached _ k ↔ SlotMap.IsDetached _ k
      unfold SlotMap.IsDetached
      by_cases hki : k.idx = sm.slots.length
      · simp [hself k hki, hnone k hki]
      · rw [hother k hki]
  | @vacate key value hslot =>
    refine AbsMap.ext (abs_live_of_set hslot rfl ?_ rfl) (detached_eq_of_set hslot rfl (by simp) ?_)
    · intro ver hne
      simp [Slot.bound, Ne.symm hne]
    · intro ver heq
      simp only [Slot.mk.injEq, SlotUnion.nextFree.injEq] at heq
      exact h.freeHead_ne heq.1
  | @detach key value hslot =>
    refine AbsMap.ext (abs_live_of_set hslot rfl ?_ rfl) ?_
    · intro ver hne
      simp [Slot.bound, Ne.symm hne]
    · ext k
      rw [SlotMap.mem_detached, isDetached_of_set hslot rfl k]
      change _ ↔ sm.IsDetached k ∨ k = key
      by_cases hidx : k.idx = key.idx
      · have hnot : ¬ sm.IsDetached k := by simp [SlotMap.IsDetached, hidx, hslot]
        rw [if_pos hidx]
        simp only [Slot.mk.injEq, true_and, hnot, false_or]
        constructor
        · intro hver
          exact KeyData.ext hidx (wrappingSucc_injective key.version_le k.version_le hver).symm
        · rintro rfl
          rfl
      · have hne : k ≠ key := fun heq => hidx (by rw [heq])
        simp [hidx, hne]
  | @reattach key value hslot =>
    refine AbsMap.ext (abs_live_of_set hslot rfl ?_ ?_) ?_
    · intro ver hne
      simp [Slot.bound, Ne.symm hne]
    · simp [Slot.bound]
    · ext k
      rw [SlotMap.mem_detached, isDetached_of_set hslot rfl k]
      change _ ↔ sm.IsDetached k ∧ k ∉ ({key} : Set KeyData)
      by_cases hidx : k.idx = key.idx
      · simp only [hidx, if_true, Slot.mk.injEq, reduceCtorEq, false_and, Set.mem_singleton_iff,
          SlotMap.IsDetached, hslot, Option.some.injEq, true_and, false_iff, not_and, not_not]
        intro hver
        exact KeyData.ext hidx (wrappingSucc_injective key.version_le k.version_le hver).symm
      · have hne : k ≠ key := fun heq => hidx (by rw [heq])
        simp [hidx, hne]
  | @write key old value hslot =>
    refine AbsMap.ext (abs_live_of_set hslot rfl ?_ ?_)
      (detached_eq_of_set hslot rfl (by simp) (by simp))
    · intro ver hne
      simp [Slot.bound, Ne.symm hne]
    · simp [Slot.bound]

theorem Elem.enabled {sm sm' : SlotMap V} {c : Change V} (h : Wf sm) (he : Elem sm c sm') :
    c.Enabled sm.abs := by
  cases he with
  | resize capacity => trivial
  | @fill key value next ver hidx hslot hver =>
    obtain ⟨_, next', ver', hslot', hne⟩ := h.free.freeSlot_head (hidx ▸ hslot)
    rw [← hidx, hslot] at hslot'
    simp only [Option.some.injEq, Slot.mk.injEq, SlotUnion.nextFree.injEq] at hslot'
    refine ⟨lookup_of_slot hslot, fun hk => ?_⟩
    rw [SlotMap.mem_detached, SlotMap.IsDetached, hslot] at hk
    simp only [Option.some.injEq, Slot.mk.injEq, SlotUnion.nextFree.injEq] at hk
    exact hne (hslot'.1 ▸ hk.1)
  | @push key value capacity hhead hidx hver hlt =>
    have hnone : sm.slots[key.idx]? = none := List.getElem?_eq_none_iff.mpr (by omega)
    exact ⟨by simp [SlotMap.lookup, hnone], by simp [SlotMap.IsDetached, hnone]⟩
  | vacate hslot => exact SlotMap.lookup_eq_some.mpr hslot
  | detach hslot => exact SlotMap.lookup_eq_some.mpr hslot
  | reattach hslot => exact hslot
  | write hslot =>
    change (sm.lookup _).isSome
    rw [SlotMap.lookup_eq_some.mpr hslot]
    rfl

theorem abs_of_run {sm sm' : SlotMap V} {cs : List (Change V)} (h : Wf sm)
    (hr : Run Elem sm cs sm') : sm'.abs = cs.foldl Change.apply sm.abs := by
  induction hr with
  | nil => rfl
  | cons he _ ih => rw [ih (he.wf h), he.abs_eq h, List.foldl_cons]

theorem foldl_apply_live {cs : List (Change V)} {m : AbsMap V} {k : KeyData}
    (h : ∀ c ∈ cs, c.key ≠ some k) : (cs.foldl Change.apply m).live k = m.live k := by
  induction cs generalizing m with
  | nil => rfl
  | cons c cs ih =>
    rw [List.foldl_cons, ih fun d hd => h d (List.mem_cons_of_mem c hd)]
    have hc := h c List.mem_cons_self
    cases c with
    | resize => rfl
    | insert key value => exact Function.update_of_ne (fun heq => hc (by rw [heq]; rfl)) _ _
    | vacate key value => exact Function.update_of_ne (fun heq => hc (by rw [heq]; rfl)) _ _
    | detach key value => exact Function.update_of_ne (fun heq => hc (by rw [heq]; rfl)) _ _
    | reattach key value => exact Function.update_of_ne (fun heq => hc (by rw [heq]; rfl)) _ _
    | write key value => exact Function.update_of_ne (fun heq => hc (by rw [heq]; rfl)) _ _

end Rustyfill.Slotmap
