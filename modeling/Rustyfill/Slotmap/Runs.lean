import Rustyfill.Slotmap.Calls

/-!
# Whole runs of the slot map

The representation invariant in every reachable state, and the refinement of a partial map
over every run in which no slot is vacated often enough for its version to wrap.
-/

namespace Rustyfill.Slotmap

open Transition

set_option autoImplicit false

variable {V E : Type}

/-- The slot holds the mark `detach` leaves. -/
def Slot.Detached (s : Slot V) : Prop := s.u = .nextFree danglingSentinel

/-- The keys a call takes out by `detach`, or puts back. -/
def trackDetached (keys : Set KeyData) : Op V E × Out V E → Set KeyData
  | (.detach key, .found (some _)) => keys ∪ {key}
  | (.reattach key _, .reattached) => keys \ {key}
  | _ => keys

def detachedAfter (calls : List (Op V E × Out V E)) : Set KeyData := calls.foldl trackDetached ∅

section Run
variable [RawVec (Slot V)] {sm sm' sm₀ : SlotMap V} {call : Op V E × Out V E}
  {calls : List (Op V E × Out V E)}

theorem Initial.slots_eq (h : Initial sm) :
    sm.slots = [⟨.nextFree 0, 0⟩] ∧ sm.freeHead = 1 ∧ sm.numElems = 0 := by
  obtain ⟨capacity, a, heq⟩ := h
  unfold SlotMap.tryWithCapacityAndKey at heq
  split at heq
  · simp at heq
  · split at heq
    · simp at heq
    · simp only [Except.ok.injEq] at heq
      rw [← heq]
      exact ⟨rfl, rfl, rfl⟩

theorem Initial.wf (h : Initial sm) : Wf sm := by
  obtain ⟨hslots, hhead, hnum⟩ := h.slots_eq
  refine ⟨by rw [hslots]; rfl, ?_, ?_, ?_, [], ?_, List.nodup_nil, fun i => ?_⟩
  · rw [hslots]
    simp [maxSlotsLen, danglingSentinel, u32Max]
  · rw [hslots]
    intro s hs
    rw [List.mem_singleton.mp hs]
    exact ⟨Nat.zero_le _, rfl⟩
  · rw [hslots, hnum]
    rfl
  · rw [hslots, hhead]
    exact .nil
  · refine iff_of_false List.not_mem_nil ?_
    rintro ⟨hi, next, ver, hs, _⟩
    have hlt := (List.getElem?_eq_some_iff.mp hs).1
    rw [hslots, List.length_singleton] at hlt
    omega

theorem Initial.lookup_eq (h : Initial sm) (key : KeyData) :
    sm.lookup key = none ∧ ¬ sm.IsDetached key := by
  unfold SlotMap.lookup SlotMap.IsDetached
  rw [h.slots_eq.1]
  rcases hidx : key.idx with _ | n
  · simp [danglingSentinel, u32Max]
  · simp

theorem Initial.abs_eq (h : Initial sm) : sm.abs = AbsMap.empty := by
  refine AbsMap.ext (funext fun key => (h.lookup_eq key).1) ?_
  ext key
  exact iff_of_false (h.lookup_eq key).2 (Set.notMem_empty key)

theorem Initial.versions (h : Initial sm) : Versions [] [] sm where
  counts := by
    intro i s hi hs
    have hlt := (List.getElem?_eq_some_iff.mp hs).1
    rw [h.slots_eq.1, List.length_singleton] at hlt
    omega
  beyond := by simp
  inserted := by simp
  vacated := by simp
  nodup := List.nodup_nil

theorem Call.refines (h : Wf sm) (hc : Call sm call sm') :
    ∃ cs, Run Elem sm cs sm' ∧ insertedKeys cs = givenKeys call ∧
      vacatedKeys cs = removedKeys call ∧ AbsCall sm.abs call sm'.abs := by
  obtain ⟨op, out⟩ := call
  have hexec : op.exec sm = .ok (out, sm') := hc
  rcases refines_or_undetached h op with ⟨out₁, sm₁, cs, heq, hrest⟩ | ⟨_, _, _, _, heq⟩
  · rw [hexec, Except.ok.injEq, Prod.mk.injEq] at heq
    obtain ⟨rfl, rfl⟩ := heq
    exact ⟨cs, hrest⟩
  · rw [hexec] at heq
    simp at heq

/-- A run of calls is a run of rewrites and a run of the abstract map. -/
theorem run_refines (hr : Run Call sm calls sm') (h : Wf sm) :
    ∃ cs, Run Elem sm cs sm' ∧ insertedKeys cs = calls.flatMap givenKeys ∧
      vacatedKeys cs = calls.flatMap removedKeys ∧ Run AbsCall sm.abs calls sm'.abs := by
  induction hr with
  | nil s => exact ⟨[], .nil s, rfl, rfl, .nil _⟩
  | cons hc _ ih =>
    obtain ⟨cs, hrun, hins, hvac, habs⟩ := Call.refines h hc
    obtain ⟨cs', hrun', hins', hvac', habs'⟩ := ih (wf_of_run hrun h)
    exact ⟨cs ++ cs', hrun.append hrun', by rw [insertedKeys_append, hins, hins',
      List.flatMap_cons],
      by rw [vacatedKeys_append, hvac, hvac', List.flatMap_cons], .cons habs habs'⟩

theorem reachable_wf (hinit : Initial sm₀) (hr : Run Call sm₀ calls sm) : Wf sm := by
  obtain ⟨cs, hrun, _⟩ := run_refines hr hinit.wf
  exact wf_of_run hrun hinit.wf

omit [RawVec (Slot V)] in
theorem AbsCall.detached_eq {m m' : AbsMap V} (h : AbsCall m call m') :
    m'.detached = trackDetached m.detached call := by
  obtain ⟨op, out⟩ := call
  cases op with
  | tryReserve => cases out <;> first | exact h.elim | (rw [h]; rfl)
  | tryInsert =>
    rcases out with _ | (_ | _) | _ | _ | _ | _ | _ | _ <;> first
      | exact h.elim | (rw [h]; rfl) | (rw [h.2.2]; rfl)
  | tryInsertWithKey =>
    rcases out with _ | _ | ((_ | _) | _) | _ | _ | _ | _ | _ <;> first
      | exact h.elim | (rw [h]; rfl) | (rw [h.2]; rfl) | skip
    obtain ⟨_, _, value, _, rfl⟩ := h
    rfl
  | remove => cases out <;> first | exact h.elim | (rw [h.2]; rfl)
  | detach key =>
    rcases out with _ | _ | _ | (_ | value) | _ | _ | _ | _ <;> first | exact h.elim | skip
    · obtain ⟨hnone, rfl⟩ := h
      rw [if_neg (by rw [← hnone]; simp)]
      rfl
    · obtain ⟨hsome, rfl⟩ := h
      rw [if_pos (by rw [← hsome]; rfl)]
      rfl
  | reattach => cases out <;> first | exact h.elim | (rw [h.2]; rfl)
  | getMut => cases out <;> first | exact h.elim | (rw [h.2]; rfl)
  | retain => cases out <;> first | exact h.elim | exact h.2.1
  | drain => cases out <;> first | exact h.elim | (rw [h.2]; rfl)
  | clear => cases out <;> first | exact h.elim | (rw [h.2]; rfl)
  | tryClone =>
    rcases out with _ | _ | _ | _ | _ | _ | _ | (_ | _) <;> first
      | exact h.elim | (rw [h]; rfl) | exact h.1

omit [RawVec (Slot V)] in
theorem detached_of_run {m m' : AbsMap V} (hr : Run AbsCall m calls m') :
    m'.detached = calls.foldl trackDetached m.detached := by
  induction hr with
  | nil => rfl
  | cons hc _ ih => rw [ih, AbsCall.detached_eq hc, List.foldl_cons]

theorem reachable_detached (hinit : Initial sm₀) (hr : Run Call sm₀ calls sm) (key : KeyData) :
    sm.IsDetached key ↔ key ∈ detachedAfter calls := by
  obtain ⟨_, _, _, _, habs⟩ := run_refines hr hinit.wf
  have hdetached := detached_of_run habs
  rw [hinit.abs_eq] at hdetached
  rw [← SlotMap.mem_detached, hdetached]
  rfl

omit [RawVec (Slot V)] in
/-- The free slots, by the parity of their versions and the mark of `detach`. -/
theorem Wf.freeSlot_iff (h : Wf sm) (i : Nat) :
    FreeSlot sm.slots i ↔
      1 ≤ i ∧ ∃ s, sm.slots[i]? = some s ∧ s.occupied = false ∧ ¬ s.Detached := by
  constructor
  · rintro ⟨hi, next, ver, hs, hne⟩
    have htag := h.slot_tagged hs
    refine ⟨hi, _, hs, Slot.occupied_nextFree htag.2, ?_⟩
    simpa [Slot.Detached] using hne
  · rintro ⟨hi, ⟨v | next, ver⟩, hs, hocc, hnot⟩
    · have htag := h.slot_tagged hs
      rw [Slot.occupied_value htag.2] at hocc
      simp at hocc
    · exact ⟨hi, next, ver, hs, by simpa [Slot.Detached] using hnot⟩

/-- In every reachable state the free list is a simple path through exactly the free slots,
the element count is right, and no call faults but a `reattach` of a key that is not
detached. -/
theorem free_list_invariant (hinit : Initial sm₀) (hr : Run Call sm₀ calls sm) :
    (∃ l, FreeChain sm.slots sm.freeHead l ∧ l.Nodup ∧
      ∀ i, i ∈ l ↔ 1 ≤ i ∧ ∃ s, sm.slots[i]? = some s ∧ s.occupied = false ∧ ¬ s.Detached) ∧
    sm.numElems = sm.slots.countP Slot.occupied ∧ sm.freeHead ≠ danglingSentinel ∧
    ∀ (op : Op V E) fault, op.exec sm = .error fault ↔ ∃ key value,
      op = .reattach key value ∧ key ∉ detachedAfter calls ∧
        fault = .expect "key is not detached" := by
  have h := reachable_wf hinit hr
  obtain ⟨l, hchain, hnodup, hmem⟩ := h.free
  refine ⟨⟨l, hchain, hnodup, fun i => (hmem i).trans (h.freeSlot_iff i)⟩, h.count, h.freeHead_ne,
    fun op fault => ?_⟩
  constructor
  · intro hfault
    rcases refines_or_undetached h op with ⟨_, _, _, heq, _⟩ | ⟨key, value, hop, hkey, heq⟩
    · rw [hfault] at heq
      simp at heq
    · rw [hfault, Except.error.injEq] at heq
      exact ⟨key, value, hop, mt (reachable_detached hinit hr key).mpr hkey, heq⟩
  · rintro ⟨key, value, rfl, hkey, rfl⟩
    rw [← reachable_detached hinit hr key] at hkey
    simp only [Op.exec, reattach_undetached h hkey, error_bind]

instance : RawVec (Slot Nat) := ⟨4⟩

/-- A new map of small values. -/
def fresh : SlotMap Nat := ⟨[⟨.nextFree 0, 0⟩], 4, 1, 0⟩

omit [RawVec (Slot V)] in
theorem fresh_initial : Initial fresh := ⟨0, ⟨fun _ => true, 0⟩, rfl⟩

/-- A fresh map, with a slot filled and detached: one slot, which the free list leaves out. -/
theorem free_list_invariant_detached :
    ∃ sm : SlotMap Nat, Run (Call (E := Unit)) fresh
        [(.tryInsert 7 ⟨fun _ => true, 0⟩, .inserted (.ok (.new 1 1))),
          (.detach (.new 1 1), .found (some 7))] sm ∧
      sm.numElems = 0 ∧ sm.freeHead = 2 ∧
      (∃ l, FreeChain sm.slots sm.freeHead l ∧ l.Nodup ∧
        ∀ i, i ∈ l ↔ 1 ≤ i ∧ ∃ s, sm.slots[i]? = some s ∧ s.occupied = false ∧ ¬ s.Detached) := by
  have hr : Run (Call (E := Unit)) fresh
      [(.tryInsert 7 ⟨fun _ => true, 0⟩, .inserted (.ok (.new 1 1))),
        (.detach (.new 1 1), .found (some 7))] _ := .cons rfl (.cons rfl (.nil _))
  exact ⟨_, hr, rfl, rfl, (free_list_invariant fresh_initial hr).1⟩

/-- On a fresh map, `reattach` of a key that was never given out panics. -/
theorem reattach_undetached_faults :
    Initial fresh ∧ (Op.reattach (.new 1 1) 7 : Op Nat Unit).exec fresh =
      .error (.expect "key is not detached") :=
  ⟨fresh_initial, rfl⟩

/-- The map refines a partial map, and its keys are fresh, over every run in which no slot is
put back on the free list `2^31` times. -/
theorem refines_partial_map (hinit : Initial sm₀) (hr : Run Call sm₀ calls sm)
    (hbound : ∀ i, timesOf i (calls.flatMap removedKeys) < maxVacations) :
    (calls.flatMap givenKeys).Nodup ∧
    ∃ m, Run AbsCall AbsMap.empty calls m ∧
      (∀ key, sm.get key = .ok (m.live key) ∧ sm.containsKey key = (m.live key).isSome) ∧
      (∀ key ∈ calls.flatMap removedKeys, m.live key = none ∧ key ∉ m.detached) ∧
      ∃ l, Enumerates m l ∧ ∀ n, ∃ it,
        sm.intoIter.take n = .ok ((countdown l).take n, it) ∧ it.numLeft = l.length - n := by
  have hwf₀ := hinit.wf
  obtain ⟨cs, hrun, hins, hvac, habs⟩ := run_refines hr hwf₀
  have hwf := wf_of_run hrun hwf₀
  have hversions := hinit.versions.run hwf₀ hrun (by rw [List.nil_append, hvac]; exact hbound)
  rw [List.nil_append, List.nil_append, hins, hvac] at hversions
  rw [hinit.abs_eq] at habs
  refine ⟨hversions.nodup, sm.abs, habs, fun key => ⟨get_eq hwf key, containsKey_eq hwf key⟩,
    fun key hkey => hversions.invalid hwf hbound hkey, sm.pairs, hwf.enumerates, intoIter_spec hwf⟩

/-- A slot that is filled, detached, reattached, vacated and filled again: two keys. -/
theorem refines_partial_map_reuse :
    ∃ sm : SlotMap Nat, Run (Call (E := Unit)) fresh
        [(.tryInsert 7 ⟨fun _ => true, 0⟩, .inserted (.ok (.new 1 1))),
          (.detach (.new 1 1), .found (some 7)), (.reattach (.new 1 1) 9, .reattached),
          (.remove (.new 1 1), .found (some 9)),
          (.tryInsert 8 ⟨fun _ => true, 0⟩, .inserted (.ok (.new 1 2)))] sm ∧
      [KeyData.new 1 1, KeyData.new 1 2].Nodup ∧ sm.get (.new 1 2) = .ok (some 8) := by
  have hr : Run (Call (E := Unit)) fresh
      [(.tryInsert 7 ⟨fun _ => true, 0⟩, .inserted (.ok (.new 1 1))),
        (.detach (.new 1 1), .found (some 7)), (.reattach (.new 1 1) 9, .reattached),
        (.remove (.new 1 1), .found (some 9)),
        (.tryInsert 8 ⟨fun _ => true, 0⟩, .inserted (.ok (.new 1 2)))] _ :=
    .cons rfl (.cons rfl (.cons rfl (.cons rfl (.cons rfl (.nil _)))))
  have hbound : ∀ i, timesOf i [KeyData.new 1 1] < maxVacations := fun i =>
    Nat.lt_of_le_of_lt List.countP_le_length (by simp [maxVacations])
  exact ⟨_, hr, (refines_partial_map fresh_initial hr hbound).1, rfl⟩

end Run

end Rustyfill.Slotmap
