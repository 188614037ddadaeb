import Rustyfill.Slotmap.Runs

/-!
# What a reservation promises

`try_reserve` computes the room it needs from the number of elements, and `insert_inner`
takes it from the free list or from the vector. The two agree as long as every vacant slot
is on the free list; a detached slot is not.
-/

namespace Rustyfill.Slotmap

open Transition ListUpdate

set_option autoImplicit false

variable {V E : Type} {sm sm' : SlotMap V}

/-! ## Slots by kind -/

def Slot.detached (s : Slot V) : Bool :=
  match s.u with
  | .value _ => false
  | .nextFree n => n == danglingSentinel

def Slot.free (s : Slot V) : Bool :=
  match s.u with
  | .value _ => false
  | .nextFree n => n != danglingSentinel

namespace SlotMap

/-- The slots `detach` left and `reattach` has not filled again. -/
def detachedCount (sm : SlotMap V) : Nat := sm.slots.countP Slot.detached

def freeCount (sm : SlotMap V) : Nat := (sm.slots.drop 1).countP Slot.free

end SlotMap

theorem Slot.countP_kinds {l : List (Slot V)} (h : ∀ s ∈ l, s.Tagged) :
    l.countP Slot.free + l.countP Slot.occupied + l.countP Slot.detached = l.length := by
  induction l with
  | nil => rfl
  | cons s l ih =>
    obtain ⟨hs, hl⟩ := List.forall_mem_cons.mp h
    have hrest := ih hl
    obtain ⟨u, version⟩ := s
    have htag := hs.2
    simp only [List.countP_cons, List.length_cons]
    cases u with
    | value v =>
      simp only at htag
      simp only [Slot.free, Slot.detached, Slot.occupied, htag]
      simp only [Bool.false_eq_true, if_false, bne_iff_ne, ne_eq, one_ne_zero, not_false_eq_true,
        if_true]
      omega
    | nextFree n =>
      simp only at htag
      simp only [Slot.free, Slot.detached, Slot.occupied, htag]
      by_cases hn : n = danglingSentinel
      · simp only [hn, bne_self_eq_false, Bool.false_eq_true, if_false, beq_self_eq_true, if_true]
        omega
      · simp only [bne_iff_ne, ne_eq, hn, not_false_eq_true, if_true, not_true_eq_false, if_false,
          beq_iff_eq]
        omega

namespace Wf

theorem slots_eq_cons (h : Wf sm) : sm.slots = ⟨.nextFree 0, 0⟩ :: sm.slots.drop 1 := by
  simpa using drop_eq_cons h.sentinel

/-- Every slot but the sentinel one is occupied, detached or on the free list. -/
theorem count_kinds (h : Wf sm) :
    sm.freeCount + sm.numElems + sm.detachedCount + 1 = sm.slots.length := by
  have hkinds := Slot.countP_kinds (l := sm.slots.drop 1)
    fun s hs => h.tagged s (List.mem_of_mem_drop hs)
  have hocc : sm.numElems = (sm.slots.drop 1).countP Slot.occupied := by
    rw [h.count, h.slots_eq_cons]
    rfl
  have hdet : sm.detachedCount = (sm.slots.drop 1).countP Slot.detached := by
    unfold SlotMap.detachedCount
    rw [h.slots_eq_cons]
    rfl
  have hpos := h.length_pos
  rw [List.length_drop] at hkinds
  unfold SlotMap.freeCount
  omega

/-- The free list is empty exactly when its head is one past the last slot. -/
theorem freeCount_pos_iff (h : Wf sm) : 0 < sm.freeCount ↔ sm.freeHead < sm.slots.length := by
  constructor
  · intro hpos
    obtain ⟨s, hs, hfree⟩ := List.countP_pos_iff.mp hpos
    obtain ⟨i, hi⟩ := List.getElem?_of_mem hs
    rw [List.getElem?_drop] at hi
    obtain ⟨l, hchain, _, hmem⟩ := h.free
    have hslot : FreeSlot sm.slots (1 + i) := by
      obtain ⟨u, version⟩ := s
      cases u with
      | value v => simp [Slot.free] at hfree
      | nextFree n => exact ⟨by omega, n, version, hi, by simpa [Slot.free] using hfree⟩
    have hin := (hmem (1 + i)).mpr hslot
    rcases Nat.lt_or_eq_of_le hchain.head_le with hlt | heq
    · exact hlt
    · rw [heq] at hchain
      rw [hchain.eq_nil] at hin
      exact absurd hin List.not_mem_nil
  · intro hlt
    obtain ⟨hpos, next, ver, hs, hne⟩ :=
      h.free.freeSlot_head (List.getElem?_eq_getElem hlt)
    refine List.countP_pos_iff.mpr ⟨⟨.nextFree next, ver⟩, ?_, by simpa [Slot.free] using hne⟩
    apply List.mem_of_getElem? (i := sm.freeHead - 1)
    rw [List.getElem?_drop, Nat.add_sub_cancel' hpos]
    exact hs

end Wf

/-! ## Insertions -/

/-- A call of `try_insert`, or of `try_insert_with_key` with a closure that returns a value. -/
inductive Insertion (V : Type) where
  | value (value : V)
  | withKey (f : KeyData → V)

variable [RawVec (Slot V)]

def Insertion.exec (sm : SlotMap V) (a : Allocator) :
    Insertion V → Except Fault (Except TryReserveError KeyData × SlotMap V × Allocator)
  | .value v => sm.tryInsert v a
  | .withKey f => do
    match ← sm.tryInsertWithKey (E := Empty) (fun key => .ok (f key)) a with
    | (.ok key, sm, a) => .ok (.ok key, sm, a)
    | (.error (.reserve e), sm, a) => .ok (.error e, sm, a)
    | (.error (.closure e), _, _) => nomatch e

/-- Insert in order, up to the first failure. -/
def insertAll : List (Insertion V) → SlotMap V → Allocator →
    Except Fault (Except TryReserveError (List KeyData) × SlotMap V × Allocator)
  | [], sm, a => .ok (.ok [], sm, a)
  | i :: rest, sm, a => do
    match ← i.exec sm a with
    | (.error e, sm, a) => .ok (.error e, sm, a)
    | (.ok key, sm, a) =>
      match ← insertAll rest sm a with
      | (.error e, sm, a) => .ok (.error e, sm, a)
      | (.ok keys, sm, a) => .ok (.ok (key :: keys), sm, a)

/-- The insertions succeed, and the allocator is as it was: none of them has asked it. -/
def InsertedUnasked (sm : SlotMap V) (l : List (Insertion V)) (a : Allocator) : Prop :=
  ∃ keys sm', insertAll l sm a = .ok (.ok keys, sm', a)

omit [RawVec (Slot V)] in
theorem detached_set {key : KeyData} {old : Slot V} (value : V) (hs : sm.slots[key.idx]? = some old)
    (hold : old.detached = false) :
    (sm.slots.set key.idx ⟨.value value, key.version⟩).countP Slot.detached = sm.detachedCount := by
  have hcount := countP_set_getElem? Slot.detached (⟨.value value, key.version⟩ : Slot V) hs
  have hnew : (⟨.value value, key.version⟩ : Slot V).detached = false := rfl
  rw [hold, hnew] at hcount
  simpa [SlotMap.detachedCount] using hcount

/-- An insertion that finds the free list not empty takes one slot off it. -/
theorem insertInner_free (h : Wf sm) (hfree : 0 < sm.freeCount) (f : KeyData → V) (a : Allocator) :
    ∃ key sm', sm.insertInner (fun key => (.ok (f key) : Except E V)) a = .ok (.ok key, sm', a) ∧
      Wf sm' ∧ sm'.freeCount + 1 = sm.freeCount ∧ sm'.slots.length = sm.slots.length ∧
      sm'.capacity = sm.capacity := by
  have hlt := h.freeCount_pos_iff.mp hfree
  obtain ⟨_, next, ver, hs, hne⟩ := h.free.freeSlot_head (List.getElem?_eq_getElem hlt)
  obtain ⟨hidx, hver⟩ := h.fill_key hs
  have hodd := lor_one_of_even (h.slot_tagged hs).2
  simp only [SlotMap.insertInner, hs, SlotUnion.readNextFree, h.numElems_add, ok_bind]
  refine ⟨_, _, rfl, ?_⟩
  generalize KeyData.new sm.freeHead (ver ||| 1) = key at hidx hver
  rw [hodd, ← hver, ← hidx]
  rw [← hidx] at hs
  have helem : Elem sm (.insert key (f key)) _ := .fill hidx hs hver
  have hwf := helem.wf h
  have hcount := h.count_kinds
  have hcount' := hwf.count_kinds
  have hdet := detached_set (f key) hs (by simpa [Slot.detached] using hne)
  refine ⟨hwf, ?_, List.length_set, rfl⟩
  simp only [SlotMap.detachedCount, List.length_set] at hcount'
  rw [hdet] at hcount'
  omega

theorem insertInner_room (h : Wf sm) (hfull : sm.freeCount = 0)
    (hroom : sm.slots.length + 1 ≤ min sm.capacity maxSlotsLen) (f : KeyData → V) (a : Allocator) :
    ∃ key sm', sm.insertInner (fun key => (.ok (f key) : Except E V)) a = .ok (.ok key, sm', a) ∧
      Wf sm' ∧ sm'.freeCount = 0 ∧ sm'.slots.length = sm.slots.length + 1 ∧
      sm'.capacity = sm.capacity := by
  obtain ⟨hcap, hmax⟩ := Nat.le_min.mp hroom
  have hhead : sm.freeHead = sm.slots.length := by
    have hno := mt h.freeCount_pos_iff.mpr (by omega)
    have hle := h.freeHead_le
    omega
  have hlt : sm.slots.length + 1 ≤ u32Max := by
    unfold maxSlotsLen danglingSentinel at hmax
    omega
  have hidx : (KeyData.new sm.slots.length 1).idx = sm.slots.length := KeyData.new_idx (by omega)
  have hver : (KeyData.new sm.slots.length 1).version = 1 :=
    KeyData.new_version rfl (by simp [u32Max])
  have hnone : sm.slots[sm.freeHead]? = none := List.getElem?_eq_none_iff.mpr (by omega)
  have hreserve : vecTryReserve (Slot V) sm.slots.length sm.capacity 1 a =
      (.ok sm.capacity, a) := by
    rw [vecTryReserve, if_pos (by omega)]
  simp only [SlotMap.insertInner, hnone, hreserve, if_neg (Nat.not_le.mpr hmax), hidx,
    h.numElems_add, expect_checkedAdd _ hlt, ok_bind]
  refine ⟨_, _, rfl, ?_⟩
  generalize KeyData.new sm.slots.length 1 = key at hidx hver
  have helem : Elem sm (.insert key (f key)) _ := .push sm.capacity hhead hidx hver hmax
  have hwf := helem.wf h
  have hcount := h.count_kinds
  have hcount' := hwf.count_kinds
  refine ⟨hwf, ?_, by simp, rfl⟩
  simp only [SlotMap.detachedCount, List.length_append, List.length_singleton, List.countP_append,
    List.countP_singleton, Slot.detached, Bool.false_eq_true, if_false] at hcount hcount'
  omega

/-- An insertion that finds neither fails, or has to ask for memory. -/
theorem insertInner_no_room (h : Wf sm) (hfull : sm.freeCount = 0)
    (hroom : ¬ sm.slots.length + 1 ≤ min sm.capacity maxSlotsLen) (f : KeyData → V)
    (a : Allocator) {key : KeyData} {a' : Allocator}
    (hok : sm.insertInner (fun key => (.ok (f key) : Except E V)) a = .ok (.ok key, sm', a')) :
    a.requests < a'.requests := by
  have hnone : sm.slots[sm.freeHead]? = none := by
    have hno := mt h.freeCount_pos_iff.mpr (by omega)
    exact List.getElem?_eq_none_iff.mpr (by omega)
  simp only [SlotMap.insertInner, hnone] at hok
  by_cases hmax : maxSlotsLen ≤ sm.slots.length
  · simp [hmax] at hok
  · rw [if_neg hmax, vecTryReserve, if_neg (by omega)] at hok
    by_cases hgrant : a.request.1 = true
    · rw [if_pos hgrant] at hok
      obtain ⟨_, _, hok⟩ := bind_eq_ok.mp hok
      obtain ⟨_, _, hok⟩ := bind_eq_ok.mp hok
      simp only [Except.ok.injEq, Prod.mk.injEq] at hok
      rw [← hok.2.2]
      exact Nat.lt_succ_self _
    · rw [if_neg hgrant] at hok
      simp at hok

theorem vecTryReserve_requests (len capacity additional : Nat) (a : Allocator) :
    a.requests ≤ (vecTryReserve (Slot V) len capacity additional a).2.requests := by
  unfold vecTryReserve
  split
  · exact Nat.le_refl _
  · split
    · exact Nat.le_succ _
    · exact Nat.le_succ _

theorem insertInner_requests {f : KeyData → Except E V} {a a' : Allocator}
    {r : Except (SlotMapInsertWithError E) KeyData}
    (hok : sm.insertInner f a = .ok (r, sm', a')) : a.requests ≤ a'.requests := by
  unfold SlotMap.insertInner at hok
  split at hok
  · dsimp only at hok
    split at hok
    · simp only [Except.ok.injEq, Prod.mk.injEq] at hok
      rw [hok.2.2]
    · obtain ⟨_, _, hok⟩ := bind_eq_ok.mp hok
      obtain ⟨_, _, hok⟩ := bind_eq_ok.mp hok
      simp only [Except.ok.injEq, Prod.mk.injEq] at hok
      rw [hok.2.2]
  · have hle := @vecTryReserve_requests V _ sm.slots.length sm.capacity 1 a
    split at hok
    · simp only [Except.ok.injEq, Prod.mk.injEq] at hok
      rw [hok.2.2]
    · dsimp only at hok
      split at hok
      · rename_i hreserve
        simp only [Except.ok.injEq, Prod.mk.injEq] at hok
        rw [hreserve, hok.2.2] at hle
        exact hle
      · rename_i hreserve
        rw [hreserve] at hle
        split at hok
        · simp only [Except.ok.injEq, Prod.mk.injEq] at hok
          rw [hok.2.2] at hle
          exact hle
        · obtain ⟨_, _, hok⟩ := bind_eq_ok.mp hok
          obtain ⟨_, _, hok⟩ := bind_eq_ok.mp hok
          simp only [Except.ok.injEq, Prod.mk.injEq] at hok
          rw [hok.2.2] at hle
          exact hle

/-- Either way of inserting succeeds as `insert_inner` does with some closure. -/
theorem Insertion.exec_ok_iff (i : Insertion V) (sm : SlotMap V) (a : Allocator) :
    ∃ (E : Type) (f : KeyData → V), ∀ key sm' a', i.exec sm a = .ok (.ok key, sm', a') ↔
      sm.insertInner (fun key => (.ok (f key) : Except E V)) a = .ok (.ok key, sm', a') := by
  cases i with
  | value v =>
    refine ⟨Unit, fun _ => v, fun key sm' a' => ?_⟩
    simp only [exec, SlotMap.tryInsert]
    rcases sm.insertInner (fun _ => (.ok v : Except Unit V)) a with e | ⟨(e | e) | key, sm₁, a₁⟩
    · simp
    · simp
    · simp
    · simp
  | withKey f =>
    refine ⟨Empty, f, fun key sm' a' => ?_⟩
    simp only [exec, SlotMap.tryInsertWithKey]
    rcases sm.insertInner (fun key => (.ok (f key) : Except Empty V)) a with
      e | ⟨(e | e) | key, sm₁, a₁⟩
    · simp
    · simp
    · exact e.elim
    · simp

/-! ## Runs of insertions -/

theorem insertAll_cons {i : Insertion V} {rest : List (Insertion V)} {a a' : Allocator}
    {keys : List KeyData} (hok : insertAll (i :: rest) sm a = .ok (.ok keys, sm', a')) :
    ∃ key tail sm₁ a₁, i.exec sm a = .ok (.ok key, sm₁, a₁) ∧
      insertAll rest sm₁ a₁ = .ok (.ok tail, sm', a') := by
  obtain ⟨⟨r, sm₁, a₁⟩, hexec, hok⟩ := bind_eq_ok.mp hok
  rcases r with e | key
  · simp at hok
  · obtain ⟨⟨r, sm₂, a₂⟩, hrest, hok⟩ := bind_eq_ok.mp hok
    rcases r with e | tail
    · simp at hok
    · simp only [Except.ok.injEq, Prod.mk.injEq] at hok
      obtain ⟨_, rfl, rfl⟩ := hok
      exact ⟨key, tail, sm₁, a₁, hexec, hrest⟩

theorem insertAll_requests {l : List (Insertion V)} {a a' : Allocator} {keys : List KeyData}
    (hok : insertAll l sm a = .ok (.ok keys, sm', a')) : a.requests ≤ a'.requests := by
  induction l generalizing sm a keys with
  | nil =>
    simp only [insertAll, Except.ok.injEq, Prod.mk.injEq] at hok
    rw [hok.2.2]
  | cons i rest ih =>
    obtain ⟨key, tail, sm₁, a₁, hexec, hrest⟩ := insertAll_cons hok
    obtain ⟨E, f, hiff⟩ := i.exec_ok_iff sm a
    exact Nat.le_trans (insertInner_requests ((hiff key sm₁ a₁).mp hexec)) (ih hrest)

/-- A first insertion that does not ask leaves the question to the others. -/
theorem insertedUnasked_cons {i : Insertion V} {rest : List (Insertion V)} {a : Allocator}
    {key : KeyData} (hexec : i.exec sm a = .ok (.ok key, sm', a)) :
    InsertedUnasked sm (i :: rest) a ↔ InsertedUnasked sm' rest a := by
  constructor
  · rintro ⟨keys, sm₂, hok⟩
    obtain ⟨key', tail, sm₁, a₁, hexec', hrest⟩ := insertAll_cons hok
    rw [hexec] at hexec'
    simp only [Except.ok.injEq, Prod.mk.injEq] at hexec'
    obtain ⟨_, rfl, rfl⟩ := hexec'
    exact ⟨tail, sm₂, hrest⟩
  · rintro ⟨keys, sm₂, hok⟩
    exact ⟨key :: keys, sm₂, by simp only [insertAll, hexec, hok, ok_bind]⟩

/-- Insertions are served by the free list first, and then by the room of the vector. -/
theorem insertedUnasked_iff (h : Wf sm) (l : List (Insertion V)) (a : Allocator) :
    InsertedUnasked sm l a ↔ l.length ≤ sm.freeCount ∨
      sm.slots.length + (l.length - sm.freeCount) ≤ min sm.capacity maxSlotsLen := by
  induction l generalizing sm with
  | nil => exact iff_of_true ⟨[], sm, rfl⟩ (Or.inl (Nat.zero_le _))
  | cons i rest ih =>
    obtain ⟨E, f, hiff⟩ := i.exec_ok_iff sm a
    rw [List.length_cons]
    rcases Nat.eq_zero_or_pos sm.freeCount with hzero | hpos
    · by_cases hroom : sm.slots.length + 1 ≤ min sm.capacity maxSlotsLen
      · obtain ⟨key, sm', heq, hwf, hfree, hlen, hcap⟩ :=
          insertInner_room (E := E) h hzero hroom f a
        rw [insertedUnasked_cons ((hiff key sm' a).mpr heq), ih hwf, hfree, hlen, hcap, hzero]
        omega
      · refine iff_of_false ?_ (by omega)
        rintro ⟨keys, sm', hok⟩
        obtain ⟨key, tail, sm₁, a₁, hexec, hrest⟩ := insertAll_cons hok
        have hasked := insertInner_no_room h hzero hroom f a ((hiff key sm₁ a₁).mp hexec)
        have hkept := insertAll_requests hrest
        omega
    · obtain ⟨key, sm', heq, hwf, hfree, hlen, hcap⟩ := insertInner_free (E := E) h hpos f a
      rw [insertedUnasked_cons ((hiff key sm' a).mpr heq), ih hwf, hlen, hcap]
      omega

/-! ## The reservation -/

theorem tryReserve_ok {n : Nat} {a a' : Allocator}
    (hok : sm.tryReserve n a = (.ok (), sm', a')) :
    sm.numElems + n < maxSlotsLen - 1 ∧ ∃ capacity, sm' = { sm with capacity } ∧ capacity =
      if sm.numElems + n - (sm.slots.length - 1) ≤ sm.capacity - sm.slots.length then sm.capacity
      else growAmortized (Slot V) sm.capacity
        (sm.slots.length + (sm.numElems + n - (sm.slots.length - 1))) := by
  unfold SlotMap.tryReserve at hok
  split at hok
  · simp at hok
  · rename_i total htotal
    obtain rfl : sm.numElems + n = total := by
      unfold checkedAdd at htotal
      split at htotal
      · exact Option.some.inj htotal
      · simp at htotal
    by_cases hmax : maxSlotsLen - 1 ≤ sm.numElems + n
    · simp [hmax] at hok
    · rw [if_neg hmax] at hok
      refine ⟨Nat.not_le.mp hmax, ?_⟩
      unfold vecTryReserve at hok
      by_cases hroom : sm.numElems + n - (sm.slots.length - 1) ≤ sm.capacity - sm.slots.length
      · rw [if_pos hroom] at hok ⊢
        simp only [Prod.mk.injEq] at hok
        exact ⟨_, hok.2.1.symm, rfl⟩
      · rw [if_neg hroom] at hok ⊢
        by_cases hgrant : a.request.1 = true
        · rw [if_pos hgrant] at hok
          simp only [Prod.mk.injEq] at hok
          exact ⟨_, hok.2.1.symm, rfl⟩
        · rw [if_neg hgrant] at hok
          simp at hok

/-- When a reservation of `n` covers `n` insertions: they need no new slot; or no slot is
detached; or the new slots fit all the same, in the room there was, or, when the vector has to
grow anyway, in the room that it has then whatever it is asked for. -/
def SlotMap.Covered (sm : SlotMap V) (n : Nat) : Prop :=
  n ≤ sm.freeCount ∨ sm.detachedCount = 0 ∨
    sm.slots.length + (n - sm.freeCount) ≤ maxSlotsLen ∧
      (sm.slots.length + (n - sm.freeCount) ≤ sm.capacity ∨
        sm.capacity - sm.slots.length < sm.numElems + n - (sm.slots.length - 1) ∧
          sm.slots.length + (n - sm.freeCount) ≤
            max (RawVec.minNonZeroCap (Slot V)) (2 * sm.capacity))

/-- Of any map a run of calls reaches, whatever is inserted after the reservation. -/
theorem reserve_covers_iff {sm₀ : SlotMap V} {calls : List (Op V E × Out V E)} {n : Nat}
    {a a' : Allocator} (hinit : Initial sm₀) (hr : Run Call sm₀ calls sm)
    (hok : sm.tryReserve n a = (.ok (), sm', a')) {l : List (Insertion V)} (hlen : l.length = n)
    (b : Allocator) : InsertedUnasked sm' l b ↔ sm.Covered n := by
  have hwf := reachable_wf hinit hr
  obtain ⟨htotal, capacity, rfl, hcapacity⟩ := tryReserve_ok hok
  have hcount := hwf.count_kinds
  rw [insertedUnasked_iff ((Elem.resize sm capacity).wf hwf), hlen]
  change n ≤ sm.freeCount ∨ sm.slots.length + (n - sm.freeCount) ≤ min capacity maxSlotsLen ↔ _
  unfold SlotMap.Covered
  split at hcapacity
  · omega
  · unfold growAmortized at hcapacity
    omega

/-- A new map that has to grow for the reservation, and insertions that are never answered by the
allocator. -/
theorem reserve_covers_new : InsertedUnasked { fresh with capacity := 8 }
    [.value 5, .withKey fun key => key.idx, .value 6, .value 7] ⟨fun _ => false, 0⟩ := by
  have hok : fresh.tryReserve 4 ⟨fun _ => true, 0⟩ =
      (.ok (), { fresh with capacity := 8 }, ⟨fun _ => true, 1⟩) := rfl
  exact (reserve_covers_iff (E := Unit) fresh_initial (.nil _) hok rfl _).mpr (Or.inr (Or.inl rfl))

/-- Three elements fill the vector, and one of them is detached: a reservation of one slot then
succeeds without a request, and the insertion it was for has to make one, which is refused. -/
theorem reserve_short_of_detached :
    ∃ sm : SlotMap Nat, Initial fresh ∧
      Run (Call (E := Unit)) fresh
        [(.tryInsert 7 ⟨fun _ => true, 0⟩, .inserted (.ok (.new 1 1))),
          (.tryInsert 8 ⟨fun _ => true, 0⟩, .inserted (.ok (.new 2 1))),
          (.tryInsert 9 ⟨fun _ => true, 0⟩, .inserted (.ok (.new 3 1))),
          (.detach (.new 1 1), .found (some 7))] sm ∧
      sm.tryReserve 1 ⟨fun _ => false, 0⟩ = (.ok (), sm, ⟨fun _ => false, 0⟩) ∧
      insertAll [.value 5] sm ⟨fun _ => false, 0⟩ =
        .ok (.error .allocError, sm, ⟨fun _ => false, 1⟩) ∧
      ¬ InsertedUnasked sm [.value 5] ⟨fun _ => false, 0⟩ := by
  refine ⟨_, fresh_initial, .cons rfl (.cons rfl (.cons rfl (.cons rfl (.nil _)))), rfl, rfl, ?_⟩
  intro ⟨keys, sm', hok⟩
  have hfail : Except.error TryReserveError.allocError = Except.ok keys :=
    congrArg Prod.fst (Except.ok.inj hok)
  simp at hfail

end Rustyfill.Slotmap
