import Rustyfill.Slotmap.Ops

/-!
# The operations that visit every slot

`retain`, `Drain`, `IntoIter` and `try_clone` walk the slots in order. What each of them
shows its caller is the list of entries, and what it does is a run of one or two rewrites
for each entry; the remaining count of the two iterators is the length of what is left.
-/

namespace Rustyfill.Slotmap

open Transition ListUpdate

set_option autoImplicit false

variable {V E : Type} {sm : SlotMap V}

/-- Each element with the number of elements after it. -/
def countdown {α : Type} : List α → List (α × Nat)
  | [] => []
  | a :: rest => (a, rest.length) :: countdown rest

theorem countdown_map_fst {α : Type} (l : List α) : (countdown l).map Prod.fst = l := by
  induction l with
  | nil => rfl
  | cons a rest ih => simp [countdown, ih]

theorem countdown_length {α : Type} (l : List α) : (countdown l).length = l.length := by
  rw [← List.length_map (f := Prod.fst), countdown_map_fst]

theorem countdown_drop {α : Type} (n : Nat) (l : List α) :
    countdown (l.drop n) = (countdown l).drop n := by
  induction n generalizing l with
  | zero => rfl
  | succ n ih =>
    cases l with
    | nil => rfl
    | cons a rest => exact ih rest

/-! ## The entries of a suffix of the slots -/

theorem idx_of_mem_entries {i : Nat} {l : List (Slot V)} {p : KeyData × V}
    (hlen : i + l.length ≤ u32Max) (hp : p ∈ entries i l) : i ≤ p.1.idx := by
  induction l generalizing i with
  | nil => simp [entries] at hp
  | cons s rest ih =>
    simp only [List.length_cons] at hlen
    obtain ⟨_ | n, version⟩ := s
    · rcases List.mem_cons.mp hp with rfl | hp
      · exact Nat.le_of_eq (KeyData.new_idx (by omega)).symm
      · have := ih (i := i + 1) (by omega) hp
        omega
    · have := ih (i := i + 1) (by omega) hp
      omega

theorem entries_nodup {i : Nat} {l : List (Slot V)} (hlen : i + l.length ≤ u32Max) :
    ((entries i l).map Prod.fst).Nodup := by
  induction l generalizing i with
  | nil => exact List.nodup_nil
  | cons s rest ih =>
    simp only [List.length_cons] at hlen
    have hrest := ih (i := i + 1) (by omega)
    obtain ⟨v | n, version⟩ := s
    · refine List.nodup_cons.mpr ⟨fun hmem => ?_, hrest⟩
      obtain ⟨p, hp, hkey⟩ := List.mem_map.mp hmem
      have h1 := idx_of_mem_entries (by omega) hp
      rw [hkey, KeyData.new_idx (by omega)] at h1
      omega
    · exact hrest

theorem entries_length {i : Nat} {l : List (Slot V)} (h : ∀ s ∈ l, s.Tagged) :
    (entries i l).length = l.countP Slot.occupied := by
  induction l generalizing i with
  | nil => rfl
  | cons s rest ih =>
    have hs := (h s List.mem_cons_self).2
    have hrest := ih (i := i + 1) fun t ht => h t (List.mem_cons_of_mem s ht)
    obtain ⟨v | n, version⟩ := s
    · simp only [entries, List.length_cons, hrest, List.countP_cons, Slot.occupied_value hs,
      if_true]
    · simp only [entries, hrest, List.countP_cons, Slot.occupied_nextFree hs, Bool.false_eq_true,
        if_false, Nat.add_zero]

namespace Wf

theorem mem_entries_drop (h : Wf sm) {n i : Nat} (hn : sm.slots.length = i + n) {p : KeyData × V} :
    p ∈ entries i (sm.slots.drop i) ↔
      i ≤ p.1.idx ∧ sm.slots[p.1.idx]? = some ⟨.value p.2, p.1.version⟩ := by
  induction n generalizing i with
  | zero =>
    rw [List.drop_eq_nil_of_le (by omega)]
    refine ⟨fun hp => absurd hp List.not_mem_nil, fun ⟨hi, hs⟩ => ?_⟩
    have := (List.getElem?_eq_some_iff.mp hs).1
    omega
  | succ n ih =>
    have hs : sm.slots[i]? = some sm.slots[i] := List.getElem?_eq_getElem (by omega)
    have hrest := ih (i := i + 1) (by omega)
    rw [drop_eq_cons hs]
    rcases hslot : sm.slots[i] with ⟨v | m, version⟩
    · rw [hslot] at hs
      simp only [entries, List.mem_cons, hrest]
      constructor
      · rintro (rfl | ⟨hi, hp⟩)
        · exact ⟨Nat.le_of_eq (h.key_of_slot hs).1.symm, h.slot_of_key hs⟩
        · exact ⟨by omega, hp⟩
      · rintro ⟨hi, hp⟩
        by_cases heq : i = p.1.idx
        · left
          rw [← heq, hs] at hp
          simp only [Option.some.injEq, Slot.mk.injEq, SlotUnion.value.injEq] at hp
          rw [hp.1, hp.2, heq, KeyData.new_self]
        · exact .inr ⟨by omega, hp⟩
    · rw [hslot] at hs
      simp only [entries, hrest]
      refine ⟨fun ⟨hi, hp⟩ => ⟨by omega, hp⟩, fun ⟨hi, hp⟩ => ⟨?_, hp⟩⟩
      rcases Nat.eq_or_lt_of_le hi with heq | hlt
      · rw [← heq, hs] at hp
        simp at hp
      · exact hlt

theorem mem_pairs (h : Wf sm) {p : KeyData × V} : p ∈ sm.pairs ↔ sm.lookup p.1 = some p.2 := by
  have hpos := h.length_pos
  unfold SlotMap.pairs
  rw [h.mem_entries_drop (n := sm.slots.length - 1) (by omega), SlotMap.lookup_eq_some]
  refine ⟨And.right, fun hs => ⟨h.index_pos hs ?_, hs⟩⟩
  have := p.1.version_odd
  simp only
  omega

theorem pairs_nodup (h : Wf sm) : (sm.pairs.map Prod.fst).Nodup := by
  have h1 := h.length_pos
  have h2 := h.length_le
  refine entries_nodup ?_
  unfold maxSlotsLen danglingSentinel at h2
  rw [List.length_drop]
  omega

theorem slots_eq (h : Wf sm) : sm.slots = ⟨.nextFree 0, 0⟩ :: sm.slots.drop 1 := by
  have hcons := drop_eq_cons h.sentinel
  rwa [List.drop_zero] at hcons

theorem entries_zero (h : Wf sm) : entries 0 sm.slots = sm.pairs := by
  rw [h.slots_eq]
  unfold SlotMap.pairs
  rfl

theorem pairs_length (h : Wf sm) : sm.pairs.length = sm.numElems := by
  rw [← h.entries_zero, entries_length h.tagged, h.count]

end Wf

/-! ## `retain` -/

/-- What one pass of `retain` does: the predicate may write the value it is shown. -/
def retainChanges (f : Nat → KeyData → V → Bool × V) : Nat → List (KeyData × V) → List (Change V)
  | _, [] => []
  | calls, (key, value) :: rest =>
    .write key (f calls key value).2 ::
      ((if (f calls key value).1 then [] else [.vacate key (f calls key value).2]) ++
        retainChanges f (calls + 1) rest)

theorem retainLoop_spec (f : Nat → KeyData → V → Bool × V) (n i calls : Nat) {sm : SlotMap V}
    (h : Wf sm) (hn : sm.slots.length = i + n) :
    ∃ sm', SlotMap.retainLoop f n i calls sm = .ok (entries i (sm.slots.drop i), sm') ∧
      Run Elem sm (retainChanges f calls (entries i (sm.slots.drop i))) sm' := by
  induction n generalizing i calls sm with
  | zero =>
    rw [List.drop_eq_nil_of_le (by omega)]
    exact ⟨sm, rfl, .nil sm⟩
  | succ n ih =>
    have hs : sm.slots[i]? = some sm.slots[i] := List.getElem?_eq_getElem (by omega)
    have htag := h.slot_tagged hs
    rw [drop_eq_cons hs]
    simp only [SlotMap.retainLoop, hs]
    rcases hslot : sm.slots[i] with ⟨v | m, version⟩
    · rw [hslot] at hs htag
      obtain ⟨hidx, hver⟩ := h.key_of_slot hs
      have hkey := h.slot_of_key hs
      generalize KeyData.new i version = key at *
      subst hidx hver
      have hwrite : Elem sm (.write key (f calls key v).2) _ := .write hkey
      have hkept := hwrite.wf h
      have hself : (sm.slots.set key.idx ⟨.value (f calls key v).2, key.version⟩)[key.idx]? =
          some ⟨.value (f calls key v).2, key.version⟩ := List.getElem?_set_self (by omega)
      simp only [Slot.get, Slot.occupied_value key.version_odd, if_true, SlotUnion.readValue,
        Except.map, ok_bind, entries, retainChanges, KeyData.new_self]
      by_cases hkeep : (f calls key v).1 = true
      · obtain ⟨sm', heq, hrun⟩ := ih (key.idx + 1) (calls + 1) hkept
          (by rw [List.length_set]; omega)
        rw [drop_set_succ] at heq hrun
        simp only [hkeep, if_true, heq, ok_bind, List.nil_append]
        exact ⟨sm', rfl, .cons hwrite hrun⟩
      · obtain ⟨sm₁, hremove, hvacate, hslots⟩ := removeFromSlot_spec hkept hself
        obtain ⟨sm', heq, hrun⟩ := ih (key.idx + 1) (calls + 1) (hvacate.wf hkept)
          (by rw [hslots, List.length_set, List.length_set]; omega)
        rw [hslots, drop_set_succ, drop_set_succ] at heq hrun
        simp only [hkeep, Bool.false_eq_true, if_false, hremove, ok_bind, heq,
          List.singleton_append]
        exact ⟨sm', rfl, .cons hwrite (.cons hvacate hrun)⟩
    · rw [hslot] at hs htag
      simp only [Slot.get, Slot.occupied_nextFree htag.2, Bool.false_eq_true, if_false,
        SlotUnion.readNextFree, Except.map, ok_bind, entries]
      exact ih (i + 1) calls h (by omega)

theorem retain_spec (h : Wf sm) (f : Nat → KeyData → V → Bool × V) :
    ∃ sm', sm.retain f = .ok (sm.pairs, sm') ∧ Run Elem sm (retainChanges f 0 sm.pairs) sm' :=
  retainLoop_spec f _ 1 0 h (by have := h.length_pos; omega)

/-! ## `Drain` -/

/-- A cursor with the entries it has still to yield. -/
structure Remaining (sm : SlotMap V) (cur : Nat) (es : List (KeyData × V)) : Prop where
  wf : Wf sm
  cur_le : cur ≤ sm.slots.length
  entries_eq : entries cur (sm.slots.drop cur) = es
  count : sm.numElems = es.length

theorem Wf.cursor_add (h : Wf sm) {cur : Nat} (hcur : cur < sm.slots.length) :
    expect "cursor below slot length" (checkedAdd usizeMax cur 1) = .ok (cur + 1) := by
  have hlen := h.length_le
  refine expect_checkedAdd _ ?_
  unfold maxSlotsLen danglingSentinel u32Max at hlen
  unfold usizeMax
  omega

theorem Remaining.skip {cur m version : Nat} {es : List (KeyData × V)} (h : Remaining sm cur es)
    (hs : sm.slots[cur]? = some ⟨.nextFree m, version⟩) : Remaining sm (cur + 1) es := by
  have heq := h.entries_eq
  rw [drop_eq_cons hs] at heq
  exact ⟨h.wf, (List.getElem?_eq_some_iff.mp hs).1, heq, h.count⟩

theorem drainNextLoop_spec {n cur : Nat} {es : List (KeyData × V)} (h : Remaining sm cur es)
    (hn : sm.slots.length = cur + n) :
    (es = [] ∧ ∃ cur', SlotMap.drainNextLoop n cur sm = .ok (none, cur', sm) ∧
      Remaining sm cur' []) ∨
    ∃ key v rest cur' sm', es = (key, v) :: rest ∧
      SlotMap.drainNextLoop n cur sm = .ok (some (key, v), cur', sm') ∧
      Elem sm (.vacate key v) sm' ∧ Remaining sm' cur' rest := by
  induction n generalizing cur with
  | zero =>
    have heq := h.entries_eq
    rw [List.drop_eq_nil_of_le (by omega)] at heq
    subst heq
    exact .inl ⟨rfl, cur, rfl, h⟩
  | succ n ih =>
    have hs : sm.slots[cur]? = some sm.slots[cur] := List.getElem?_eq_getElem (by omega)
    have htag := h.wf.slot_tagged hs
    have hcursor := h.wf.cursor_add (show cur < sm.slots.length by omega)
    simp only [SlotMap.drainNextLoop, hs, hcursor, ok_bind]
    rcases hslot : sm.slots[cur] with ⟨v | m, version⟩
    · rw [hslot] at hs htag
      obtain ⟨hidx, hver⟩ := h.wf.key_of_slot hs
      have hkey := h.wf.slot_of_key hs
      have heq := h.entries_eq
      rw [drop_eq_cons hs] at heq
      simp only [entries] at heq
      generalize KeyData.new cur version = key at *
      subst hidx hver
      obtain ⟨sm', hremove, hvacate, hslots⟩ := removeFromSlot_spec h.wf hkey
      simp only [Slot.occupied_value key.version_odd, if_true, hremove, ok_bind]
      refine .inr ⟨key, v, _, _, sm', heq.symm, rfl, hvacate, hvacate.wf h.wf, ?_, ?_, ?_⟩
      · rw [hslots, List.length_set]
        omega
      · rw [hslots, drop_set_succ]
      · have hcount := h.count
        rw [← heq, List.length_cons] at hcount
        cases hvacate
        simp only
        omega
    · rw [hslot] at hs htag
      simp only [Slot.occupied_nextFree htag.2, Bool.false_eq_true, if_false]
      exact ih (h.skip hs) (by omega)

theorem drainTake_spec (n : Nat) {cur : Nat} {es : List (KeyData × V)} (h : Remaining sm cur es) :
    ∃ cur' sm', SlotMap.drainTake n cur sm = .ok ((countdown es).take n, cur', sm') ∧
      Run Elem sm ((es.take n).map fun p => .vacate p.1 p.2) sm' ∧
        Remaining sm' cur' (es.drop n) := by
  induction n generalizing sm cur es with
  | zero => exact ⟨cur, sm, rfl, .nil sm, h⟩
  | succ n ih =>
    have hlen : sm.slots.length = cur + (sm.slots.length - cur) := by
      have := h.cur_le
      omega
    unfold SlotMap.drainTake SlotMap.drainNext
    rcases drainNextLoop_spec h hlen with
      ⟨rfl, cur', heq, hrem⟩ | ⟨key, v, rest, cur', sm₁, rfl, heq, hvacate, hrem⟩
    · rw [heq]
      exact ⟨cur', sm, rfl, .nil sm, hrem⟩
    · obtain ⟨cur'', sm', htake, hrun, hrem'⟩ := ih hrem
      rw [heq]
      simp only [ok_bind, htake, hrem.count]
      exact ⟨cur'', sm', rfl, .cons hvacate hrun, hrem'⟩

theorem remaining_start (h : Wf sm) : Remaining sm 1 sm.pairs :=
  ⟨h, h.length_pos, rfl, h.pairs_length.symm⟩

theorem Remaining.length_le {cur : Nat} {es : List (KeyData × V)} (h : Remaining sm cur es) :
    es.length ≤ sm.slots.length - cur := by
  have htag : ∀ s ∈ sm.slots.drop cur, s.Tagged :=
    fun s hs => h.wf.tagged s (List.mem_of_mem_drop hs)
  rw [← h.entries_eq, entries_length htag, ← List.length_drop]
  exact List.countP_le_length

theorem drain_spec (h : Wf sm) (n : Nat) :
    ∃ sm', sm.drain n = .ok ((countdown sm.pairs).take n, countdown (sm.pairs.drop n), sm') ∧
      Run Elem sm (sm.pairs.map fun p => .vacate p.1 p.2) sm' := by
  obtain ⟨cur, sm₁, htake, hrun, hrem⟩ := drainTake_spec n (remaining_start h)
  obtain ⟨cur', sm₂, htake', hrun', -⟩ := drainTake_spec (sm₁.slots.length + 1 - cur) hrem
  have hall : (sm.pairs.drop n).length ≤ sm₁.slots.length + 1 - cur := by
    have := hrem.length_le
    omega
  rw [List.take_of_length_le (by rw [countdown_length]; exact hall)] at htake'
  rw [List.take_of_length_le hall] at hrun'
  refine ⟨sm₂, ?_, ?_⟩
  · simp only [SlotMap.drain, htake, htake', ok_bind]
  · rw [← List.take_append_drop n sm.pairs, List.map_append]
    exact hrun.append hrun'

theorem clear_spec (h : Wf sm) :
    ∃ sm', sm.clear = .ok (countdown sm.pairs, sm') ∧
      Run Elem sm (sm.pairs.map fun p => .vacate p.1 p.2) sm' := by
  obtain ⟨sm', heq, hrun⟩ := drain_spec h 0
  refine ⟨sm', ?_, hrun⟩
  simp only [SlotMap.clear, heq, ok_bind, List.drop_zero]

/-! ## `IntoIter` -/

theorem intoIter_nextLoop_spec {i : Nat} {l : List (Slot V)} (h : ∀ s ∈ l, s.Tagged) :
    (entries i l = [] ∧ IntoIter.nextLoop (entries i l).length (l.zipIdx i) = .ok (none, ⟨0, []⟩)) ∨
    ∃ p j l', entries i l = p :: entries j l' ∧ (∀ s ∈ l', s.Tagged) ∧
      IntoIter.nextLoop (entries i l).length (l.zipIdx i) =
        .ok (some p, ⟨(entries j l').length, l'.zipIdx j⟩) := by
  induction l generalizing i with
  | nil => exact .inl ⟨rfl, rfl⟩
  | cons s rest ih =>
    have hs := (h s List.mem_cons_self).2
    have hrest : ∀ t ∈ rest, t.Tagged := fun t ht => h t (List.mem_cons_of_mem s ht)
    obtain ⟨v | m, version⟩ := s
    · refine .inr ⟨_, i + 1, rest, rfl, hrest, ?_⟩
      simp only [entries, List.zipIdx_cons, IntoIter.nextLoop, Slot.occupied_value hs, if_true,
        SlotUnion.readValue, ok_bind, List.length_cons]
      rw [expect_checkedSub _ (Nat.le_add_left 1 _)]
      rfl
    · simp only [entries, List.zipIdx_cons, IntoIter.nextLoop, Slot.occupied_nextFree hs,
        Bool.false_eq_true, if_false]
      exact ih hrest

theorem intoIter_take_spec (n : Nat) {i : Nat} {l : List (Slot V)} (h : ∀ s ∈ l, s.Tagged) :
    ∃ it, IntoIter.take n ⟨(entries i l).length, l.zipIdx i⟩ =
        .ok ((countdown (entries i l)).take n, it) ∧
      it.numLeft = (entries i l).length - n := by
  induction n generalizing i l with
  | zero => exact ⟨_, rfl, rfl⟩
  | succ n ih =>
    unfold IntoIter.take IntoIter.next
    rcases intoIter_nextLoop_spec (i := i) h with ⟨hnil, heq⟩ | ⟨p, j, l', hcons, htag, heq⟩
    · rw [heq, hnil]
      exact ⟨⟨0, []⟩, rfl, by simp⟩
    · obtain ⟨it, htake, hleft⟩ := ih (i := j) htag
      rw [heq, hcons]
      simp only [ok_bind, htake]
      refine ⟨it, rfl, ?_⟩
      rw [hleft, List.length_cons]
      omega

/-- `into_iter` yields the pairs of the map, with an exact remaining count. -/
theorem intoIter_spec (h : Wf sm) (n : Nat) :
    ∃ it, sm.intoIter.take n = .ok ((countdown sm.pairs).take n, it) ∧
      it.numLeft = sm.pairs.length - n := by
  have hiter : sm.intoIter = ⟨sm.pairs.length, (sm.slots.drop 1).zipIdx 1⟩ := by
    rw [SlotMap.intoIter, h.pairs_length, h.slots_eq]
    simp
  rw [hiter]
  exact intoIter_take_spec n fun s hs => h.tagged s (List.mem_of_mem_drop hs)

/-! ## `try_clone` -/

/-- Entry by entry, the clones. -/
def CloneOf (clone : Nat → V → Except E V) (p q : KeyData × V) : Prop :=
  p.1 = q.1 ∧ clone p.1.idx p.2 = .ok q.2

theorem cloneOf_keys {clone : Nat → V → Except E V} {l l' : List (KeyData × V)}
    (h : List.Forall₂ (CloneOf clone) l l') : l'.map Prod.fst = l.map Prod.fst := by
  induction h with
  | nil => rfl
  | cons hp _ ih => rw [List.map_cons, List.map_cons, ih, hp.1]

theorem exists_cloneOf {clone : Nat → V → Except E V} {l l' : List (KeyData × V)}
    (h : List.Forall₂ (CloneOf clone) l l') {p : KeyData × V} (hp : p ∈ l) :
    ∃ q ∈ l', CloneOf clone p q := by
  induction h with
  | nil => exact absurd hp List.not_mem_nil
  | cons hpq _ ih =>
    rcases List.mem_cons.mp hp with rfl | hp
    · exact ⟨_, List.mem_cons_self, hpq⟩
    · obtain ⟨q, hq, hclone⟩ := ih hp
      exact ⟨q, List.mem_cons_of_mem _ hq, hclone⟩

theorem tryCloneSlots_spec (clone : Nat → V → Except E V) (done rest : List (Slot V)) (h : Wf sm)
    (hslots : sm.slots = done ++ rest) :
    (∃ e, SlotMap.tryCloneSlots clone done.length rest = .ok (.error e)) ∨
    ∃ rest', SlotMap.tryCloneSlots clone done.length rest = .ok (.ok rest') ∧
      List.Forall₂ (CloneOf clone) (entries done.length rest) (entries done.length rest') ∧
      Run Elem sm ((entries done.length rest').map fun q => .write q.1 q.2)
        { sm with slots := done ++ rest' } := by
  induction rest generalizing sm done with
  | nil => exact .inr ⟨[], rfl, .nil, by rw [← hslots]; exact .nil sm⟩
  | cons s rest ih =>
    have hs : sm.slots[done.length]? = some s := by simp [hslots]
    have htag := h.slot_tagged hs
    have hnext : ∀ t : Slot V, (done ++ [t]).length = done.length + 1 := fun t => by simp
    obtain ⟨v | m, version⟩ := s
    · have hkey := h.slot_of_key hs
      obtain ⟨hidx, hver⟩ := h.key_of_slot hs
      simp only [SlotMap.tryCloneSlots, Slot.tryClone, Slot.get, Slot.occupied_value htag.2,
        if_true,
        SlotUnion.readValue, Except.map, ok_bind]
      cases hclone : clone done.length v with
      | error e => exact .inl ⟨e, rfl⟩
      | ok v' =>
        have hwrite : Elem sm (.write _ v') _ := .write hkey
        have hset : sm.slots.set done.length ⟨.value v', version⟩ =
            (done ++ [⟨.value v', version⟩]) ++ rest := by simp [hslots]
        rw [hidx, hver, hset] at hwrite
        have hrest := ih _ (hwrite.wf h) rfl
        rw [hnext] at hrest
        simp only [ok_bind]
        rcases hrest with ⟨e, heq⟩ | ⟨rest', heq, hall, hrun⟩
        · exact .inl ⟨e, by rw [heq]; rfl⟩
        · refine .inr ⟨⟨.value v', version⟩ :: rest', by rw [heq]; rfl, ?_, ?_⟩
          · exact .cons ⟨rfl, by rw [hidx]; exact hclone⟩ hall
          · rw [List.append_assoc _ _ rest'] at hrun
            exact .cons hwrite hrun
    · have hrest := ih (done ++ [⟨.nextFree m, version⟩]) h (by simp [hslots])
      rw [hnext] at hrest
      simp only [SlotMap.tryCloneSlots, Slot.tryClone, Slot.get, Slot.occupied_nextFree htag.2,
        Bool.false_eq_true, if_false, SlotUnion.readNextFree, Except.map, ok_bind]
      rcases hrest with ⟨e, heq⟩ | ⟨rest', heq, hall, hrun⟩
      · exact .inl ⟨e, by rw [heq]; rfl⟩
      · refine .inr ⟨⟨.nextFree m, version⟩ :: rest', by rw [heq]; rfl, hall, ?_⟩
        rw [List.append_assoc _ _ rest'] at hrun
        exact hrun

theorem tryClone_spec [RawVec (Slot V)] (h : Wf sm) (clone : Nat → V → Except E V) (a : Allocator) :
    (∃ e a', sm.tryClone clone a = .ok (.error e, a')) ∨
    ∃ sm' a', sm.tryClone clone a = .ok (.ok sm', a') ∧
      List.Forall₂ (CloneOf clone) sm.pairs sm'.pairs ∧
      Run Elem sm ((sm'.pairs.map fun q => .write q.1 q.2) ++ [.resize]) sm' := by
  unfold SlotMap.tryClone
  rcases vecTryReserve (Slot V) 0 0 sm.slots.length a with ⟨e | capacity, a'⟩
  · exact .inl ⟨_, _, rfl⟩
  · have hspec := tryCloneSlots_spec clone [] _ h (List.nil_append _).symm
    simp only [List.length_nil, List.nil_append] at hspec
    rcases hspec with ⟨e, heq⟩ | ⟨slots, heq, hall, hrun⟩
    · exact .inl ⟨_, _, by rw [heq]; rfl⟩
    · have hresize := hrun.snoc (.resize _ capacity)
      have hpairs := (wf_of_run hresize h).entries_zero
      rw [h.entries_zero, hpairs] at hall
      rw [hpairs] at hresize
      exact .inr ⟨_, _, by rw [heq]; rfl, hall, hresize⟩

end Rustyfill.Slotmap
