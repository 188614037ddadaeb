import Rustyfill.Secondary.Loops

/-!
# Runs of calls

Any sequence of calls, each with any keys, closures and schedule of allocation failures. The
count of elements is right in every state that is reached. The rest of the bookkeeping needs the
sentinel slot to be vacant, which a key of index zero can undo.
-/

namespace Rustyfill.Secondary

open Slotmap (KeyData maxSlotsLen TryCloneError countdown)
open Transition SecondaryMap

set_option autoImplicit false

/-- A call that may change the map. After `tryClone` the run goes on with the clone; `leakDrain`
is a `Drain` that is run for some calls and then forgotten. -/
inductive Op (V E : Type) where
  | setCapacity (newCapacity : Nat) (a : Allocator)
  | insert (key : KeyData) (value : V) (a : Allocator)
  | entry (key : KeyData) (use : EntryUse V) (a : Allocator)
  | remove (key : KeyData)
  | getMut (key : KeyData) (write : V → V)
  | retain (f : Nat → KeyData → V → Bool × V)
  | iterMut (write : KeyData → V → V)
  | drain (n : Nat)
  | leakDrain (n : Nat)
  | clear
  | extend (pairs : List (KeyData × V)) (a : Allocator)
  | tryClone (clone : Nat → V → Except E V) (a : Allocator)

variable {V E : Type} {sm sm' : SecondaryMap V}

def Op.exec [RawVec (Slot V)] (sm : SecondaryMap V) : Op V E → Except Fault (SecondaryMap V)
  | .setCapacity newCapacity a => .ok (sm.trySetCapacity newCapacity a).2.1
  | .insert key value a => do
    let (_, sm, _) ← sm.tryInsert key value a
    .ok sm
  | .entry key use a => do
    match ← sm.tryEntry key a with
    | (.ok (some found), sm, _) => use.exec sm found
    | (_, sm, _) => .ok sm
  | .remove key => do
    let (_, sm) ← sm.remove key
    .ok sm
  | .getMut key write => do
    let (_, sm) ← sm.getMut key write
    .ok sm
  | .retain f => sm.retain f
  | .iterMut write => .ok (sm.iterMut write)
  | .drain n => do
    let (_, _, sm) ← sm.drain n
    .ok sm
  | .leakDrain n => do
    let (_, _, sm) ← drainTake n 1 sm
    .ok sm
  | .clear => sm.clear
  | .extend pairs a => do
    let (sm, _) ← sm.extend pairs a
    .ok sm
  | .tryClone clone a =>
    match sm.tryClone clone a with
    | (.ok copy, _) => .ok copy
    | (.error _, _) => .ok sm

def Call [RawVec (Slot V)] (sm : SecondaryMap V) (op : Op V E) (sm' : SecondaryMap V) : Prop :=
  op.exec sm = .ok sm'

/-- A map that a constructor returned. -/
def Initial [RawVec (Slot V)] (sm : SecondaryMap V) : Prop :=
  ∃ capacity a, (SecondaryMap.tryWithCapacity capacity a).1 = .ok sm

/-- The key belongs to the sentinel slot and is not older than a vacant one. -/
def FillsSentinel (key : KeyData) : Prop := key.idx = 0 ∧ key.version < 2147483648

/-- A vacant entry is filled. -/
def EntryUse.Inserts : EntryUse V → Prop
  | orInsert _ _ => True
  | andModify _ default => default.isSome
  | matched _ _ value => value.isSome

/-- The call does not fill a vacant sentinel slot. -/
def Op.Indexed : Op V E → Prop
  | .insert key _ _ => ¬ FillsSentinel key
  | .entry key use _ => use.Inserts → ¬ FillsSentinel key
  | .extend pairs _ => ∀ p ∈ pairs, ¬ FillsSentinel p.1
  | _ => True

/-! ## One call -/

/-- Half of the versions count as older than the zero of a vacant slot. -/
theorem isOlderVersion_zero (key : KeyData) :
    isOlderVersion key.version 0 = true ↔ 2147483648 ≤ key.version := by
  have hle := key.version_le
  have hwrap : wrappingSub key.version 0 = key.version := by
    rw [wrappingSub, Nat.sub_zero, Nat.add_mod_right]
    exact Nat.mod_eq_of_lt (Nat.lt_succ_of_le hle)
  rw [isOlderVersion, hwrap, decide_eq_true_iff]

theorem Seated.idx_ne_zero (h : Seated sm) {key : KeyData}
    (hsome : (entryOf key (sm.slotAt key.idx)).isSome) (hkey : ¬ FillsSentinel key) :
    key.idx ≠ 0 := by
  intro hidx
  apply hkey
  refine ⟨hidx, ?_⟩
  by_contra hge
  have hodd := key.version_odd
  have holder := (isOlderVersion_zero key).mpr (Nat.not_lt.mp hge)
  have hslot : sm.slotAt key.idx = .vacant := by
    rw [hidx]
    exact slotAt_of_getElem? h
  rw [hslot, entryOf, Slot.version, if_neg (by omega), if_pos holder] at hsome
  simp at hsome

/-- What a call leaves: a run of changes, none of which fills the sentinel slot unless `P` fails. -/
def Changed (P : Prop) (sm sm' : SecondaryMap V) : Prop :=
  ∃ cs, Run Elem sm cs sm' ∧ (P → ∀ c ∈ cs, c.Above)

theorem Changed.refl (P : Prop) (sm : SecondaryMap V) : Changed P sm sm := ⟨[], .nil sm, by simp⟩

theorem Changed.trans {P : Prop} {sm₁ sm₂ sm₃ : SecondaryMap V} (h : Changed P sm₁ sm₂)
    (h' : Changed P sm₂ sm₃) : Changed P sm₁ sm₃ := by
  obtain ⟨cs, hr, hc⟩ := h
  obtain ⟨cs', hr', hc'⟩ := h'
  exact ⟨cs ++ cs', hr.append hr', fun hp => List.forall_mem_append.mpr ⟨hc hp, hc' hp⟩⟩

theorem Changed.single {P : Prop} {c : Change V} (h : Elem sm c sm') (hc : P → c.Above) :
    Changed P sm sm' :=
  ⟨[c], .single h, fun hp => by simpa using hc hp⟩

theorem Changed.of_run {P : Prop} (h : ∃ cs, Run Elem sm cs sm' ∧ ∀ c ∈ cs, c.Above) :
    Changed P sm sm' := by
  obtain ⟨cs, hr, hc⟩ := h
  exact ⟨cs, hr, fun _ => hc⟩

theorem Changed.weaken {P Q : Prop} (h : Changed P sm sm') (hpq : Q → P) : Changed Q sm sm' := by
  obtain ⟨cs, hr, hc⟩ := h
  exact ⟨cs, hr, fun hq => hc (hpq hq)⟩

theorem Changed.trans_weaken {P P' Q : Prop} {sm₁ sm₂ sm₃ : SecondaryMap V}
    (h : Changed P sm₁ sm₂) (h' : Changed P' sm₂ sm₃) (hq : Q → P ∧ P') : Changed Q sm₁ sm₃ :=
  (h.weaken fun q => (hq q).1).trans (h'.weaken fun q => (hq q).2)

theorem Changed.wf {P : Prop} (h : Changed P sm sm') (hw : Wf sm) : Wf sm' := by
  obtain ⟨cs, hr, -⟩ := h
  exact hw.run hr

theorem Changed.seated {P : Prop} (h : Changed P sm sm') (hseat : Seated sm) (hp : P) :
    Seated sm' := by
  obtain ⟨cs, hr, hc⟩ := h
  exact hseat.run hr (hc hp)

theorem writeAll_spec (P : Prop) {kd : KeyData} {old : V} {version : Version}
    (hs : sm.slots[kd.idx]? = some (.occupied old version)) (writes : List (V → V)) :
    ∃ sm' value, EntryUse.writeAll kd writes sm = .ok sm' ∧ Changed P sm sm' ∧
      sm'.slots[kd.idx]? = some (.occupied value version) := by
  induction writes generalizing sm old with
  | nil => exact ⟨sm, old, rfl, .refl P sm, hs⟩
  | cons write rest ih =>
    obtain ⟨sm₁, hwrite, helem, hslots⟩ := getUncheckedMut_spec hs write
    have hs₁ : sm₁.slots[kd.idx]? = some (.occupied (write old) version) := by
      rw [hslots, List.getElem?_set_self (List.getElem?_eq_some_iff.mp hs).1]
    obtain ⟨sm', value, hrest, hchanged, hs'⟩ := ih hs₁
    refine ⟨sm', value, ?_, .trans (.single helem fun _ => trivial) hchanged, hs'⟩
    simp only [EntryUse.writeAll, hwrite, ok_bind, hrest]

theorem use_occupied_spec (P : Prop) (h : Wf sm) {kd : KeyData} {old : V} {version : Version}
    (hs : sm.slots[kd.idx]? = some (.occupied old version)) (use : EntryUse V) :
    ∃ sm', use.exec sm (.occupied kd) = .ok sm' ∧ Changed P sm sm' := by
  cases use with
  | orInsert default write =>
    obtain ⟨sm', -, hwrite, hchanged, -⟩ := writeAll_spec P hs [write]
    exact ⟨sm', hwrite, hchanged⟩
  | andModify f default =>
    obtain ⟨sm', -, hwrite, hchanged, -⟩ := writeAll_spec P hs [f]
    exact ⟨sm', hwrite, hchanged⟩
  | matched writes remove value =>
    obtain ⟨sm', v, hwrite, hchanged, hs'⟩ := writeAll_spec P hs writes
    cases remove with
    | false =>
      refine ⟨sm', ?_, hchanged⟩
      simp [EntryUse.exec, hwrite]
    | true =>
      obtain ⟨hvacate, helem⟩ := vacate_spec (hchanged.wf h) hs'
      refine ⟨_, ?_, hchanged.trans (.single helem fun _ => trivial)⟩
      simp [EntryUse.exec, hwrite, occupiedRemove, hs', hvacate, Slot.getUnchecked]

theorem use_vacant_spec (h : Wf sm) {kd : KeyData} {s : Slot V} (hs : sm.slots[kd.idx]? = some s)
    (use : EntryUse V) : ∃ sm', use.exec sm (.vacant kd) = .ok sm' ∧
      Changed (use.Inserts → kd.idx ≠ 0) sm sm' := by
  have hinsert : ∀ value, ∃ sm', sm.vacantInsert kd value = .ok sm' ∧
      Changed (kd.idx ≠ 0) sm sm' ∧
      sm'.slots[kd.idx]? = some (.occupied value (versionOf kd)) := by
    intro value
    obtain ⟨sm', hok, helem, hslots⟩ := vacantInsert_spec h hs value
    refine ⟨sm', hok, .single helem id, ?_⟩
    rw [hslots, List.getElem?_set_self (List.getElem?_eq_some_iff.mp hs).1]
  cases use with
  | orInsert default write =>
    obtain ⟨sm₁, hok, hchanged, hs₁⟩ := hinsert default
    obtain ⟨sm', hwrite, helem, -⟩ := getUncheckedMut_spec hs₁ write
    refine ⟨sm', ?_, (hchanged.trans (.single helem fun _ => trivial)).weaken fun hp => hp trivial⟩
    simp [EntryUse.exec, EntryUse.insertAndWrite, hok, hwrite]
  | andModify f default =>
    cases default with
    | none => exact ⟨sm, rfl, .refl _ sm⟩
    | some value =>
      obtain ⟨sm', hok, hchanged, -⟩ := hinsert value
      exact ⟨sm', hok, hchanged.weaken fun hp => hp rfl⟩
  | matched writes remove value =>
    cases value with
    | none => exact ⟨sm, rfl, .refl _ sm⟩
    | some value =>
      obtain ⟨sm', hok, hchanged, -⟩ := hinsert value
      exact ⟨sm', hok, hchanged.weaken fun hp => hp rfl⟩

theorem entry_spec [RawVec (Slot V)] (h : Wf sm) (key : KeyData) (use : EntryUse V)
    (a : Allocator) :
    ∃ sm', (Op.entry key use a : Op V E).exec sm = .ok sm' ∧
      Changed (Seated sm ∧ (use.Inserts → ¬ FillsSentinel key)) sm sm' := by
  by_cases hkey : Usable key
  · rcases tryEntry_usable sm hkey a with
      ⟨sm₁, a₁, hentry, hsame, hidx⟩ | ⟨e, a', hentry⟩
    · have hchanged : Changed (Seated sm ∧ (use.Inserts → ¬ FillsSentinel key)) sm sm₁ :=
        .of_run hsame.run
      have hs : sm₁.slots[key.idx]? = some sm₁.slots[key.idx] := List.getElem?_eq_getElem hidx
      have hslot : sm₁.slots[key.idx] = sm.slotAt key.idx := by
        rw [← hsame.slotAt_eq, slotAt_of_getElem? hs]
      rw [hslot] at hs
      by_cases heq : key.version = (sm.slotAt key.idx).version
      · have hsome : entryOf key (sm.slotAt key.idx) = some (.occupied key) := if_pos heq
        obtain ⟨old, hold⟩ := occupied_of_version heq
        obtain ⟨sm', hok, hchanged'⟩ :=
          use_occupied_spec _ (hchanged.wf h) (hs.trans (congrArg some hold)) use
        refine ⟨sm', ?_, hchanged.trans hchanged'⟩
        simp only [Op.exec, hentry, hsome, ok_bind, hok]
      · by_cases holder : isOlderVersion key.version (sm.slotAt key.idx).version
        · have hnone : entryOf key (sm.slotAt key.idx) = none := by
            rw [entryOf, if_neg heq, if_pos holder]
          refine ⟨sm₁, ?_, hchanged⟩
          simp only [Op.exec, hentry, hnone, ok_bind]
        · have hsome : entryOf key (sm.slotAt key.idx) = some (.vacant key) := by
            rw [entryOf, if_neg heq, if_neg holder]
          obtain ⟨sm', hok, hchanged'⟩ := use_vacant_spec (hchanged.wf h) hs use
          refine ⟨sm', ?_, hchanged.trans (hchanged'.weaken fun hp huse => ?_)⟩
          · simp only [Op.exec, hentry, hsome, ok_bind, hok]
          · exact hp.1.idx_ne_zero (by rw [hsome]; rfl) (hp.2 huse)
    · refine ⟨sm, ?_, .refl _ sm⟩
      simp only [Op.exec, hentry, ok_bind]
  · refine ⟨sm, ?_, .refl _ sm⟩
    rcases tryEntry_unusable sm hkey a with hentry | hentry
    · simp only [Op.exec, hentry, ok_bind]
    · simp only [Op.exec, hentry, ok_bind]

theorem tryInsert_changed [RawVec (Slot V)] (h : Wf sm) (key : KeyData) (value : V)
    (a : Allocator) :
    ∃ res sm' a', sm.tryInsert key value a = .ok (res, sm', a') ∧
      Changed (Seated sm ∧ ¬ FillsSentinel key) sm sm' := by
  by_cases hkey : Usable key
  · rcases tryInsert_spec h hkey value a with ⟨sm', a', hok, -, hsame⟩ |
      ⟨old, sm', a', hok, hsome, -, hfilled⟩ | ⟨e, a', hok⟩
    · exact ⟨_, sm', a', hok, .of_run hsame.run⟩
    · refine ⟨_, sm', a', hok, ?_⟩
      apply Changed.weaken hfilled.run
      rintro ⟨hseat, hnot⟩
      exact hseat.idx_ne_zero hsome hnot
    · exact ⟨_, sm, a', hok, .refl _ sm⟩
  · rcases tryEntry_unusable sm hkey a with hentry | hentry
    · refine ⟨.ok none, sm, a, ?_, .refl _ sm⟩
      simp only [tryInsert, tryInsertGiveBack, hentry, ok_bind]
    · refine ⟨.error .capacityOverflow, sm, a, ?_, .refl _ sm⟩
      simp only [tryInsert, tryInsertGiveBack, hentry, ok_bind]

theorem extend_spec [RawVec (Slot V)] (h : Wf sm) (l : List (KeyData × V)) (a : Allocator) :
    ∃ sm' a', sm.extend l a = .ok (sm', a') ∧
      Changed (Seated sm ∧ ∀ p ∈ l, ¬ FillsSentinel p.1) sm sm' := by
  induction l generalizing sm a with
  | nil => exact ⟨sm, a, rfl, .refl _ sm⟩
  | cons p rest ih =>
    obtain ⟨key, value⟩ := p
    obtain ⟨res, sm₁, a₁, hok, hfirst⟩ := tryInsert_changed h key value a
    obtain ⟨sm', a', hrest, hothers⟩ := ih (hfirst.wf h) a₁
    refine ⟨sm', a', ?_, ?_⟩
    · rw [SecondaryMap.extend, hok]
      exact hrest
    · apply Changed.trans_weaken hfirst hothers
      rintro ⟨hseat, hl⟩
      obtain ⟨hkey, hl'⟩ := List.forall_mem_cons.mp hl
      exact ⟨⟨hseat, hkey⟩, hfirst.seated hseat ⟨hseat, hkey⟩, hl'⟩

theorem remove_spec (h : Wf sm) (key : KeyData) : ∃ sm', sm.remove key = .ok (sm.lookup key, sm') ∧
    Changed True sm sm' ∧ (sm.lookup key = none → sm' = sm) := by
  rcases hs : sm.slots[key.idx]? with _ | s
  · have hlookup : sm.lookup key = none := by simp [lookup, slotAt, hs]
    refine ⟨sm, ?_, .refl _ sm, fun _ => rfl⟩
    simp only [SecondaryMap.remove, hs, hlookup]
  · by_cases hversion : s.version = key.version
    · obtain ⟨value, rfl⟩ := occupied_of_version hversion.symm
      have hlookup : sm.lookup key = some value := lookup_eq_some.mpr (slotAt_of_getElem? hs)
      obtain ⟨hvacate, helem⟩ := vacate_spec h hs
      refine ⟨_, ?_, .single helem fun _ => trivial, by simp [hlookup]⟩
      simp only [SecondaryMap.remove, hs, hversion, if_true, hvacate, ok_bind, hlookup,
        Slot.intoOption]
    · have hlookup : sm.lookup key = none := by
        rw [← Option.not_isSome_iff_eq_none, ← containsKey_eq]
        simp [containsKey, hs, hversion]
      refine ⟨sm, ?_, .refl _ sm, fun _ => rfl⟩
      simp only [SecondaryMap.remove, hs, hversion, if_false, hlookup]

theorem getMut_spec (sm : SecondaryMap V) (key : KeyData) (write : V → V) :
    ∃ value sm', sm.getMut key write = .ok (value, sm') ∧ Changed True sm sm' := by
  rcases hs : sm.slots[key.idx]? with _ | s
  · exact ⟨none, sm, by simp only [getMut, hs], .refl _ sm⟩
  · by_cases hversion : s.version = key.version
    · obtain ⟨value, rfl⟩ := occupied_of_version hversion.symm
      obtain ⟨sm', hwrite, helem, -⟩ := getUncheckedMut_spec hs write
      refine ⟨some value, sm', ?_, .single helem fun _ => trivial⟩
      simp only [getMut, hs, hversion, if_true, hwrite, ok_bind]
    · exact ⟨none, sm, by simp only [getMut, hs, hversion, if_false], .refl _ sm⟩

theorem trySetCapacity_spec [RawVec (Slot V)] (sm : SecondaryMap V) (newCapacity : Nat)
    (a : Allocator) : Changed True sm (sm.trySetCapacity newCapacity a).2.1 := by
  rw [trySetCapacity]
  split
  · exact .refl _ sm
  · split
    · rcases vecTryReserve (Slot V) sm.slots.length sm.capacity
        (newCapacity + 1 - sm.slots.length) a with ⟨e | capacity, a'⟩
      · exact .refl _ sm
      · exact .single (.resize sm capacity) fun _ => trivial
    · exact .refl _ sm

/-- Every call succeeds, and fills the sentinel slot only under a key of its index. -/
theorem Op.exec_spec [RawVec (Slot V)] (h : Wf sm) (op : Op V E) :
    ∃ sm', op.exec sm = .ok sm' ∧ Changed (Seated sm ∧ op.Indexed) sm sm' := by
  cases op with
  | setCapacity newCapacity a => exact ⟨_, rfl, (trySetCapacity_spec sm newCapacity a).weaken fun
      _ => trivial⟩
  | insert key value a =>
    obtain ⟨res, sm', a', hok, hchanged⟩ := tryInsert_changed h key value a
    refine ⟨sm', ?_, hchanged⟩
    simp only [Op.exec, hok, ok_bind]
  | entry key use a => exact entry_spec h key use a
  | remove key =>
    obtain ⟨sm', hok, hchanged, -⟩ := remove_spec h key
    refine ⟨sm', ?_, hchanged.weaken fun _ => trivial⟩
    simp only [Op.exec, hok, ok_bind]
  | getMut key write =>
    obtain ⟨value, sm', hok, hchanged⟩ := getMut_spec sm key write
    refine ⟨sm', ?_, hchanged.weaken fun _ => trivial⟩
    simp only [Op.exec, hok, ok_bind]
  | retain f =>
    obtain ⟨sm', cs, hok, hr, hc⟩ := retainLoop_spec f sm.slots.length 0 0 h
    exact ⟨sm', hok, .of_run ⟨cs, hr, hc⟩⟩
  | iterMut write => exact ⟨_, rfl, .of_run (iterMut_spec write sm)⟩
  | drain n =>
    obtain ⟨missed, hstart⟩ := h.remaining_start
    obtain ⟨sm', cs, hok, hr, hc, -⟩ := drain_of_remaining hstart n
    refine ⟨sm', ?_, .of_run ⟨cs, hr, hc⟩⟩
    simp only [Op.exec, hok, ok_bind]
  | leakDrain n =>
    obtain ⟨missed, hstart⟩ := h.remaining_start
    obtain ⟨cur, sm', cs, hok, hr, hc, -⟩ := drainTake_spec n hstart
    refine ⟨sm', ?_, .of_run ⟨cs, hr, hc⟩⟩
    simp only [Op.exec, hok, ok_bind]
  | clear =>
    obtain ⟨missed, hstart⟩ := h.remaining_start
    obtain ⟨sm', cs, hok, hr, hc, -⟩ := drain_of_remaining hstart 0
    refine ⟨sm', ?_, .of_run ⟨cs, hr, hc⟩⟩
    simp only [Op.exec, SecondaryMap.clear, hok, ok_bind]
  | extend l a =>
    obtain ⟨sm', a', hok, hchanged⟩ := extend_spec h l a
    refine ⟨sm', ?_, hchanged⟩
    simp only [Op.exec, hok, ok_bind]
  | tryClone clone a =>
    rcases hclone : sm.tryClone clone a with ⟨e | copy, a'⟩
    · refine ⟨sm, ?_, .refl _ sm⟩
      simp only [Op.exec, hclone]
    · refine ⟨copy, ?_, .of_run (tryClone_spec hclone)⟩
      simp only [Op.exec, hclone]

theorem Call.changed [RawVec (Slot V)] (h : Wf sm) {op : Op V E} (hc : Call sm op sm') :
    Changed (Seated sm ∧ op.Indexed) sm sm' := by
  obtain ⟨sm₁, hok, hchanged⟩ := op.exec_spec h
  obtain rfl := Except.ok.inj (hok.symm.trans hc)
  exact hchanged

/-! ## Runs -/

theorem Initial.slots_eq [RawVec (Slot V)] (h : Initial sm) :
    sm.slots = [.vacant] ∧ sm.numElems = 0 := by
  obtain ⟨capacity, a, heq⟩ := h
  rw [tryWithCapacity] at heq
  split at heq
  · simp at heq
  · split at heq
    · simp at heq
    · obtain rfl := Except.ok.inj heq
      exact ⟨rfl, rfl⟩

/-- A map for which no room is asked. -/
def fresh (V : Type) [RawVec (Slot V)] : SecondaryMap V :=
  ⟨[.vacant], growAmortized (Slot V) 0 1, 0⟩

theorem fresh_initial [RawVec (Slot V)] : Initial (fresh V) := ⟨0, ⟨fun _ => true, 0⟩, rfl⟩

theorem Initial.wf [RawVec (Slot V)] (h : Initial sm) : Wf sm := by
  obtain ⟨hslots, hnum⟩ := h.slots_eq
  refine ⟨by rw [hslots, hnum]; rfl, by rw [hslots]; exact Nat.one_pos, ?_⟩
  rw [hslots]
  simp [maxSlotsLen, Slotmap.danglingSentinel, u32Max]

theorem Initial.seated [RawVec (Slot V)] (h : Initial sm) : Seated sm := by
  rw [Seated, h.slots_eq.1]
  rfl

section
variable {sm₀ : SecondaryMap V} {calls : List (Op V E)}

theorem wf_of_calls [RawVec (Slot V)] (hinit : Initial sm₀) (hr : Run Call sm₀ calls sm) : Wf sm :=
  hr.invariant (fun _ _ _ hw hc => (Call.changed hw hc).wf hw) hinit.wf

/-- A call that names no key of the sentinel slot. -/
abbrev IndexedCall [RawVec (Slot V)] : SecondaryMap V → Op V E → SecondaryMap V → Prop :=
  Guarded Call fun _ op => op.Indexed

theorem seated_of_calls [RawVec (Slot V)] (hinit : Initial sm₀)
    (hr : Run IndexedCall sm₀ calls sm) : Wf sm ∧ Seated sm := by
  refine hr.invariant (I := fun sm => Wf sm ∧ Seated sm) ?_ ⟨hinit.wf, hinit.seated⟩
  rintro s op t ⟨hw, hseat⟩ ⟨hindexed, hc⟩
  have hchanged := Call.changed hw hc
  exact ⟨hchanged.wf hw, hchanged.seated hseat ⟨hseat, hindexed⟩⟩

/-! ## Round trip -/

def HoldsNewer (sm : SecondaryMap V) (key : KeyData) : Prop :=
  ∃ value version, sm.slotAt key.idx = .occupied value version ∧ version.val ≠ key.version ∧
    isOlderVersion key.version version.val = true

theorem fresh_not_newer [RawVec (Slot V)] (key : KeyData) : ¬ HoldsNewer (fresh V) key := by
  rintro ⟨value, version, hslot, -⟩
  rw [slotAt_occupied] at hslot
  have hmem := List.mem_of_getElem? hslot
  simp [fresh] at hmem

/-- A key that was inserted without an error can be read back, exactly when its slot was
occupied or its version is in the lower half. -/
theorem tryInsert_get_iff [RawVec (Slot V)] (hinit : Initial sm₀) (hr : Run Call sm₀ calls sm)
    (key : KeyData) (hkey : Usable key) (hnewer : ¬ HoldsNewer sm key) (value : V) (a : Allocator)
    (old : Option V) (sm' : SecondaryMap V) (a' : Allocator)
    (hok : sm.tryInsert key value a = .ok (.ok old, sm', a')) :
    (sm'.get key = .ok (some value) ∧ sm'.containsKey key = true) ↔
      ((sm.slotAt key.idx).isOccupied = true ∨ key.version < 2147483648) := by
  have hw := wf_of_calls hinit hr
  have hodd := key.version_odd
  have hentry : entryOf key (sm.slotAt key.idx) = none ↔
      ¬ ((sm.slotAt key.idx).isOccupied = true ∨ key.version < 2147483648) := by
    rw [entryOf]
    cases hs : sm.slotAt key.idx with
    | occupied v version =>
      refine iff_of_false (fun hnone => ?_) (by simp [Slot.isOccupied])
      split at hnone
      · simp at hnone
      · rename_i hne
        split at hnone
        · rename_i holder
          exact hnewer ⟨v, version, hs, fun h => hne h.symm, holder⟩
        · simp at hnone
    | vacant =>
      rw [Slot.version, if_neg (by omega)]
      by_cases holder : isOlderVersion key.version 0 = true
      · have hge := (isOlderVersion_zero key).mp holder
        rw [if_pos holder]
        simp only [Slot.isOccupied, Bool.false_eq_true, false_or, true_iff]
        omega
      · have hlt := mt (isOlderVersion_zero key).mpr holder
        rw [if_neg holder]
        simp only [Slot.isOccupied, Bool.false_eq_true, false_or, reduceCtorEq, false_iff,
          Classical.not_not]
        omega
  rw [get_eq, containsKey_eq]
  rcases tryInsert_spec hw hkey value a with ⟨sm₁, a₁, hins, hnone, hsame⟩ |
    ⟨old₁, sm₁, a₁, hins, hsome, -, hfilled⟩ | ⟨e, a₁, hins⟩
  · obtain ⟨-, rfl, -⟩ : none = old ∧ sm₁ = sm' ∧ a₁ = a' := by
      simpa using hins.symm.trans hok
    have hcond := hentry.mp hnone
    refine iff_of_false ?_ hcond
    rintro ⟨hget, -⟩
    have hslot := lookup_eq_some.mp (Except.ok.inj hget)
    rw [hsame.slotAt_eq] at hslot
    exact hcond (Or.inl (by rw [hslot]; rfl))
  · obtain ⟨-, rfl, -⟩ : old₁ = old ∧ sm₁ = sm' ∧ a₁ = a' := by
      simpa using hins.symm.trans hok
    refine iff_of_true ⟨by rw [hfilled.lookup_eq], by rw [hfilled.lookup_eq]; rfl⟩ ?_
    by_contra hcond
    rw [hentry.mpr hcond] at hsome
    simp at hsome
  · exact absurd (hins.symm.trans hok) (by simp)

instance : RawVec (Slot Nat) := ⟨4⟩

/-- The first key of a slot map, in a fresh map. -/
theorem tryInsert_get_first : ∃ sm' a',
    (fresh Nat).tryInsert (.new 1 1) 7 ⟨fun _ => true, 0⟩ = .ok (.ok none, sm', a') ∧
      sm'.get (.new 1 1) = .ok (some 7) ∧ sm'.containsKey (.new 1 1) = true := by
  refine ⟨_, _, rfl, ?_⟩
  apply (tryInsert_get_iff (E := Unit) fresh_initial (.nil _) (.new 1 1) ⟨by decide⟩ ?_ 7
    ⟨fun _ => true, 0⟩ none _ _ rfl).mpr
  · exact Or.inr (by decide)
  · exact fresh_not_newer _

/-- A key that a slot map issues when a slot has been used `2^30` times is not there after its
insertion in a fresh map. -/
theorem tryInsert_get_upper : ¬ ∀ (sm₀ sm : SecondaryMap Nat) (calls : List (Op Nat Unit)),
    Initial sm₀ → Run Call sm₀ calls sm → ∀ key, Usable key → ¬ HoldsNewer sm key →
    ∀ value a old sm' a', sm.tryInsert key value a = .ok (.ok old, sm', a') →
      sm'.get key = .ok (some value) ∧ sm'.containsKey key = true := by
  intro hclaim
  obtain ⟨-, hcontains⟩ := hclaim _ _ [] fresh_initial (.nil _) (.new 1 2147483649) ⟨by decide⟩
    (fresh_not_newer _) 7 ⟨fun _ => true, 0⟩ none _ _ rfl
  exact absurd hcontains (by decide)

/-! ## Bookkeeping -/

/-- Nothing is left. -/
structure Empty (sm : SecondaryMap V) : Prop where
  numElems_eq : sm.numElems = 0
  get_eq : ∀ key, sm.get key = .ok none
  containsKey_eq : ∀ key, sm.containsKey key = false

/-- A key of the slot that is not the one it holds reads and removes nothing. An older one
changes nothing either, and a newer one, once inserted, is there in the other's place. -/
structure Ordered [RawVec (Slot V)] (sm : SecondaryMap V) (key k : KeyData) : Prop where
  get_eq : sm.get k = .ok none
  remove_eq : sm.remove k = .ok (none, sm)
  stale_entry : isOlderVersion k.version key.version = true → ∀ a res sm' a',
    sm.tryEntry k a = .ok (res, sm', a') →
      (∀ entry, res ≠ .ok (some entry)) ∧ ∀ other, sm'.get other = sm.get other
  stale_insert : isOlderVersion k.version key.version = true → ∀ value a res sm' a',
    sm.tryInsert k value a = .ok (res, sm', a') → ∀ other, sm'.get other = sm.get other
  newer_insert : isOlderVersion k.version key.version = false → ∀ value a old sm' a',
    sm.tryInsert k value a = .ok (.ok old, sm', a') →
      sm'.get k = .ok (some value) ∧ sm'.get key = .ok none

structure Bookkeeping [RawVec (Slot V)] (sm : SecondaryMap V) : Prop where
  count : sm.numElems = sm.slots.countP Slot.isOccupied
  live : ∀ key value, (key, value) ∈ sm.pairs ↔ sm.get key = .ok (some value)
  nodup : (sm.pairs.map Prod.fst).Nodup
  iter : ∀ n, ∃ it, sm.iter.take n = .ok ((countdown sm.pairs).take n, it) ∧
    it.numLeft = sm.pairs.length - n
  intoIter : ∀ n, ∃ it, sm.intoIter.take n = .ok ((countdown sm.pairs).take n, it) ∧
    it.numLeft = sm.pairs.length - n
  drain : ∀ n, ∃ sm', sm.drain n =
    .ok ((countdown sm.pairs).take n, countdown (sm.pairs.drop n), sm') ∧ Empty sm'
  clear : ∃ sm', sm.clear = .ok sm' ∧ Empty sm'
  versions : ∀ key value k, sm.get key = .ok (some value) → k.idx = key.idx → k ≠ key →
    Ordered sm key k

theorem Wf.empty (h : Wf sm) (hnum : sm.numElems = 0) : Empty sm where
  numElems_eq := hnum
  get_eq := fun key => by rw [SecondaryMap.get_eq, h.lookup_of_empty hnum]
  containsKey_eq := fun key => by rw [SecondaryMap.containsKey_eq, h.lookup_of_empty hnum]; rfl

theorem SameSlots.get_eq (h : SameSlots sm sm') (key : KeyData) : sm'.get key = sm.get key := by
  rw [SecondaryMap.get_eq, SecondaryMap.get_eq, lookup_congr (h.slotAt_eq key.idx)]

theorem entryOf_of_ne {key k : KeyData} (value : V) (hne : k.version ≠ key.version) :
    entryOf k (.occupied value (versionOf key)) =
      if isOlderVersion k.version key.version then none else some (.vacant k) :=
  if_neg hne

theorem Wf.ordered [RawVec (Slot V)] (h : Wf sm) {key k : KeyData} {value : V}
    (hkey : sm.lookup key = some value) (hidx : k.idx = key.idx) (hne : k ≠ key) :
    Ordered sm key k := by
  have hslot := lookup_eq_some.mp hkey
  have hversion : k.version ≠ key.version := fun heq => hne (KeyData.ext hidx heq)
  have hentry := entryOf_of_ne value hversion
  rw [← hslot, ← hidx] at hentry
  have hlookup : sm.lookup k = none := by
    rw [lookup_of_occupied (hidx ▸ hslot)]
    exact if_neg hversion.symm
  have husable : Usable k := by
    have hlt := (List.getElem?_eq_some_iff.mp (slotAt_occupied.mp hslot)).1
    have hle := h.length_le
    exact ⟨by omega⟩
  refine ⟨?_, ?_, ?_, ?_, ?_⟩
  · rw [SecondaryMap.get_eq, hlookup]
  · obtain ⟨sm', hok, -, hsame⟩ := remove_spec h k
    rw [hok, hlookup, hsame hlookup]
  · intro hstale a res sm' a' hok
    rcases tryEntry_usable sm husable a with ⟨sm₁, a₁, hres, hsame, -⟩ | ⟨e, a₁, hres⟩
    · rw [hentry, if_pos hstale] at hres
      obtain ⟨rfl, rfl, -⟩ : .ok none = res ∧ sm₁ = sm' ∧ a₁ = a' := by
        simpa using hres.symm.trans hok
      exact ⟨by simp, hsame.get_eq⟩
    · obtain ⟨rfl, rfl, -⟩ : .error e = res ∧ sm = sm' ∧ a₁ = a' := by
        simpa using hres.symm.trans hok
      exact ⟨by simp, fun _ => rfl⟩
  · intro hstale value' a res sm' a' hok other
    rcases tryInsert_spec h husable value' a with ⟨sm₁, a₁, hres, -, hsame⟩ |
      ⟨old, sm₁, a₁, -, hsome, -, -⟩ | ⟨e, a₁, hres⟩
    · obtain ⟨-, rfl, -⟩ : .ok none = res ∧ sm₁ = sm' ∧ a₁ = a' := by
        simpa using hres.symm.trans hok
      exact hsame.get_eq other
    · rw [hentry, if_pos hstale] at hsome
      simp at hsome
    · obtain ⟨-, rfl, -⟩ : .error e = res ∧ sm = sm' ∧ a₁ = a' := by
        simpa using hres.symm.trans hok
      rfl
  · intro hnewer value' a old sm' a' hok
    rcases tryInsert_spec h husable value' a with ⟨sm₁, a₁, -, hnone, -⟩ |
      ⟨old₁, sm₁, a₁, hres, -, -, hfilled⟩ | ⟨e, a₁, hres⟩
    · rw [hentry, hnewer] at hnone
      simp at hnone
    · obtain ⟨-, rfl, -⟩ : old₁ = old ∧ sm₁ = sm' ∧ a₁ = a' := by
        simpa using hres.symm.trans hok
      refine ⟨by rw [SecondaryMap.get_eq, hfilled.lookup_eq], ?_⟩
      have hfilledSlot := hfilled.slotAt_eq key.idx
      rw [if_pos hidx.symm] at hfilledSlot
      rw [SecondaryMap.get_eq, lookup_of_occupied hfilledSlot]
      exact congrArg Except.ok (if_neg hversion)
    · exact absurd (hres.symm.trans hok) (by simp)

theorem drain_empties (h : Wf sm) (hseat : Seated sm) (n : Nat) : ∃ sm', sm.drain n =
    .ok ((countdown sm.pairs).take n, countdown (sm.pairs.drop n), sm') ∧ Empty sm' := by
  obtain ⟨sm', cs, hok, hr, -, hnum⟩ := drain_of_remaining (hseat.remaining_start h) n
  rw [countdownWith_zero, countdownWith_zero] at hok
  exact ⟨sm', hok, (h.run hr).empty hnum⟩

theorem Wf.bookkeeping [RawVec (Slot V)] (h : Wf sm) (hseat : Seated sm) : Bookkeeping sm where
  count := h.count
  live := fun key value => by rw [h.mem_pairs, SecondaryMap.get_eq, Except.ok.injEq]
  nodup := h.pairs_nodup
  iter := iter_spec h
  intoIter := intoIter_spec h hseat
  drain := drain_empties h hseat
  clear := by
    obtain ⟨sm', hok, hempty⟩ := drain_empties h hseat 0
    refine ⟨sm', ?_, hempty⟩
    rw [SecondaryMap.clear, hok]
    rfl
  versions := fun key value k hget hidx hne =>
    h.ordered (Except.ok.inj ((SecondaryMap.get_eq sm key).symm.trans hget)) hidx hne

/-- The bookkeeping is right after any calls that do not fill the sentinel slot, and `eq` compares
the pairs of any two maps that such calls lead to. -/
theorem bookkeeping_of_run [RawVec (Slot V)] [BEq V] {sm₀' : SecondaryMap V}
    {calls' : List (Op V E)}
    (hinit : Initial sm₀) (hr : Run IndexedCall sm₀ calls sm)
    (hinit' : Initial sm₀') (hr' : Run IndexedCall sm₀' calls' sm') :
    Bookkeeping sm ∧ ∃ b, sm.eq sm' = .ok b ∧ (b = true ↔ SamePairs sm sm') := by
  obtain ⟨hw, hseat⟩ := seated_of_calls hinit hr
  obtain ⟨hw', -⟩ := seated_of_calls hinit' hr'
  exact ⟨hw.bookkeeping hseat, eq_iff hw hw'⟩

/-- Two maps with the same pair, one of them with a longer vector of slots. -/
theorem bookkeeping_of_run_longer : ∃ sm sm' : SecondaryMap Nat,
    Run IndexedCall (fresh Nat)
      [(.insert (.new 1 1) 7 ⟨fun _ => true, 0⟩ : Op Nat Unit)] sm ∧
    Run IndexedCall (fresh Nat)
      [(.extend [(.new 2 3, 8), (.new 1 1, 7)] ⟨fun _ => true, 0⟩ : Op Nat Unit),
        .remove (.new 2 3)] sm' ∧
    sm.slots.length = 2 ∧ sm'.slots.length = 3 ∧
    Bookkeeping sm ∧ ∃ b, sm.eq sm' = .ok b ∧ (b = true ↔ SamePairs sm sm') := by
  have hr : Run IndexedCall (fresh Nat)
      [(.insert (.new 1 1) 7 ⟨fun _ => true, 0⟩ : Op Nat Unit)] _ :=
    .single ⟨by simp [Op.Indexed, FillsSentinel, KeyData.new, u32Max], rfl⟩
  have hr' : Run IndexedCall (fresh Nat)
      [(.extend [(.new 2 3, 8), (.new 1 1, 7)] ⟨fun _ => true, 0⟩ : Op Nat Unit),
        .remove (.new 2 3)] _ :=
    .cons ⟨by simp [Op.Indexed, FillsSentinel, KeyData.new, u32Max], rfl⟩ (.single ⟨trivial, rfl⟩)
  exact ⟨_, _, hr, hr', rfl, rfl, bookkeeping_of_run fresh_initial hr fresh_initial hr'⟩

/-- `from_ffi` makes a key of index zero, and `clear` leaves what is inserted under it. -/
theorem bookkeeping_sentinel : ¬ ∀ (sm₀ sm : SecondaryMap Nat) (calls : List (Op Nat Unit)),
    Initial sm₀ → Run Call sm₀ calls sm → Bookkeeping sm := by
  intro hclaim
  have hbook := hclaim _ _ [.insert (fromFfi 4294967296) 7 ⟨fun _ => true, 0⟩] fresh_initial
    (.single rfl)
  obtain ⟨sm', hok, hempty⟩ := hbook.clear
  obtain rfl := Except.ok.inj hok
  exact absurd hempty.numElems_eq (by decide)

end

end Rustyfill.Secondary
