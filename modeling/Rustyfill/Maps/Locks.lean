import Rustyfill.Maps.Actions

/-!
# Guards

Which guard a client holds, and which steps need it. A table changes only under its write
guard, so whoever holds a guard of a shard is the only one who may change its table.
-/

namespace Rustyfill.Maps

open RawHash Interleaving

set_option autoImplicit false

inductive Held where
  | none
  | read (i : Nat)
  | write (i : Nat)
deriving DecidableEq

variable {T E X : Type} {o : Outside E X}

/-- The guard a step needs. A client takes no second guard. -/
@[simp] def Held.allows (h : Held) : Act T E X → Prop
  | .readTable _ | .writeTable _ | .tryWriteTable _ => h = .none
  | .dropReadGuard i => h = .read i
  | .find i .. | .asRef i _ | .len i | .iter i => h = .read i ∨ h = .write i
  | .dropWriteGuard i | .tryReserve i .. | .findOrFindInsertSlot i .. | .insertInSlot i ..
  | .insertNoGrow i .. | .write i .. | .remove i _ | .foreign i => h = .write i
  | .user _ => True

theorem Held.allows.write_of_touches {h : Held} {a : Act T E X} {i : Nat} (ha : h.allows a)
    (htouch : a.touches = some i) : h = .write i := by
  cases a <;> cases htouch <;> exact ha

@[simp] def Held.next (h : Held) : (a : Act T E X) → a.Res o → Held
  | .readTable i, _ => .read i
  | .writeTable i, _ => .write i
  | .tryWriteTable i, ok => if ok then .write i else h
  | .dropReadGuard _, _ | .dropWriteGuard _, _ => .none
  | _, _ => h

/-- The guards the clients hold, against the state of the locks. -/
structure Locks (held : Nat → Held) (s : State T E) : Prop where
  writer : ∀ t i, held t = .write i → s.writer i = some t
  reader : ∀ t i, held t = .read i → t ∈ s.readers i
  exclusive : ∀ i, s.writer i = none ∨ s.readers i = ∅

variable {held : Nat → Held} {s s' : State T E} {t u i j : Nat} {a : Act T E X} {x : a.Res o}

namespace Locks

theorem of_unlocked (h : s.Unlocked) : Locks (fun _ => .none) s where
  writer := by simp
  reader := by simp
  exclusive := fun i => .inl (h.writer i)

theorem eq_of_write (h : Locks held s) (ht : held t = .write i) (hu : held u = .write i) :
    u = t := by
  have hw := h.writer t i ht
  rw [h.writer u i hu] at hw
  exact Option.some.inj hw

theorem not_read_of_write (h : Locks held s) (ht : held t = .write i) : held u ≠ .read i := by
  intro hu
  have hmem := h.reader u i hu
  rcases h.exclusive i with hex | hex
  · simp [h.writer t i ht] at hex
  · simp [hex] at hmem

theorem congr (h : Locks held s) (hw : s'.writer = s.writer) (hr : s'.readers = s.readers) :
    Locks held s' where
  writer := by simpa only [hw] using h.writer
  reader := by simpa only [hr] using h.reader
  exclusive := by simpa only [hw, hr] using h.exclusive

theorem take_read (h : Locks held s) (hi : s.writer i = none) :
    Locks (Function.update held t (.read i)) (s.setReaders i (insert t (s.readers i))) where
  writer := by
    intro u j hu
    simp only [Function.update_apply] at hu
    split at hu
    · cases hu
    · exact h.writer u j hu
  reader := by
    intro u j hu
    simp only [Function.update_apply] at hu
    split at hu
    · rename_i hut
      cases hu
      simp [hut]
    · have hold := h.reader u j hu
      by_cases hj : j = i
      · subst hj
        simp [hold]
      · rwa [State.setReaders_readers_ne hj]
  exclusive := by
    intro j
    by_cases hj : j = i
    · exact .inl (by simpa [hj] using hi)
    · simpa only [State.setReaders_writer, State.setReaders_readers_ne hj] using h.exclusive j

theorem drop_read (h : Locks held s) :
    Locks (Function.update held t .none) (s.setReaders i ((s.readers i).erase t)) where
  writer := by
    intro u j hu
    simp only [Function.update_apply] at hu
    split at hu
    · cases hu
    · exact h.writer u j hu
  reader := by
    intro u j hu
    simp only [Function.update_apply] at hu
    split at hu
    · cases hu
    · rename_i hut
      have hold := h.reader u j hu
      by_cases hj : j = i
      · subst hj
        simp [hold, hut]
      · rwa [State.setReaders_readers_ne hj]
  exclusive := by
    intro j
    by_cases hj : j = i
    · subst hj
      exact (h.exclusive j).imp_right fun hr => by simp [hr]
    · simpa only [State.setReaders_writer, State.setReaders_readers_ne hj] using h.exclusive j

theorem take_write (h : Locks held s) (hw : s.writer i = none) (hr : s.readers i = ∅) :
    Locks (Function.update held t (.write i)) (s.setWriter i (some t)) where
  writer := by
    intro u j hu
    simp only [Function.update_apply] at hu
    split at hu
    · rename_i hut
      cases hu
      simp [hut]
    · have hold := h.writer u j hu
      by_cases hj : j = i
      · simp [hj, hw] at hold
      · rwa [State.setWriter_writer_ne hj]
  reader := by
    intro u j hu
    simp only [Function.update_apply] at hu
    split at hu
    · cases hu
    · exact h.reader u j hu
  exclusive := by
    intro j
    by_cases hj : j = i
    · exact .inr (by simpa [hj] using hr)
    · simpa only [State.setWriter_readers, State.setWriter_writer_ne hj] using h.exclusive j

theorem drop_write (h : Locks held s) (ht : held t = .write i) :
    Locks (Function.update held t .none) (s.setWriter i none) where
  writer := by
    intro u j hu
    simp only [Function.update_apply] at hu
    split at hu
    · cases hu
    · rename_i hut
      by_cases hj : j = i
      · exact absurd (h.eq_of_write ht (hj ▸ hu)) hut
      · rw [State.setWriter_writer_ne hj]
        exact h.writer u j hu
  reader := by
    intro u j hu
    simp only [Function.update_apply] at hu
    split at hu
    · cases hu
    · exact h.reader u j hu
  exclusive := by
    intro j
    by_cases hj : j = i
    · exact .inl (by simp [hj])
    · simpa only [State.setWriter_readers, State.setWriter_writer_ne hj] using h.exclusive j

theorem step (h : Locks held s) (ha : (held t).allows a) (hs : Sem o t s a x s') :
    Locks (Function.update held t ((held t).next a x)) s' := by
  cases a with
  | readTable i =>
    obtain ⟨hw, rfl⟩ := hs
    exact h.take_read hw
  | dropReadGuard i =>
    cases hs
    exact h.drop_read
  | writeTable i =>
    obtain ⟨hw, hr, rfl⟩ := hs
    exact h.take_write hw hr
  | tryWriteTable i =>
    simp only [Sem] at hs
    split at hs
    · rename_i hfree
      obtain ⟨rfl, rfl⟩ := hs
      exact h.take_write hfree.1 hfree.2
    · obtain ⟨rfl, rfl⟩ := hs
      simpa [Held.next] using h
  | dropWriteGuard i =>
    cases hs
    exact h.drop_write ha
  | find | asRef | len | iter =>
    obtain ⟨-, rfl⟩ := hs
    simpa [Held.next] using h
  | tryReserve | findOrFindInsertSlot | insertInSlot | insertNoGrow | write | remove
  | «foreign» =>
    obtain ⟨table, rfl⟩ := hs.setTable rfl
    simp only [Held.next, Function.update_eq_self]
    exact h.congr rfl rfl
  | user =>
    obtain ⟨ext, -, rfl⟩ := hs
    simp only [Held.next, Function.update_eq_self]
    exact h.congr rfl rfl

/-- Under a guard, the steps of the other clients leave the table as it is. -/
theorem table_eq (h : Locks held s) (hut : u ≠ t) (ht : held t = .read j ∨ held t = .write j)
    (ha : (held u).allows a) (hs : Sem o u s a x s') : s'.table j = s.table j := by
  refine hs.table_eq fun htouch => ?_
  have hu := ha.write_of_touches htouch
  rcases ht with ht | ht
  · exact h.not_read_of_write hu ht
  · exact hut (h.eq_of_write ht hu)

/-- A lock that one client holds is not taken from it by the others. -/
theorem writer_eq (h : Locks held s) (hut : u ≠ t) (hi : s.writer i = some t)
    (ha : (held u).allows a) (hs : Sem o u s a x s') : s'.writer i = some t := by
  cases a with
  | readTable j =>
    obtain ⟨-, rfl⟩ := hs
    exact hi
  | dropReadGuard j =>
    cases hs
    exact hi
  | writeTable j =>
    obtain ⟨hw, -, rfl⟩ := hs
    have hij : i ≠ j := by
      rintro rfl
      simp [hi] at hw
    rwa [State.setWriter_writer_ne hij]
  | tryWriteTable j =>
    simp only [Sem] at hs
    split at hs
    · rename_i hfree
      have hij : i ≠ j := by
        rintro rfl
        simp [hi] at hfree
      rwa [hs.2, State.setWriter_writer_ne hij]
    · rwa [hs.2]
  | dropWriteGuard j =>
    cases hs
    have hij : i ≠ j := by
      rintro rfl
      rw [h.writer u i ha] at hi
      exact hut (Option.some.inj hi)
    rwa [State.setWriter_writer_ne hij]
  | find | asRef | len | iter =>
    obtain ⟨-, rfl⟩ := hs
    exact hi
  | tryReserve | findOrFindInsertSlot | insertInSlot | insertNoGrow | write | remove
  | «foreign» =>
    obtain ⟨table, rfl⟩ := hs.setTable rfl
    exact hi
  | user =>
    obtain ⟨ext, -, rfl⟩ := hs
    exact hi

end Locks

end Rustyfill.Maps
