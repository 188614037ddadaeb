import Mathlib.Data.Finset.Basic
import Rustyfill.Lib.HashTable
import Rustyfill.Lib.Program
import Rustyfill.Runtime

/-!
# Tables behind locks

What the methods of the hash maps and of the interner do step by step: take and drop guards
of the shards, call the raw table of a shard, and run code of their own or of the caller.
A map that is borrowed exclusively is a map with one shard, which the caller has locked.

`T` is the type of the elements, `E` the state outside the tables that a lookup closure may
read, and `X` the steps that touch no table.
-/

namespace Rustyfill.Maps

open RawHash Interleaving

set_option autoImplicit false

inductive Act (T E X : Type) where
  | readTable (i : Nat)
  | dropReadGuard (i : Nat)
  | writeTable (i : Nat)
  | tryWriteTable (i : Nat)
  | dropWriteGuard (i : Nat)
  | tryReserve (i additional : Nat) (rehash : T → UInt64)
  | find (i : Nat) (hash : UInt64) (eq : E → T → Bool)
  | findOrFindInsertSlot (i : Nat) (hash : UInt64) (eq : T → Bool) (rehash : T → UInt64)
  | insertInSlot (i : Nat) (hash : UInt64) (slot : Nat) (x : T)
  | insertNoGrow (i : Nat) (hash : UInt64) (x : T)
  | asRef (i bucket : Nat)
  | write (i bucket : Nat) (x : T)
  | remove (i bucket : Nat)
  | len (i : Nat)
  | iter (i : Nat)
  | foreign (i : Nat)
  | user (x : X)

/-- The steps that touch no table: what they answer, what they do to the state outside the
tables when a client does them, and which answers are failures. -/
structure Outside (E X : Type) where
  Res : X → Type
  sem : Nat → E → (x : X) → Res x → E → Prop
  fails : (x : X) → Res x → Bool

section
variable {T E X R : Type} {o : Outside E X}

/-- What each step answers: `find` a bucket, `findOrFindInsertSlot` a bucket or the slot for
the insertion, an insertion the bucket it filled. -/
@[reducible] def Act.Res (o : Outside E X) : Act T E X → Type
  | .tryWriteTable _ => Bool
  | .tryReserve .. => Except TryReserveError Unit
  | .find .. => Option Nat
  | .findOrFindInsertSlot .. => Except Nat Nat
  | .insertInSlot .. => Nat
  | .insertNoGrow .. => Nat
  | .asRef .. => T
  | .remove .. => T
  | .len _ => Nat
  | .iter _ => List (Nat × T)
  | .user x => o.Res x
  | _ => Unit

abbrev Method (o : Outside E X) (T R : Type) := Prog (Act T E X) (Act.Res o) R

/-! ## The calls of the locks and of the raw table -/

abbrev readTable (i : Nat) : Method o T Unit := .perform (Act.readTable i)

abbrev dropReadGuard (i : Nat) : Method o T Unit := .perform (Act.dropReadGuard i)

abbrev writeTable (i : Nat) : Method o T Unit := .perform (Act.writeTable i)

abbrev tryWriteTable (i : Nat) : Method o T Bool := .perform (Act.tryWriteTable i)

abbrev dropWriteGuard (i : Nat) : Method o T Unit := .perform (Act.dropWriteGuard i)

abbrev tryReserve (i additional : Nat) (rehash : T → UInt64) :
    Method o T (Except TryReserveError Unit) := .perform (Act.tryReserve i additional rehash)

abbrev find (i : Nat) (hash : UInt64) (eq : E → T → Bool) : Method o T (Option Nat) :=
  .perform (Act.find i hash eq)

abbrev findOrFindInsertSlot (i : Nat) (hash : UInt64) (eq : T → Bool) (rehash : T → UInt64) :
    Method o T (Except Nat Nat) := .perform (Act.findOrFindInsertSlot i hash eq rehash)

abbrev insertInSlot (i : Nat) (hash : UInt64) (slot : Nat) (x : T) : Method o T Nat :=
  .perform (Act.insertInSlot i hash slot x)

abbrev insertNoGrow (i : Nat) (hash : UInt64) (x : T) : Method o T Nat :=
  .perform (Act.insertNoGrow i hash x)

abbrev asRef (i bucket : Nat) : Method o T T := .perform (Act.asRef i bucket)

abbrev write (i bucket : Nat) (x : T) : Method o T Unit := .perform (Act.write i bucket x)

abbrev remove (i bucket : Nat) : Method o T T := .perform (Act.remove i bucket)

abbrev len (i : Nat) : Method o T Nat := .perform (Act.len i)

abbrev iter (i : Nat) : Method o T (List (Nat × T)) := .perform (Act.iter i)

abbrev user (x : X) : Method o T (o.Res x) := .perform (Act.user x)

/-! ## The shared state -/

structure State (T E : Type) where
  table : Nat → Table T
  writer : Nat → Option Nat
  readers : Nat → Finset Nat
  ext : E

namespace State

def setTable (s : State T E) (i : Nat) (table : Table T) : State T E :=
  { s with table := Function.update s.table i table }

def setWriter (s : State T E) (i : Nat) (w : Option Nat) : State T E :=
  { s with writer := Function.update s.writer i w }

def setReaders (s : State T E) (i : Nat) (r : Finset Nat) : State T E :=
  { s with readers := Function.update s.readers i r }

variable {s s' s'' : State T E} {i j : Nat} {table : Table T} {w : Option Nat} {r : Finset Nat}

@[simp] theorem setTable_table_self : (s.setTable i table).table i = table :=
  Function.update_self ..

theorem setTable_table_ne (h : j ≠ i) : (s.setTable i table).table j = s.table j :=
  Function.update_of_ne h ..

@[simp] theorem setTable_writer : (s.setTable i table).writer = s.writer := rfl

@[simp] theorem setTable_readers : (s.setTable i table).readers = s.readers := rfl

@[simp] theorem setTable_ext : (s.setTable i table).ext = s.ext := rfl

@[simp] theorem setTable_self : s.setTable i (s.table i) = s := by simp [setTable]

theorem setTable_setTable (table' : Table T) :
    (s.setTable i table).setTable i table' = s.setTable i table' := by simp [setTable]

@[simp] theorem setWriter_table : (s.setWriter i w).table = s.table := rfl

@[simp] theorem setWriter_readers : (s.setWriter i w).readers = s.readers := rfl

@[simp] theorem setWriter_ext : (s.setWriter i w).ext = s.ext := rfl

@[simp] theorem setWriter_writer_self : (s.setWriter i w).writer i = w :=
  Function.update_self ..

theorem setWriter_writer_ne (h : j ≠ i) : (s.setWriter i w).writer j = s.writer j :=
  Function.update_of_ne h ..

@[simp] theorem setReaders_table : (s.setReaders i r).table = s.table := rfl

@[simp] theorem setReaders_writer : (s.setReaders i r).writer = s.writer := rfl

@[simp] theorem setReaders_ext : (s.setReaders i r).ext = s.ext := rfl

@[simp] theorem setReaders_readers_self : (s.setReaders i r).readers i = r :=
  Function.update_self ..

theorem setReaders_readers_ne (h : j ≠ i) : (s.setReaders i r).readers j = s.readers j :=
  Function.update_of_ne h ..

@[simp] theorem setReaders_self : s.setReaders i (s.readers i) = s := by simp [setReaders]

@[simp] theorem setWriter_self : s.setWriter i (s.writer i) = s := by simp [setWriter]

theorem setReaders_setReaders (r' : Finset Nat) :
    (s.setReaders i r).setReaders i r' = s.setReaders i r' := by simp [setReaders]

/-- No guard is held. -/
structure Unlocked (s : State T E) : Prop where
  writer : ∀ i, s.writer i = none
  readers : ∀ i, s.readers i = ∅

/-- Each shard holds the same elements, wherever they lie in its table. -/
def SameContents (s s' : State T E) : Prop := ∀ i, (s'.table i).elems.Perm (s.table i).elems

theorem SameContents.of_table_eq (h : s'.table = s.table) : SameContents s s' := by
  intro i
  rw [h]

theorem sameContents_setTable (h : table.elems.Perm (s.table i).elems) :
    SameContents s (s.setTable i table) := by
  intro j
  by_cases hj : j = i
  · subst hj
    simpa using h
  · rw [setTable_table_ne hj]

end State

/-! ## The steps -/

/-- What client `t` does in one step. A `foreign` step is the body of any other method that
holds the write guard. -/
def Sem (o : Outside E X) (t : Nat) (s : State T E) :
    (a : Act T E X) → a.Res o → State T E → Prop
  | .readTable i, _, s' => s.writer i = none ∧ s' = s.setReaders i (insert t (s.readers i))
  | .dropReadGuard i, _, s' => s' = s.setReaders i ((s.readers i).erase t)
  | .writeTable i, _, s' => s.writer i = none ∧ s.readers i = ∅ ∧ s' = s.setWriter i (some t)
  | .tryWriteTable i, ok, s' =>
    if s.writer i = none ∧ s.readers i = ∅ then ok = true ∧ s' = s.setWriter i (some t)
    else ok = false ∧ s' = s
  | .dropWriteGuard i, _, s' => s' = s.setWriter i none
  | .tryReserve i additional rehash, r, s' =>
    ∃ table, (s.table i).TryReserve rehash additional r.isOk table ∧ s' = s.setTable i table
  | .find i hash eq, r, s' => (s.table i).Found hash (eq s.ext) r ∧ s' = s
  | .findOrFindInsertSlot i hash eq rehash, r, s' =>
    ∃ table, (s.table i).Reserved rehash table ∧ table.FoundOrSlot hash eq r ∧
      s' = s.setTable i table
  | .insertInSlot i hash slot x, b, s' =>
    ∃ table, (s.table i).Placed slot hash x table ∧ b = slot ∧ s' = s.setTable i table
  | .insertNoGrow i hash x, b, s' =>
    ∃ table, (s.table i).Placed b hash x table ∧ s' = s.setTable i table
  | .asRef i bucket, x, s' => (∃ hash, (s.table i).buckets[bucket]? = some (some (hash, x))) ∧
      s' = s
  | .write i bucket x, _, s' =>
    ∃ table, (s.table i).Replaced bucket x table ∧ s' = s.setTable i table
  | .remove i bucket, x, s' =>
    ∃ table, (s.table i).Removed bucket x table ∧ s' = s.setTable i table
  | .len i, n, s' => n = (s.table i).elems.length ∧ s' = s
  | .iter i, l, s' => l = (s.table i).full ∧ s' = s
  | .foreign i, _, s' => ∃ table, s' = s.setTable i table
  | .user x, r, s' => ∃ ext, o.sem t s.ext x r ext ∧ s' = { s with ext := ext }

/-- The shard whose table a step may change. -/
def Act.touches : Act T E X → Option Nat
  | .tryReserve i .. | .findOrFindInsertSlot i .. | .insertInSlot i .. | .insertNoGrow i ..
  | .write i .. | .remove i _ | .foreign i => some i
  | _ => none

/-- The shard in which a step needs a free bucket. -/
def Act.needsSlot : Act T E X → Option Nat
  | .findOrFindInsertSlot i .. | .insertInSlot i .. | .insertNoGrow i .. => some i
  | _ => none

/-- The steps that may change which elements a shard holds. -/
def Act.changes : Act T E X → Bool
  | .insertInSlot .. | .insertNoGrow .. | .write .. | .remove .. | .foreign .. => true
  | _ => false

/-- The answers that report a failure. -/
def Act.fails (o : Outside E X) : (a : Act T E X) → a.Res o → Bool
  | .tryReserve .., r => !r.isOk
  | .user x, r => o.fails x r
  | _, _ => false

variable {t : Nat} {s s' : State T E} {a : Act T E X} {x : a.Res o}

theorem Sem.setTable {i : Nat} (h : Sem o t s a x s') (ha : a.touches = some i) :
    ∃ table, s' = s.setTable i table := by
  cases a with
  | tryReserve | insertNoGrow | write | remove =>
    cases ha
    obtain ⟨table, -, rfl⟩ := h
    exact ⟨table, rfl⟩
  | findOrFindInsertSlot | insertInSlot =>
    cases ha
    obtain ⟨table, -, -, rfl⟩ := h
    exact ⟨table, rfl⟩
  | «foreign» =>
    cases ha
    exact h
  | readTable | dropReadGuard | writeTable | tryWriteTable | dropWriteGuard | find | asRef | len
  | iter | user => cases ha

theorem Sem.table_eq_of_touches_eq_none (h : Sem o t s a x s') (ha : a.touches = none) :
    s'.table = s.table := by
  cases a with
  | readTable => rw [h.2, State.setReaders_table]
  | dropReadGuard => rw [h, State.setReaders_table]
  | writeTable => rw [h.2.2, State.setWriter_table]
  | tryWriteTable =>
    simp only [Sem] at h
    split at h
    · rw [h.2, State.setWriter_table]
    · rw [h.2]
  | dropWriteGuard => rw [h, State.setWriter_table]
  | find | asRef | len | iter => rw [h.2]
  | user =>
    obtain ⟨ext, -, rfl⟩ := h
    rfl
  | tryReserve | findOrFindInsertSlot | insertInSlot | insertNoGrow | write | remove
  | «foreign» => cases ha

theorem Sem.ext_eq (h : Sem o t s a x s') (ha : ∀ y, a ≠ .user y) : s'.ext = s.ext := by
  cases htouch : a.touches with
  | some i =>
    obtain ⟨table, rfl⟩ := h.setTable htouch
    rfl
  | none =>
    cases a with
    | readTable => rw [h.2, State.setReaders_ext]
    | dropReadGuard => rw [h, State.setReaders_ext]
    | writeTable => rw [h.2.2, State.setWriter_ext]
    | tryWriteTable =>
      simp only [Sem] at h
      split at h
      · rw [h.2, State.setWriter_ext]
      · rw [h.2]
    | dropWriteGuard => rw [h, State.setWriter_ext]
    | find | asRef | len | iter => rw [h.2]
    | user y => exact absurd rfl (ha y)
    | tryReserve | findOrFindInsertSlot | insertInSlot | insertNoGrow | write | remove
    | «foreign» => cases htouch

theorem Sem.table_eq {j : Nat} (h : Sem o t s a x s') (ha : a.touches ≠ some j) :
    s'.table j = s.table j := by
  cases htouch : a.touches with
  | none => rw [h.table_eq_of_touches_eq_none htouch]
  | some i =>
    obtain ⟨table, rfl⟩ := h.setTable htouch
    refine State.setTable_table_ne ?_
    rintro rfl
    exact ha htouch

theorem Sem.sameContents (h : Sem o t s a x s') (ha : a.changes = false)
    (hfree : ∀ i, a.needsSlot = some i → 0 < (s.table i).free) : s.SameContents s' := by
  cases htouch : a.touches with
  | none => exact .of_table_eq (h.table_eq_of_touches_eq_none htouch)
  | some i =>
    cases a with
    | tryReserve =>
      obtain ⟨table, hres, rfl⟩ := h
      exact State.sameContents_setTable hres.elems_perm
    | findOrFindInsertSlot i =>
      obtain ⟨table, hres, -, rfl⟩ := h
      rw [hres.eq_of_free (hfree i rfl)]
      exact .of_table_eq (by simp)
    | insertInSlot | insertNoGrow | write | remove | «foreign» => cases ha
    | readTable | dropReadGuard | writeTable | tryWriteTable | dropWriteGuard | find | asRef
    | len | iter | user => cases htouch

end

/-! ## Code of the caller -/

/-- What the methods of a map run for the caller: a closure, a closure that may fail, or the
clone of a key. Each carries the answer it gives. -/
inductive Code (K V ε : Type) where
  | call (v : V)
  | tryCall (r : Except ε V)
  | tryClone (r : Except ε K)

@[reducible] def Code.Res {K V ε : Type} : Code K V ε → Type
  | .call _ => V
  | .tryCall _ => Except ε V
  | .tryClone _ => Except ε K

@[reducible] def callerCode (K V ε : Type) : Outside Unit (Code K V ε) where
  Res := Code.Res
  sem _ _
    | .call v, r, _ => r = v
    | .tryCall v, r, _ => r = v
    | .tryClone k, r, _ => r = k
  fails
    | .call _, _ => false
    | .tryCall _, r => !r.isOk
    | .tryClone _, r => !r.isOk

/-- A method of a map, whose elements are pairs. -/
abbrev MapMethod (K V ε R : Type) := Method (callerCode K V ε) (K × V) R

section
variable {T K V ε : Type}

abbrev call (v : V) : Method (callerCode K V ε) T V := .perform (Act.user (Code.call v))

abbrev tryCall (r : Except ε V) : Method (callerCode K V ε) T (Except ε V) :=
  .perform (Act.user (Code.tryCall r))

abbrev tryClone (r : Except ε K) : Method (callerCode K V ε) T (Except ε K) :=
  .perform (Act.user (Code.tryClone r))

/-! ## What the entries of the maps have in common -/

def replaceValue (i bucket : Nat) (value : V) : MapMethod K V ε V := do
  let (k, v) ← asRef i bucket
  write i bucket (k, value)
  return v

/-- What the caller does to a value through a mutable reference. -/
def modifyValue (i bucket : Nat) (f : V → V) : MapMethod K V ε Unit := do
  let (k, v) ← asRef i bucket
  write i bucket (k, f v)

/-- Take a pair out and drop the guard. -/
def removePair (i bucket : Nat) : MapMethod K V ε (K × V) := do
  let kv ← remove i bucket
  dropWriteGuard i
  return kv

end

end Rustyfill.Maps
