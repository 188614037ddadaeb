import Rustyfill.Maps.DashMap
import Rustyfill.Maps.OneMap

/-!
# A `DashMap` is one map

What the calls this crate adds to a `DashMap` do to one partial function from keys to pairs. An
entry here keeps the key of the call beside the stored one: it can be had back, or take the place
of the stored one.
-/

namespace Rustyfill.DashMap

open Maps Interleaving RawHash
open ConcurrentHashMap (RefUse entryKey)

set_option autoImplicit false

/-! ## What clients do under a guard -/

structure KeyClone (K : Type) [BEq K] where
  clone : K → K
  same : ∀ k, (clone k == k) = true

/-- A `TryClone` of keys. -/
structure KeyTryClone (K ε : Type) [BEq K] where
  tryClone : K → Except ε K
  same : ∀ k k', tryClone k = .ok k' → (k' == k) = true

section
variable {K V ε B : Type} [BEq K]

/-- What a client does with an occupied entry. -/
inductive OccupiedUse (K V B : Type) where
  | key (f : K → OccupiedUse K V B)
  | get (f : V → OccupiedUse K V B)
  | modify (g : V → V) (next : OccupiedUse K V B)
  | insert (value : V) (f : V → OccupiedUse K V B)
  | remove (f : V → B)
  | removeEntry (f : K × V → B)
  | replaceEntry (value : V) (f : K × V → B)
  | intoRef (use : RefUse K V B)
  | intoKey (f : K → B)
  | drop (b : B)

/-- What a client does with a vacant entry. -/
inductive VacantUse (K V B : Type) [BEq K] where
  | insert (value : V) (use : RefUse K V B)
  | insertEntry (clone : KeyClone K) (value : V) (use : OccupiedUse K V B)
  | intoKey (f : K → B)
  | drop (b : B)

inductive EntryUse (K V ε B : Type) [BEq K] where
  | key (f : K → EntryUse K V ε B)
  | intoKey (f : K → B)
  | andModify (g : V → V) (next : EntryUse K V ε B)
  | insert (value : V) (use : RefUse K V B)
  | insertEntry (clone : KeyClone K) (value : V) (use : OccupiedUse K V B)
  | orInsert (value : V) (use : RefUse K V B)
  | orInsertWith (value : Unit → V) (use : RefUse K V B)
  | orTryInsertWith (value : Unit → Except ε V) (use : RefUse K V B) (failed : ε → B)
  | orTryDefault (tryDefault : Except ε V) (use : RefUse K V B) (failed : ε → B)
  | either (occupied : OccupiedUse K V B) (vacant : VacantUse K V B)
  | drop (b : B)

def runRef (r : RefMut) : RefUse K V B → MapMethod K V ε B
  | .read f => do
    let kv ← r.pair
    runRef r (f kv)
  | .modify g next => do
    r.modify g
    runRef r next
  | .drop b => do
    r.drop
    return b

namespace OccupiedUse

def run (e : OccupiedEntry K) : OccupiedUse K V B → MapMethod K V ε B
  | .key f => do
    let k ← e.storedKey
    (f k).run e
  | .get f => do
    let v ← e.get
    (f v).run e
  | .modify g next => do
    e.modify g
    next.run e
  | .insert value f => do
    let old ← e.insert value
    (f old).run e
  | .remove f => do
    let v ← e.remove
    return f v
  | .removeEntry f => do
    let kv ← e.removeEntry
    return f kv
  | .replaceEntry value f => do
    let kv ← e.replaceEntry value
    return f kv
  | .intoRef use => runRef e.intoRef use
  | .intoKey f => do
    let k ← e.intoKey
    return f k
  | .drop b => do
    e.drop
    return b

/-- What the client returns, and the pair it leaves, if any; `key` is the key of the call. -/
def eval (key : K) : OccupiedUse K V B → K × V → B × Option (K × V)
  | .key f, kv => (f kv.1).eval key kv
  | .get f, kv => (f kv.2).eval key kv
  | .modify g next, kv => next.eval key (kv.1, g kv.2)
  | .insert value f, kv => (f kv.2).eval key (kv.1, value)
  | .remove f, kv => (f kv.2, none)
  | .removeEntry f, kv => (f kv, none)
  | .replaceEntry value f, kv => (f kv, some (key, value))
  | .intoRef use, kv => ((use.eval kv).1, some (use.eval kv).2)
  | .intoKey f, kv => (f key, some kv)
  | .drop b, kv => (b, some kv)

end OccupiedUse

namespace VacantUse

def run (e : VacantEntry K) : VacantUse K V B → MapMethod K V ε B
  | .insert value use => do
    let r ← e.insert value
    runRef r use
  | .insertEntry clone value use => do
    let e ← e.insertEntry clone.clone value
    use.run e
  | .intoKey f => do
    let k ← e.intoKey
    return f k
  | .drop b => do
    e.drop
    return b

def eval (key : K) : VacantUse K V B → B × Option (K × V)
  | .insert value use => ((use.eval (key, value)).1, some (use.eval (key, value)).2)
  | .insertEntry clone value use => use.eval key (clone.clone key, value)
  | .intoKey f => (f key, none)
  | .drop b => (b, none)

end VacantUse

namespace EntryUse

def run : EntryUse K V ε B → Entry K → MapMethod K V ε B
  | .key f, entry => do
    let k ← entry.key
    (f k).run entry
  | .intoKey f, entry => do
    let k ← entry.intoKey
    return f k
  | .andModify g next, entry => do
    let entry ← entry.andModify g
    next.run entry
  | .insert value use, entry => do
    let r ← entry.insert value
    runRef r use
  | .insertEntry clone value use, entry => do
    let e ← entry.insertEntry clone.clone value
    use.run e
  | .orInsert value use, entry => do
    let r ← entry.orInsert value
    runRef r use
  | .orInsertWith value use, entry => do
    let r ← entry.orInsertWith value
    runRef r use
  | .orTryInsertWith value use failed, entry => do
    match ← entry.orTryInsertWith value with
    | .ok r => runRef r use
    | .error e => return failed e
  | .orTryDefault tryDefault use failed, entry => do
    match ← entry.orTryDefault tryDefault with
    | .ok r => runRef r use
    | .error e => return failed e
  | .either use _, .occupied e => use.run e
  | .either _ use, .vacant e => use.run e
  | .drop b, entry => do
    entry.drop
    return b

/-- A stored pair, or else one whose value may fail to come about. -/
def orTry (key : K) (value : Except ε V) (use : RefUse K V B) (failed : ε → B) :
    Option (K × V) → B × Option (K × V)
  | some kv => ((use.eval kv).1, some (use.eval kv).2)
  | none =>
    match value with
    | .ok v => ((use.eval (key, v)).1, some (use.eval (key, v)).2)
    | .error e => (failed e, none)

def eval (key : K) : EntryUse K V ε B → Option (K × V) → B × Option (K × V)
  | .key f, stored => (f (entryKey key stored)).eval key stored
  | .intoKey f, stored => (f key, stored)
  | .andModify g next, stored => next.eval key (stored.map fun kv => (kv.1, g kv.2))
  | .insert value use, stored =>
    let left := use.eval (entryKey key stored, value)
    (left.1, some left.2)
  | .insertEntry clone value use, stored =>
    use.eval key ((stored.map Prod.fst).getD (clone.clone key), value)
  | .orInsert value use, stored =>
    let left := use.eval (stored.getD (key, value))
    (left.1, some left.2)
  | .orInsertWith value use, stored =>
    let left := use.eval (stored.getD (key, value ()))
    (left.1, some left.2)
  | .orTryInsertWith value use failed, stored => orTry key (value ()) use failed stored
  | .orTryDefault tryDefault use failed, stored => orTry key tryDefault use failed stored
  | .either use _, some kv => use.eval key kv
  | .either _ use, none => use.eval key
  | .drop b, stored => (b, stored)

end EntryUse

/-! ## The calls -/

inductive Call (K V ε B : Type) [BEq K] where
  | tryInsert (key : K) (value : V)
  | tryInsertGiveBack (key : K) (value : V)
  | tryInsertUnique (key : K) (value : V)
  | tryInsertNonblock (key : K) (value : V)
  | tryInsertGiveBackNonblock (key : K) (value : V)
  | tryInsertUniqueNonblock (key : K) (value : V)
  | tryEntry (key : K) (use : EntryUse K V ε B)
  | tryEntryGiveBack (key : K) (use : EntryUse K V ε B)
  | tryEntryNonblock (key : K) (use : EntryUse K V ε B)
  | tryEntryGiveBackNonblock (key : K) (use : EntryUse K V ε B)
  | tryEntryRef (clone : KeyTryClone K ε) (key : K) (use : EntryUse K V ε B)

@[reducible] def Call.Res : Call K V ε B → Type
  | .tryInsert .. => Except TryReserveError (Option V)
  | .tryInsertGiveBack .. => Except (K × V × TryReserveError) (Option V)
  | .tryInsertUnique .. => Except (K × V × InsertUniqueError) Unit
  | .tryInsertNonblock .. => Except NonblockError (Option V)
  | .tryInsertGiveBackNonblock .. => Except (K × V × NonblockError) (Option V)
  | .tryInsertUniqueNonblock .. => Except (K × V × InsertUniqueNonblockError) Unit
  | .tryEntry .. => Except TryReserveError B
  | .tryEntryGiveBack .. => Except (K × TryReserveError) B
  | .tryEntryNonblock .. => Except NonblockError B
  | .tryEntryGiveBackNonblock .. => Except (K × NonblockError) B
  | .tryEntryRef .. => Except (EntryByRefError ε) B

/-- A method that asked for an entry, and what its caller does with it. -/
def useEntry {α : Type} (use : EntryUse K V ε B) (m : MapMethod K V ε (Except α (Entry K))) :
    MapMethod K V ε (Except α B) := do
  match ← m with
  | .error e => return .error e
  | .ok entry => do
    let b ← use.run entry
    return .ok b

variable (m : DashMap K)

def method : (call : Call K V ε B) → MapMethod K V ε call.Res
  | .tryInsert key value => m.tryInsert key value
  | .tryInsertGiveBack key value => m.tryInsertGiveBack key value
  | .tryInsertUnique key value => m.tryInsertUnique key value
  | .tryInsertNonblock key value => m.tryInsertNonblock key value
  | .tryInsertGiveBackNonblock key value => m.tryInsertGiveBackNonblock key value
  | .tryInsertUniqueNonblock key value => m.tryInsertUniqueNonblock key value
  | .tryEntry key use => useEntry use (m.tryEntry key)
  | .tryEntryGiveBack key use => useEntry use (m.tryEntryGiveBack key)
  | .tryEntryNonblock key use => useEntry use (m.tryEntryNonblock key)
  | .tryEntryGiveBackNonblock key use => useEntry use (m.tryEntryGiveBackNonblock key)
  | .tryEntryRef clone key use => useEntry use (m.tryEntryRef clone.tryClone key)

/-! ## What they do to one map -/

omit [BEq K] in
def layout (m : DashMap K) : Layout K :=
  ⟨m.hashOne, fun key => m.determineShard (m.computeHash key)⟩

/-- The call stored the value under the stored key, or else under its own. -/
def Stores (c : Contents K V) (key : K) (value : V) (old : Option V) (c' : Contents K V) : Prop :=
  old = (c key).map Prod.snd ∧ c' = c.put key (some (entryKey key (c key), value))

/-- The call added the key, or found it there and added nothing. -/
def Adds (c : Contents K V) (key : K) (value : V) (added : Bool) (c' : Contents K V) : Prop :=
  if added then c key = none ∧ c' = c.put key (some (key, value))
  else c key ≠ none ∧ c' = c

def Uses (c : Contents K V) (key : K) (use : EntryUse K V ε B) (b : B) (c' : Contents K V) :
    Prop :=
  b = (use.eval key (c key)).1 ∧ c' = c.put key (use.eval key (c key)).2

/-- What one call does to one map. A call may be refused memory, a `nonblock` call may find the
shard locked, and then nothing changes and the caller has its key and value back. -/
def Does (c : Contents K V) : (call : Call K V ε B) → call.Res → Contents K V → Prop
  | .tryInsert key value, r, c' =>
    (∃ e, r = .error e) ∧ c' = c ∨ ∃ old, r = .ok old ∧ Stores c key value old c'
  | .tryInsertGiveBack key value, r, c' =>
    (∃ e, r = .error (key, value, e)) ∧ c' = c ∨ ∃ old, r = .ok old ∧ Stores c key value old c'
  | .tryInsertUnique key value, r, c' =>
    (∃ e, r = .error (key, value, .reserve e)) ∧ c' = c ∨
      r = .error (key, value, .keyAlreadyExists) ∧ Adds c key value false c' ∨
      r = .ok () ∧ Adds c key value true c'
  | .tryInsertNonblock key value, r, c' =>
    (∃ e, r = .error e) ∧ c' = c ∨ ∃ old, r = .ok old ∧ Stores c key value old c'
  | .tryInsertGiveBackNonblock key value, r, c' =>
    (∃ e, r = .error (key, value, e)) ∧ c' = c ∨ ∃ old, r = .ok old ∧ Stores c key value old c'
  | .tryInsertUniqueNonblock key value, r, c' =>
    (∃ e, r = .error (key, value, mapNbToUnique e)) ∧ c' = c ∨
      r = .error (key, value, .keyAlreadyExists) ∧ Adds c key value false c' ∨
      r = .ok () ∧ Adds c key value true c'
  | .tryEntry key use, r, c' =>
    (∃ e, r = .error e) ∧ c' = c ∨ ∃ b, r = .ok b ∧ Uses c key use b c'
  | .tryEntryGiveBack key use, r, c' =>
    (∃ e, r = .error (key, e)) ∧ c' = c ∨ ∃ b, r = .ok b ∧ Uses c key use b c'
  | .tryEntryNonblock key use, r, c' =>
    (∃ e, r = .error e) ∧ c' = c ∨ ∃ b, r = .ok b ∧ Uses c key use b c'
  | .tryEntryGiveBackNonblock key use, r, c' =>
    (∃ e, r = .error (key, e)) ∧ c' = c ∨ ∃ b, r = .ok b ∧ Uses c key use b c'
  | .tryEntryRef clone key use, r, c' =>
    (∃ e, r = .error (.reserve e)) ∧ c' = c ∨
      (∃ e, clone.tryClone key = .error e ∧ r = .error (.clone e)) ∧ c' = c ∨
      ∃ key' b, clone.tryClone key = .ok key' ∧ r = .ok b ∧ Uses c key' use b c'

end

end Rustyfill.DashMap
