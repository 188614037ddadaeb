import Rustyfill.Maps.ConcurrentHashMap
import Rustyfill.Maps.Sections

/-!
# A sharded map is one map

What the calls of a `ConcurrentHashMap` do to one partial function from keys to pairs, and that
clients of the map, however their steps interleave, see nothing else. A client that asks for an
entry or for a mutable reference may do anything with it before it lets it go; all of that is one
step of the partial function.
-/

namespace Rustyfill.ConcurrentHashMap

open Maps Interleaving RawHash

set_option autoImplicit false

/-! ## What clients do under a guard -/

section
variable {K V ε B : Type}

/-- What a client does with a mutable reference before it drops it. -/
inductive RefUse (K V B : Type) where
  | read (f : K × V → RefUse K V B)
  | modify (g : V → V) (next : RefUse K V B)
  | drop (b : B)

/-- What a client does with an occupied entry. -/
inductive OccupiedUse (K V B : Type) where
  | key (f : K → OccupiedUse K V B)
  | get (f : V → OccupiedUse K V B)
  | modify (g : V → V) (next : OccupiedUse K V B)
  | insert (value : V) (f : V → OccupiedUse K V B)
  | remove (f : V → B)
  | removeEntry (f : K × V → B)
  | intoRef (use : RefUse K V B)
  | drop (b : B)

/-- What a client does with a vacant entry. -/
inductive VacantUse (K V B : Type) where
  | insert (value : V) (use : RefUse K V B)
  | drop (b : B)

inductive EntryUse (K V B : Type) where
  | key (f : K → EntryUse K V B)
  | andModify (g : V → V) (next : EntryUse K V B)
  | insert (value : V) (use : RefUse K V B)
  | orInsert (value : V) (use : RefUse K V B)
  | orInsertWith (value : Unit → V) (use : RefUse K V B)
  | either (occupied : OccupiedUse K V B) (vacant : VacantUse K V B)
  | drop (b : B)

namespace RefUse

def run (r : RefMut) : RefUse K V B → MapMethod K V ε B
  | .read f => do
    let kv ← r.pair
    (f kv).run r
  | .modify g next => do
    r.modify g
    next.run r
  | .drop b => do
    r.drop
    return b

/-- What the client returns, and the pair it leaves. -/
def eval : RefUse K V B → K × V → B × (K × V)
  | .read f, kv => (f kv).eval kv
  | .modify g next, kv => next.eval (kv.1, g kv.2)
  | .drop b, kv => (b, kv)

end RefUse

namespace OccupiedUse

def run (e : OccupiedEntry) : OccupiedUse K V B → MapMethod K V ε B
  | .key f => do
    let k ← e.key
    (f k).run e
  | .get f => do
    let v ← e.get
    (f v).run e
  | .modify g next => do
    e.modify g
    next.run e
  | .insert value f => do
    let old ← e.insert value
    (f old).run e
  | .remove f => do
    let v ← e.remove
    return f v
  | .removeEntry f => do
    let kv ← e.removeEntry
    return f kv
  | .intoRef use => use.run e.intoRef
  | .drop b => do
    e.drop
    return b

/-- What the client returns, and the pair it leaves, if any. -/
def eval : OccupiedUse K V B → K × V → B × Option (K × V)
  | .key f, kv => (f kv.1).eval kv
  | .get f, kv => (f kv.2).eval kv
  | .modify g next, kv => next.eval (kv.1, g kv.2)
  | .insert value f, kv => (f kv.2).eval (kv.1, value)
  | .remove f, kv => (f kv.2, none)
  | .removeEntry f, kv => (f kv, none)
  | .intoRef use, kv => ((use.eval kv).1, some (use.eval kv).2)
  | .drop b, kv => (b, some kv)

end OccupiedUse

namespace VacantUse

def run (e : VacantEntry K) : VacantUse K V B → MapMethod K V ε B
  | .insert value use => do
    let r ← e.insert value
    use.run r
  | .drop b => do
    e.drop
    return b

def eval (key : K) : VacantUse K V B → B × Option (K × V)
  | .insert value use => ((use.eval (key, value)).1, some (use.eval (key, value)).2)
  | .drop b => (b, none)

end VacantUse

def entryKey (key : K) (stored : Option (K × V)) : K := (stored.map Prod.fst).getD key

namespace EntryUse

def run : EntryUse K V B → Entry K → MapMethod K V ε B
  | .key f, entry => do
    let k ← entry.key
    (f k).run entry
  | .andModify g next, entry => do
    let entry ← entry.andModify g
    next.run entry
  | .insert value use, entry => do
    let r ← entry.insert value
    use.run r
  | .orInsert value use, entry => do
    let r ← entry.orInsert value
    use.run r
  | .orInsertWith value use, entry => do
    let r ← entry.orInsertWith value
    use.run r
  | .either use _, .occupied e => use.run e
  | .either _ use, .vacant e => use.run e
  | .drop b, entry => do
    entry.drop
    return b

def eval (key : K) : EntryUse K V B → Option (K × V) → B × Option (K × V)
  | .key f, stored => (f (entryKey key stored)).eval key stored
  | .andModify g next, stored => next.eval key (stored.map fun kv => (kv.1, g kv.2))
  | .insert value use, stored =>
    let left := use.eval (entryKey key stored, value)
    (left.1, some left.2)
  | .orInsert value use, stored =>
    let left := use.eval (stored.getD (key, value))
    (left.1, some left.2)
  | .orInsertWith value use, stored =>
    let left := use.eval (stored.getD (key, value ()))
    (left.1, some left.2)
  | .either use _, some kv => use.eval kv
  | .either _ use, none => use.eval key
  | .drop b, stored => (b, stored)

end EntryUse

/-! ## The calls -/

/-- The calls of a map. `len` and `visit_all` go through the shards one by one, so what they do
at once is to look at one shard. -/
inductive Call (K V B : Type) where
  | tryInsert (key : K) (value : V)
  | tryInsertGiveBack (key : K) (value : V)
  | tryInsertUnique (clone : K → K) (key : K) (value : V)
  | tryEntry (key : K) (use : EntryUse K V B)
  | tryEntryGiveBack (key : K) (use : EntryUse K V B)
  | tryEntryNonblock (key : K) (use : EntryUse K V B)
  | get (key : K)
  | getMut (key : K) (use : RefUse K V B)
  | containsKey (key : K)
  | remove (key : K)
  | removeEntry (key : K)
  | tryReserve (additional : Nat)
  | shardLen (i : Nat)
  | visitShard (i : Nat)

@[reducible] def Call.Res : Call K V B → Type
  | .tryInsert .. => Except TryReserveError (Option V)
  | .tryInsertGiveBack .. => Except (K × V × TryReserveError) (Option V)
  | .tryInsertUnique .. => Except (K × V × InsertUniqueError) Unit
  | .tryEntry .. => Except TryReserveError B
  | .tryEntryGiveBack .. => Except (K × TryReserveError) B
  | .tryEntryNonblock .. => Except NonblockError B
  | .get _ => Option (K × V)
  | .getMut .. => Option B
  | .containsKey _ => Bool
  | .remove _ => Option V
  | .removeEntry _ => Option (K × V)
  | .tryReserve _ => Except TryReserveError Unit
  | .shardLen _ => Nat
  | .visitShard _ => List (K × V)

/-- A method that asked for an entry, and what its caller does with it. -/
def useEntry {α : Type} (use : EntryUse K V B) (m : MapMethod K V ε (Except α (Entry K))) :
    MapMethod K V ε (Except α B) := do
  match ← m with
  | .error e => return .error e
  | .ok entry => do
    let b ← use.run entry
    return .ok b

/-- The body of the loop of `len`. -/
def shardLen (i : Nat) : MapMethod K V ε Nat := do
  readTable i
  let n ← Maps.len i
  dropReadGuard i
  return n

/-- The body of the loop of `visit_all`. -/
def visitShard (i : Nat) : MapMethod K V ε (List (K × V)) := do
  readTable i
  let pairs ← iter i
  dropReadGuard i
  return pairs.map Prod.snd

variable [BEq K] (m : ConcurrentHashMap K)

/-- The reference is read before it is dropped. -/
def getPair (key : K) : MapMethod K V ε (Option (K × V)) := do
  match ← m.get key with
  | some r => do
    let kv ← r.pair
    r.drop
    return some kv
  | none => return none

def getMutUse (key : K) (use : RefUse K V B) : MapMethod K V ε (Option B) := do
  match ← m.getMut key with
  | some r => do
    let b ← use.run r
    return some b
  | none => return none

def method : (call : Call K V B) → MapMethod K V ε call.Res
  | .tryInsert key value => m.tryInsert key value
  | .tryInsertGiveBack key value => m.tryInsertGiveBack key value
  | .tryInsertUnique clone key value => m.tryInsertUnique clone key value
  | .tryEntry key use => useEntry use (m.tryEntry key)
  | .tryEntryGiveBack key use => useEntry use (m.tryEntryGiveBack key)
  | .tryEntryNonblock key use => useEntry use (m.tryEntryNonblock key)
  | .get key => m.getPair key
  | .getMut key use => m.getMutUse key use
  | .containsKey key => m.containsKey key
  | .remove key => m.remove key
  | .removeEntry key => m.removeEntry key
  | .tryReserve additional => m.tryReserve additional
  | .shardLen i => shardLen i
  | .visitShard i => visitShard i

/-! ## What they do to one map -/

omit [BEq K] in
def layout (m : ConcurrentHashMap K) : Layout K :=
  ⟨m.hashOne, fun key => m.shardIndexInternal (m.computeHashInternal key)⟩

/-- The pairs of shard `i`, each once. -/
structure StoredIn (i : Nat) (c : Contents K V) (pairs : List (K × V)) : Prop where
  distinct : pairs.Pairwise fun a b => (a.1 == b.1) = false
  mem : ∀ kv, kv ∈ pairs ↔ c kv.1 = some kv ∧ m.layout.Mine i kv.1

/-- What one call does to one map. A fallible call may be refused memory, and then changes
nothing. -/
def Does (c : Contents K V) : (call : Call K V B) → call.Res → Contents K V → Prop
  | .tryInsert key value, r, c' =>
    (∃ e, r = .error e) ∧ c' = c ∨
      r = .ok ((c key).map Prod.snd) ∧ c' = c.put key (some (entryKey key (c key), value))
  | .tryInsertGiveBack key value, r, c' =>
    (∃ e, r = .error (key, value, e)) ∧ c' = c ∨
      r = .ok ((c key).map Prod.snd) ∧ c' = c.put key (some (entryKey key (c key), value))
  | .tryInsertUnique clone key value, r, c' =>
    (∃ e, r = .error (key, value, .reserve e)) ∧ c' = c ∨
      (∃ kv, c key = some kv ∧ r = .error (clone kv.1, value, .keyAlreadyExists)) ∧ c' = c ∨
      c key = none ∧ r = .ok () ∧ c' = c.put key (some (key, value))
  | .tryEntry key use, r, c' =>
    (∃ e, r = .error e) ∧ c' = c ∨
      r = .ok (use.eval key (c key)).1 ∧ c' = c.put key (use.eval key (c key)).2
  | .tryEntryGiveBack key use, r, c' =>
    (∃ e, r = .error (key, e)) ∧ c' = c ∨
      r = .ok (use.eval key (c key)).1 ∧ c' = c.put key (use.eval key (c key)).2
  | .tryEntryNonblock key use, r, c' =>
    (∃ e, r = .error e) ∧ c' = c ∨
      r = .ok (use.eval key (c key)).1 ∧ c' = c.put key (use.eval key (c key)).2
  | .get key, r, c' => r = c key ∧ c' = c
  | .getMut key use, r, c' =>
    r = (c key).map (fun kv => (use.eval kv).1) ∧
      c' = c.put key ((c key).map fun kv => (use.eval kv).2)
  | .containsKey key, r, c' => r = (c key).isSome ∧ c' = c
  | .remove key, r, c' => r = (c key).map Prod.snd ∧ c' = c.put key none
  | .removeEntry key, r, c' => r = c key ∧ c' = c.put key none
  | .tryReserve _, _, c' => c' = c
  | .shardLen i, n, c' => (∃ pairs, m.StoredIn i c pairs ∧ n = pairs.length) ∧ c' = c
  | .visitShard i, pairs, c' => m.StoredIn i c pairs ∧ c' = c

end

end Rustyfill.ConcurrentHashMap
