import Rustyfill.Lib.Interference
import Rustyfill.Maps.ConcurrentHashMap
import Rustyfill.Maps.DashMap
import Rustyfill.Maps.HashMap

/-!
# Shrinking the maps

`try_shrink_to_fit` of `ConcurrentHashMap` and of `DashMap`, and `try_shrink_to` of `HashMap`.
Each of them fills a fresh table with the entries of an old one. A shard is locked, or the map
borrowed exclusively, while its table is rebuilt, so the tables are values here that the calls
pass on; which bucket an insertion fills, whether a reservation is granted and whether a hasher
can be cloned is left open.

An entry that was read out of a table bit by bit is in two tables. A table the elements of
which are `ManuallyDrop` drops none of them; any other table drops all it holds.
-/

namespace Rustyfill

open RawHash Interleaving

set_option autoImplicit false

namespace Shrinking

/-- The calls into the raw table, the hasher and the drop glue. -/
inductive Call (K V : Type) where
  | tryReserve (t : Table (K × V)) (additional : Nat) (rehash : K × V → UInt64)
  | tryInsertNoGrow (t : Table (K × V)) (hash : UInt64) (kv : K × V)
  | findOrFindInsertSlot (t : Table (K × V)) (hash : UInt64) (eq : K × V → Bool)
      (rehash : K × V → UInt64)
  | insertInSlot (t : Table (K × V)) (hash : UInt64) (slot : Nat) (kv : K × V)
  | replaceValue (t : Table (K × V)) (bucket : Nat) (value : V)
  | clone (hasher : K → UInt64)
  | tryClone (hasher : K → UInt64)
  | drop (kvs : List (K × V))

/-- What each call answers. `findOrFindInsertSlot` aborts when it cannot grow, and the `clone`
of a hasher may panic. -/
@[reducible] def Call.Res (ε : Type) {K V : Type} : Call K V → Type
  | .tryReserve .. => Except TryReserveError Unit × Table (K × V)
  | .tryInsertNoGrow .. => Except (K × V) (Table (K × V))
  | .findOrFindInsertSlot .. => Option (Except Nat Nat × Table (K × V))
  | .insertInSlot .. => Table (K × V)
  | .replaceValue .. => V × Table (K × V)
  | .clone _ => Option (K → UInt64)
  | .tryClone _ => Except ε (K → UInt64)
  | .drop _ => Unit

section
variable {K V ε R : Type}

/-- The answers each call may give. A hasher that could be cloned hashes as its clone does. -/
def Sem (ε : Type) (_ : Unit) (c : Call K V) (r : c.Res ε) (_ : Unit) : Prop :=
  match c, r with
  | .tryReserve t additional rehash, (answer, t') => t.TryReserve rehash additional answer.isOk t'
  | .tryInsertNoGrow t hash kv, .ok t' => ∃ slot, t.Placed slot hash kv t'
  | .tryInsertNoGrow t _ kv, .error back => t.free = 0 ∧ back = kv
  | .findOrFindInsertSlot t _ _ _, none => t.free = 0
  | .findOrFindInsertSlot t hash eq rehash, some (answer, t') =>
    t.Reserved rehash t' ∧ t'.FoundOrSlot hash eq answer
  | .insertInSlot t hash slot kv, t' => t.Placed slot hash kv t'
  | .replaceValue t bucket value, (old, t') =>
    ∃ hash k, t.buckets[bucket]? = some (some (hash, (k, old))) ∧ t.Replaced bucket (k, value) t'
  | .clone hasher, answer => ∀ h, answer = some h → h = hasher
  | .tryClone hasher, answer => ∀ h, answer = .ok h → h = hasher
  | .drop _, _ => True

abbrev Method (K V ε R : Type) := Prog (Call K V) (Call.Res ε) R

abbrev tryReserve (t : Table (K × V)) (additional : Nat) (rehash : K × V → UInt64) :
    Method K V ε (Except TryReserveError Unit × Table (K × V)) :=
  .perform (Call.tryReserve t additional rehash)

abbrev tryInsertNoGrow (t : Table (K × V)) (hash : UInt64) (kv : K × V) :
    Method K V ε (Except (K × V) (Table (K × V))) := .perform (Call.tryInsertNoGrow t hash kv)

abbrev findOrFindInsertSlot (t : Table (K × V)) (hash : UInt64) (eq : K × V → Bool)
    (rehash : K × V → UInt64) : Method K V ε (Option (Except Nat Nat × Table (K × V))) :=
  .perform (Call.findOrFindInsertSlot t hash eq rehash)

abbrev insertInSlot (t : Table (K × V)) (hash : UInt64) (slot : Nat) (kv : K × V) :
    Method K V ε (Table (K × V)) := .perform (Call.insertInSlot t hash slot kv)

abbrev replaceValue (t : Table (K × V)) (bucket : Nat) (value : V) :
    Method K V ε (V × Table (K × V)) := .perform (Call.replaceValue t bucket value)

abbrev clone (hasher : K → UInt64) : Method K V ε (Option (K → UInt64)) :=
  .perform (Call.clone hasher)

abbrev tryClone (hasher : K → UInt64) : Method K V ε (Except ε (K → UInt64)) :=
  .perform (Call.tryClone hasher)

abbrev drop (kvs : List (K × V)) : Method K V ε Unit := .perform (Call.drop kvs)

/-- A `RawTable<ManuallyDrop<T>>`: the same buckets, and nothing is dropped with it. -/
structure Dehydrated (T : Type) where
  table : Table T

/-- `mem::transmute::<RawTable<T>, RawTable<ManuallyDrop<T>>>`. -/
def dehydrate {T : Type} (t : Table T) : Dehydrated T := ⟨t⟩

/-- `mem::transmute::<RawTable<ManuallyDrop<T>>, RawTable<T>>`. -/
def hydrate {T : Type} (t : Dehydrated T) : Table T := t.table

def Dehydrated.drop (_ : Dehydrated (K × V)) : Method K V ε Unit := Shrinking.drop []

/-- The drop glue of a `RawTable<T>`. -/
def dropTable (t : Table (K × V)) : Method K V ε Unit := Shrinking.drop t.elems

/-- How a call ends that does not return: a panic of its own, or one of the caller's code. -/
inductive Panic where
  | explicit (msg : String)
  | user
deriving DecidableEq, Repr

/-! ## Rebuilding one shard -/

section
variable (hashOne : K → UInt64)

/-- The loop over the buckets of the old table: whether each entry could be inserted. -/
def copyEntries : List (Nat × (K × V)) → Dehydrated (K × V) →
    Method K V ε (Dehydrated (K × V) × Bool)
  | [], newTable => return (newTable, true)
  | bucket :: rest, newTable => do
    let hash := hashOne bucket.2.1
    match ← tryInsertNoGrow newTable.table hash bucket.2 with
    | .error _ => return (newTable, false)
    | .ok table => copyEntries rest ⟨table⟩

/-- The body of the loop over the shards. `copyCheck` is what is made of an insertion that
failed: the message of a panic, or nothing. -/
def shrinkShard (copyCheck : Bool → Option String) (shard : Table (K × V)) :
    Method K V ε (Except Panic (Except TryReserveError Unit) × Table (K × V)) := do
  let count := shard.len
  let (reserved, newTable) ← tryReserve Table.new count fun kv => hashOne kv.1
  match reserved with
  | .error e => do
    (dehydrate newTable).drop
    return (.ok (.error e), shard)
  | .ok () => do
    let (newTable, copyOk) ← copyEntries hashOne shard.full (dehydrate newTable)
    match copyCheck copyOk with
    | some msg => do
      newTable.drop
      return (.error (.explicit msg), shard)
    | none => do
      let oldTable := shard
      (dehydrate oldTable).drop
      return (.ok (.ok ()), hydrate newTable)

/-- The loop over the shards, which the first error leaves. -/
def shrinkShards (copyCheck : Bool → Option String) : List (Table (K × V)) →
    Method K V ε (Except Panic (Except TryReserveError Unit) × List (Table (K × V)))
  | [] => return (.ok (.ok ()), [])
  | shard :: rest => do
    match ← shrinkShard hashOne copyCheck shard with
    | (.ok (.ok ()), shard) => do
      let (result, rest) ← shrinkShards copyCheck rest
      return (result, shard :: rest)
    | (result, shard) => return (result, shard :: rest)

end

end

end Shrinking

open Shrinking

/-! ## The three methods -/

/-- `ConcurrentHashMap::try_shrink_to_fit`, on the tables behind the locks of the shards. -/
def ConcurrentHashMap.tryShrinkToFit {K V ε : Type} (m : ConcurrentHashMap K)
    (shards : List (Table (K × V))) :
    Method K V ε (Except Panic (Except TryReserveError Unit) × List (Table (K × V))) :=
  shrinkShards m.hashOne
    (fun copyOk => if !copyOk then
      some "try_insert_no_grow should not fail because we reserved sufficient space" else none)
    shards

/-- `try_shrink_to_fit` of `DashMap`. Without debug assertions a failed copy is passed over. -/
def DashMap.tryShrinkToFit {K V ε : Type} (debugAssertions : Bool) (m : DashMap K)
    (shards : List (Table (K × V))) :
    Method K V ε (Except Panic (Except TryReserveError Unit) × List (Table (K × V))) := do
  match ← clone m.hashOne with
  | none => return (.error .user, shards)
  | some hashOne =>
    shrinkShards hashOne
      (fun copyOk => if debugAssertions && !copyOk then
        some "shrink: reservation of `count` slots must admit `count` inserts" else none)
      shards

namespace HashMap

inductive WithCloneError (ε : Type) where
  | reserve (e : TryReserveError)
  | clone (e : ε)

section
variable {K V ε : Type} [BEq K]

/-- `HashMap::insert` of the standard library, where an insertion that cannot grow the table
aborts. The key passed in and the value replaced are dropped. -/
def insert (m : HashMap K) (table : Table (K × V)) (k : K) (v : V) :
    Method K V ε (Option (Table (K × V))) := do
  let hash := m.hashOne k
  match ← findOrFindInsertSlot table hash (fun kv => kv.1 == k) m.rehash with
  | none => return none
  | some (.ok bucket, table) => do
    let (old, table) ← replaceValue table bucket v
    drop [(k, old)]
    return some table
  | some (.error slot, table) => do
    let table ← insertInSlot table hash slot (k, v)
    return some table

/-- The loop over the entries that `drain` moves out of the old table. -/
def drainInto (m : HashMap K) : List (K × V) → Table (K × V) →
    Method K V ε (Option (Table (K × V)))
  | [], table => return some table
  | (k, v) :: rest, table => do
    match ← m.insert table k v with
    | none => return none
    | some table => drainInto m rest table

/-- `try_shrink_to`. Draining leaves no entry behind for the assignment to drop. -/
def tryShrinkTo (m : HashMap K) (table : Table (K × V)) (minCapacity : Nat) :
    Method K V ε (Option (Except (WithCloneError ε) Unit × HashMap K × Table (K × V))) := do
  let target := max table.len minCapacity
  if table.capacity ≤ target then
    return some (.ok (), m, table)
  match ← tryClone m.hashOne with
  | .error e => return some (.error (.clone e), m, table)
  | .ok hasher => do
    let newMap : HashMap K := ⟨hasher⟩
    let (reserved, newTable) ← tryReserve Table.new target newMap.rehash
    match reserved with
    | .error e => do
      dropTable newTable
      return some (.error (.reserve e), m, table)
    | .ok () => do
      match ← newMap.drainInto table.elems newTable with
      | none => return none
      | some newTable => return some (.ok (), newMap, newTable)

end

end HashMap

/-! ## What a call keeps -/

namespace Shrinking

section
variable {K V ε R S : Type}

/-- A step that drops no entry, overwrites none, and is no insertion that failed. -/
def Call.Keeps : (c : Call K V) → c.Res ε → Prop
  | .tryInsertNoGrow .., r => r.isOk = true
  | .replaceValue .., _ => False
  | .drop kvs, _ => kvs = []
  | _, _ => True

def KeepsAll (log : List (Own Unit (Call K V) (Call.Res ε))) : Prop :=
  ∀ o ∈ log, o.act.Keeps o.res

/-- The call is never stuck, each of its steps keeps the entries, and what it returns meets
`P`. -/
def Yields (p : Method K V ε R) (P : R → Prop) : Prop :=
  ∀ log, KeepsAll log → p.Wp (Sem ε) Prog.Nobody (fun log r _ => KeepsAll log ∧ P r) log ()

theorem Yields.of_exec {p : Method K V ε R} {P : R → Prop} {r : R} (hp : Yields p P)
    (h : Prog.Exec (Sem ε) () p r ()) : P r :=
  let ⟨_, _, hP⟩ := (hp [] fun _ ho => by cases ho).of_exec h
  hP

theorem yields_ret {P : R → Prop} {r : R} (h : P r) : Yields (.ret r : Method K V ε R) P :=
  fun _ hlog => Prog.wp_ret_alone ⟨hlog, h⟩

theorem yields_act {P : R → Prop} {c : Call K V} {k : c.Res ε → Method K V ε R}
    (hcan : ∃ x, Sem ε () c x ()) (hdoes : ∀ x, Sem ε () c x () → c.Keeps x ∧ Yields (k x) P) :
    Yields (.act c k) P := by
  intro log hlog
  apply Prog.wp_act_alone
  · obtain ⟨x, hx⟩ := hcan
    exact ⟨x, (), hx⟩
  · intro x _ hx
    obtain ⟨hkeeps, hk⟩ := hdoes x hx
    apply hk
    intro o ho
    rcases List.mem_append.mp ho with ho | ho
    · exact hlog o ho
    · obtain rfl := List.mem_singleton.mp ho
      exact hkeeps

theorem Yields.bind {p : Method K V ε R} {f : R → Method K V ε S} {P : R → Prop} {Q : S → Prop}
    (hp : Yields p P) (hf : ∀ r, P r → Yields (f r) Q) : Yields (p >>= f) Q := by
  intro log hlog
  apply Prog.Wp.bind
  apply (hp log hlog).mono
  intro log r _ h
  exact hf r h.2 log h.1

theorem Yields.mono {p : Method K V ε R} {P Q : R → Prop} (hp : Yields p P) (h : ∀ r, P r → Q r) :
    Yields p Q := by
  intro log hlog
  apply (hp log hlog).mono
  intro log r _ hr
  exact ⟨hr.1, h r hr.2⟩

/-- The entries a table holds when those of the list were placed into it one after another. -/
def placedAnew (hashOne : K → UInt64) (kvs : List (K × V)) : List (UInt64 × (K × V)) :=
  kvs.map fun kv => (hashOne kv.1, kv)

theorem yields_drop_nil {k : Unit → Method K V ε R} {P : R → Prop} (h : Yields (k ()) P) :
    Yields (.act (.drop []) k) P := by
  apply yields_act
  · exact ⟨(), trivial⟩
  · intro _ _
    exact ⟨rfl, h⟩

theorem yields_tryReserve {t : Table (K × V)} {n : Nat} {rehash : K × V → UInt64} {P : R → Prop}
    {k : Except TryReserveError Unit × Table (K × V) → Method K V ε R}
    (h : ∀ answer t', t.TryReserve rehash n answer.isOk t' → Yields (k (answer, t')) P) :
    Yields (.act (.tryReserve t n rehash) k) P := by
  apply yields_act
  · by_cases hn : n ≤ t.free
    · exact ⟨(.ok (), t), .roomy hn⟩
    · exact ⟨(.error .allocError, t), .refused (by omega)⟩
  · rintro ⟨answer, t'⟩ hres
    exact ⟨trivial, h answer t' hres⟩

theorem copyEntries_yields {hashOne : K → UInt64} {bs : List (Nat × (K × V))}
    {newTable : Dehydrated (K × V)} (hfree : bs.length ≤ newTable.table.free) :
    Yields (copyEntries hashOne bs newTable : Method K V ε _) fun r =>
      r.2 = true ∧ r.1.table.entries.Perm
        (newTable.table.entries ++ placedAnew hashOne (bs.map Prod.snd)) := by
  induction bs generalizing newTable with
  | nil => exact yields_ret ⟨rfl, by simp [placedAnew]⟩
  | cons bucket rest ih =>
    have hpos : 0 < newTable.table.free := Nat.lt_of_lt_of_le (Nat.succ_pos _) hfree
    apply yields_act
    · obtain ⟨slot, hslot⟩ := Table.exists_vacant hpos
      obtain ⟨t', hplaced⟩ := Table.exists_placed hslot hpos (hashOne bucket.2.1) bucket.2
      exact ⟨.ok t', slot, hplaced⟩
    · intro x hx
      cases x with
      | error back =>
        obtain ⟨hzero, -⟩ := hx
        omega
      | ok t' =>
        obtain ⟨slot, hplaced⟩ := hx
        have hle := hplaced.le_free
        have hrest : rest.length ≤ t'.free := by
          simp only [List.length_cons] at hfree
          omega
        refine ⟨rfl, (@ih ⟨t'⟩ hrest).mono ?_⟩
        rintro r ⟨hok, hperm⟩
        refine ⟨hok, hperm.trans ?_⟩
        have hcons := hplaced.entries_perm.append_right (placedAnew hashOne (rest.map Prod.snd))
        exact hcons.trans List.perm_middle.symm

/-- The table as it was, or one into which its entries were placed anew. -/
def Rebuilt (hashOne : K → UInt64) (t t' : Table (K × V)) : Prop :=
  t' = t ∨ t'.entries.Perm (placedAnew hashOne t.elems)

theorem shrinkShard_yields {hashOne : K → UInt64} {copyCheck : Bool → Option String}
    (hcheck : copyCheck true = none) (shard : Table (K × V)) :
    Yields (shrinkShard hashOne copyCheck shard : Method K V ε _) fun r =>
      (∃ answer, r.1 = .ok answer) ∧ Rebuilt hashOne shard r.2 := by
  apply yields_tryReserve
  intro answer newTable hres
  cases answer with
  | error e => exact yields_drop_nil (yields_ret ⟨⟨.error e, rfl⟩, .inl rfl⟩)
  | ok u =>
    have hfree : shard.full.length ≤ (dehydrate newTable).table.free := by
      rw [Table.length_full]
      exact hres.free_le
    apply (copyEntries_yields hfree).bind
    rintro ⟨newTable', copyOk⟩ ⟨rfl, hperm⟩
    simp only [dehydrate, hres.entries_new, List.nil_append, Table.full_map_snd] at hperm
    simp only [hcheck]
    exact yields_drop_nil (yields_ret ⟨⟨.ok (), rfl⟩, .inr hperm⟩)

theorem shrinkShards_yields {hashOne : K → UInt64} {copyCheck : Bool → Option String}
    (hcheck : copyCheck true = none) (shards : List (Table (K × V))) :
    Yields (shrinkShards hashOne copyCheck shards : Method K V ε _) fun r =>
      (∃ answer, r.1 = .ok answer) ∧ List.Forall₂ (Rebuilt hashOne) shards r.2 := by
  induction shards with
  | nil => exact yields_ret ⟨⟨.ok (), rfl⟩, .nil⟩
  | cons shard rest ih =>
    have hsame : List.Forall₂ (Rebuilt hashOne) rest rest :=
      List.forall₂_same.mpr fun _ _ => .inl rfl
    apply (shrinkShard_yields hcheck shard).bind
    rintro ⟨result, shard'⟩ ⟨⟨answer, rfl⟩, hshard⟩
    cases answer with
    | error e => exact yields_ret ⟨⟨.error e, rfl⟩, .cons hshard hsame⟩
    | ok u =>
      apply ih.bind
      rintro ⟨result, rest'⟩ ⟨hok, hrest⟩
      exact yields_ret ⟨hok, .cons hshard hrest⟩

/-! ### `HashMap` -/

section Drain
variable [BEq K] {m : HashMap K} {t : Table (K × V)}

/-- A key the table does not hold is inserted into the room that was reserved for it. -/
theorem insert_yields {k : K} (hfree : 0 < t.free) (hnew : ∀ kv ∈ t.elems, (kv.1 == k) = false)
    (v : V) : Yields (m.insert t k v : Method K V ε _) fun r =>
      ∃ t', r = some t' ∧ t.free ≤ t'.free + 1 ∧
        t'.entries.Perm ((m.hashOne k, (k, v)) :: t.entries) := by
  apply yields_act
  · obtain ⟨answer, hanswer⟩ :=
      Table.exists_foundOrSlot hfree (m.hashOne k) fun kv => kv.1 == k
    exact ⟨some (answer, t), by rw [Table.Reserved, if_pos hfree], hanswer⟩
  · intro x hx
    refine ⟨trivial, ?_⟩
    cases x with
    | none =>
      have hzero : t.free = 0 := hx
      omega
    | some found =>
      obtain ⟨answer, t'⟩ := found
      obtain ⟨hreserved, hfound⟩ := hx
      obtain rfl := hreserved.eq_of_free hfree
      cases answer with
      | ok bucket =>
        obtain ⟨e, hget, hk⟩ := hfound
        have hmiss := hnew e.2 (Table.mem_elems_of_getElem? hget)
        exact absurd hk (by simp [hmiss])
      | error slot =>
        apply yields_act
        · exact Table.exists_placed hfound.2 hfree (m.hashOne k) (k, v)
        · intro t'' hplaced
          exact ⟨trivial, yields_ret ⟨t'', rfl, hplaced.le_free, hplaced.entries_perm⟩⟩

theorem drainInto_yields [EquivBEq K] {kvs : List (K × V)} (hfree : kvs.length ≤ t.free)
    (hdistinct : (kvs ++ t.elems).Pairwise fun a b => (a.1 == b.1) = false) :
    Yields (m.drainInto kvs t : Method K V ε _) fun r =>
      ∃ t', r = some t' ∧ t'.entries.Perm (t.entries ++ placedAnew m.hashOne kvs) := by
  induction kvs generalizing t with
  | nil => exact yields_ret ⟨t, rfl, by simp [placedAnew]⟩
  | cons kv rest ih =>
    obtain ⟨k, v⟩ := kv
    rw [List.cons_append, List.pairwise_cons] at hdistinct
    obtain ⟨hkv, hrest⟩ := hdistinct
    have hpos : 0 < t.free := Nat.lt_of_lt_of_le (Nat.succ_pos _) hfree
    have hnew : ∀ kv ∈ t.elems, (kv.1 == k) = false := by
      intro kv hmem
      rw [BEq.comm]
      exact hkv kv (List.mem_append_right _ hmem)
    apply (insert_yields hpos hnew v).bind
    rintro _ ⟨t', rfl, hle, hperm⟩
    have hfree' : rest.length ≤ t'.free := by
      simp only [List.length_cons] at hfree
      omega
    have helems : t'.elems.Perm ((k, v) :: t.elems) := hperm.map Prod.snd
    have hdistinct' : (rest ++ t'.elems).Pairwise fun a b => (a.1 == b.1) = false := by
      have hperm' : (rest ++ t'.elems).Perm ((k, v) :: (rest ++ t.elems)) :=
        (helems.append_left rest).trans List.perm_middle
      apply hperm'.symm.pairwise (List.pairwise_cons.mpr ⟨hkv, hrest⟩)
      intro a b hab
      rwa [BEq.comm]
    apply (ih hfree' hdistinct').mono
    rintro r ⟨t'', rfl, hperm'⟩
    refine ⟨t'', rfl, hperm'.trans ?_⟩
    exact (hperm.append_right _).trans List.perm_middle.symm

theorem tryShrinkTo_yields [EquivBEq K] (hkeyed : t.Keyed m.hashOne) (minCapacity : Nat) :
    Yields (m.tryShrinkTo t minCapacity : Method K V ε _) fun r =>
      ∃ answer t', r = some (answer, m, t') ∧ Rebuilt m.hashOne t t' := by
  rw [HashMap.tryShrinkTo]
  split
  · exact yields_ret ⟨.ok (), t, rfl, .inl rfl⟩
  · apply yields_act
    · exact ⟨.ok m.hashOne, fun h hh => (Except.ok.inj hh).symm⟩
    · intro x hx
      refine ⟨trivial, ?_⟩
      cases x with
      | error e => exact yields_ret ⟨.error (.clone e), t, rfl, .inl rfl⟩
      | ok hasher =>
        obtain rfl : hasher = m.hashOne := hx hasher rfl
        apply yields_tryReserve
        intro answer newTable hres
        have hempty : newTable.elems = [] := by rw [Table.elems, hres.entries_new, List.map_nil]
        cases answer with
        | error e =>
          change Yields (.act (.drop newTable.elems) _) _
          rw [hempty]
          exact yields_drop_nil (yields_ret ⟨.error (.reserve e), t, rfl, .inl rfl⟩)
        | ok u =>
          have hfree : t.elems.length ≤ newTable.free :=
            Nat.le_trans (Nat.le_max_left t.len minCapacity) hres.free_le
          have hdistinct : (t.elems ++ newTable.elems).Pairwise fun a b =>
            (a.1 == b.1) = false := by
            rw [hempty, List.append_nil]
            exact hkeyed.distinct
          apply (drainInto_yields hfree hdistinct).bind
          rintro _ ⟨t', rfl, hperm⟩
          rw [hres.entries_new, List.nil_append] at hperm
          exact yields_ret ⟨.ok (), t', rfl, .inr hperm⟩

end Drain

/-! ### The entries and the lookups -/

section Lookup
variable [BEq K]

/-- A table of a map, with what every method of the map keeps. -/
structure MapTable (hashOne : K → UInt64) (V : Type) extends Table (K × V) where
  keyed : toTable.Keyed hashOne

/-- The same entries, each of which a lookup of its key finds, and no other answers. -/
structure Unchanged (hashOne : K → UInt64) (t t' : Table (K × V)) : Prop where
  entries : t'.elems.Perm t.elems
  keyed : t'.Keyed hashOne
  found : ∀ kv ∈ t.elems, ∀ k r, (kv.1 == k) = true → (t'.Gets hashOne k r ↔ r = some kv)
  lookup : ∀ k r, t'.Gets hashOne k r ↔ t.Gets hashOne k r

variable {hashOne : K → UInt64}

omit [BEq K] in
theorem Rebuilt.elems_perm {t t' : Table (K × V)} (h : Rebuilt hashOne t t') :
    t'.elems.Perm t.elems := by
  rcases h with rfl | hperm
  · exact .refl _
  · have hmap := hperm.map Prod.snd
    simpa only [placedAnew, List.map_map, Function.comp_def, List.map_id', Table.elems] using hmap

theorem Rebuilt.unchanged [EquivBEq K] {t t' : Table (K × V)} (h : Rebuilt hashOne t t')
    (hkeyed : t.Keyed hashOne) (hhash : ∀ a b : K, (a == b) = true → hashOne a = hashOne b) :
    Unchanged hashOne t t' := by
  have hperm := h.elems_perm
  have hkeyed' : t'.Keyed hashOne := by
    rcases h with rfl | hplaced
    · exact hkeyed
    · exact hkeyed.of_perm hplaced
  constructor
  · exact hperm
  · exact hkeyed'
  · intro kv hkv k r hk
    exact hkeyed'.gets_of_mem hhash (hperm.mem_iff.mpr hkv) hk
  · intro k r
    exact hkeyed.gets_congr hkeyed' hhash hperm

theorem shrinkShards_unchanged [EquivBEq K]
    (hhash : ∀ a b : K, (a == b) = true → hashOne a = hashOne b) {copyCheck : Bool → Option String}
    (hcheck : copyCheck true = none) (shards : List (MapTable hashOne V)) :
    Yields (shrinkShards hashOne copyCheck (shards.map (·.toTable)) : Method K V ε _) fun r =>
      (∃ answer, r.1 = .ok answer) ∧
        List.Forall₂ (fun t t' => Unchanged hashOne t.toTable t') shards r.2 := by
  apply (shrinkShards_yields hcheck _).mono
  rintro r ⟨hok, hall⟩
  refine ⟨hok, ?_⟩
  rw [List.forall₂_map_left_iff] at hall
  exact hall.imp fun t t' h => h.unchanged t.keyed hhash

/-- Whatever is refused, in whichever shard, and whether or not the hasher can be cloned: each
shard holds the entries it held, none is dropped, overwritten or stored twice, each is found,
and no insertion into a reserved table fails. -/
theorem shrink_unchanged [EquivBEq K] (V ε : Type)
    (hhash : ∀ a b : K, (a == b) = true → hashOne a = hashOne b) :
    (∀ (shardCount : Nat) (shift : UInt64) (shards : List (MapTable hashOne V)),
      Yields ((⟨shardCount, shift, hashOne⟩ : ConcurrentHashMap K).tryShrinkToFit
        (shards.map (·.toTable)) : Method K V ε _) fun r => (∃ answer, r.1 = .ok answer) ∧
          List.Forall₂ (fun t t' => Unchanged hashOne t.toTable t') shards r.2) ∧
    (∀ (debugAssertions : Bool) (determineShard : UInt64 → Nat)
        (shards : List (MapTable hashOne V)),
      Yields ((⟨hashOne, determineShard⟩ : DashMap K).tryShrinkToFit debugAssertions
        (shards.map (·.toTable)) : Method K V ε _) fun r =>
          (r.1 = .error .user ∨ ∃ answer, r.1 = .ok answer) ∧
          List.Forall₂ (fun t t' => Unchanged hashOne t.toTable t') shards r.2) ∧
    ∀ (t : MapTable hashOne V) (minCapacity : Nat),
      Yields ((⟨hashOne⟩ : HashMap K).tryShrinkTo t.toTable minCapacity : Method K V ε _) fun r =>
        ∃ answer t', r = some (answer, ⟨hashOne⟩, t') ∧ Unchanged hashOne t.toTable t' := by
  refine ⟨fun _ _ shards => ?_, fun debugAssertions _ shards => ?_, fun t minCapacity => ?_⟩
  · exact shrinkShards_unchanged hhash rfl shards
  · apply yields_act
    · exact ⟨none, fun h hh => by cases hh⟩
    · intro x hx
      refine ⟨trivial, ?_⟩
      cases x with
      | none =>
        refine yields_ret ⟨.inl rfl, ?_⟩
        rw [List.forall₂_map_right_iff]
        apply List.forall₂_same.mpr
        intro t _
        exact Rebuilt.unchanged (.inl rfl) t.keyed hhash
      | some hasher =>
        obtain rfl : hasher = hashOne := hx hasher rfl
        apply (shrinkShards_unchanged hhash ?_ shards).mono
        · rintro r ⟨hok, hall⟩
          exact ⟨.inr hok, hall⟩
        · cases debugAssertions <;> rfl
  · apply (tryShrinkTo_yields (m := ⟨hashOne⟩) t.keyed minCapacity).mono
    rintro r ⟨answer, t', rfl, h⟩
    exact ⟨answer, t', rfl, h.unchanged t.keyed hhash⟩

end Lookup

/-- Two shards, each with room for more than it holds. -/
def loose : MapTable (fun k : Nat => UInt64.ofNat k) Bool where
  buckets := [none, some (7, (7, true)), some (4, (4, false)), none]
  free := 2
  room := by decide
  keyed := ⟨by decide, by decide⟩

def looser : MapTable (fun k : Nat => UInt64.ofNat k) Bool where
  buckets := [some (2, (2, false)), none, some (9, (9, true)), none, none]
  free := 3
  room := by decide
  keyed := ⟨by decide, by decide⟩

/-- The tables that the first of them is rebuilt in, from the reservation on. -/
def reserved : Table (Nat × Bool) := ⟨[none, none, none], 2, by decide⟩

def half : Table (Nat × Bool) := ⟨[none, some (7, (7, true)), none], 1, by decide⟩

def rebuilt : Table (Nat × Bool) :=
  ⟨[some (4, (4, false)), some (7, (7, true)), none], 0, by decide⟩

def twoShards : ConcurrentHashMap Nat := ⟨2, 63, fun k => UInt64.ofNat k⟩

theorem exec_tryShrinkToFit_refused : Prog.Exec (Sem Unit) ()
    (twoShards.tryShrinkToFit [loose.toTable, looser.toTable] : Method Nat Bool Unit _)
    (.ok (.error .capacityOverflow), [rebuilt, looser.toTable]) () := by
  have hreserve : Sem Unit () (.tryReserve Table.new 2 fun kv => UInt64.ofNat kv.1)
      (.ok (), reserved) () := .grown (by decide) (by decide) (by decide)
  have hseven : Sem Unit () (.tryInsertNoGrow reserved 7 (7, true)) (.ok half) () :=
    ⟨1, by decide, by decide, by decide⟩
  have hfour : Sem Unit () (.tryInsertNoGrow half 4 (4, false)) (.ok rebuilt) () :=
    ⟨0, by decide, by decide, by decide⟩
  have hrefuse : Sem Unit () (.tryReserve Table.new 2 fun kv => UInt64.ofNat kv.1)
      (.error .capacityOverflow, (Table.new : Table (Nat × Bool))) () := .refused (by decide)
  refine .act hreserve (.act hseven (.act hfour ?_))
  exact .act (x := ()) trivial (.act hrefuse (.act (x := ()) trivial (.ret _ _)))

/-- The first shard is rebuilt, and the table for the second one is refused. -/
theorem shrink_unchanged_refused : ∃ t, Prog.Exec (Sem Unit) ()
    (twoShards.tryShrinkToFit [loose.toTable, looser.toTable] : Method Nat Bool Unit _)
    (.ok (.error .capacityOverflow), [t, looser.toTable]) () ∧
    Unchanged (fun k => UInt64.ofNat k) loose.toTable t := by
  refine ⟨rebuilt, exec_tryShrinkToFit_refused, ?_⟩
  have hyields := (@shrink_unchanged Nat _ (fun k => UInt64.ofNat k) _ Bool Unit
    fun a b h => by rw [eq_of_beq h]).1 2 63 [loose, looser]
  exact (List.forall₂_cons.mp (hyields.of_exec exec_tryShrinkToFit_refused).2).1

end

end Shrinking

end Rustyfill
