import Rustyfill.Maps.ConcurrentHashMap
import Rustyfill.Maps.DashMap
import Rustyfill.Maps.Growth
import Rustyfill.Maps.HashMap

/-!
# The fallible calls follow the discipline

For each map, the calls its clients make: the insertions, and the entry methods followed by
whatever the caller does with the entry. Each one reserves under the guard under which it
stores, and after a failure only drops its guard.
-/

namespace Rustyfill.Maps

open RawHash Interleaving

set_option autoImplicit false

section
variable {T E X R S : Type} {o : Outside E X} {h : Ghost} {a : Act T E X}

/-- `m` follows the growth discipline from `h`, and ends as `Q` says. -/
abbrev Grows (h : Ghost) (m : Method o T R) (Q : Ghost → R → Prop) : Prop :=
  m.Follows (growthDiscipline o) Q h

theorem Grows.bind {m : Method o T R} {f : R → Method o T S} {Q : Ghost → R → Prop}
    {Q' : Ghost → S → Prop} (hm : Grows h m Q) (hf : ∀ h' r, Q h' r → Grows h' (f r) Q') :
    Grows h (m >>= f) Q' :=
  Prog.follows_bind.mpr (hm.mono hf)

theorem Grows.map {m : Method o T R} {f : R → S} {Q : Ghost → R → Prop} {Q' : Ghost → S → Prop}
    (hm : Grows h m Q) (hf : ∀ h' r, Q h' r → Q' h' (f r)) : Grows h (f <$> m) Q' :=
  hm.bind hf

theorem Grows.fail {i : Nat} {r : R} {Q : Ghost → R → Prop} (hr : Q ⟨.none, .failed⟩ r) :
    Grows ⟨.write i, .failed⟩ (dropWriteGuard i >>= fun _ => return r : Method o T R) Q :=
  ⟨⟨rfl, trivial⟩, fun _ => hr⟩

/-- Another method of the map, which holds the write guard of a shard and may do anything. -/
def otherMethod (i : Nat) : Method o T Outcome := do
  writeTable i
  Prog.perform (Act.foreign i)
  dropWriteGuard i
  return .ok

theorem otherMethod_grows (i : Nat) : Grows .idle (otherMethod (o := o) (T := T) i) Reports := by
  simp [otherMethod]

/-- How a method that asks for an entry ends: with the entry, the guard of its shard and a
reserved bucket, or with an error and no guard. -/
def Entered {α β : Type} (shard : α → Nat) (h : Ghost) : Except β α → Prop
  | .ok entry => h = ⟨.write (shard entry), .reserved⟩
  | .error _ => h.held = .none ∧ h.phase ≠ .changed

theorem Grows.entered {α β : Type} {shard : α → Nat} {m : Method o T (Except β α)}
    {f : Except β α → Method o T R} {Q : Ghost → R → Prop} (hm : Grows h m (Entered shard))
    (hok : ∀ entry, Grows ⟨.write (shard entry), .reserved⟩ (f (.ok entry)) Q)
    (herr : ∀ h' e, h'.held = .none → h'.phase ≠ .changed → Grows h' (f (.error e)) Q) :
    Grows h (m >>= f) Q := by
  refine hm.bind fun h' r hr => ?_
  cases r with
  | ok entry =>
    obtain rfl := hr
    exact hok entry
  | error e => exact herr h' e hr.1 hr.2

end

section
variable {K V ε : Type} {i bucket : Nat} {phase : Phase}

/-- What a caller may do with an occupied entry or a mutable reference into bucket `bucket`
of shard `i`: read, replace, modify or overwrite the pair, any number of times and depending
on what it reads, and at last remove the pair or drop the guard. -/
inductive BucketClient (i bucket : Nat) : MapMethod K V ε Outcome → Prop where
  | read {f : K × V → MapMethod K V ε Outcome} : (∀ kv, BucketClient i bucket (f kv)) →
      BucketClient i bucket (asRef i bucket >>= f)
  | replace {f : V → MapMethod K V ε Outcome} (value : V) : (∀ v, BucketClient i bucket (f v)) →
      BucketClient i bucket (replaceValue i bucket value >>= f)
  | modify {p : MapMethod K V ε Outcome} (f : V → V) : BucketClient i bucket p →
      BucketClient i bucket (modifyValue i bucket f >>= fun _ => p)
  | overwrite {p : MapMethod K V ε Outcome} (kv : K × V) : BucketClient i bucket p →
      BucketClient i bucket (write i bucket kv >>= fun _ => p)
  | remove : BucketClient i bucket (removePair i bucket >>= fun _ => return .ok)
  | drop : BucketClient i bucket (dropWriteGuard i >>= fun _ => return .ok)

theorem replaceValue_grows (hphase : phase ≠ .failed) (value : V) :
    Grows ⟨.write i, phase⟩ (replaceValue (K := K) (ε := ε) i bucket value)
      fun h _ => h = ⟨.write i, .changed⟩ := by
  simp [replaceValue, hphase]

theorem modifyValue_grows (hphase : phase ≠ .failed) (f : V → V) :
    Grows ⟨.write i, phase⟩ (modifyValue (K := K) (ε := ε) i bucket f)
      fun h _ => h = ⟨.write i, .changed⟩ := by
  simp [modifyValue, hphase]

theorem removePair_grows (hphase : phase ≠ .failed) :
    Grows ⟨.write i, phase⟩ (removePair (K := K) (V := V) (ε := ε) i bucket)
      fun h _ => h = ⟨.none, .changed⟩ := by
  simp [removePair, hphase]

theorem BucketClient.grows {p : MapMethod K V ε Outcome} (hp : BucketClient i bucket p)
    (hphase : phase ≠ .failed) : Grows ⟨.write i, phase⟩ p Reports := by
  induction hp generalizing phase with
  | read _ ih => simpa [hphase] using fun kv => ih kv hphase
  | replace value _ ih =>
    refine (replaceValue_grows hphase value).bind ?_
    rintro _ v rfl
    exact ih v (by decide)
  | modify f _ ih =>
    refine (modifyValue_grows hphase f).bind ?_
    rintro _ _ rfl
    exact ih (by decide)
  | overwrite kv _ ih => simpa [hphase] using @ih .changed (by decide)
  | remove =>
    refine (removePair_grows hphase).bind ?_
    rintro _ _ rfl
    simp
  | drop => by_cases hres : phase = .reserved <;> simp [hphase, hres]

/-- The caller holds a mutable reference into shard `i`, which is shard `shard`. -/
structure InRef (i : Nat) (h : Ghost) (shard : Nat) : Prop where
  shard : shard = i
  held : h.held = .write i
  phase : h.phase ≠ .failed

theorem InRef.of_changed {h : Ghost} {shard : Nat} (hr : shard = i ∧ h = ⟨.write i, .changed⟩) :
    InRef i h shard := by
  obtain ⟨hshard, rfl⟩ := hr
  exact ⟨hshard, rfl, by simp⟩

theorem InRef.grows {h : Ghost} {shard : Nat} {p : MapMethod K V ε Outcome} (hr : InRef i h shard)
    (hp : BucketClient shard bucket p) : Grows h p Reports := by
  have hgrows := hp.grows hr.phase
  rwa [hr.shard, ← hr.held] at hgrows

end

end Rustyfill.Maps

namespace Rustyfill.ConcurrentHashMap

open Maps Interleaving

set_option autoImplicit false

section
variable {K V ε : Type}

/-- What a caller may do with an entry. -/
inductive EntryClient : Entry K → MapMethod K V ε Outcome → Prop where
  | occupied {e : OccupiedEntry} {p : MapMethod K V ε Outcome} : BucketClient e.shard e.bucket p →
      EntryClient (.occupied e) p
  | key {entry : Entry K} {f : K → MapMethod K V ε Outcome} : (∀ k, EntryClient entry (f k)) →
      EntryClient entry (entry.key >>= f)
  | insert {entry : Entry K} {f : RefMut → MapMethod K V ε Outcome} (value : V) :
      (∀ r : RefMut, BucketClient r.shard r.bucket (f r)) →
      EntryClient entry (entry.insert value >>= f)
  | orInsert {entry : Entry K} {f : RefMut → MapMethod K V ε Outcome} (value : V) :
      (∀ r : RefMut, BucketClient r.shard r.bucket (f r)) →
      EntryClient entry (entry.orInsert value >>= f)
  | orInsertWith {entry : Entry K} {f : RefMut → MapMethod K V ε Outcome} (value : Unit → V) :
      (∀ r : RefMut, BucketClient r.shard r.bucket (f r)) →
      EntryClient entry (entry.orInsertWith value >>= f)
  | andModify {entry : Entry K} {f : Entry K → MapMethod K V ε Outcome} (g : V → V) :
      (∀ e, EntryClient e (f e)) → EntryClient entry (entry.andModify g >>= f)
  | drop {entry : Entry K} : EntryClient entry (entry.drop >>= fun _ => return .ok)

/-- The calls of a map: the insertions, the entries with what becomes of them, a reservation
on all shards, and any other method. -/
inductive Api [BEq K] (m : ConcurrentHashMap K) : MapMethod K V ε Outcome → Prop where
  | tryInsert (key : K) (value : V) : Api m (outcome <$> m.tryInsert key value)
  | tryInsertGiveBack (key : K) (value : V) : Api m (outcome <$> m.tryInsertGiveBack key value)
  | tryInsertUnique (clone : K → K) (key : K) (value : V) :
      Api m (outcome <$> m.tryInsertUnique clone key value)
  | tryEntry (key : K) {f : Entry K → MapMethod K V ε Outcome} :
      (∀ entry, EntryClient entry (f entry)) →
      Api m (m.tryEntry key >>= fun
        | .error _ => return .err
        | .ok entry => f entry)
  | tryEntryGiveBack (key : K) {f : Entry K → MapMethod K V ε Outcome} :
      (∀ entry, EntryClient entry (f entry)) →
      Api m (m.tryEntryGiveBack key >>= fun
        | .error _ => return .err
        | .ok entry => f entry)
  | tryEntryNonblock (key : K) {f : Entry K → MapMethod K V ε Outcome} :
      (∀ entry, EntryClient entry (f entry)) →
      Api m (m.tryEntryNonblock key >>= fun
        | .error _ => return .err
        | .ok entry => f entry)
  | tryReserve (additional : Nat) : Api m (outcome <$> m.tryReserve additional)
  | other (i : Nat) : Api m (otherMethod i)

def Entry.Ready (phase : Phase) : Entry K → Prop
  | .occupied _ => phase ≠ .failed
  | .vacant _ => phase = .reserved

theorem Entry.ready_reserved (entry : Entry K) : entry.Ready .reserved := by
  cases entry with
  | occupied => simp [Entry.Ready]
  | vacant => rfl

theorem VacantEntry.insert_grows (e : VacantEntry K) (value : V) :
    Grows ⟨.write e.shard, .reserved⟩ (e.insert (ε := ε) value)
      fun h r => r.shard = e.shard ∧ h = ⟨.write e.shard, .changed⟩ := by
  simp [VacantEntry.insert]

theorem Entry.orInsert_grows {entry : Entry K} {phase : Phase} (hready : entry.Ready phase)
    (value : V) : Grows ⟨.write entry.shard, phase⟩ (entry.orInsert (ε := ε) value)
      fun h r => InRef entry.shard h r.shard := by
  cases entry with
  | occupied e => exact ⟨rfl, rfl, hready⟩
  | vacant e =>
    obtain rfl := hready
    exact (e.insert_grows value).mono fun _ _ => .of_changed

theorem Entry.orInsertWith_grows {entry : Entry K} {phase : Phase} (hready : entry.Ready phase)
    (value : Unit → V) : Grows ⟨.write entry.shard, phase⟩ (entry.orInsertWith (ε := ε) value)
      fun h r => InRef entry.shard h r.shard := by
  cases entry with
  | occupied e => exact ⟨rfl, rfl, hready⟩
  | vacant e =>
    obtain rfl := hready
    exact ⟨⟨trivial, by simp⟩, fun v => (e.insert_grows v).mono fun _ _ => .of_changed⟩

theorem Entry.insert_grows {entry : Entry K} {phase : Phase} (hready : entry.Ready phase)
    (value : V) : Grows ⟨.write entry.shard, phase⟩ (entry.insert (ε := ε) value)
      fun h r => InRef entry.shard h r.shard := by
  cases entry with
  | occupied e =>
    refine (replaceValue_grows hready value).bind ?_
    rintro _ _ rfl
    exact ⟨rfl, rfl, by simp⟩
  | vacant e =>
    obtain rfl := hready
    exact (e.insert_grows value).mono fun _ _ => .of_changed

theorem Entry.andModify_grows {entry : Entry K} {phase : Phase} (hready : entry.Ready phase)
    (g : V → V) : Grows ⟨.write entry.shard, phase⟩ (entry.andModify (ε := ε) g)
      fun h e => e = entry ∧ ∃ phase, entry.Ready phase ∧ h = ⟨.write entry.shard, phase⟩ := by
  cases entry with
  | occupied e =>
    refine (modifyValue_grows hready g).bind ?_
    rintro _ _ rfl
    exact ⟨rfl, .changed, by simp [Entry.Ready], rfl⟩
  | vacant e => exact ⟨rfl, phase, hready, rfl⟩

theorem EntryClient.grows {entry : Entry K} {p : MapMethod K V ε Outcome} {phase : Phase}
    (hp : EntryClient entry p) (hready : entry.Ready phase) :
    Grows ⟨.write entry.shard, phase⟩ p Reports := by
  induction hp generalizing phase with
  | occupied hp => exact hp.grows hready
  | @key entry f _ ih =>
    cases entry with
    | occupied e => exact ⟨⟨.inr rfl, hready⟩, fun kv => ih kv.1 hready⟩
    | vacant e => exact ih e.key hready
  | insert value hf => exact (Entry.insert_grows hready value).bind fun _ r hr => hr.grows (hf r)
  | orInsert value hf =>
    exact (Entry.orInsert_grows hready value).bind fun _ r hr => hr.grows (hf r)
  | orInsertWith value hf =>
    exact (Entry.orInsertWith_grows hready value).bind fun _ r hr => hr.grows (hf r)
  | andModify g _ ih =>
    refine (Entry.andModify_grows hready g).bind ?_
    rintro _ e ⟨rfl, phase, hready, rfl⟩
    exact ih e hready
  | @drop entry =>
    cases entry with
    | occupied e => exact (.drop : BucketClient e.shard e.bucket _).grows hready
    | vacant e =>
      obtain rfl := hready
      exact (.drop : BucketClient e.shard e.slot _).grows (by simp)

theorem insertThrough_grows (value : V) (entry : Entry K) :
    Grows ⟨.write entry.shard, .reserved⟩ (insertThrough (ε := ε) value entry)
      fun h _ => h = ⟨.none, .changed⟩ := by
  cases entry with
  | occupied e =>
    refine (replaceValue_grows (by simp) value).bind ?_
    rintro _ v rfl
    simp [OccupiedEntry.drop]
  | vacant e =>
    refine (e.insert_grows value).bind ?_
    rintro _ r ⟨hshard, rfl⟩
    simp [RefMut.drop, hshard]

section
variable [BEq K] (m : ConcurrentHashMap K)

theorem reservedEntry_grows {β : Type} (idx : Nat) (hash : UInt64) (key : K)
    (fail : TryReserveError → β) : Grows ⟨.write idx, .fresh⟩
      (m.reservedEntry (V := V) (ε := ε) idx hash key fail) (Entered Entry.shard) := by
  refine ⟨⟨rfl, .inl rfl, Nat.one_pos⟩, fun r => ?_⟩
  cases r with
  | error e => exact Grows.fail ⟨rfl, by simp⟩
  | ok u =>
    refine ⟨⟨rfl, rfl⟩, fun r => ?_⟩
    cases r with
    | ok bucket => rfl
    | error slot => rfl

theorem tryEntry_grows (key : K) :
    Grows .idle (m.tryEntry (V := V) (ε := ε) key) (Entered Entry.shard) :=
  ⟨⟨rfl, by simp⟩, fun _ => m.reservedEntry_grows _ _ key id⟩

theorem tryEntryGiveBack_grows (key : K) :
    Grows .idle (m.tryEntryGiveBack (V := V) (ε := ε) key) (Entered Entry.shard) :=
  ⟨⟨rfl, by simp⟩, fun _ => m.reservedEntry_grows _ _ key _⟩

theorem tryEntryNonblock_grows (key : K) :
    Grows .idle (m.tryEntryNonblock (V := V) (ε := ε) key) (Entered Entry.shard) := by
  refine ⟨⟨rfl, by simp⟩, fun locked => ?_⟩
  cases locked with
  | true => exact m.reservedEntry_grows _ _ key _
  | false => exact ⟨rfl, by simp⟩

theorem tryInsert_grows (key : K) (value : V) :
    Grows .idle (m.tryInsert (ε := ε) key value) fun h r => Reports h (outcome r) := by
  refine (m.tryEntry_grows key).entered (fun entry => ?_) fun h e hheld hphase => ?_
  · refine (insertThrough_grows value entry).bind ?_
    rintro _ old rfl
    simp
  · exact reports_err.mpr ⟨hheld, hphase⟩

theorem tryInsertGiveBack_grows (key : K) (value : V) :
    Grows .idle (m.tryInsertGiveBack (ε := ε) key value) fun h r => Reports h (outcome r) := by
  refine (m.tryEntryGiveBack_grows key).entered (fun entry => ?_) fun h e hheld hphase => ?_
  · refine (insertThrough_grows value entry).bind ?_
    rintro _ old rfl
    simp
  · exact reports_err.mpr ⟨hheld, hphase⟩

theorem tryInsertUnique_grows (clone : K → K) (key : K) (value : V) :
    Grows .idle (m.tryInsertUnique (ε := ε) clone key value)
      fun h r => Reports h (outcome r) := by
  refine (m.tryEntryGiveBack_grows key).entered (fun entry => ?_) fun h e hheld hphase => ?_
  · cases entry with
    | occupied e => simp [OccupiedEntry.key, OccupiedEntry.drop]
    | vacant e =>
      refine (e.insert_grows value).bind ?_
      rintro _ r ⟨hshard, rfl⟩
      simp [RefMut.drop, hshard]
  · exact reports_err.mpr ⟨hheld, hphase⟩

omit [BEq K] in
theorem reserveShards_grows {perShard : Nat} (hpos : 0 < perShard) (is : List Nat) :
    Grows .idle (m.reserveShards (V := V) (ε := ε) perShard is)
      fun h r => Reports h (outcome r) := by
  induction is with
  | nil => simp [reserveShards]
  | cons i is ih =>
    refine ⟨⟨rfl, by simp⟩, fun _ => ⟨⟨rfl, .inl rfl, hpos⟩, fun r => ?_⟩⟩
    cases r with
    | error e => exact Grows.fail (by simp)
    | ok u => exact ⟨⟨rfl, trivial⟩, fun _ => ih⟩

omit [BEq K] in
theorem tryReserve_grows (additional : Nat) :
    Grows .idle (m.tryReserve (V := V) (ε := ε) additional)
      fun h r => Reports h (outcome r) := by
  simp only [tryReserve]
  split
  · simp
  · rename_i hpos
    exact m.reserveShards_grows (Nat.pos_of_ne_zero hpos) _

theorem Api.grows {m : ConcurrentHashMap K} {p : MapMethod K V ε Outcome} (hp : Api m p) :
    Grows .idle p Reports := by
  cases hp with
  | tryInsert key value => exact (m.tryInsert_grows key value).map fun _ _ h => h
  | tryInsertGiveBack key value => exact (m.tryInsertGiveBack_grows key value).map fun _ _ h => h
  | tryInsertUnique clone key value =>
    exact (m.tryInsertUnique_grows clone key value).map fun _ _ h => h
  | tryEntry key hf =>
    exact (m.tryEntry_grows key).entered (fun entry => (hf entry).grows entry.ready_reserved)
      fun h e hheld hphase => reports_err.mpr ⟨hheld, hphase⟩
  | tryEntryGiveBack key hf =>
    exact (m.tryEntryGiveBack_grows key).entered (fun entry =>
      (hf entry).grows entry.ready_reserved)
      fun h e hheld hphase => reports_err.mpr ⟨hheld, hphase⟩
  | tryEntryNonblock key hf =>
    exact (m.tryEntryNonblock_grows key).entered (fun entry =>
      (hf entry).grows entry.ready_reserved)
      fun h e hheld hphase => reports_err.mpr ⟨hheld, hphase⟩
  | tryReserve additional => exact (m.tryReserve_grows additional).map fun _ _ h => h
  | other i => exact otherMethod_grows i

end

end

end Rustyfill.ConcurrentHashMap

namespace Rustyfill.DashMap

open Maps Interleaving

set_option autoImplicit false

section
variable {K V ε : Type}

/-- What a caller may do with an entry. -/
inductive EntryClient : Entry K → MapMethod K V ε Outcome → Prop where
  | occupied {e : OccupiedEntry K} {p : MapMethod K V ε Outcome} :
      BucketClient e.shard e.bucket p → EntryClient (.occupied e) p
  | key {entry : Entry K} {f : K → MapMethod K V ε Outcome} : (∀ k, EntryClient entry (f k)) →
      EntryClient entry (entry.key >>= f)
  | intoKey {entry : Entry K} : EntryClient entry (entry.intoKey >>= fun _ => return .ok)
  | insert {entry : Entry K} {f : RefMut → MapMethod K V ε Outcome} (value : V) :
      (∀ r : RefMut, BucketClient r.shard r.bucket (f r)) →
      EntryClient entry (entry.insert value >>= f)
  | insertEntry {entry : Entry K} {f : OccupiedEntry K → MapMethod K V ε Outcome}
      (clone : K → K) (value : V) : (∀ e : OccupiedEntry K, BucketClient e.shard e.bucket (f e)) →
      EntryClient entry (entry.insertEntry clone value >>= f)
  | orInsert {entry : Entry K} {f : RefMut → MapMethod K V ε Outcome} (value : V) :
      (∀ r : RefMut, BucketClient r.shard r.bucket (f r)) →
      EntryClient entry (entry.orInsert value >>= f)
  | orInsertWith {entry : Entry K} {f : RefMut → MapMethod K V ε Outcome} (value : Unit → V) :
      (∀ r : RefMut, BucketClient r.shard r.bucket (f r)) →
      EntryClient entry (entry.orInsertWith value >>= f)
  | orTryInsertWith {entry : Entry K} {f : RefMut → MapMethod K V ε Outcome}
      (value : Unit → Except ε V) : (∀ r : RefMut, BucketClient r.shard r.bucket (f r)) →
      EntryClient entry (entry.orTryInsertWith value >>= fun
        | .error _ => return .err
        | .ok r => f r)
  | orTryDefault {entry : Entry K} {f : RefMut → MapMethod K V ε Outcome}
      (tryDefault : Except ε V) : (∀ r : RefMut, BucketClient r.shard r.bucket (f r)) →
      EntryClient entry (entry.orTryDefault tryDefault >>= fun
        | .error _ => return .err
        | .ok r => f r)
  | andModify {entry : Entry K} {f : Entry K → MapMethod K V ε Outcome} (g : V → V) :
      (∀ e, EntryClient e (f e)) → EntryClient entry (entry.andModify g >>= f)
  | drop {entry : Entry K} : EntryClient entry (entry.drop >>= fun _ => return .ok)

/-- The calls of a map: the insertions, the entries with what becomes of them, and any other
method. -/
inductive Api [BEq K] (m : DashMap K) : MapMethod K V ε Outcome → Prop where
  | tryInsert (key : K) (value : V) : Api m (outcome <$> m.tryInsert key value)
  | tryInsertGiveBack (key : K) (value : V) : Api m (outcome <$> m.tryInsertGiveBack key value)
  | tryInsertUnique (key : K) (value : V) : Api m (outcome <$> m.tryInsertUnique key value)
  | tryInsertNonblock (key : K) (value : V) : Api m (outcome <$> m.tryInsertNonblock key value)
  | tryInsertGiveBackNonblock (key : K) (value : V) :
      Api m (outcome <$> m.tryInsertGiveBackNonblock key value)
  | tryInsertUniqueNonblock (key : K) (value : V) :
      Api m (outcome <$> m.tryInsertUniqueNonblock key value)
  | tryEntry (key : K) {f : Entry K → MapMethod K V ε Outcome} :
      (∀ entry, EntryClient entry (f entry)) →
      Api m (m.tryEntry key >>= fun
        | .error _ => return .err
        | .ok entry => f entry)
  | tryEntryGiveBack (key : K) {f : Entry K → MapMethod K V ε Outcome} :
      (∀ entry, EntryClient entry (f entry)) →
      Api m (m.tryEntryGiveBack key >>= fun
        | .error _ => return .err
        | .ok entry => f entry)
  | tryEntryNonblock (key : K) {f : Entry K → MapMethod K V ε Outcome} :
      (∀ entry, EntryClient entry (f entry)) →
      Api m (m.tryEntryNonblock key >>= fun
        | .error _ => return .err
        | .ok entry => f entry)
  | tryEntryGiveBackNonblock (key : K) {f : Entry K → MapMethod K V ε Outcome} :
      (∀ entry, EntryClient entry (f entry)) →
      Api m (m.tryEntryGiveBackNonblock key >>= fun
        | .error _ => return .err
        | .ok entry => f entry)
  | tryEntryRef (clone : K → Except ε K) (key : K) {f : Entry K → MapMethod K V ε Outcome} :
      (∀ entry, EntryClient entry (f entry)) →
      Api m (m.tryEntryRef clone key >>= fun
        | .error _ => return .err
        | .ok entry => f entry)
  | other (i : Nat) : Api m (otherMethod i)

def Entry.Ready (phase : Phase) : Entry K → Prop
  | .occupied _ => phase ≠ .failed
  | .vacant _ => phase = .reserved

theorem Entry.ready_reserved (entry : Entry K) : entry.Ready .reserved := by
  cases entry with
  | occupied => simp [Entry.Ready]
  | vacant => rfl

theorem VacantEntry.insert_grows (e : VacantEntry K) (value : V) :
    Grows ⟨.write e.shard, .reserved⟩ (e.insert (ε := ε) value)
      fun h r => r.shard = e.shard ∧ h = ⟨.write e.shard, .changed⟩ := by
  simp [VacantEntry.insert]

section
variable {entry : Entry K} {phase : Phase}

theorem Entry.orInsert_grows (hready : entry.Ready phase) (value : V) :
    Grows ⟨.write entry.shard, phase⟩ (entry.orInsert (ε := ε) value)
      fun h r => InRef entry.shard h r.shard := by
  cases entry with
  | occupied e => exact ⟨rfl, rfl, hready⟩
  | vacant e =>
    obtain rfl := hready
    exact (e.insert_grows value).mono fun _ _ => .of_changed

theorem Entry.orInsertWith_grows (hready : entry.Ready phase) (value : Unit → V) :
    Grows ⟨.write entry.shard, phase⟩ (entry.orInsertWith (ε := ε) value)
      fun h r => InRef entry.shard h r.shard := by
  cases entry with
  | occupied e => exact ⟨rfl, rfl, hready⟩
  | vacant e =>
    obtain rfl := hready
    exact ⟨⟨trivial, by simp⟩, fun v => (e.insert_grows v).mono fun _ _ => .of_changed⟩

theorem Entry.orTryInsertWith_grows (hready : entry.Ready phase) (value : Unit → Except ε V) :
    Grows ⟨.write entry.shard, phase⟩ (entry.orTryInsertWith value) fun h r => match r with
      | .ok r => InRef entry.shard h r.shard
      | .error _ => h = ⟨.none, .failed⟩ := by
  cases entry with
  | occupied e => exact ⟨rfl, rfl, hready⟩
  | vacant e =>
    obtain rfl := hready
    refine ⟨⟨trivial, by simp⟩, fun r => ?_⟩
    cases r with
    | error err => exact Grows.fail rfl
    | ok v => exact (e.insert_grows v).bind fun _ _ => .of_changed

theorem Entry.insert_grows (hready : entry.Ready phase) (value : V) :
    Grows ⟨.write entry.shard, phase⟩ (entry.insert (ε := ε) value)
      fun h r => InRef entry.shard h r.shard := by
  cases entry with
  | occupied e =>
    refine (replaceValue_grows hready value).bind ?_
    rintro _ _ rfl
    exact ⟨rfl, rfl, by simp⟩
  | vacant e =>
    obtain rfl := hready
    exact (e.insert_grows value).mono fun _ _ => .of_changed

theorem Entry.insertEntry_grows (hready : entry.Ready phase) (clone : K → K) (value : V) :
    Grows ⟨.write entry.shard, phase⟩ (entry.insertEntry (ε := ε) clone value)
      fun h e => InRef entry.shard h e.shard := by
  cases entry with
  | occupied e =>
    refine (replaceValue_grows hready value).bind ?_
    rintro _ _ rfl
    exact ⟨rfl, rfl, by simp⟩
  | vacant e =>
    obtain rfl := hready
    exact ⟨⟨rfl, rfl⟩, fun bucket => ⟨rfl, rfl, by simp⟩⟩

theorem Entry.andModify_grows (hready : entry.Ready phase) (g : V → V) :
    Grows ⟨.write entry.shard, phase⟩ (entry.andModify (ε := ε) g)
      fun h e => e = entry ∧ ∃ phase, entry.Ready phase ∧ h = ⟨.write entry.shard, phase⟩ := by
  cases entry with
  | occupied e =>
    refine (modifyValue_grows hready g).bind ?_
    rintro _ _ rfl
    exact ⟨rfl, .changed, by simp [Entry.Ready], rfl⟩
  | vacant e => exact ⟨rfl, phase, hready, rfl⟩

theorem Entry.drop_grows (hready : entry.Ready phase) :
    Grows ⟨.write entry.shard, phase⟩ (entry.drop (V := V) (ε := ε))
      fun h _ => h.held = .none ∧ h.phase ≠ .failed := by
  have hdrop : (if phase = .reserved then .fresh else phase) ≠ .failed := by
    split
    · simp
    · rename_i hres
      cases entry with
      | occupied e => exact hready
      | vacant e => exact absurd hready hres
  cases entry with
  | occupied e => exact ⟨⟨rfl, trivial⟩, fun _ => ⟨rfl, hdrop⟩⟩
  | vacant e => exact ⟨⟨rfl, trivial⟩, fun _ => ⟨rfl, hdrop⟩⟩

theorem Entry.intoKey_grows (hready : entry.Ready phase) :
    Grows ⟨.write entry.shard, phase⟩ (entry.intoKey (V := V) (ε := ε))
      fun h _ => h.held = .none ∧ h.phase ≠ .failed := by
  have hdrop := entry.drop_grows (V := V) (ε := ε) hready
  cases entry with
  | occupied e => exact hdrop.bind fun _ _ h => h
  | vacant e => exact hdrop.bind fun _ _ h => h

end

theorem EntryClient.grows {entry : Entry K} {p : MapMethod K V ε Outcome} {phase : Phase}
    (hp : EntryClient entry p) (hready : entry.Ready phase) :
    Grows ⟨.write entry.shard, phase⟩ p Reports := by
  induction hp generalizing phase with
  | occupied hp => exact hp.grows hready
  | @key entry f _ ih =>
    cases entry with
    | occupied e => exact ⟨⟨.inr rfl, hready⟩, fun kv => ih kv.1 hready⟩
    | vacant e => exact ih e.key hready
  | intoKey => exact (Entry.intoKey_grows hready).bind fun _ _ h => reports_ok.mpr h
  | insert value hf => exact (Entry.insert_grows hready value).bind fun _ r hr => hr.grows (hf r)
  | insertEntry clone value hf =>
    exact (Entry.insertEntry_grows hready clone value).bind fun _ e hr => hr.grows (hf e)
  | orInsert value hf =>
    exact (Entry.orInsert_grows hready value).bind fun _ r hr => hr.grows (hf r)
  | orInsertWith value hf =>
    exact (Entry.orInsertWith_grows hready value).bind fun _ r hr => hr.grows (hf r)
  | orTryInsertWith value hf =>
    refine (Entry.orTryInsertWith_grows hready value).bind fun h r hr => ?_
    cases r with
    | error err =>
      obtain rfl := hr
      simp
    | ok r => exact hr.grows (hf r)
  | orTryDefault tryDefault hf =>
    refine (Entry.orTryInsertWith_grows hready fun _ => tryDefault).bind fun h r hr => ?_
    cases r with
    | error err =>
      obtain rfl := hr
      simp
    | ok r => exact hr.grows (hf r)
  | andModify g _ ih =>
    refine (Entry.andModify_grows hready g).bind ?_
    rintro _ e ⟨rfl, phase, hready, rfl⟩
    exact ih e hready
  | drop => exact (Entry.drop_grows hready).bind fun _ _ h => reports_ok.mpr h

theorem insertThrough_grows (value : V) (entry : Entry K) :
    Grows ⟨.write entry.shard, .reserved⟩ (insertThrough (ε := ε) value entry)
      fun h _ => h = ⟨.none, .changed⟩ := by
  cases entry with
  | occupied e =>
    refine (replaceValue_grows (by simp) value).bind ?_
    rintro _ v rfl
    simp [OccupiedEntry.drop]
  | vacant e =>
    refine (e.insert_grows value).bind ?_
    rintro _ r ⟨hshard, rfl⟩
    simp [RefMut.drop, hshard]

theorem insertIfVacant_grows {β : Type} (value : V) (exists_ : β) (entry : Entry K) :
    Grows ⟨.write entry.shard, .reserved⟩ (insertIfVacant (ε := ε) value exists_ entry)
      fun h r => Reports h (outcome r) := by
  cases entry with
  | occupied e => simp [insertIfVacant, OccupiedEntry.intoKey, OccupiedEntry.drop]
  | vacant e =>
    refine (e.insert_grows value).bind ?_
    rintro _ r ⟨hshard, rfl⟩
    simp [RefMut.drop, hshard]

section
variable [BEq K] (m : DashMap K)

omit [BEq K] in
theorem reserveOne_grows {β : Type} (idx : Nat) (fail : TryReserveError → β) :
    Grows ⟨.write idx, .fresh⟩ (m.reserveOne (V := V) (ε := ε) idx fail) fun h r => match r with
      | .ok () => h = ⟨.write idx, .reserved⟩
      | .error _ => h = ⟨.none, .failed⟩ := by
  refine ⟨⟨rfl, .inl rfl, Nat.one_pos⟩, fun r => ?_⟩
  cases r with
  | error e => exact Grows.fail rfl
  | ok u => rfl

theorem lookup_grows (idx : Nat) (hash : UInt64) (key : K) :
    Grows ⟨.write idx, .reserved⟩ (m.lookup (V := V) (ε := ε) idx hash key)
      fun h entry => h = ⟨.write entry.shard, .reserved⟩ := by
  refine ⟨⟨rfl, rfl⟩, fun r => ?_⟩
  cases r with
  | ok bucket => rfl
  | error slot => rfl

theorem reservedEntry_grows {β : Type} (idx : Nat) (hash : UInt64) (key : K)
    (fail : TryReserveError → β) : Grows ⟨.write idx, .fresh⟩
      (m.reservedEntry (V := V) (ε := ε) idx hash key fail) (Entered Entry.shard) := by
  refine (m.reserveOne_grows idx fail).bind fun h r hr => ?_
  cases r with
  | error e =>
    obtain rfl := hr
    exact ⟨rfl, by simp⟩
  | ok u =>
    obtain rfl := hr
    exact (m.lookup_grows idx hash key).bind fun _ _ h => h

theorem tryEntry_grows (key : K) :
    Grows .idle (m.tryEntry (V := V) (ε := ε) key) (Entered Entry.shard) :=
  ⟨⟨rfl, by simp⟩, fun _ => m.reservedEntry_grows _ _ key id⟩

theorem tryEntryGiveBack_grows (key : K) :
    Grows .idle (m.tryEntryGiveBack (V := V) (ε := ε) key) (Entered Entry.shard) :=
  ⟨⟨rfl, by simp⟩, fun _ => m.reservedEntry_grows _ _ key _⟩

theorem tryEntryNonblock_grows (key : K) :
    Grows .idle (m.tryEntryNonblock (V := V) (ε := ε) key) (Entered Entry.shard) := by
  refine ⟨⟨rfl, by simp⟩, fun locked => ?_⟩
  cases locked with
  | true => exact m.reservedEntry_grows _ _ key _
  | false => exact ⟨rfl, by simp⟩

theorem tryEntryGiveBackNonblock_grows (key : K) :
    Grows .idle (m.tryEntryGiveBackNonblock (V := V) (ε := ε) key) (Entered Entry.shard) := by
  refine ⟨⟨rfl, by simp⟩, fun locked => ?_⟩
  cases locked with
  | true => exact m.reservedEntry_grows _ _ key _
  | false => exact ⟨rfl, by simp⟩

/-- The clone of the key comes between the reservation and the lookup. -/
theorem tryEntryRef_grows (clone : K → Except ε K) (key : K) :
    Grows .idle (m.tryEntryRef (V := V) clone key) (Entered Entry.shard) := by
  refine ⟨⟨rfl, by simp⟩, fun _ => ?_⟩
  refine (m.reserveOne_grows _ EntryByRefError.reserve).bind fun h r hr => ?_
  cases r with
  | error e =>
    obtain rfl := hr
    exact ⟨rfl, by simp⟩
  | ok u =>
    obtain rfl := hr
    refine ⟨⟨trivial, by simp⟩, fun r => ?_⟩
    cases r with
    | error e => exact Grows.fail ⟨rfl, by simp⟩
    | ok key => exact (m.lookup_grows _ _ key).bind fun _ _ h => h

omit [BEq K] in
theorem insertion_grows {β γ : Type} {p : MapMethod K V ε (Except β (Entry K))}
    {f : Except β (Entry K) → MapMethod K V ε (Except γ (Option V))} {value : V}
    (hp : Grows .idle p (Entered Entry.shard)) (herr : ∀ e, ∃ e', f (.error e) = return .error e')
    (hok : ∀ entry, f (.ok entry) = insertThrough value entry >>= fun old => return .ok old) :
    Grows .idle (p >>= f) fun h r => Reports h (outcome r) := by
  refine hp.entered (fun entry => ?_) fun h e hheld hphase => ?_
  · rw [hok]
    refine (insertThrough_grows value entry).bind ?_
    rintro _ old rfl
    simp
  · obtain ⟨e', he'⟩ := herr e
    rw [he']
    exact reports_err.mpr ⟨hheld, hphase⟩

omit [BEq K] in
theorem uniqueInsertion_grows {β γ : Type} {p : MapMethod K V ε (Except β (Entry K))}
    {f : Except β (Entry K) → MapMethod K V ε (Except (K × V × γ) Unit)} {value : V} {exists_ : γ}
    (hp : Grows .idle p (Entered Entry.shard)) (herr : ∀ e, ∃ e', f (.error e) = return .error e')
    (hok : ∀ entry, f (.ok entry) = insertIfVacant value exists_ entry) :
    Grows .idle (p >>= f) fun h r => Reports h (outcome r) := by
  refine hp.entered (fun entry => ?_) fun h e hheld hphase => ?_
  · rw [hok]
    exact insertIfVacant_grows value exists_ entry
  · obtain ⟨e', he'⟩ := herr e
    rw [he']
    exact reports_err.mpr ⟨hheld, hphase⟩

omit [BEq K] in
theorem entry_grows {β : Type} {p : MapMethod K V ε (Except β (Entry K))}
    {f : Except β (Entry K) → MapMethod K V ε Outcome} (hp : Grows .idle p (Entered Entry.shard))
    (herr : ∀ e, f (.error e) = return .err) (hok : ∀ entry, EntryClient entry (f (.ok entry))) :
    Grows .idle (p >>= f) Reports := by
  refine hp.entered (fun entry => (hok entry).grows entry.ready_reserved) fun h e hheld hphase => ?_
  rw [herr]
  exact reports_err.mpr ⟨hheld, hphase⟩

theorem Api.grows {m : DashMap K} {p : MapMethod K V ε Outcome} (hp : Api m p) :
    Grows .idle p Reports := by
  cases hp with
  | tryInsert key value =>
    have hgrows : Grows .idle (m.tryInsert (ε := ε) key value) fun h r => Reports h (outcome r) :=
      insertion_grows (m.tryEntry_grows key) (fun _ => ⟨_, rfl⟩) fun _ => rfl
    exact hgrows.map fun _ _ h => h
  | tryInsertGiveBack key value =>
    have hgrows : Grows .idle (m.tryInsertGiveBack (ε := ε) key value)
        fun h r => Reports h (outcome r) :=
      insertion_grows (m.tryEntryGiveBack_grows key) (fun _ => ⟨_, rfl⟩) fun _ => rfl
    exact hgrows.map fun _ _ h => h
  | tryInsertUnique key value =>
    have hgrows : Grows .idle (m.tryInsertUnique (ε := ε) key value)
        fun h r => Reports h (outcome r) :=
      uniqueInsertion_grows (m.tryEntryGiveBack_grows key) (fun _ => ⟨_, rfl⟩) fun _ => rfl
    exact hgrows.map fun _ _ h => h
  | tryInsertNonblock key value =>
    have hgrows : Grows .idle (m.tryInsertNonblock (ε := ε) key value)
        fun h r => Reports h (outcome r) :=
      insertion_grows (m.tryEntryNonblock_grows key) (fun _ => ⟨_, rfl⟩) fun _ => rfl
    exact hgrows.map fun _ _ h => h
  | tryInsertGiveBackNonblock key value =>
    have hgrows : Grows .idle (m.tryInsertGiveBackNonblock (ε := ε) key value)
        fun h r => Reports h (outcome r) :=
      insertion_grows (m.tryEntryGiveBackNonblock_grows key) (fun _ => ⟨_, rfl⟩) fun _ => rfl
    exact hgrows.map fun _ _ h => h
  | tryInsertUniqueNonblock key value =>
    have hgrows : Grows .idle (m.tryInsertUniqueNonblock (ε := ε) key value)
        fun h r => Reports h (outcome r) :=
      uniqueInsertion_grows (m.tryEntryGiveBackNonblock_grows key) (fun _ => ⟨_, rfl⟩) fun _ => rfl
    exact hgrows.map fun _ _ h => h
  | tryEntry key hf => exact entry_grows (m.tryEntry_grows key) (fun _ => rfl) hf
  | tryEntryGiveBack key hf => exact entry_grows (m.tryEntryGiveBack_grows key) (fun _ => rfl) hf
  | tryEntryNonblock key hf => exact entry_grows (m.tryEntryNonblock_grows key) (fun _ => rfl) hf
  | tryEntryGiveBackNonblock key hf =>
    exact entry_grows (m.tryEntryGiveBackNonblock_grows key) (fun _ => rfl) hf
  | tryEntryRef clone key hf => exact entry_grows (m.tryEntryRef_grows clone key) (fun _ => rfl) hf
  | other i => exact otherMethod_grows i

end

end

end Rustyfill.DashMap

namespace Rustyfill.HashMap

open Maps Interleaving

set_option autoImplicit false

section
variable {K V ε : Type}

/-- What a caller may do with an occupied entry or a mutable reference into a bucket, while it
borrows the map. -/
inductive BorrowClient (bucket : Nat) : MapMethod K V ε Outcome → Prop where
  | read {f : K × V → MapMethod K V ε Outcome} : (∀ kv, BorrowClient bucket (f kv)) →
      BorrowClient bucket (asRef 0 bucket >>= f)
  | replace {f : V → MapMethod K V ε Outcome} (value : V) : (∀ v, BorrowClient bucket (f v)) →
      BorrowClient bucket (replaceValue 0 bucket value >>= f)
  | modify {p : MapMethod K V ε Outcome} (f : V → V) : BorrowClient bucket p →
      BorrowClient bucket (modifyValue 0 bucket f >>= fun _ => p)
  | remove : BorrowClient bucket (remove 0 bucket >>= fun _ => return .ok)
  | drop : BorrowClient bucket (return .ok)

/-- What a caller may do with an entry. -/
inductive EntryClient : Entry K → MapMethod K V ε Outcome → Prop where
  | occupied {bucket : Nat} {p : MapMethod K V ε Outcome} : BorrowClient bucket p →
      EntryClient (.occupied bucket) p
  | key {entry : Entry K} {f : K → MapMethod K V ε Outcome} : (∀ k, EntryClient entry (f k)) →
      EntryClient entry (entry.key >>= f)
  | insertEntry {entry : Entry K} {f : Nat → MapMethod K V ε Outcome} (value : V) :
      (∀ bucket, BorrowClient bucket (f bucket)) →
      EntryClient entry (entry.insertEntry value >>= f)
  | orInsert {entry : Entry K} {f : Nat → MapMethod K V ε Outcome} (value : V) :
      (∀ bucket, BorrowClient bucket (f bucket)) → EntryClient entry (entry.orInsert value >>= f)
  | orInsertWith {entry : Entry K} {f : Nat → MapMethod K V ε Outcome} (value : Unit → V) :
      (∀ bucket, BorrowClient bucket (f bucket)) →
      EntryClient entry (entry.orInsertWith value >>= f)
  | orInsertWithKey {entry : Entry K} {f : Nat → MapMethod K V ε Outcome} (value : K → V) :
      (∀ bucket, BorrowClient bucket (f bucket)) →
      EntryClient entry (entry.orInsertWithKey value >>= f)
  | andModify {entry : Entry K} {f : Entry K → MapMethod K V ε Outcome} (g : V → V) :
      (∀ e, EntryClient e (f e)) → EntryClient entry (entry.andModify g >>= f)
  | drop {entry : Entry K} : EntryClient entry (return .ok)

/-- What a call that may panic reports. -/
@[simp] def settled {α β : Type} : Except Fault (Except β α) → Outcome
  | .ok r => outcome r
  | .error _ => .panic

/-- The calls of a map, each under its borrow: the insertions, the entry with what becomes of
it, and any other method. -/
inductive Api [BEq K] (m : HashMap K) : MapMethod K V ε Outcome → Prop where
  | tryInsert (key : K) (value : V) : Api m (borrowed (outcome <$> m.tryInsert key value))
  | tryInsertGiveBack (key : K) (value : V) :
      Api m (borrowed (outcome <$> m.tryInsertGiveBack key value))
  | tryInsertUnique (key : K) (value : V) :
      Api m (borrowed (settled <$> m.tryInsertUnique key value))
  | tryEntry (key : K) {f : Entry K → MapMethod K V ε Outcome} :
      (∀ entry, EntryClient entry (f entry)) →
      Api m (borrowed (m.tryEntry key >>= fun
        | .error _ => return .err
        | .ok entry => f entry))
  | other : Api m (otherMethod 0)

/-- What a call reports while its borrow lasts. -/
structure Within (h : Ghost) (r : Outcome) : Prop where
  held : h.held = .write 0
  failed : h.phase = .failed → r = .err
  unchanged : r ≠ .ok → h.phase ≠ .changed

theorem borrowed_grows {p : MapMethod K V ε Outcome} (hp : Grows ⟨.write 0, .fresh⟩ p Within) :
    Grows .idle (borrowed p) Reports := by
  refine ⟨⟨rfl, by simp⟩, fun _ => hp.bind fun h r hr => ⟨⟨hr.held, trivial⟩, fun _ => ?_⟩⟩
  refine ⟨rfl, fun hf => hr.failed ?_, fun herr => ?_⟩
  · simp only [Phase.next, growthDiscipline_next] at hf
    split at hf
    · cases hf
    · exact hf
  · have hphase := hr.unchanged herr
    simp only [Phase.next, growthDiscipline_next]
    split
    · simp
    · exact hphase

def Entry.Ready (phase : Phase) : Entry K → Prop
  | .occupied _ => phase ≠ .failed
  | .vacant _ _ => phase = .reserved

theorem Entry.Ready.not_failed {entry : Entry K} {phase : Phase} (h : entry.Ready phase) :
    phase ≠ .failed := by
  cases entry with
  | occupied bucket => exact h
  | vacant key hash => simp [show phase = .reserved from h]

theorem within_ok {phase : Phase} (hphase : phase ≠ .failed) : Within ⟨.write 0, phase⟩ .ok where
  held := rfl
  failed hf := absurd hf hphase
  unchanged hr := absurd rfl hr

theorem within_panic {phase : Phase} (hfailed : phase ≠ .failed) (hchanged : phase ≠ .changed) :
    Within ⟨.write 0, phase⟩ .panic where
  held := rfl
  failed hf := absurd hf hfailed
  unchanged _ := hchanged

theorem within_err {phase : Phase} (hphase : phase ≠ .changed) :
    Within ⟨.write 0, phase⟩ .err where
  held := rfl
  failed _ := rfl
  unchanged _ := hphase

theorem Entry.insert_grows {entry : Entry K} {phase : Phase} (hready : entry.Ready phase)
    (value : V) : Grows ⟨.write 0, phase⟩ (entry.insert (ε := ε) value)
      fun h _ => h = ⟨.write 0, .changed⟩ := by
  cases entry with
  | occupied bucket => exact (replaceValue_grows hready value).bind fun _ _ h => h
  | vacant key hash =>
    obtain rfl := hready
    exact ⟨⟨rfl, rfl⟩, fun _ => rfl⟩

theorem BorrowClient.grows {p : MapMethod K V ε Outcome} {bucket : Nat} {phase : Phase}
    (hp : BorrowClient bucket p) (hphase : phase ≠ .failed) :
    Grows ⟨.write 0, phase⟩ p Within := by
  induction hp generalizing phase with
  | read _ ih => exact ⟨⟨.inr rfl, hphase⟩, fun kv => ih kv hphase⟩
  | replace value _ ih =>
    refine (replaceValue_grows hphase value).bind ?_
    rintro _ v rfl
    exact ih v (by decide)
  | modify f _ ih =>
    refine (modifyValue_grows hphase f).bind ?_
    rintro _ _ rfl
    exact ih (by decide)
  | remove => exact ⟨⟨rfl, hphase⟩, fun _ => within_ok (by simp)⟩
  | drop => exact within_ok hphase

/-- The map is borrowed, and nothing has failed. -/
structure Borrowing (h : Ghost) : Prop where
  held : h.held = .write 0
  phase : h.phase ≠ .failed

theorem Borrowing.grows {h : Ghost} {bucket : Nat} {p : MapMethod K V ε Outcome}
    (hh : Borrowing h) (hp : BorrowClient bucket p) : Grows h p Within := by
  have hgrows := hp.grows hh.phase
  rwa [← hh.held] at hgrows

theorem Entry.insertEntry_grows {entry : Entry K} {phase : Phase} (hready : entry.Ready phase)
    (value : V) : Grows ⟨.write 0, phase⟩ (entry.insertEntry (ε := ε) value)
      fun h _ => Borrowing h := by
  cases entry with
  | occupied bucket =>
    refine (replaceValue_grows hready value).bind ?_
    rintro _ _ rfl
    exact ⟨rfl, by simp⟩
  | vacant key hash =>
    obtain rfl := hready
    exact ⟨⟨rfl, rfl⟩, fun _ => ⟨rfl, by simp⟩⟩

theorem Entry.orInsert_grows {entry : Entry K} {phase : Phase} (hready : entry.Ready phase)
    (value : V) : Grows ⟨.write 0, phase⟩ (entry.orInsert (ε := ε) value)
      fun h _ => Borrowing h := by
  cases entry with
  | occupied bucket => exact ⟨rfl, hready⟩
  | vacant key hash =>
    obtain rfl := hready
    exact ⟨⟨rfl, rfl⟩, fun _ => ⟨rfl, by simp⟩⟩

theorem Entry.orInsertWithKey_grows {entry : Entry K} {phase : Phase}
    (hready : entry.Ready phase) (value : K → V) :
    Grows ⟨.write 0, phase⟩ (entry.orInsertWithKey (ε := ε) value) fun h _ => Borrowing h := by
  cases entry with
  | occupied bucket => exact ⟨rfl, hready⟩
  | vacant key hash =>
    obtain rfl := hready
    exact ⟨⟨trivial, by simp⟩, fun _ => ⟨⟨rfl, rfl⟩, fun _ => ⟨rfl, by simp⟩⟩⟩

theorem EntryClient.grows {entry : Entry K} {p : MapMethod K V ε Outcome} {phase : Phase}
    (hp : EntryClient entry p) (hready : entry.Ready phase) :
    Grows ⟨.write 0, phase⟩ p Within := by
  induction hp generalizing phase with
  | occupied hp => exact hp.grows hready
  | @key entry f _ ih =>
    cases entry with
    | occupied bucket => exact ⟨⟨.inr rfl, hready⟩, fun kv => ih kv.1 hready⟩
    | vacant key hash => exact ih key hready
  | insertEntry value hf =>
    exact (Entry.insertEntry_grows hready value).bind fun _ bucket hh => hh.grows (hf bucket)
  | orInsert value hf =>
    exact (Entry.orInsert_grows hready value).bind fun _ bucket hh => hh.grows (hf bucket)
  | orInsertWith value hf =>
    exact (Entry.orInsertWithKey_grows hready fun _ => value ()).bind
      fun _ bucket hh => hh.grows (hf bucket)
  | orInsertWithKey value hf =>
    exact (Entry.orInsertWithKey_grows hready value).bind fun _ bucket hh => hh.grows (hf bucket)
  | @andModify entry f g _ ih =>
    cases entry with
    | occupied bucket =>
      have hmodify : Grows ⟨.write 0, phase⟩ (Entry.andModify (K := K) (ε := ε) g
        (.occupied bucket))
          fun h e => h = ⟨.write 0, .changed⟩ ∧ e = .occupied bucket :=
        (modifyValue_grows hready g).bind fun _ _ h => ⟨h, rfl⟩
      refine hmodify.bind ?_
      rintro _ _ ⟨rfl, rfl⟩
      exact ih _ (by simp [Entry.Ready])
    | vacant key hash => exact ih (.vacant key hash) hready
  | drop => exact within_ok hready.not_failed

section
variable [BEq K] (m : HashMap K)

theorem entry_grows (key : K) : Grows ⟨.write 0, .reserved⟩ (m.entry (V := V) (ε := ε) key)
    fun h entry => h = ⟨.write 0, .reserved⟩ ∧ entry.Ready .reserved := by
  refine ⟨⟨rfl, rfl⟩, fun r => ?_⟩
  cases r with
  | ok bucket => exact ⟨rfl, by simp [Entry.Ready]⟩
  | error slot => exact ⟨rfl, rfl⟩

theorem tryEntry_grows (key : K) :
    Grows ⟨.write 0, .fresh⟩ (m.tryEntry (V := V) (ε := ε) key) fun h r => match r with
      | .ok entry => h = ⟨.write 0, .reserved⟩ ∧ entry.Ready .reserved
      | .error _ => h = ⟨.write 0, .failed⟩ := by
  refine ⟨⟨rfl, .inl rfl, Nat.one_pos⟩, fun r => ?_⟩
  cases r with
  | error e => rfl
  | ok u => exact (m.entry_grows key).bind fun _ _ h => h

theorem tryInsert_grows (key : K) (value : V) : Grows ⟨.write 0, .fresh⟩
    (m.tryInsert (ε := ε) key value) fun h r => Within h (outcome r) := by
  refine (m.tryEntry_grows key).bind fun h r hr => ?_
  cases r with
  | error e =>
    obtain rfl := hr
    exact within_err (by simp)
  | ok entry =>
    obtain ⟨rfl, hready⟩ := hr
    refine (Entry.insert_grows hready value).bind ?_
    rintro _ old rfl
    exact within_ok (by simp)

theorem tryInsertGiveBack_grows (key : K) (value : V) : Grows ⟨.write 0, .fresh⟩
    (m.tryInsertGiveBack (ε := ε) key value) fun h r => Within h (outcome r) := by
  refine ⟨⟨rfl, .inl rfl, Nat.one_pos⟩, fun r => ?_⟩
  cases r with
  | error e => exact within_err (by simp)
  | ok u =>
    refine (m.entry_grows key).bind fun h entry hr => ?_
    obtain ⟨rfl, hready⟩ := hr
    refine (Entry.insert_grows hready value).bind ?_
    rintro _ old rfl
    exact within_ok (by simp)

theorem tryInsertUnique_grows (key : K) (value : V) : Grows ⟨.write 0, .fresh⟩
    (m.tryInsertUnique (ε := ε) key value) fun h r => Within h (settled r) := by
  refine ⟨⟨.inr rfl, by simp⟩, fun found => ?_⟩
  cases found with
  | some bucket => exact within_err (by simp)
  | none =>
    refine ⟨⟨rfl, .inl rfl, Nat.one_pos⟩, fun r => ?_⟩
    cases r with
    | error e => exact within_err (by simp)
    | ok u =>
      refine (m.entry_grows key).bind fun h entry hr => ?_
      obtain ⟨rfl, hready⟩ := hr
      cases entry with
      | occupied bucket => exact within_panic (by simp) (by simp)
      | vacant key hash => exact ⟨⟨rfl, rfl⟩, fun _ => within_ok (by simp)⟩

theorem Api.grows {m : HashMap K} {p : MapMethod K V ε Outcome} (hp : Api m p) :
    Grows .idle p Reports := by
  cases hp with
  | tryInsert key value => exact borrowed_grows ((m.tryInsert_grows key value).map fun _ _ h => h)
  | tryInsertGiveBack key value =>
    exact borrowed_grows ((m.tryInsertGiveBack_grows key value).map fun _ _ h => h)
  | tryInsertUnique key value =>
    exact borrowed_grows ((m.tryInsertUnique_grows key value).map fun _ _ h => h)
  | tryEntry key hf =>
    refine borrowed_grows ((m.tryEntry_grows key).bind fun h r hr => ?_)
    cases r with
    | error e =>
      obtain rfl := hr
      exact within_err (by simp)
    | ok entry =>
      obtain ⟨rfl, hready⟩ := hr
      exact (hf entry).grows hready
  | other => exact otherMethod_grows 0

end

end

end Rustyfill.HashMap
