import Rustyfill.Maps.Counting

/-!
# What the calls promise

A call with a key works in the shard of that key alone, the shards together are one map to whoever
asks, and a call that fails gives back what it was given. The last is not so where
`try_insert_unique` finds its key: what comes back is a clone of the key that is stored.
-/

namespace Rustyfill

open Interleaving

set_option autoImplicit false

namespace Maps

/-! ## One shard -/

section
variable {T E X R S : Type} {o : Outside E X} {i : Nat}

/-- The shard a step is about. -/
def Act.shard : Act T E X → Option Nat
  | .readTable i | .dropReadGuard i | .writeTable i | .tryWriteTable i | .dropWriteGuard i
  | .tryReserve i .. | .find i .. | .findOrFindInsertSlot i .. | .insertInSlot i ..
  | .insertNoGrow i .. | .asRef i _ | .write i .. | .remove i _ | .len i | .iter i
  | .foreign i => some i
  | .user _ => none

def inShard (i : Nat) : Discipline (Act T E X) (Act.Res o) Unit where
  allows _ a := a.shard = some i ∨ a.shard = none
  next _ _ _ := ()

/-- The method touches no shard but `i`. -/
def StaysIn (i : Nat) (p : Method o T R) : Prop := p.Follows (inShard i) (fun _ _ => True) ()

theorem StaysIn.ret {r : R} : StaysIn i (.ret r : Method o T R) := trivial

theorem StaysIn.act {a : Act T E X} {k : a.Res o → Method o T R} (ha : a.shard = some i)
    (hk : ∀ x, StaysIn i (k x)) : StaysIn i (.act a k) := ⟨.inl ha, hk⟩

theorem StaysIn.user {x : X} {k : o.Res x → Method o T R} (hk : ∀ r, StaysIn i (k r)) :
    StaysIn i (.act (.user x) k) := ⟨.inr rfl, hk⟩

theorem StaysIn.bind {p : Method o T R} {f : R → Method o T S} (hp : StaysIn i p)
    (hf : ∀ r, StaysIn i (f r)) : StaysIn i (p >>= f) :=
  Prog.follows_bind.mpr (hp.mono fun _ r _ => hf r)

end

end Maps

namespace ConcurrentHashMap

open Maps RawHash Transition

section
variable {K V ε B R : Type} {i bucket : Nat}

theorem RefUse.staysIn (use : RefUse K V B) : StaysIn i (use.run (ε := ε) ⟨i, bucket⟩) := by
  induction use with
  | read f ih => exact .act rfl fun kv => ih kv
  | modify g next ih => exact .act rfl fun kv => .act rfl fun _ => ih
  | drop b => exact .act rfl fun _ => .ret

theorem OccupiedUse.staysIn (use : OccupiedUse K V B) :
    StaysIn i (use.run (ε := ε) ⟨i, bucket⟩) := by
  induction use with
  | key f ih => exact .act rfl fun kv => ih kv.1
  | get f ih => exact .act rfl fun kv => ih kv.2
  | modify g next ih => exact .act rfl fun kv => .act rfl fun _ => ih
  | insert value f ih => exact .act rfl fun kv => .act rfl fun _ => ih kv.2
  | remove f => exact .act rfl fun kv => .act rfl fun _ => .ret
  | removeEntry f => exact .act rfl fun kv => .act rfl fun _ => .ret
  | intoRef use => exact use.staysIn
  | drop b => exact .act rfl fun _ => .ret

theorem VacantUse.staysIn (use : VacantUse K V B) (e : VacantEntry K) :
    StaysIn e.shard (use.run (ε := ε) e) := by
  cases use with
  | insert value use => exact .act rfl fun bucket => use.staysIn
  | drop b => exact .act rfl fun _ => .ret

theorem EntryUse.staysIn (use : EntryUse K V B) (entry : Entry K) :
    StaysIn entry.shard (use.run (ε := ε) entry) := by
  induction use with
  | key f ih =>
    cases entry with
    | occupied e => exact .act rfl fun kv => ih kv.1
    | vacant e => exact ih e.key
  | andModify g next ih =>
    cases entry with
    | occupied e => exact .act rfl fun kv => .act rfl fun _ => ih
    | vacant e => exact ih
  | insert value use =>
    cases entry with
    | occupied e => exact .act rfl fun kv => .act rfl fun _ => use.staysIn
    | vacant e => exact .act rfl fun bucket => use.staysIn
  | orInsert value use =>
    cases entry with
    | occupied e => exact use.staysIn
    | vacant e => exact .act rfl fun bucket => use.staysIn
  | orInsertWith value use =>
    cases entry with
    | occupied e => exact use.staysIn
    | vacant e => exact .user fun v => .act rfl fun bucket => use.staysIn
  | either occupied vacant =>
    cases entry with
    | occupied e => exact occupied.staysIn
    | vacant e => exact vacant.staysIn e
  | drop b =>
    cases entry with
    | occupied e => exact .act rfl fun _ => .ret
    | vacant e => exact .act rfl fun _ => .ret

theorem insertThrough_staysIn (value : V) (entry : Entry K) :
    StaysIn entry.shard (insertThrough (ε := ε) value entry) := by
  cases entry with
  | occupied e => exact .act rfl fun kv => .act rfl fun _ => .act rfl fun _ => .ret
  | vacant e => exact .act rfl fun bucket => .act rfl fun _ => .ret

/-- The key of a call. -/
def Call.key : Call K V B → Option K
  | .tryInsert key _ | .tryInsertGiveBack key _ | .tryInsertUnique _ key _ | .tryEntry key _
  | .tryEntryGiveBack key _ | .tryEntryNonblock key _ | .get key | .getMut key _
  | .containsKey key | .remove key | .removeEntry key => some key
  | .tryReserve _ | .shardLen _ | .visitShard _ => none

variable [BEq K] {m : ConcurrentHashMap K}

theorem reservedEntry_staysIn {β : Type} {hash : UInt64} {key : K} {fail : TryReserveError → β}
    {f : Except β (Entry K) → MapMethod K V ε R} (herr : ∀ e, StaysIn i (f (.error (fail e))))
    (hok : ∀ entry : Entry K, entry.shard = i → StaysIn i (f (.ok entry))) :
    StaysIn i (m.reservedEntry i hash key fail >>= f) := by
  refine .act rfl fun r => ?_
  cases r with
  | error e => exact .act rfl fun _ => herr e
  | ok _ =>
    refine .act rfl fun r => ?_
    cases r with
    | ok bucket => exact hok _ rfl
    | error slot => exact hok _ rfl

theorem waiting_staysIn {β : Type} {key : K} {fail : TryReserveError → β}
    {f : Except β (Entry K) → MapMethod K V ε R}
    (herr : ∀ e, StaysIn (m.layout.shardOf key) (f (.error (fail e))))
    (hok : ∀ entry : Entry K, StaysIn entry.shard (f (.ok entry))) :
    StaysIn (m.layout.shardOf key) (.act (.writeTable (m.layout.shardOf key)) fun _ =>
      m.reservedEntry (m.layout.shardOf key) (m.hashOne key) key fail >>= f) := by
  refine .act rfl fun _ => reservedEntry_staysIn herr fun entry hentry => ?_
  rw [← hentry]
  exact hok entry

/-- A call with a key works in the shard that its hash selects, whether the method computes the
hash or the entry that it asks for. -/
theorem method_staysIn {call : Call K V B} {key : K} (hkey : call.key = some key) :
    StaysIn (m.layout.shardOf key) (m.method (ε := ε) call) := by
  cases call with
  | tryInsert _ value =>
    cases hkey
    exact waiting_staysIn (fun e => .ret) fun entry =>
      (insertThrough_staysIn value entry).bind fun _ => .ret
  | tryInsertGiveBack _ value =>
    cases hkey
    exact waiting_staysIn (fun e => .ret) fun entry =>
      (insertThrough_staysIn value entry).bind fun _ => .ret
  | tryInsertUnique clone _ value =>
    cases hkey
    refine waiting_staysIn (fun e => .ret) fun entry => ?_
    cases entry with
    | occupied e => exact .act rfl fun kv => .act rfl fun _ => .ret
    | vacant e => exact .act rfl fun bucket => .act rfl fun _ => .ret
  | tryEntry _ use | tryEntryGiveBack _ use =>
    cases hkey
    exact waiting_staysIn (fun e => .ret) fun entry => (use.staysIn entry).bind fun _ => .ret
  | tryEntryNonblock _ use =>
    cases hkey
    refine .act rfl fun locked => ?_
    cases locked with
    | false => exact .ret
    | true =>
      refine reservedEntry_staysIn (fun e => .ret) fun entry hentry => ?_
      rw [← hentry]
      exact (use.staysIn entry).bind fun _ => .ret
  | get _ =>
    cases hkey
    refine .act rfl fun _ => .act rfl fun r => ?_
    cases r with
    | some bucket => exact .act rfl fun kv => .act rfl fun _ => .ret
    | none => exact .act rfl fun _ => .ret
  | containsKey _ =>
    cases hkey
    refine .act rfl fun _ => .act rfl fun r => ?_
    cases r with
    | some bucket => exact .act rfl fun _ => .ret
    | none => exact .act rfl fun _ => .ret
  | getMut _ use =>
    cases hkey
    refine .act rfl fun _ => .act rfl fun r => ?_
    cases r with
    | some bucket => exact use.staysIn.bind fun _ => .ret
    | none => exact .act rfl fun _ => .ret
  | remove _ | removeEntry _ =>
    cases hkey
    refine .act rfl fun _ => .act rfl fun r => ?_
    cases r with
    | some bucket => exact .act rfl fun kv => .act rfl fun _ => .ret
    | none => exact .act rfl fun _ => .ret
  | tryReserve | shardLen | visitShard => cases hkey

end

/-! ## What comes back -/

section
variable {K V B R : Type}

/-- Where the step is a `try_insert_unique` whose key is stored, the clone of the stored key is the
key of the call. -/
def ClonesKey (pool : Pool (Contents K V) (Call K V B) Call.Res R) :
    Nat × Event (Call K V B) Call.Res R → Prop
  | (_, .did (.tryInsertUnique clone key _) _) =>
    ∀ kv, pool.shared key = some kv → clone kv.1 = key
  | _ => True

variable [BEq K] (m : ConcurrentHashMap K)

/-- What a call promises. It is what the call does, except that the key that `try_insert_unique`
gives back is the one it was given. -/
def Promises (c : Contents K V) : (call : Call K V B) → call.Res → Contents K V → Prop
  | .tryInsertUnique _ key value, r, c' =>
    (∃ e, r = .error (key, value, .reserve e)) ∧ c' = c ∨
      ((∃ kv, c key = some kv) ∧ r = .error (key, value, .keyAlreadyExists)) ∧ c' = c ∨
      c key = none ∧ r = .ok () ∧ c' = c.put key (some (key, value))
  | call, r, c' => m.Does c call r c'

variable {m}

theorem promised_of_run {pool pool' : Pool (Contents K V) (Call K V B) Call.Res R}
    {ces : List (Nat × Event (Call K V B) Call.Res R)}
    (h : Run (Guarded (Step (fun _ => m.Does) NoCalls) ClonesKey) pool ces pool') :
    Run (Step (fun _ => m.Promises) NoCalls) pool ces pool' := by
  refine h.mono ?_
  rintro pool e pool' ⟨hclone, hstep⟩
  cases hstep with
  | call hprog hp => exact hp.elim
  | ret hprog => exact .ret hprog
  | @act t call k r c' hprog hdoes =>
    refine .act hprog ?_
    cases call with
    | tryInsertUnique clone key value =>
      rcases hdoes with hrefused | ⟨⟨kv, hkv, hr⟩, hsame⟩ | hnew
      · exact .inl hrefused
      · refine .inr (.inl ⟨⟨⟨kv, hkv⟩, ?_⟩, hsame⟩)
        rw [hr, hclone kv hkv]
      · exact .inr (.inr hnew)
    | _ => exact hdoes

end

/-! ## The shards together -/

section
variable {K V ε R : Type} {i t : Nat} {s s' : State (K × V) Unit}

/-- A client that looks at a shard under the read guard, while nobody else takes a step. -/
theorem exec_look {a : Act (K × V) Unit (Code K V ε)} {f : a.Res (callerCode K V ε) → R} {r : R}
    (ha : ∀ s x s', Sem (callerCode K V ε) t s a x s' → s' = s)
    (h : Prog.Exec (Sem (callerCode K V ε) t) s (.act (.readTable i) fun _ => .act a fun x =>
      .act (.dropReadGuard i) fun _ => .ret (f x)) r s') :
    s.writer i = none ∧ (s'.table = s.table ∧ s'.writer = s.writer) ∧
      ∃ x s₁, s₁.table = s.table ∧ Sem (callerCode K V ε) t s₁ a x s₁ ∧ r = f x := by
  obtain ⟨_, s₁, ⟨hwriter, rfl⟩, h⟩ := Prog.exec_act.mp h
  obtain ⟨x, s₂, hx, h⟩ := Prog.exec_act.mp h
  obtain rfl := ha _ _ _ hx
  obtain ⟨_, s₃, rfl, h⟩ := Prog.exec_act.mp h
  obtain ⟨rfl, rfl⟩ := Prog.exec_ret.mp h
  exact ⟨hwriter, ⟨rfl, rfl⟩, x, s.setReaders i (insert t (s.readers i)), rfl, hx, rfl⟩

variable [BEq K] (m : ConcurrentHashMap K)

/-- The pairs of a map, each once. -/
structure Listing (c : Contents K V) (pairs : List (K × V)) : Prop where
  distinct : pairs.Pairwise fun a b => (a.1 == b.1) = false
  mem : ∀ kv, kv ∈ pairs ↔ c kv.1 = some kv

/-- The shards show one map, each key in its own shard only. A client that counts the keys or
visits the pairs, while nobody else takes a step, finds each key of the map once. -/
structure IsOneMap (ε : Type) (s : State (K × V) Unit) (c : Contents K V) : Prop where
  shows : ∀ i, s.writer i = none → (s.table i).Shows m.hashOne (m.layout.Mine i) c
  once : ∀ i j, s.writer i = none → s.writer j = none → ∀ x ∈ (s.table i).entries,
    ∀ y ∈ (s.table j).entries, (x.2.1 == y.2.1) = true → i = j
  len : ∀ t r s', Prog.Exec (Sem (callerCode K V ε) t) s m.len r s' →
    (∃ pairs, Listing c pairs ∧ r = .ok pairs.length) ∨
    ∃ pairs : List (K × V), (pairs.Pairwise fun a b => (a.1 == b.1) = false) ∧
      (∀ kv ∈ pairs, c kv.1 = some kv) ∧ usizeMax < pairs.length ∧
      r = .error (.expect "overflowing on length add is impossible")
  visitAll : ∀ {A : Type} (f : A → K → V → A) init t r s',
    Prog.Exec (Sem (callerCode K V ε) t) s (m.visitAll f init) r s' →
    ∃ pairs, Listing c pairs ∧ r = pairs.foldl (fun acc kv => f acc kv.1 kv.2) init
  returns : (∀ i, s.writer i = none) → ∀ t,
    (∃ r s', Prog.Exec (Sem (callerCode K V ε) t) s m.len r s') ∧
    ∀ {A : Type} (f : A → K → V → A) init,
      ∃ r s', Prog.Exec (Sem (callerCode K V ε) t) s (m.visitAll f init) r s'

variable [EquivBEq K] {m} {c : Contents K V}

theorem Sees.listing {pairs : List (K × V)} (h : Sees (· = c) pairs) : Listing c pairs where
  distinct := h.distinct
  mem kv := by
    obtain ⟨_, rfl, hkey⟩ := h.key kv.1
    exact hkey kv BEq.rfl

section
variable (hshows : ∀ i, s.writer i = none → (s.table i).Shows m.hashOne (m.layout.Mine i) c)

include hshows

theorem visitShard_alone {u u' : State (K × V) Unit} {pairs : List (K × V)}
    (hu : u.table = s.table ∧ u.writer = s.writer)
    (h : Prog.Exec (Sem (callerCode K V ε) t) u (visitShard i) pairs u') :
    (u'.table = s.table ∧ u'.writer = s.writer) ∧ ∃ c', c' = c ∧ m.StoredIn i c' pairs := by
  obtain ⟨hwriter, ⟨htable', hwriter'⟩, x, s₁, hs₁, ⟨rfl, -⟩, rfl⟩ :=
    exec_look (a := .iter i) (f := fun pairs => pairs.map Prod.snd) (fun _ _ _ h => h.2) h
  rw [hu.2] at hwriter
  refine ⟨⟨htable'.trans hu.1, hwriter'.trans hu.2⟩, c, rfl, ?_⟩
  rw [hs₁, hu.1]
  exact storedIn_full (hshows i hwriter) fun _ _ => rfl

theorem shardLen_alone {u u' : State (K × V) Unit} {n : Nat}
    (hu : u.table = s.table ∧ u.writer = s.writer)
    (h : Prog.Exec (Sem (callerCode K V ε) t) u (shardLen i) n u') :
    (u'.table = s.table ∧ u'.writer = s.writer) ∧
      ∃ c', c' = c ∧ ∃ pairs, m.StoredIn i c' pairs ∧ n = pairs.length := by
  obtain ⟨hwriter, ⟨htable', hwriter'⟩, x, s₁, hs₁, ⟨rfl, -⟩, rfl⟩ :=
    exec_look (a := .len i) (f := fun n => n) (fun _ _ _ h => h.2) h
  rw [hu.2] at hwriter
  refine ⟨⟨htable'.trans hu.1, hwriter'.trans hu.2⟩, c, rfl, _,
    storedIn_full (hshows i hwriter) fun _ _ => rfl, ?_⟩
  rw [hs₁, hu.1, Table.full_map_snd]

theorem visitAll_alone (hbuilt : m.Built) (hL : m.layout.Lawful) {A : Type} {f : A → K → V → A}
    {init r : A} (h : Prog.Exec (Sem (callerCode K V ε) t) s (m.visitAll f init) r s') :
    ∃ pairs, Listing c pairs ∧ r = pairs.foldl (fun acc kv => f acc kv.1 kv.2) init := by
  rw [visitAll, ← visitCalls_expand (B := Unit) (m := m)] at h
  have hloops : @Loops (Call K V Unit) Call.Res A Nat A Call.visitShard (visitNext f) id
      (fun i pairs => ∃ c', c' = c ∧ m.StoredIn i c' pairs) init (List.range m.shardCount) r := by
    refine loops_of_exec (fun u => u.table = s.table ∧ u.writer = s.writer) ?_ ⟨rfl, rfl⟩ h
    exact fun i pairs u u' => visitShard_alone hshows
  obtain ⟨pairs, hlooks, hr⟩ := looks_of_visit hloops
  exact ⟨pairs, (hbuilt.sees hL hlooks).listing, hr⟩

theorem len_alone (hbuilt : m.Built) (hL : m.layout.Lawful) {r : Except Fault Nat}
    (h : Prog.Exec (Sem (callerCode K V ε) t) s m.len r s') :
    (∃ pairs, Listing c pairs ∧ r = .ok pairs.length) ∨
    ∃ pairs : List (K × V), (pairs.Pairwise fun a b => (a.1 == b.1) = false) ∧
      (∀ kv ∈ pairs, c kv.1 = some kv) ∧ usizeMax < pairs.length ∧
      r = .error (.expect "overflowing on length add is impossible") := by
  rw [len, ← lenCalls_expand (B := Unit) (m := m)] at h
  have hloops : @Loops (Call K V Unit) Call.Res (Except Fault Nat) Nat Nat Call.shardLen lenNext .ok
      (fun i n => ∃ c', c' = c ∧ ∃ pairs, m.StoredIn i c' pairs ∧ n = pairs.length) 0
      (List.range m.shardCount) r := by
    refine loops_of_exec (fun u => u.table = s.table ∧ u.writer = s.writer) ?_ ⟨rfl, rfl⟩ h
    exact fun i n u u' => shardLen_alone hshows
  have hcounted := counted_of_len (Nat.zero_le _) hloops
  cases hcounted with
  | @ok pairs hlooks hsum =>
    rw [Nat.zero_add]
    exact .inl ⟨pairs, (hbuilt.sees hL hlooks).listing, rfl⟩
  | @overflow pairs seen rest his hlooks hsum =>
    rw [Nat.zero_add] at hsum
    have hnodup : seen.Nodup :=
      (List.sublist_append_left seen rest).nodup (his ▸ List.nodup_range)
    refine .inr ⟨pairs, hlooks.distinct hL hnodup, fun kv hkv => ?_, hsum, rfl⟩
    obtain ⟨_, rfl, hmem⟩ := hlooks.key hL hnodup (hlooks.mine hkv)
    exact (hmem kv BEq.rfl).mp hkv

omit [BEq K] [EquivBEq K] hshows in
theorem exists_exec_look {a : Act (K × V) Unit (Code K V ε)} {f : a.Res (callerCode K V ε) → R}
    (ha : ∀ s, ∃ x, Sem (callerCode K V ε) t s a x s) {u : State (K × V) Unit}
    (hu : u.writer i = none) :
    ∃ r u', Prog.Exec (Sem (callerCode K V ε) t) u (.act (.readTable i) fun _ => .act a fun x =>
      .act (.dropReadGuard i) fun _ => .ret (f x)) r u' ∧ u'.writer = u.writer := by
  obtain ⟨x, hx⟩ := ha (u.setReaders i (insert t (u.readers i)))
  exact ⟨_, _, .act (x := ()) ⟨hu, rfl⟩ (.act hx (.act (x := ()) rfl (.ret _ _))), rfl⟩

theorem isOneMap (hbuilt : m.Built) (hL : m.layout.Lawful) : m.IsOneMap ε s c where
  shows := hshows
  once i j hi hj x hx y hy hxy := by
    have hxi : m.layout.shardOf x.2.1 = i := (hshows i hi).mine x hx
    have hyj : m.layout.shardOf y.2.1 = j := (hshows j hj).mine y hy
    rw [← hxi, ← hyj]
    exact hL.shard _ _ hxy
  len _ _ _ h := len_alone hshows hbuilt hL h
  visitAll _ _ _ _ _ h := visitAll_alone hshows hbuilt hL h
  returns hfree t := by
    constructor
    · rw [ConcurrentHashMap.len, ← lenCalls_expand (B := Unit) (m := m)]
      refine exists_exec_loop (fun u => u.writer = s.writer) (fun i u hu => ?_) rfl
      obtain ⟨n, u', hexec, hu'⟩ := exists_exec_look (a := .len i) (f := fun n => n)
        (fun u => ⟨(u.table i).elems.length, rfl, rfl⟩) (hu ▸ hfree i)
      exact ⟨n, u', hexec, hu'.trans hu⟩
    · intro A f init
      rw [ConcurrentHashMap.visitAll, ← visitCalls_expand (B := Unit) (m := m)]
      refine exists_exec_loop (fun u => u.writer = s.writer) (fun i u hu => ?_) rfl
      obtain ⟨pairs, u', hexec, hu'⟩ := exists_exec_look (a := .iter i)
        (f := fun pairs => pairs.map Prod.snd) (fun u => ⟨(u.table i).full, rfl, rfl⟩)
        (hu ▸ hfree i)
      exact ⟨pairs, u', hexec, hu'.trans hu⟩

end

/-- Clients of the map, however their steps interleave, are clients of one map. Each call with a key
works in the one shard of that key, and whatever state is reached, the shards are one map. Where
each `try_insert_unique` that finds its key can clone it from the stored one, every call does what
it promises. -/
theorem calls_as_promised {B : Type} (hbuilt : m.Built)
    (hhash : ∀ a b : K, (a == b) = true → m.hashOne a = m.hashOne b)
    {clients : Nat → Option (Prog (Call K V B) Call.Res R)} (hs : s.Unlocked)
    (hc : ∀ i, (s.table i).Shows m.hashOne (m.layout.Mine i) c)
    {es : List (Nat × Event (Act (K × V) Unit (Code K V ε)) (Act.Res (callerCode K V ε)) R)}
    {pool : Pool (State (K × V) Unit) (Act (K × V) Unit (Code K V ε))
      (Act.Res (callerCode K V ε)) R}
    (hrun : Run (Step (Sem (callerCode K V ε)) NoCalls)
      ⟨s, fun t => (clients t).map (·.expand m.method)⟩ es pool) :
    (∀ (call : Call K V B) key, call.key = some key → m.layout.shardOf key < m.shardCount ∧
      StaysIn (m.layout.shardOf key) (m.method (ε := ε) call)) ∧
    ∃ ces cpool, Run (Step (fun _ => m.Does) NoCalls) ⟨c, clients⟩ ces cpool ∧ Traced es ces ∧
      (Run (Guarded (Step (fun _ => m.Does) NoCalls) ClonesKey) ⟨c, clients⟩ ces cpool →
        Run (Step (fun _ => m.Promises) NoCalls) ⟨c, clients⟩ ces cpool) ∧
      m.IsOneMap ε pool.shared cpool.shared ∧
      ((∀ t, pool.prog t = none) → pool.shared.Unlocked ∧ ∀ t, cpool.prog t = none) := by
  have hL : m.layout.Lawful := layout_lawful hhash
  constructor
  · intro call key hkey
    exact ⟨hbuilt.shardIndex_lt _, method_staysIn hkey⟩
  · obtain ⟨ces, cpool, hces, htraced, hshows, hdone⟩ := one_map_of_clients
      (fun t call => method_served hL t call) hs hc hrun
    exact ⟨ces, cpool, hces, htraced, promised_of_run, isOneMap hshows hbuilt hL, hdone⟩

end

/-! ## Keys that are equal, and can be told apart -/

/-- A key that is compared and hashed without its tag. -/
structure Tagged where
  id : Nat
  tag : Nat

instance : BEq Tagged := ⟨fun a b => a.id == b.id⟩

instance : EquivBEq Tagged where
  rfl {a} := beq_self_eq_true a.id
  symm {a _} h := BEq.symm (a := a.id) h
  trans {a _ _} hab hbc := BEq.trans (a := a.id) hab hbc

def taggedMap : ConcurrentHashMap Tagged := ⟨2, 63, fun k => UInt64.ofNat k.id⟩

theorem fromStatic_taggedMap :
    fromStatic (fun k : Tagged => UInt64.ofNat k.id) 2 = .ok taggedMap := rfl

theorem taggedMap_hash (a b : Tagged) (h : (a == b) = true) :
    taggedMap.hashOne a = taggedMap.hashOne b := congrArg UInt64.ofNat (eq_of_beq (a := a.id) h)

/-- One shard stores a pair, with a free bucket beside it. -/
def taggedTable : Table (Tagged × Nat) := ⟨[some (1, (⟨1, 0⟩, 10)), none], 1, by decide⟩

def taggedState : State (Tagged × Nat) Unit :=
  State.setTable ⟨fun _ => ⟨[none], 1, by decide⟩, fun _ => none, fun _ => ∅, ()⟩ 0 taggedTable

def taggedContents : Contents Tagged Nat := Contents.empty.put ⟨1, 0⟩ (some (⟨1, 0⟩, 10))

abbrev UniqueAnswer := Except (Tagged × Nat × InsertUniqueError) Unit

/-- A client that makes one call of `try_insert_unique`, and returns the answer. -/
def unique (key : Tagged) : Prog (Call Tagged Nat Unit) Call.Res UniqueAnswer :=
  Prog.loop (fun _ : Unit => .tryInsertUnique id key 20) (fun _ _ r => .error r)
    (fun _ => .ok ()) () [()]

def asking (key : Tagged) : Nat → Option (Prog (Call Tagged Nat Unit) Call.Res UniqueAnswer)
  | 0 => some (unique key)
  | _ => none

theorem taggedState_unlocked : taggedState.Unlocked := ⟨fun _ => rfl, fun _ => rfl⟩

theorem shardOf_tagged (tag : Nat) : taggedMap.layout.shardOf ⟨1, tag⟩ = 0 := by
  change taggedMap.shardIndexInternal (UInt64.ofNat 1) = 0
  decide

theorem taggedState_shows (i : Nat) : (taggedState.table i).Shows taggedMap.hashOne
    (taggedMap.layout.Mine i) taggedContents := by
  by_cases hi : i = 0
  · subst hi
    have hmine : taggedMap.layout.Mine 0 ⟨1, 0⟩ := shardOf_tagged 0
    have hkey : (((⟨1, 0⟩, 10) : Tagged × Nat).1 == ⟨1, 0⟩) = true := rfl
    have hempty : Lists taggedMap.hashOne (taggedMap.layout.Mine 0) []
        ((Contents.empty : Contents Tagged Nat).put ⟨1, 0⟩ none) :=
      Table.shows_nothing (t := ⟨[none], 1, by decide⟩) rfl fun k _ => ite_self none
    exact (Lists.cons_iff hkey hmine).mpr ⟨rfl, hmine, hempty⟩
  · rw [taggedState, State.setTable_table_ne hi]
    refine Table.shows_nothing rfl fun k hk => Contents.put_of_not_beq ?_
    rw [← Bool.not_eq_true]
    intro hid
    have hone : k.id = 1 := eq_of_beq (a := k.id) hid
    have hzero := shardOf_tagged k.tag
    rw [← hone] at hzero
    exact hi (hk.symm.trans hzero)

theorem exec_unique (tag : Nat) : ∃ s, Prog.Exec (Sem (callerCode Tagged Nat Unit) 0) taggedState
    ((unique ⟨1, tag⟩).expand taggedMap.method) (.error (⟨1, 0⟩, 20, .keyAlreadyExists)) s := by
  obtain ⟨i, hi⟩ : ∃ i, i = taggedMap.layout.shardOf ⟨1, tag⟩ := ⟨_, rfl⟩
  have hzero : i = 0 := hi.trans (shardOf_tagged tag)
  have hlocked : (taggedState.setWriter i (some 0)).table i = taggedTable := by
    rw [hzero]
    rfl
  have hlock : Sem (callerCode Tagged Nat Unit) 0 taggedState (.writeTable i) ()
      (taggedState.setWriter i (some 0)) := ⟨rfl, rfl, rfl⟩
  have hreserve : Sem (callerCode Tagged Nat Unit) 0 (taggedState.setWriter i (some 0))
      (.tryReserve i 1 taggedMap.rehash) (.ok ()) (taggedState.setWriter i (some 0)) := by
    refine ⟨_, ?_, State.setTable_self.symm⟩
    rw [hlocked]
    exact .roomy (Nat.le_refl 1)
  have hfind : Sem (callerCode Tagged Nat Unit) 0 (taggedState.setWriter i (some 0))
      (.findOrFindInsertSlot i (taggedMap.hashOne ⟨1, tag⟩) (fun kv => kv.1 == ⟨1, tag⟩)
        taggedMap.rehash) (.ok 0) (taggedState.setWriter i (some 0)) := by
    have hreserved : taggedTable.Reserved taggedMap.rehash taggedTable := by
      rw [Table.Reserved, if_pos (show 0 < taggedTable.free from Nat.one_pos)]
    refine ⟨_, ?_, ?_, State.setTable_self.symm⟩
    · rw [hlocked]
      exact hreserved
    · rw [hlocked]
      exact ⟨_, rfl, rfl⟩
  have hread : Sem (callerCode Tagged Nat Unit) 0 (taggedState.setWriter i (some 0)) (.asRef i 0)
      (⟨1, 0⟩, 10) (taggedState.setWriter i (some 0)) := by
    refine ⟨⟨1, ?_⟩, rfl⟩
    rw [hlocked]
    rfl
  rw [hi] at hlock hreserve hfind hread
  exact ⟨_, .act hlock (.act hreserve (.act hfind (.act hread (.act (x := ()) rfl (.ret _ _)))))⟩

/-- The call returns, with the key that is stored. -/
theorem run_asking (tag : Nat) : ∃ (es : List (Nat × Event (Act (Tagged × Nat) Unit
    (Code Tagged Nat Unit)) (Act.Res (callerCode Tagged Nat Unit)) UniqueAnswer)) (pool : _),
    Run (Step (Sem (callerCode Tagged Nat Unit)) NoCalls)
      ⟨taggedState, fun t => (asking ⟨1, tag⟩ t).map (·.expand taggedMap.method)⟩ es pool ∧
    (0, .returned (.error (⟨1, 0⟩, 20, .keyAlreadyExists))) ∈ es := by
  obtain ⟨s, hexec⟩ := exec_unique tag
  obtain ⟨es, hrun⟩ : ∃ es, Run (Step (Sem (callerCode Tagged Nat Unit)) NoCalls) ⟨taggedState,
      fun t => (asking ⟨1, tag⟩ t).map (·.expand taggedMap.method)⟩ es _ := run_of_exec hexec rfl
  refine ⟨_, _, hrun.snoc (.ret ?_), List.mem_append_right _ (List.mem_singleton.mpr rfl)⟩
  simp only [Function.update_self]

/-- The key of the call has another tag than the key that is stored, and is not what comes back. -/
theorem other_key_comes_back : taggedMap.Built ∧ taggedState.Unlocked ∧
    (∀ i, (taggedState.table i).Shows taggedMap.hashOne (taggedMap.layout.Mine i)
      taggedContents) ∧
    ∃ (es : List (Nat × Event (Act (Tagged × Nat) Unit (Code Tagged Nat Unit))
      (Act.Res (callerCode Tagged Nat Unit)) UniqueAnswer)) (pool : _),
      Run (Step (Sem (callerCode Tagged Nat Unit)) NoCalls)
        ⟨taggedState, fun t => (asking ⟨1, 1⟩ t).map (·.expand taggedMap.method)⟩ es pool ∧
      ¬ ∃ ces cpool, Run (Step (fun _ => taggedMap.Promises) NoCalls)
        ⟨taggedContents, asking ⟨1, 1⟩⟩ ces cpool ∧ Traced es ces := by
  obtain ⟨es, pool, hrun, hret⟩ := run_asking 1
  refine ⟨fromStatic_built fromStatic_taggedMap, taggedState_unlocked, taggedState_shows, es, pool,
    hrun, ?_⟩
  rintro ⟨ces, cpool, hces, htraced⟩
  have hloops := loops_of_run hces (show asking ⟨1, 1⟩ 0 = some (unique ⟨1, 1⟩) from rfl)
    (htraced.mem_returned hret)
  cases hloops with
  | next _ hnext => cases hnext
  | leave hanswer hnext =>
    obtain ⟨mid, c', -, hpromised⟩ := hanswer
    cases hnext
    obtain ⟨⟨e, he⟩, -⟩ | ⟨⟨-, hkey⟩, -⟩ | ⟨-, hok, -⟩ := hpromised
    · cases he
    · cases hkey
    · cases hok

theorem unique_clones {ces : List (Nat × Event (Call Tagged Nat Unit) Call.Res UniqueAnswer)}
    {cpool : Pool (Contents Tagged Nat) (Call Tagged Nat Unit) Call.Res UniqueAnswer}
    (h : Run (Step (fun _ => taggedMap.Does) NoCalls) ⟨taggedContents, asking ⟨1, 0⟩⟩ ces cpool) :
    Run (Guarded (Step (fun _ => taggedMap.Does) NoCalls) ClonesKey)
      ⟨taggedContents, asking ⟨1, 0⟩⟩ ces cpool := by
  refine h.guard_of_invariant (I := fun pool => pool.shared = taggedContents ∧
    ∀ t p, pool.prog t = some p → p = unique ⟨1, 0⟩ ∨ ∃ r, p = .ret r) ?_ ⟨rfl, ?_⟩
  · rintro pool e pool' ⟨hshared, hprogs⟩ hstep
    cases hstep with
    | call _ hp => exact hp.elim
    | @ret t r hprog =>
      refine ⟨trivial, hshared, fun u p hu => ?_⟩
      simp only [Function.update_apply] at hu
      split at hu
      · cases hu
      · exact hprogs u p hu
    | @act t call k r c' hprog hdoes =>
      obtain hcall | ⟨_, hret⟩ := hprogs t _ hprog
      · cases hcall
        have hstored : pool.shared ⟨1, 0⟩ = some (⟨1, 0⟩, 10) := by rw [hshared]; rfl
        refine ⟨fun kv hkv => ?_, ?_, fun u p hu => ?_⟩
        · rw [hstored] at hkv
          cases hkv
          rfl
        · obtain ⟨-, hsame⟩ | ⟨-, hsame⟩ | ⟨hnone, -⟩ := hdoes
          · exact hsame.trans hshared
          · exact hsame.trans hshared
          · rw [hstored] at hnone
            cases hnone
        · simp only [Function.update_apply] at hu
          split at hu
          · cases hu
            exact .inr ⟨_, rfl⟩
          · exact hprogs u p hu
      · cases hret
  · intro t p hp
    cases t with
    | zero => exact .inl (Option.some.inj hp).symm
    | succ t => cases hp

/-- A client whose key is stored as it is: the call promises it, and it comes back. -/
theorem calls_as_promised_same_key : ∃ (es : List (Nat × Event (Act (Tagged × Nat) Unit
    (Code Tagged Nat Unit)) (Act.Res (callerCode Tagged Nat Unit)) UniqueAnswer))
    (pool : Pool (State (Tagged × Nat) Unit) (Act (Tagged × Nat) Unit (Code Tagged Nat Unit))
      (Act.Res (callerCode Tagged Nat Unit)) UniqueAnswer)
    (ces : _) (cpool : Pool (Contents Tagged Nat) (Call Tagged Nat Unit) Call.Res UniqueAnswer),
    (0, .returned (.error (⟨1, 0⟩, 20, .keyAlreadyExists))) ∈ es ∧
    Run (Step (fun _ => taggedMap.Promises) NoCalls) ⟨taggedContents, asking ⟨1, 0⟩⟩ ces cpool ∧
    Traced es ces ∧ taggedMap.IsOneMap Unit pool.shared cpool.shared := by
  obtain ⟨es, pool, hrun, hret⟩ := run_asking 0
  obtain ⟨-, ces, cpool, hces, htraced, hpromised, hone, -⟩ := calls_as_promised
    (fromStatic_built fromStatic_taggedMap) taggedMap_hash taggedState_unlocked taggedState_shows
    hrun
  exact ⟨es, pool, ces, cpool, hret, hpromised (unique_clones hces), htraced, hone⟩

end ConcurrentHashMap

end Rustyfill
