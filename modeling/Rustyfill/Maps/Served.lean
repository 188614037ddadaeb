import Rustyfill.Maps.OneMap

/-!
# Every call is served

Each method of a `ConcurrentHashMap` takes effect once, under the guard of the shard of its key,
as the same call on one map would.
-/

namespace Rustyfill.ConcurrentHashMap

open Maps Interleaving RawHash

set_option autoImplicit false

variable {K V ε B R : Type} [BEq K] [EquivBEq K] {m : ConcurrentHashMap K}
  {spec : Contents K V → R → Contents K V → Prop} {t i bucket : Nat} {c : Contents K V}
  {table : Table (K × V)} {key : K} {kv : K × V} {stored : Option (K × V)}

/-! ## What clients do under a guard -/

theorem RefUse.within {L : Layout K} (hL : L.Lawful) {use : RefUse K V B} {wrap : B → R}
    (hlies : Lies L i table c key bucket kv)
    (hends : Ends L spec i c key (wrap (use.eval kv).1) (some (use.eval kv).2)) :
    Within (ε := ε) L spec t i c (use.run ⟨i, bucket⟩ >>= fun b => .ret (wrap b)) table := by
  induction use generalizing table kv with
  | read f ih => exact within_read hlies (ih kv hlies hends)
  | modify g next ih => exact within_read hlies (within_write hlies fun _ hnow => ih hnow hends)
  | drop b => exact within_leave hL hlies hends

theorem OccupiedUse.within (hL : m.layout.Lawful) {use : OccupiedUse K V B} {wrap : B → R}
    (hlies : Lies m.layout i table c key bucket kv)
    (hends : Ends m.layout spec i c key (wrap (use.eval kv).1) (use.eval kv).2) :
    Within (ε := ε) m.layout spec t i c (use.run ⟨i, bucket⟩ >>= fun b => .ret (wrap b)) table := by
  induction use generalizing table kv with
  | key f ih => exact within_read hlies (ih kv.1 hlies hends)
  | get f ih => exact within_read hlies (ih kv.2 hlies hends)
  | modify g next ih => exact within_read hlies (within_write hlies fun _ hnow => ih hnow hends)
  | insert value f ih =>
    exact within_read hlies (within_write hlies fun _ hnow => ih kv.2 hnow hends)
  | remove f => exact within_remove hL hlies hends
  | removeEntry f => exact within_remove hL hlies hends
  | intoRef use => exact use.within hL hlies hends
  | drop b => exact within_leave hL hlies hends

/-- The entry a client has, where `stored` is what lies in the table for its key. -/
inductive HasEntry (m : ConcurrentHashMap K) (i : Nat) (table : Table (K × V)) (c : Contents K V)
    (key : K) : Option (K × V) → Entry K → Prop where
  | occupied {bucket : Nat} {kv : K × V} : Lies m.layout i table c key bucket kv →
      HasEntry m i table c key (some kv) (.occupied ⟨i, bucket⟩)
  | vacant {slot : Nat} : table.Missing m.hashOne (m.layout.Mine i) c key slot →
      HasEntry m i table c key none (.vacant ⟨i, key, m.hashOne key, slot⟩)

/-- A client that has a reference to what it stored in the vacant entry. -/
theorem within_insert (hL : m.layout.Lawful) {slot : Nat} {value : V} {use : RefUse K V B}
    {wrap : B → R} (hmissing : table.Missing m.hashOne (m.layout.Mine i) c key slot)
    (hends : Ends m.layout spec i c key (wrap (use.eval (key, value)).1)
      (some (use.eval (key, value)).2)) :
    Within (ε := ε) m.layout spec t i c (.act (.insertInSlot i (m.hashOne key) slot (key, value))
      fun bucket => use.run ⟨i, bucket⟩ >>= fun b => .ret (wrap b)) table :=
  within_store hmissing fun _ hlies => use.within hL hlies hends

theorem EntryUse.within (hL : m.layout.Lawful) {use : EntryUse K V B} {wrap : B → R}
    {entry : Entry K} (hentry : HasEntry m i table c key stored entry)
    (hends : Ends m.layout spec i c key (wrap (use.eval key stored).1) (use.eval key stored).2) :
    Within (ε := ε) m.layout spec t i c (use.run entry >>= fun b => .ret (wrap b)) table := by
  induction use generalizing table stored entry with
  | key f ih =>
    cases hentry with
    | occupied hlies => exact within_read hlies (ih _ (.occupied hlies) hends)
    | vacant hmissing => exact ih key (.vacant hmissing) hends
  | andModify g next ih =>
    cases hentry with
    | occupied hlies =>
      exact within_read hlies (within_write hlies fun _ hnow => ih (.occupied hnow) hends)
    | vacant hmissing => exact ih (.vacant hmissing) hends
  | insert value use =>
    cases hentry with
    | occupied hlies =>
      exact within_read hlies (within_write hlies fun _ hnow => use.within hL hnow hends)
    | vacant hmissing => exact within_insert hL hmissing hends
  | orInsert value use =>
    cases hentry with
    | occupied hlies => exact use.within hL hlies hends
    | vacant hmissing => exact within_insert hL hmissing hends
  | orInsertWith value use =>
    cases hentry with
    | occupied hlies => exact use.within hL hlies hends
    | vacant hmissing =>
      refine Inside.user fun v _ _ hv => ?_
      obtain rfl : v = value () := hv
      exact within_insert hL hmissing hends
  | either occupied vacant =>
    cases hentry with
    | occupied hlies => exact occupied.within hL hlies hends
    | vacant hmissing =>
      cases vacant with
      | insert value use => exact within_insert hL hmissing hends
      | drop b => exact within_abandon hL hmissing hends
  | drop b =>
    cases hentry with
    | occupied hlies => exact within_leave hL hlies hends
    | vacant hmissing => exact within_abandon hL hmissing hends

/-! ## The entry of a key -/

theorem reservedEntry_within (hL : m.layout.Lawful) {β : Type} {fail : TryReserveError → β}
    {f : Except β (Entry K) → MapMethod K V ε R}
    (hshows : table.Shows m.hashOne (m.layout.Mine i) c) (hmine : m.layout.Mine i key)
    (herr : ∀ e, ∃ r, f (.error (fail e)) = .ret r ∧ ∀ c₁, spec c₁ r c₁)
    (hok : ∀ table' entry, table'.Shows m.hashOne (m.layout.Mine i) c →
      HasEntry m i table' c key (c key) entry → Within m.layout spec t i c (f (.ok entry)) table') :
    Within m.layout spec t i c (m.reservedEntry i (m.hashOne key) key fail >>= f) table := by
  refine within_reserve hshows fun r table₁ hshows₁ => ?_
  cases r with
  | error e =>
    obtain ⟨r, hr, hspec⟩ := herr e
    change Within m.layout spec t i c (.act (.dropWriteGuard i) fun _ => f (.error (fail e))) table₁
    rw [hr]
    exact within_unchanged hshows₁ hspec
  | ok _ =>
    refine within_find_slot hL hshows₁ hmine ?_ ?_
    · intro table' bucket kv hshows' hkv hlies
      exact hok table' _ hshows' (hkv ▸ .occupied hlies)
    · intro table' slot hshows' hnone hmissing
      exact hok table' _ hshows' (hnone ▸ .vacant hmissing)

omit [EquivBEq K] in
theorem HasEntry.mine {entry : Entry K} (h : HasEntry m i table c key stored entry) :
    m.layout.Mine i key := by
  cases h with
  | occupied hfound => exact hfound.mine
  | vacant hmissing => exact hmissing.mine

theorem uses_within (hL : m.layout.Lawful) {use : EntryUse K V B} {wrap : B → R} {entry : Entry K}
    (hentry : HasEntry m i table c key (c key) entry)
    (hspec : ∀ c₁, spec c₁ (wrap (use.eval key (c₁ key)).1)
      (c₁.put key (use.eval key (c₁ key)).2)) :
    Within (ε := ε) m.layout spec t i c (use.run entry >>= fun b => .ret (wrap b)) table := by
  refine use.within hL hentry fun c₁ hc₁ => ?_
  rw [← hc₁ key hentry.mine]
  exact hspec c₁

theorem insertThrough_within (hL : m.layout.Lawful) {value : V} {entry : Entry K}
    {wrap : Option V → R} (hentry : HasEntry m i table c key stored entry)
    (hends : Ends m.layout spec i c key (wrap (stored.map Prod.snd))
      (some (entryKey key stored, value))) :
    Within (ε := ε) m.layout spec t i c (insertThrough value entry >>= fun old => .ret (wrap old))
      table := by
  cases hentry with
  | occupied hlies =>
    exact within_read hlies (within_write hlies fun _ hnow => within_leave hL hnow hends)
  | vacant hmissing => exact within_store hmissing fun _ hnow => within_leave hL hnow hends

theorem stores_within (hL : m.layout.Lawful) {value : V} {entry : Entry K} {wrap : Option V → R}
    (hentry : HasEntry m i table c key (c key) entry)
    (hspec : ∀ c₁, spec c₁ (wrap ((c₁ key).map Prod.snd))
      (c₁.put key (some (entryKey key (c₁ key), value)))) :
    Within (ε := ε) m.layout spec t i c (insertThrough value entry >>= fun old => .ret (wrap old))
      table := by
  refine insertThrough_within hL hentry fun c₁ hc₁ => ?_
  rw [← hc₁ key hentry.mine]
  exact hspec c₁

abbrev Served (m : ConcurrentHashMap K) (t : Nat) (call : Call K V B)
    (p : MapMethod K V ε call.Res) : Prop :=
  FromIdle m.layout (callerCode K V ε) (fun c r c' => m.Does c call r c') t p

section
variable (hL : m.layout.Lawful)

include hL

/-- A method that waits for the shard of its key, and goes on with the entry. -/
theorem waiting_served {call : Call K V B} {β : Type} {fail : TryReserveError → β}
    {f : Except β (Entry K) → MapMethod K V ε call.Res}
    (herr : ∀ e, ∃ r, f (.error (fail e)) = .ret r ∧ ∀ c, m.Does c call r c)
    (hok : ∀ c table entry, table.Shows m.hashOne (m.layout.Mine (m.layout.shardOf key)) c →
      HasEntry m (m.layout.shardOf key) table c key (c key) entry →
      Within m.layout (fun c r c' => m.Does c call r c') t (m.layout.shardOf key) c
        (f (.ok entry)) table) :
    Served m t call (.act (.writeTable (m.layout.shardOf key)) fun _ =>
      m.reservedEntry (m.layout.shardOf key) (m.hashOne key) key fail >>= f) := by
  refine fromIdle_writeTable fun c table hshows => ?_
  exact reservedEntry_within hL hshows rfl herr fun table' entry => hok c table' entry

theorem tryEntry_served (key : K) (use : EntryUse K V B) :
    Served (ε := ε) m t (.tryEntry key use) (useEntry use (m.tryEntry key)) := by
  refine waiting_served hL (fun e => ⟨_, rfl, fun c => .inl ⟨⟨e, rfl⟩, rfl⟩⟩) ?_
  exact fun c table entry _ hentry => uses_within hL hentry fun c₁ => .inr ⟨rfl, rfl⟩

theorem tryEntryGiveBack_served (key : K) (use : EntryUse K V B) :
    Served (ε := ε) m t (.tryEntryGiveBack key use) (useEntry use (m.tryEntryGiveBack key)) := by
  refine waiting_served hL (fun e => ⟨_, rfl, fun c => .inl ⟨⟨e, rfl⟩, rfl⟩⟩) ?_
  exact fun c table entry _ hentry => uses_within hL hentry fun c₁ => .inr ⟨rfl, rfl⟩

theorem tryEntryNonblock_served (key : K) (use : EntryUse K V B) :
    Served (ε := ε) m t (.tryEntryNonblock key use) (useEntry use (m.tryEntryNonblock key)) := by
  refine fromIdle_tryWriteTable (fun c table hshows => ?_) ?_
  · refine reservedEntry_within hL hshows rfl (fun e => ⟨_, rfl, fun c₁ => .inl ⟨⟨_, rfl⟩, rfl⟩⟩) ?_
    exact fun table' entry _ hentry => uses_within hL hentry fun c₁ => .inr ⟨rfl, rfl⟩
  · exact fromIdle_ret fun c => .inl ⟨⟨_, rfl⟩, rfl⟩

/-! ## Insertion -/

theorem tryInsert_served (key : K) (value : V) :
    Served (B := B) (ε := ε) m t (.tryInsert key value) (m.tryInsert key value) := by
  refine waiting_served hL (fun e => ⟨_, rfl, fun c => .inl ⟨⟨e, rfl⟩, rfl⟩⟩) ?_
  exact fun c table entry _ hentry => stores_within hL hentry fun c₁ => .inr ⟨rfl, rfl⟩

theorem tryInsertGiveBack_served (key : K) (value : V) :
    Served (B := B) (ε := ε) m t (.tryInsertGiveBack key value)
      (m.tryInsertGiveBack key value) := by
  refine waiting_served hL (fun e => ⟨_, rfl, fun c => .inl ⟨⟨e, rfl⟩, rfl⟩⟩) ?_
  exact fun c table entry _ hentry => stores_within hL hentry fun c₁ => .inr ⟨rfl, rfl⟩

theorem tryInsertUnique_served (clone : K → K) (key : K) (value : V) :
    Served (B := B) (ε := ε) m t (.tryInsertUnique clone key value)
      (m.tryInsertUnique clone key value) := by
  refine waiting_served hL (fun e => ⟨_, rfl, fun c => .inl ⟨⟨e, rfl⟩, rfl⟩⟩) ?_
  intro c table entry hshows hentry
  generalize hstored : c key = stored at hentry
  cases hentry with
  | @occupied bucket kv hlies =>
    refine within_read hlies (Inside.dropWriteGuard (commits_same hshows fun c₁ hc₁ => ?_))
    exact .inr (.inl ⟨⟨kv, by rw [hc₁ key rfl, hstored], rfl⟩, rfl⟩)
  | vacant hmissing =>
    refine within_store hmissing fun _ hnow => ?_
    refine within_leave hL hnow fun c₁ hc₁ => .inr (.inr ⟨?_, rfl, rfl⟩)
    rw [hc₁ key rfl, hstored]

/-! ## Lookup and removal -/

theorem getPair_served (key : K) :
    Served (B := B) (ε := ε) m t (.get key) (m.getPair (V := V) key) := by
  refine fromIdle_readTable fun c table hshows => ?_
  refine Inside.find rfl fun ext r hfound => ?_
  cases r with
  | some bucket =>
    obtain ⟨kv, hkv, hloc⟩ := hshows.found rfl hfound
    refine Inside.asRef rfl fun kv' hash hget => ?_
    obtain rfl := hloc.read hget
    refine Inside.dropReadGuard (commits_same hshows fun c₁ hc₁ => ⟨?_, rfl⟩)
    rw [hc₁ key rfl, hkv]
  | none =>
    have hnone := hshows.not_found rfl hL.hash hfound
    refine Inside.dropReadGuard (commits_same hshows fun c₁ hc₁ => ⟨?_, rfl⟩)
    rw [hc₁ key rfl, hnone]

theorem containsKey_served (key : K) :
    Served (B := B) (ε := ε) m t (.containsKey key) (m.containsKey (V := V) key) := by
  refine fromIdle_readTable fun c table hshows => ?_
  refine Inside.find rfl fun ext r hfound => ?_
  cases r with
  | some bucket =>
    obtain ⟨kv, hkv, -⟩ := hshows.found rfl hfound
    refine Inside.dropReadGuard (commits_same hshows fun c₁ hc₁ => ⟨?_, rfl⟩)
    rw [hc₁ key rfl, hkv]
    rfl
  | none =>
    have hnone := hshows.not_found rfl hL.hash hfound
    refine Inside.dropReadGuard (commits_same hshows fun c₁ hc₁ => ⟨?_, rfl⟩)
    rw [hc₁ key rfl, hnone]
    rfl

/-- The method looks for the key, and goes on as the key is found or not. -/
theorem lookup_within {f : Option Nat → MapMethod K V ε R}
    (hshows : table.Shows m.hashOne (m.layout.Mine i) c) (hmine : m.layout.Mine i key)
    (hfound : ∀ bucket kv, c key = some kv → Lies m.layout i table c key bucket kv →
      Within m.layout spec t i c (f (some bucket)) table)
    (hnone : c key = none → table.Shows m.hashOne (m.layout.Mine i) (c.put key none) →
      Within m.layout spec t i c (f none) table) :
    Within m.layout spec t i c (.act (.find i (m.hashOne key) fun _ kv => kv.1 == key) f)
      table := by
  refine Inside.find rfl fun ext r hr => ?_
  cases r with
  | some bucket =>
    obtain ⟨kv, hkv, hloc⟩ := hshows.found hmine hr
    exact hfound bucket kv hkv hloc
  | none =>
    have hmiss := hshows.not_found hmine hL.hash hr
    exact hnone hmiss (hmiss ▸ hshows.put_get hmine)

theorem getMutUse_served (key : K) (use : RefUse K V B) :
    Served (ε := ε) m t (.getMut key use) (m.getMutUse key use) := by
  refine fromIdle_writeTable fun c table hshows => ?_
  refine lookup_within hL hshows rfl (fun bucket kv hkv hloc => ?_) fun hmiss hput => ?_
  · refine use.within hL hloc fun c₁ hc₁ => ?_
    simp only [Does, hc₁ key rfl, hkv, Option.map_some, and_self]
  · refine within_drop hL hput rfl fun c₁ hc₁ => ?_
    simp only [Does, hc₁ key rfl, hmiss, Option.map_none, and_self]

theorem remove_served (key : K) :
    Served (B := B) (ε := ε) m t (.remove key) (m.remove (V := V) key) := by
  refine fromIdle_writeTable fun c table hshows => ?_
  refine lookup_within hL hshows rfl (fun bucket kv hkv hloc => ?_) fun hmiss hput => ?_
  · refine within_remove hL hloc fun c₁ hc₁ => ?_
    simp only [Does, hc₁ key rfl, hkv, Option.map_some, and_self]
  · refine within_drop hL hput rfl fun c₁ hc₁ => ?_
    simp only [Does, hc₁ key rfl, hmiss, Option.map_none, and_self]

theorem removeEntry_served (key : K) :
    Served (B := B) (ε := ε) m t (.removeEntry key) (m.removeEntry (V := V) key) := by
  refine fromIdle_writeTable fun c table hshows => ?_
  refine lookup_within hL hshows rfl (fun bucket kv hkv hloc => ?_) fun hmiss hput => ?_
  · refine within_remove hL hloc fun c₁ hc₁ => ?_
    simp only [Does, hc₁ key rfl, hkv, and_self]
  · refine within_drop hL hput rfl fun c₁ hc₁ => ?_
    simp only [Does, hc₁ key rfl, hmiss, and_self]

/-! ## All shards -/

omit hL in
theorem storedIn_full (hshows : table.Shows m.hashOne (m.layout.Mine i) c) {c₁ : Contents K V}
    (hc₁ : ∀ k, m.layout.Mine i k → c₁ k = c k) : m.StoredIn i c₁ (table.full.map Prod.snd) := by
  rw [Table.full_map_snd]
  constructor
  · rw [Table.elems, List.pairwise_map]
    exact hshows.distinct
  · intro kv
    rw [Table.elems, List.mem_map]
    constructor
    · rintro ⟨e, he, rfl⟩
      have hmine := hshows.mine e he
      rw [hc₁ _ hmine]
      exact ⟨hshows.mem he BEq.rfl hmine, hmine⟩
    · rintro ⟨hget, hmine⟩
      rw [hc₁ _ hmine] at hget
      exact ⟨_, ((hshows.finds _ hmine kv).mp hget).1, rfl⟩

omit hL in
theorem shardLen_served (i : Nat) :
    Served (B := B) (ε := ε) m t (.shardLen i) (shardLen (K := K) (V := V) i) := by
  refine fromIdle_readTable fun c table hshows => Inside.len rfl ?_
  refine Inside.dropReadGuard (commits_same hshows fun c₁ hc₁ => ?_)
  refine ⟨⟨_, storedIn_full hshows hc₁, ?_⟩, rfl⟩
  rw [Table.full_map_snd]

omit hL in
theorem visitShard_served (i : Nat) :
    Served (B := B) (ε := ε) m t (.visitShard i) (visitShard (K := K) (V := V) i) := by
  refine fromIdle_readTable fun c table hshows => Inside.iter rfl ?_
  exact Inside.dropReadGuard (commits_same hshows fun c₁ hc₁ => ⟨storedIn_full hshows hc₁, rfl⟩)

omit hL in
theorem reserveShards_served (additional perShard : Nat) (is : List Nat) :
    Served (B := B) (ε := ε) m t (.tryReserve additional)
      (m.reserveShards (V := V) perShard is) := by
  induction is with
  | nil => exact fromIdle_ret fun _ => rfl
  | cons i is ih =>
    refine fromIdle_writeTable fun c table hshows => Inside.tryReserve fun r table' hres => ?_
    have hshows' := hshows.tryReserve hres
    cases r with
    | error e => exact Inside.dropWriteGuard (commits_same hshows' fun _ _ => rfl)
    | ok _ => exact Inside.leave_write hshows' ih

omit hL in
theorem tryReserve_served (additional : Nat) :
    Served (B := B) (ε := ε) m t (.tryReserve additional) (m.tryReserve (V := V) additional) := by
  rw [tryReserve]
  split
  · exact fromIdle_ret fun _ => rfl
  · exact reserveShards_served additional _ _

theorem method_served (t : Nat) (call : Call K V B) :
    Served (ε := ε) m t call (m.method call) := by
  cases call with
  | tryInsert key value => exact tryInsert_served hL key value
  | tryInsertGiveBack key value => exact tryInsertGiveBack_served hL key value
  | tryInsertUnique clone key value => exact tryInsertUnique_served hL clone key value
  | tryEntry key use => exact tryEntry_served hL key use
  | tryEntryGiveBack key use => exact tryEntryGiveBack_served hL key use
  | tryEntryNonblock key use => exact tryEntryNonblock_served hL key use
  | get key => exact getPair_served hL key
  | getMut key use => exact getMutUse_served hL key use
  | containsKey key => exact containsKey_served hL key
  | remove key => exact remove_served hL key
  | removeEntry key => exact removeEntry_served hL key
  | tryReserve additional => exact tryReserve_served additional
  | shardLen i => exact shardLen_served i
  | visitShard i => exact visitShard_served i

end

/-! ## Clients of the map -/

omit [EquivBEq K] in
theorem layout_lawful (hhash : ∀ a b : K, (a == b) = true → m.hashOne a = m.hashOne b) :
    m.layout.Lawful where
  hash := hhash
  shard := fun a b hab => congrArg m.shardIndexInternal (hhash a b hab)

/-- Clients of the map, however their steps interleave, are clients of one map whose calls are
one step each: each call takes effect in a step of its caller, and everybody returns the same. -/
theorem clients_see_one_map (hhash : ∀ a b : K, (a == b) = true → m.hashOne a = m.hashOne b)
    {clients : Nat → Option (Prog (Call K V B) Call.Res R)} {s : State (K × V) Unit}
    (hs : s.Unlocked) (hc : ∀ i, (s.table i).Shows m.hashOne (m.layout.Mine i) c)
    {es : List (Nat × Event (Act (K × V) Unit (Code K V ε)) (Act.Res (callerCode K V ε)) R)}
    {pool : Pool (State (K × V) Unit) (Act (K × V) Unit (Code K V ε))
      (Act.Res (callerCode K V ε)) R}
    (hrun : Transition.Run (Step (Sem (callerCode K V ε)) NoCalls)
      ⟨s, fun t => (clients t).map (·.expand m.method)⟩ es pool) :
    ∃ ces cpool, Transition.Run (Step (fun _ => m.Does) NoCalls) ⟨c, clients⟩ ces cpool ∧
      Traced es ces ∧
      (∀ i, pool.shared.writer i = none →
        (pool.shared.table i).Shows m.hashOne (m.layout.Mine i) cpool.shared) ∧
      ((∀ t, pool.prog t = none) → pool.shared.Unlocked ∧ ∀ t, cpool.prog t = none) :=
  one_map_of_clients (fun t call => method_served (layout_lawful hhash) t call) hs hc hrun

/-! ## Two clients of a small map -/

/-- A map of two shards, with one free bucket in each. -/
def smallMap : ConcurrentHashMap Nat := ⟨2, 63, UInt64.ofNat⟩

def freeTable : Table (Nat × Nat) := ⟨[none], 1, by decide⟩

def freshState : State (Nat × Nat) Unit := ⟨fun _ => freeTable, fun _ => none, fun _ => ∅, ()⟩

def smallShard (key : Nat) : Nat := smallMap.shardIndexInternal (smallMap.hashOne key)

/-- The table of the shard of the key, once its pair is stored. -/
def storedTable (key value : Nat) : Table (Nat × Nat) :=
  ⟨[some (smallMap.hashOne key, (key, value))], 0, Nat.zero_le _⟩

/-- A client that inserts a pair and makes its result of the answer. -/
abbrev insertion {A : Type} (f : Except TryReserveError (Option Nat) → A) (key value : Nat) :
    Prog (Call Nat Nat Unit) Call.Res A :=
  .act (.tryInsert key value) fun r => .ret (f r)

def lockedBy (t key : Nat) (s : State (Nat × Nat) Unit) : State (Nat × Nat) Unit :=
  s.setWriter (smallShard key) (some t)

def storedBy (t key value : Nat) (s : State (Nat × Nat) Unit) : State (Nat × Nat) Unit :=
  ((lockedBy t key s).setTable (smallShard key) (storedTable key value)).setWriter
    (smallShard key) none

/-- An insertion into a shard with a free bucket takes the guard of the shard, and then stores
the pair. -/
theorem insertion_expand {A : Type} (f : Except TryReserveError (Option Nat) → A)
    (t key value : Nat) : ∃ k, (insertion f key value).expand smallMap.method =
      (Prog.act (.writeTable (smallShard key)) .ret >>= k) ∧
    ∀ s : State (Nat × Nat) Unit, s.table (smallShard key) = freeTable →
      Prog.Exec (Sem (callerCode Nat Nat Unit) t) (lockedBy t key s) (k ())
        (f (.ok none)) (storedBy t key value s) := by
  refine ⟨_, rfl, fun s hfree => ?_⟩
  have hlocked : (lockedBy t key s).table (smallShard key) = freeTable := hfree
  have hreserve : Sem (callerCode Nat Nat Unit) t (lockedBy t key s)
      (.tryReserve (smallShard key) 1 smallMap.rehash) (.ok ()) (lockedBy t key s) := by
    refine ⟨_, ?_, State.setTable_self.symm⟩
    rw [hlocked]
    exact .roomy (Nat.le_refl 1)
  have hfind : Sem (callerCode Nat Nat Unit) t (lockedBy t key s) (.findOrFindInsertSlot
      (smallShard key) (smallMap.hashOne key) (fun kv => kv.1 == key) smallMap.rehash) (.error 0)
      (lockedBy t key s) := by
    have hreserved : freeTable.Reserved smallMap.rehash freeTable := by
      rw [Table.Reserved, if_pos (show 0 < freeTable.free from Nat.one_pos)]
    have habsent : freeTable.Found (smallMap.hashOne key) (fun kv => kv.1 == key) none := by
      intro e he
      cases he
    refine ⟨_, ?_, ?_, State.setTable_self.symm⟩
    · rw [hlocked]
      exact hreserved
    · rw [hlocked]
      exact ⟨habsent, rfl⟩
  have hstore : Sem (callerCode Nat Nat Unit) t (lockedBy t key s)
      (.insertInSlot (smallShard key) (smallMap.hashOne key) 0 (key, value)) (0 : Nat)
      ((lockedBy t key s).setTable (smallShard key) (storedTable key value)) := by
    refine ⟨_, ?_, rfl, rfl⟩
    rw [hlocked]
    exact ⟨rfl, rfl, .inr rfl⟩
  exact .act hreserve (.act hfind (.act hstore (.act (x := ()) rfl (.ret _ _))))

theorem exec_writeTable {t key : Nat} {s : State (Nat × Nat) Unit} (hs : s.Unlocked) :
    Prog.Exec (Sem (callerCode Nat Nat Unit) t) s (.act (.writeTable (smallShard key)) .ret) ()
      (lockedBy t key s) :=
  .act (x := ()) ⟨hs.writer _, hs.readers _, rfl⟩ (.ret _ _)

theorem exec_insertion {A : Type} {f : Except TryReserveError (Option Nat) → A}
    {t key value : Nat} {s : State (Nat × Nat) Unit}
    (hfree : s.table (smallShard key) = freeTable) (hwriter : s.writer (smallShard key) = none)
    (hreaders : s.readers (smallShard key) = ∅) :
    Prog.Exec (Sem (callerCode Nat Nat Unit) t) s ((insertion f key value).expand smallMap.method)
      (f (.ok none)) (storedBy t key value s) := by
  obtain ⟨k, hexpand, hrest⟩ := insertion_expand f t key value
  rw [hexpand, Prog.exec_bind]
  exact ⟨(), _, .act (x := ()) ⟨hwriter, hreaders, rfl⟩ (.ret _ _), hrest s hfree⟩

theorem lockedBy_storedBy {t u key key' value : Nat} {s : State (Nat × Nat) Unit}
    (h : smallShard key ≠ smallShard key') :
    lockedBy t key (storedBy u key' value s) = storedBy u key' value (lockedBy t key s) := by
  simp only [storedBy, lockedBy, State.setWriter, State.setTable, Function.update_idem]
  rw [Function.update_comm h]

/-- The keys of the two clients: the second one is in the other shard. -/
def inserting :
    Nat → Option (Prog (Call Nat Nat Unit) Call.Res (Except TryReserveError (Option Nat)))
  | 0 => some (insertion id 1 10)
  | 1 => some (insertion id (2 ^ 56) 20)
  | _ => none

/-- The second client inserts its pair while the first one has the guard of its shard. -/
theorem clients_see_one_map_between : ∃ (es : List (Nat × Event (Act (Nat × Nat) Unit
    (Code Nat Nat Unit)) (Act.Res (callerCode Nat Nat Unit))
    (Except TryReserveError (Option Nat)))) (ces : _) (cpool : _),
    Transition.Run (Step (fun _ => smallMap.Does) NoCalls) ⟨Contents.empty, inserting⟩ ces cpool ∧
      Traced es ces ∧
      (storedTable 1 10).Shows smallMap.hashOne (smallMap.layout.Mine 0) cpool.shared ∧
      (storedTable (2 ^ 56) 20).Shows smallMap.hashOne (smallMap.layout.Mine 1) cpool.shared := by
  obtain ⟨k, hexpand, hrest⟩ := insertion_expand id 0 1 10
  have hlock : Prog.Exec (Sem (callerCode Nat Nat Unit) 0) freshState
      (.act (.writeTable (smallShard 1)) .ret) () (lockedBy 0 1 freshState) :=
    exec_writeTable ⟨fun _ => rfl, fun _ => rfl⟩
  have hother : Prog.Exec (Sem (callerCode Nat Nat Unit) 1) (lockedBy 0 1 freshState)
      ((insertion id (2 ^ 56) 20).expand smallMap.method) (.ok none)
      (storedBy 1 (2 ^ 56) 20 (lockedBy 0 1 freshState)) := exec_insertion rfl rfl rfl
  have hstore := hrest (storedBy 1 (2 ^ 56) 20 freshState) rfl
  rw [lockedBy_storedBy (by decide)] at hstore
  obtain ⟨es, hrun⟩ : ∃ es, Transition.Run (Step (Sem (callerCode Nat Nat Unit)) NoCalls)
      ⟨freshState, fun t => (inserting t).map (·.expand smallMap.method)⟩ es _ :=
    run_between hlock hother hstore Nat.zero_ne_one (congrArg some hexpand) rfl
  obtain ⟨ces, cpool, hces, htraced, hshows, -⟩ := clients_see_one_map (m := smallMap)
    (c := Contents.empty) (by simp) ⟨fun _ => rfl, fun _ => rfl⟩
    (fun i => Table.shows_nothing rfl fun _ _ => rfl) hrun
  exact ⟨es, ces, cpool, hces, htraced, hshows 0 rfl, hshows 1 rfl⟩

end Rustyfill.ConcurrentHashMap
