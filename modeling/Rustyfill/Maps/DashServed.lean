import Rustyfill.Maps.DashCalls
import Rustyfill.Maps.Served

/-!
# Every call of a `DashMap` is served

Each call takes effect once, under the guard of the shard of its key, as it would on one map.
-/

namespace Rustyfill.DashMap

open Maps Interleaving RawHash
open ConcurrentHashMap (RefUse entryKey)

set_option autoImplicit false

variable {K V ε B R : Type} [BEq K] [EquivBEq K] {m : DashMap K}
  {spec : Contents K V → R → Contents K V → Prop} {t i bucket : Nat} {c : Contents K V}
  {table : Table (K × V)} {key : K} {kv : K × V} {stored : Option (K × V)}

/-! ## What clients do under a guard -/

omit [BEq K] [EquivBEq K] in
theorem runRef_eq (i bucket : Nat) (use : RefUse K V B) :
    runRef (ε := ε) ⟨i, bucket⟩ use = use.run ⟨i, bucket⟩ := by
  induction use with
  | read f ih => exact congrArg (Prog.act _) (funext fun kv => ih kv)
  | modify g next ih => exact congrArg (Prog.act _) (funext fun _ =>
      congrArg (Prog.act _) (funext fun _ => ih))
  | drop b => rfl

theorem runRef_within (hL : m.layout.Lawful) {use : RefUse K V B} {wrap : B → R}
    (hlies : Lies m.layout i table c key bucket kv)
    (hends : Ends m.layout spec i c key (wrap (use.eval kv).1) (some (use.eval kv).2)) :
    Within (ε := ε) m.layout spec t i c (runRef ⟨i, bucket⟩ use >>= fun b => .ret (wrap b))
      table := by
  rw [runRef_eq]
  exact use.within hL hlies hends

theorem OccupiedUse.within (hL : m.layout.Lawful) {use : OccupiedUse K V B} {wrap : B → R}
    (hlies : Lies m.layout i table c key bucket kv)
    (hends : Ends m.layout spec i c key (wrap (use.eval key kv).1) (use.eval key kv).2) :
    Within (ε := ε) m.layout spec t i c
      (use.run ⟨i, bucket, key⟩ >>= fun b => .ret (wrap b)) table := by
  induction use generalizing table kv with
  | key f ih => exact within_read hlies (ih kv.1 hlies hends)
  | get f ih => exact within_read hlies (ih kv.2 hlies hends)
  | modify g next ih => exact within_read hlies (within_write hlies fun _ hnow => ih hnow hends)
  | insert value f ih =>
    exact within_read hlies (within_write hlies fun _ hnow => ih kv.2 hnow hends)
  | remove f => exact within_remove hL hlies hends
  | removeEntry f => exact within_remove hL hlies hends
  | replaceEntry value f =>
    -- The key is written as well, and only the same to the map as the one that was stored.
    refine within_read hlies (Inside.write fun table' hrep => ?_)
    have hnow := hlies.overwritten BEq.rfl (hL.hash _ _ hlies.key).symm hlies.mine hrep
    exact within_leave hL hnow hends
  | intoRef use => exact runRef_within hL hlies hends
  | intoKey f => exact within_leave hL hlies hends
  | drop b => exact within_leave hL hlies hends

/-- The entry a client has, where `stored` is what lies in the table for its key. -/
inductive HasEntry (m : DashMap K) (i : Nat) (table : Table (K × V)) (c : Contents K V)
    (key : K) : Option (K × V) → Entry K → Prop where
  | occupied {bucket : Nat} {kv : K × V} : Lies m.layout i table c key bucket kv →
      HasEntry m i table c key (some kv) (.occupied ⟨i, bucket, key⟩)
  | vacant {hash : UInt64} {slot : Nat} : hash = m.hashOne key →
      table.Missing m.hashOne (m.layout.Mine i) c key slot →
      HasEntry m i table c key none (.vacant ⟨i, key, hash, slot⟩)

/-- A client that has a reference to what it stored in the vacant entry. -/
theorem within_insert (hL : m.layout.Lawful) {slot : Nat} {value : V} {use : RefUse K V B}
    {wrap : B → R} (hmissing : table.Missing m.hashOne (m.layout.Mine i) c key slot)
    (hends : Ends m.layout spec i c key (wrap (use.eval (key, value)).1)
      (some (use.eval (key, value)).2)) :
    Within (ε := ε) m.layout spec t i c (.act (.insertInSlot i (m.hashOne key) slot (key, value))
      fun bucket => runRef ⟨i, bucket⟩ use >>= fun b => .ret (wrap b)) table :=
  within_store hmissing fun _ hlies => runRef_within hL hlies hends

/-- A client that has an occupied entry of what it stored, under a clone of its key. -/
theorem within_insertEntry (hL : m.layout.Lawful) {slot : Nat} {value : V} {clone : KeyClone K}
    {use : OccupiedUse K V B} {wrap : B → R}
    (hmissing : table.Missing m.hashOne (m.layout.Mine i) c key slot)
    (hends : Ends m.layout spec i c key (wrap (use.eval key (clone.clone key, value)).1)
      (use.eval key (clone.clone key, value)).2) :
    Within (ε := ε) m.layout spec t i c
      (.act (.insertInSlot i (m.hashOne key) slot (clone.clone key, value))
        fun bucket => use.run ⟨i, bucket, key⟩ >>= fun b => .ret (wrap b)) table := by
  refine Inside.insertInSlot fun _ hplaced => ?_
  have hsame := clone.same key
  have hmine : m.layout.Mine i (clone.clone key) := (hL.shard _ _ hsame).trans hmissing.mine
  exact use.within hL
    (hmissing.placed_as hsame (hL.hash _ _ hsame).symm hmine hplaced) hends

theorem orTry_within (hL : m.layout.Lawful) {value : Unit → Except ε V} {use : RefUse K V B}
    {failed : ε → B} {wrap : B → R} {entry : Entry K}
    (hentry : HasEntry m i table c key stored entry)
    (hends : Ends m.layout spec i c key
      (wrap (EntryUse.orTry key (value ()) use failed stored).1)
      (EntryUse.orTry key (value ()) use failed stored).2) :
    Within m.layout spec t i c ((EntryUse.orTryInsertWith value use failed).run entry >>=
      fun b => .ret (wrap b)) table := by
  cases hentry with
  | occupied hlies => exact runRef_within hL hlies hends
  | vacant hhash hmissing =>
    subst hhash
    refine Inside.user fun v _ _ hv => ?_
    obtain rfl : v = value () := hv
    cases hvalue : value () with
    | error e =>
      rw [hvalue] at hends
      exact within_abandon hL hmissing hends
    | ok v =>
      rw [hvalue] at hends
      exact within_insert hL hmissing hends

theorem EntryUse.within (hL : m.layout.Lawful) {use : EntryUse K V ε B} {wrap : B → R}
    {entry : Entry K} (hentry : HasEntry m i table c key stored entry)
    (hends : Ends m.layout spec i c key (wrap (use.eval key stored).1) (use.eval key stored).2) :
    Within (ε := ε) m.layout spec t i c (use.run entry >>= fun b => .ret (wrap b)) table := by
  induction use generalizing table stored entry with
  | key f ih =>
    cases hentry with
    | occupied hlies => exact within_read hlies (ih _ (.occupied hlies) hends)
    | vacant hhash hmissing => exact ih key (.vacant hhash hmissing) hends
  | intoKey f =>
    cases hentry with
    | occupied hlies => exact within_leave hL hlies hends
    | vacant hhash hmissing => exact within_abandon hL hmissing hends
  | andModify g next ih =>
    cases hentry with
    | occupied hlies =>
      exact within_read hlies (within_write hlies fun _ hnow => ih (.occupied hnow) hends)
    | vacant hhash hmissing => exact ih (.vacant hhash hmissing) hends
  | insert value use =>
    cases hentry with
    | occupied hlies =>
      exact within_read hlies (within_write hlies fun _ hnow => runRef_within hL hnow hends)
    | vacant hhash hmissing => exact hhash ▸ within_insert hL hmissing hends
  | insertEntry clone value use =>
    cases hentry with
    | occupied hlies =>
      exact within_read hlies (within_write hlies fun _ hnow => use.within hL hnow hends)
    | vacant hhash hmissing => exact hhash ▸ within_insertEntry hL hmissing hends
  | orInsert value use =>
    cases hentry with
    | occupied hlies => exact runRef_within hL hlies hends
    | vacant hhash hmissing => exact hhash ▸ within_insert hL hmissing hends
  | orInsertWith value use =>
    cases hentry with
    | occupied hlies => exact runRef_within hL hlies hends
    | vacant hhash hmissing =>
      refine Inside.user fun v _ _ hv => ?_
      obtain rfl : v = value () := hv
      exact hhash ▸ within_insert hL hmissing hends
  | orTryInsertWith value use failed => exact orTry_within hL hentry hends
  | orTryDefault tryDefault use failed => exact orTry_within hL hentry hends
  | either occupied vacant =>
    cases hentry with
    | occupied hlies => exact occupied.within hL hlies hends
    | vacant hhash hmissing =>
      cases vacant with
      | insert value use => exact hhash ▸ within_insert hL hmissing hends
      | insertEntry clone value use => exact hhash ▸ within_insertEntry hL hmissing hends
      | intoKey f => exact within_abandon hL hmissing hends
      | drop b => exact within_abandon hL hmissing hends
  | drop b =>
    cases hentry with
    | occupied hlies => exact within_leave hL hlies hends
    | vacant hhash hmissing => exact within_abandon hL hmissing hends

theorem insertThrough_within (hL : m.layout.Lawful) {value : V} {wrap : Option V → R}
    {entry : Entry K} (hentry : HasEntry m i table c key stored entry)
    (hends : Ends m.layout spec i c key (wrap (stored.map Prod.snd))
      (some (entryKey key stored, value))) :
    Within (ε := ε) m.layout spec t i c (insertThrough value entry >>= fun old => .ret (wrap old))
      table := by
  cases hentry with
  | occupied hlies =>
    exact within_read hlies (within_write hlies fun _ hnow => within_leave hL hnow hends)
  | vacant hhash hmissing =>
    exact hhash ▸ within_store hmissing fun _ hnow => within_leave hL hnow hends

omit [EquivBEq K] in
theorem HasEntry.mine {entry : Entry K} (h : HasEntry m i table c key stored entry) :
    m.layout.Mine i key := by
  cases h with
  | occupied hlies => exact hlies.mine
  | vacant _ hmissing => exact hmissing.mine

section
variable (hL : m.layout.Lawful) {entry : Entry K}
  (hentry : HasEntry m i table c key (c key) entry)

include hL hentry

theorem uses_within {use : EntryUse K V ε B} {wrap : B → R}
    (hspec : ∀ c₁ b c', Uses c₁ key use b c' → spec c₁ (wrap b) c') :
    Within m.layout spec t i c (use.run entry >>= fun b => .ret (wrap b)) table := by
  refine use.within hL hentry fun c₁ hc₁ => ?_
  rw [← hc₁ key hentry.mine]
  exact hspec c₁ _ _ ⟨rfl, rfl⟩

theorem stores_within {value : V} {wrap : Option V → R}
    (hspec : ∀ c₁ old c', Stores c₁ key value old c' → spec c₁ (wrap old) c') :
    Within (ε := ε) m.layout spec t i c (insertThrough value entry >>= fun old => .ret (wrap old))
      table := by
  refine insertThrough_within hL hentry fun c₁ hc₁ => ?_
  rw [← hc₁ key hentry.mine]
  exact hspec c₁ _ _ ⟨rfl, rfl⟩

theorem adds_within {β : Type} {value : V} {exists_ : β}
    {spec : Contents K V → Except (K × V × β) Unit → Contents K V → Prop}
    (hshows : table.Shows m.hashOne (m.layout.Mine i) c)
    (hspec : ∀ c₁ c', Adds c₁ key value true c' → spec c₁ (.ok ()) c')
    (hfound : ∀ c₁ c', Adds c₁ key value false c' → spec c₁ (.error (key, value, exists_)) c') :
    Within (ε := ε) m.layout spec t i c (insertIfVacant value exists_ entry) table := by
  have hmine := hentry.mine
  generalize hstored : c key = stored at hentry
  cases hentry with
  | occupied hlies =>
    refine Inside.dropWriteGuard (commits_same hshows fun c₁ hc₁ => hfound c₁ c₁ ⟨?_, rfl⟩)
    rw [hc₁ key hmine, hstored]
    exact Option.some_ne_none _
  | vacant hhash hmissing =>
    subst hhash
    refine within_store hmissing fun _ hnow => ?_
    refine within_leave hL hnow fun c₁ hc₁ => hspec c₁ _ ⟨?_, rfl⟩
    rw [hc₁ key hmine, hstored]

end

/-! ## The entry of a key -/

def lookedUp (i : Nat) (hash : UInt64) (key : K) : Except Nat Nat → Entry K
  | .ok bucket => .occupied ⟨i, bucket, key⟩
  | .error slot => .vacant ⟨i, key, hash, slot⟩

/-- The hash may be that of another key, as long as it is the same to the map. -/
theorem lookup_within (hL : m.layout.Lawful) {hash : UInt64} (hhash : hash = m.hashOne key)
    {f : Except Nat Nat → MapMethod K V ε R} (hshows : table.Shows m.hashOne (m.layout.Mine i) c)
    (hmine : m.layout.Mine i key)
    (hok : ∀ table' r, table'.Shows m.hashOne (m.layout.Mine i) c →
      HasEntry m i table' c key (c key) (lookedUp i hash key r) →
      Within m.layout spec t i c (f r) table') :
    Within m.layout spec t i c
      (.act (.findOrFindInsertSlot i hash (fun kv => kv.1 == key) m.rehash) f) table := by
  subst hhash
  refine within_find_slot hL hshows hmine ?_ ?_
  · intro table' bucket kv hshows' hkv hlies
    exact hok table' (.ok bucket) hshows' (hkv ▸ .occupied hlies)
  · intro table' slot hshows' hnone hmissing
    exact hok table' (.error slot) hshows' (hnone ▸ .vacant rfl hmissing)

theorem reserve_within {f : Except TryReserveError Unit → MapMethod K V ε R}
    (hshows : table.Shows m.hashOne (m.layout.Mine i) c)
    (herr : ∀ e, ∃ r, f (.error e) = .act (.dropWriteGuard i) (fun _ => .ret r) ∧
      ∀ c₁, spec c₁ r c₁)
    (hok : ∀ table', table'.Shows m.hashOne (m.layout.Mine i) c →
      Within m.layout spec t i c (f (.ok ())) table') :
    Within m.layout spec t i c (.act (.tryReserve i 1 m.rehash) f) table := by
  refine within_reserve hshows fun r table₁ hshows₁ => ?_
  cases r with
  | error e =>
    obtain ⟨r, hr, hspec⟩ := herr e
    rw [hr]
    exact within_unchanged hshows₁ hspec
  | ok _ => exact hok table₁ hshows₁

theorem reservedEntry_within (hL : m.layout.Lawful) {β : Type} {fail : TryReserveError → β}
    {f : Except β (Entry K) → MapMethod K V ε R}
    (hshows : table.Shows m.hashOne (m.layout.Mine i) c) (hmine : m.layout.Mine i key)
    (herr : ∀ e, ∃ r, f (.error (fail e)) = .ret r ∧ ∀ c₁, spec c₁ r c₁)
    (hok : ∀ table' entry, table'.Shows m.hashOne (m.layout.Mine i) c →
      HasEntry m i table' c key (c key) entry → Within m.layout spec t i c (f (.ok entry)) table') :
    Within m.layout spec t i c (m.reservedEntry i (m.hashOne key) key fail >>= f) table := by
  refine reserve_within hshows (fun e => ?_) fun table₁ hshows₁ => ?_
  · obtain ⟨r, hr, hspec⟩ := herr e
    exact ⟨r, congrArg (Prog.act _) (funext fun _ => hr), hspec⟩
  · refine lookup_within hL rfl hshows₁ hmine fun table' r hshows' hentry => ?_
    cases r with
    | ok bucket => exact hok table' _ hshows' hentry
    | error slot => exact hok table' _ hshows' hentry

/-! ## The calls -/

abbrev Served (m : DashMap K) (t : Nat) (call : Call K V ε B) (p : MapMethod K V ε call.Res) :
    Prop :=
  FromIdle m.layout (callerCode K V ε) (fun c r c' => Does c call r c') t p

section
variable (hL : m.layout.Lawful) {call : Call K V ε B} {β : Type} {fail : TryReserveError → β}
  {f : Except β (Entry K) → MapMethod K V ε call.Res}
  (herr : ∀ e, ∃ r, f (.error (fail e)) = .ret r ∧ ∀ c, Does c call r c)
  (hok : ∀ c table entry,
    table.Shows m.hashOne (m.layout.Mine (m.layout.shardOf key)) c →
    HasEntry m (m.layout.shardOf key) table c key (c key) entry →
    Within m.layout (fun c r c' => Does c call r c') t (m.layout.shardOf key) c (f (.ok entry))
      table)

include hL herr hok

theorem waiting_served : Served m t call (.act (.writeTable (m.layout.shardOf key)) fun _ =>
    m.reservedEntry (m.layout.shardOf key) (m.hashOne key) key fail >>= f) := by
  refine fromIdle_writeTable fun c table hshows => ?_
  exact reservedEntry_within hL hshows rfl herr fun table' entry => hok c table' entry

theorem nonblock_served {e : β}
    (hlocked : ∃ r, f (.error e) = .ret r ∧ ∀ c, Does c call r c) :
    Served m t call (.act (.tryWriteTable (m.layout.shardOf key)) fun ok =>
      (if ok then m.reservedEntry (m.layout.shardOf key) (m.hashOne key) key fail
        else .ret (.error e)) >>= f) := by
  obtain ⟨r, hr, hspec⟩ := hlocked
  refine fromIdle_tryWriteTable (fun c table hshows => ?_) ?_
  · exact reservedEntry_within hL hshows rfl herr fun table' entry => hok c table' entry
  · change Served m t call (f (.error e))
    rw [hr]
    exact fromIdle_ret hspec

end

theorem tryEntryRef_served (hL : m.layout.Lawful) (clone : KeyTryClone K ε) (key : K)
    (use : EntryUse K V ε B) :
    Served m t (.tryEntryRef clone key use) (useEntry use (m.tryEntryRef clone.tryClone key)) := by
  refine fromIdle_writeTable fun c table hshows => ?_
  refine reserve_within hshows (fun e => ⟨_, rfl, fun c₁ => .inl ⟨⟨e, rfl⟩, rfl⟩⟩) ?_
  intro table₁ hshows₁
  refine Inside.user fun r _ _ hr => ?_
  obtain rfl : r = clone.tryClone key := hr
  cases hclone : clone.tryClone key with
  | error e => exact within_unchanged hshows₁ fun c₁ => .inr (.inl ⟨⟨e, hclone, rfl⟩, rfl⟩)
  | ok key' =>
    have hsame := clone.same key key' hclone
    refine lookup_within hL (hL.hash _ _ hsame).symm hshows₁ (hL.shard _ _ hsame)
      fun table' r hshows' hentry => ?_
    cases r with
    | ok bucket =>
      exact uses_within hL hentry fun c₁ b c' h => .inr (.inr ⟨key', b, hclone, rfl, h⟩)
    | error slot =>
      exact uses_within hL hentry fun c₁ b c' h => .inr (.inr ⟨key', b, hclone, rfl, h⟩)

theorem method_served (hL : m.layout.Lawful) (t : Nat) (call : Call K V ε B) :
    Served m t call (m.method call) := by
  cases call with
  | tryInsert key value =>
    refine waiting_served hL (fun e => ⟨_, rfl, fun c => .inl ⟨⟨e, rfl⟩, rfl⟩⟩) ?_
    exact fun c table entry _ hentry =>
      stores_within hL hentry fun c₁ old c' h => .inr ⟨old, rfl, h⟩
  | tryInsertGiveBack key value =>
    refine waiting_served hL (fun e => ⟨_, rfl, fun c => .inl ⟨⟨e, rfl⟩, rfl⟩⟩) ?_
    exact fun c table entry _ hentry =>
      stores_within hL hentry fun c₁ old c' h => .inr ⟨old, rfl, h⟩
  | tryInsertUnique key value =>
    refine waiting_served hL (fun e => ⟨_, rfl, fun c => .inl ⟨⟨e, rfl⟩, rfl⟩⟩) ?_
    exact fun c table entry hshows hentry => adds_within hL hentry hshows
      (fun c₁ c' h => .inr (.inr ⟨rfl, h⟩)) fun c₁ c' h => .inr (.inl ⟨rfl, h⟩)
  | tryInsertNonblock key value =>
    refine nonblock_served hL ?_ ?_ ?_
    · exact fun e => ⟨_, rfl, fun c => .inl ⟨⟨.reserve e, rfl⟩, rfl⟩⟩
    · exact fun c table entry _ hentry =>
        stores_within hL hentry fun c₁ old c' h => .inr ⟨old, rfl, h⟩
    · exact ⟨_, rfl, fun c => .inl ⟨⟨.locked, rfl⟩, rfl⟩⟩
  | tryInsertGiveBackNonblock key value =>
    refine nonblock_served hL ?_ ?_ ?_
    · exact fun e => ⟨_, rfl, fun c => .inl ⟨⟨.reserve e, rfl⟩, rfl⟩⟩
    · exact fun c table entry _ hentry =>
        stores_within hL hentry fun c₁ old c' h => .inr ⟨old, rfl, h⟩
    · exact ⟨_, rfl, fun c => .inl ⟨⟨.locked, rfl⟩, rfl⟩⟩
  | tryInsertUniqueNonblock key value =>
    refine nonblock_served hL ?_ ?_ ?_
    · exact fun e => ⟨_, rfl, fun c => .inl ⟨⟨.reserve e, rfl⟩, rfl⟩⟩
    · exact fun c table entry hshows hentry => adds_within hL hentry hshows
        (fun c₁ c' h => .inr (.inr ⟨rfl, h⟩)) fun c₁ c' h => .inr (.inl ⟨rfl, h⟩)
    · exact ⟨_, rfl, fun c => .inl ⟨⟨.locked, rfl⟩, rfl⟩⟩
  | tryEntry key use =>
    refine waiting_served hL (fun e => ⟨_, rfl, fun c => .inl ⟨⟨e, rfl⟩, rfl⟩⟩) ?_
    exact fun c table entry _ hentry =>
      uses_within hL hentry fun c₁ b c' h => .inr ⟨b, rfl, h⟩
  | tryEntryGiveBack key use =>
    refine waiting_served hL (fun e => ⟨_, rfl, fun c => .inl ⟨⟨e, rfl⟩, rfl⟩⟩) ?_
    exact fun c table entry _ hentry =>
      uses_within hL hentry fun c₁ b c' h => .inr ⟨b, rfl, h⟩
  | tryEntryNonblock key use =>
    refine nonblock_served hL ?_ ?_ ?_
    · exact fun e => ⟨_, rfl, fun c => .inl ⟨⟨.reserve e, rfl⟩, rfl⟩⟩
    · exact fun c table entry _ hentry =>
        uses_within hL hentry fun c₁ b c' h => .inr ⟨b, rfl, h⟩
    · exact ⟨_, rfl, fun c => .inl ⟨⟨.locked, rfl⟩, rfl⟩⟩
  | tryEntryGiveBackNonblock key use =>
    refine nonblock_served hL ?_ ?_ ?_
    · exact fun e => ⟨_, rfl, fun c => .inl ⟨⟨.reserve e, rfl⟩, rfl⟩⟩
    · exact fun c table entry _ hentry =>
        uses_within hL hentry fun c₁ b c' h => .inr ⟨b, rfl, h⟩
    · exact ⟨_, rfl, fun c => .inl ⟨⟨.locked, rfl⟩, rfl⟩⟩
  | tryEntryRef clone key use => exact tryEntryRef_served hL clone key use

/-! ## Clients of the map -/

omit [EquivBEq K] in
theorem layout_lawful (hhash : ∀ a b : K, (a == b) = true → m.hashOne a = m.hashOne b) :
    m.layout.Lawful where
  hash := hhash
  shard := fun a b hab => congrArg m.determineShard (hhash a b hab)

/-- Clients of a `DashMap` that use the calls of this crate, however their steps interleave, are
clients of one map whose calls are one step each. -/
theorem dash_clients_see_one_map
    (hhash : ∀ a b : K, (a == b) = true → m.hashOne a = m.hashOne b)
    {clients : Nat → Option (Prog (Call K V ε B) Call.Res R)} {s : State (K × V) Unit}
    (hs : s.Unlocked) (hc : ∀ i, (s.table i).Shows m.hashOne (m.layout.Mine i) c)
    {es : List (Nat × Event (Act (K × V) Unit (Code K V ε)) (Act.Res (callerCode K V ε)) R)}
    {pool : Pool (State (K × V) Unit) (Act (K × V) Unit (Code K V ε))
      (Act.Res (callerCode K V ε)) R}
    (hrun : Transition.Run (Step (Sem (callerCode K V ε)) NoCalls)
      ⟨s, fun t => (clients t).map (·.expand m.method)⟩ es pool) :
    ∃ ces cpool, Transition.Run (Step (fun _ => Does) NoCalls) ⟨c, clients⟩ ces cpool ∧
      Traced es ces ∧
      (∀ i, pool.shared.writer i = none →
        (pool.shared.table i).Shows m.hashOne (m.layout.Mine i) cpool.shared) ∧
      ((∀ t, pool.prog t = none) → pool.shared.Unlocked ∧ ∀ t, cpool.prog t = none) :=
  one_map_of_clients (fun t call => method_served (layout_lawful hhash) t call) hs hc hrun

/-! ## Two clients of one shard -/

/-- A map of one shard, and two clients of which each stores a pair and replaces it under the same
guard, if it gets the guard. -/
def oneShard : DashMap Nat := ⟨UInt64.ofNat, fun _ => 0⟩

abbrev replacement (value : Nat) : Prog (Call Nat Nat Unit (Nat × Nat)) Call.Res
    (Except (Nat × NonblockError) (Nat × Nat)) :=
  .act (.tryEntryGiveBackNonblock 1 (.insertEntry ⟨id, fun _ => BEq.rfl⟩ 10
    (.replaceEntry value id))) .ret

def replacing : Nat → Option (Prog (Call Nat Nat Unit (Nat × Nat)) Call.Res
    (Except (Nat × NonblockError) (Nat × Nat)))
  | 0 => some (replacement 20)
  | 1 => some (replacement 30)
  | _ => none

open ConcurrentHashMap (freeTable freshState storedTable)

def guarded : State (Nat × Nat) Unit := freshState.setWriter 0 (some 0)

def replacedState (value : Nat) : State (Nat × Nat) Unit :=
  (guarded.setTable 0 (storedTable 1 value)).setWriter 0 none

theorem replacement_expand (value : Nat) : ∃ k,
    (replacement value).expand oneShard.method = (Prog.act (.tryWriteTable 0) .ret >>= k) ∧
    k false = .ret (.error (1, .locked)) ∧
    Prog.Exec (Sem (callerCode Nat Nat Unit) 0) guarded (k true) (.ok (1, 10))
      (replacedState value) := by
  refine ⟨_, rfl, rfl, ?_⟩
  refine .act (x := Except.ok ()) (t := guarded)
    ⟨_, .roomy (Nat.le_refl 1), State.setTable_self.symm⟩ ?_
  refine .act (x := (Except.error 0 : Except Nat Nat)) (t := guarded) ?_ ?_
  · refine ⟨_, rfl, ⟨?_, rfl⟩, State.setTable_self.symm⟩
    intro e he
    cases he
  refine .act (x := (0 : Nat)) (t := guarded.setTable 0 (storedTable 1 10))
    ⟨storedTable 1 10, ⟨rfl, rfl, .inr rfl⟩, rfl, rfl⟩ ?_
  refine .act (x := ((1, 10) : Nat × Nat)) (t := guarded.setTable 0 (storedTable 1 10))
    ⟨⟨1, rfl⟩, rfl⟩ ?_
  refine .act (x := ()) (t := guarded.setTable 0 (storedTable 1 value)) ?_ ?_
  · exact ⟨storedTable 1 value, ⟨⟨1, (1, 10), rfl, rfl⟩, rfl⟩, (State.setTable_setTable _).symm⟩
  exact .act (x := ()) rfl (.ret _ _)

/-- The second client is told that the shard is locked while the first one has the guard. -/
theorem dash_clients_see_one_map_between : ∃ (es : List (Nat × Event
    (Act (Nat × Nat) Unit (Code Nat Nat Unit)) (Act.Res (callerCode Nat Nat Unit))
    (Except (Nat × NonblockError) (Nat × Nat)))) (ces : _) (cpool : _),
    Transition.Run (Step (fun _ => Does) NoCalls) ⟨Contents.empty, replacing⟩ ces cpool ∧
      Traced es ces ∧ (storedTable 1 20).Shows oneShard.hashOne (oneShard.layout.Mine 0)
        cpool.shared := by
  obtain ⟨k, hexpand, -, hstore⟩ := replacement_expand 20
  obtain ⟨k', hexpand', hlocked, -⟩ := replacement_expand 30
  have hguard : Prog.Exec (Sem (callerCode Nat Nat Unit) 0) freshState
      (.act (.tryWriteTable 0) .ret) true guarded :=
    .act (x := true) (t := guarded) ⟨rfl, rfl⟩ (.ret _ _)
  have hrefused : Prog.Exec (Sem (callerCode Nat Nat Unit) 1) guarded
      ((replacement 30).expand oneShard.method) (.error (1, .locked)) guarded := by
    rw [hexpand', Prog.exec_bind]
    refine ⟨false, guarded, .act (x := false) (t := guarded) ⟨rfl, rfl⟩ (.ret _ _), ?_⟩
    rw [hlocked]
    exact .ret _ _
  obtain ⟨es, hrun⟩ : ∃ es, Transition.Run (Step (Sem (callerCode Nat Nat Unit)) NoCalls)
      ⟨freshState, fun t => (replacing t).map (·.expand oneShard.method)⟩ es _ :=
    run_between hguard hrefused hstore Nat.zero_ne_one (congrArg some hexpand) rfl
  obtain ⟨ces, cpool, hces, htraced, hshows, -⟩ := dash_clients_see_one_map (m := oneShard)
    (c := Contents.empty) (by simp) ⟨fun _ => rfl, fun _ => rfl⟩
    (fun i => Table.shows_nothing rfl fun _ _ => rfl) hrun
  exact ⟨es, ces, cpool, hces, htraced, hshows 0 rfl⟩

end Rustyfill.DashMap
