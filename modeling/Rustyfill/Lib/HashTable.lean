import Mathlib.Data.List.Pairwise
import Mathlib.Data.List.Perm.Basic
import Rustyfill.Lib.Lists

/-!
# Open-addressing hash tables, by what they promise

A table is a row of buckets, some of them vacant, and the number of insertions it takes
before it has to grow. Which bucket an element lands in, which buckets a probe passes and
how far a table grows are left open: the relations below allow every table that keeps the
promises of the interface. A lookup under a hash sees each element placed under that hash
(and may see others), and growing places each element anew under what the rehash closure
computes for it.
-/

namespace RawHash

set_option autoImplicit false

universe u

variable {T : Type u}

structure Table (T : Type u) where
  buckets : List (Option (UInt64 × T))
  free : Nat
  room : free ≤ buckets.countP Option.isNone

namespace Table

/-- The elements with the hashes they were placed under. -/
def entries (t : Table T) : List (UInt64 × T) := t.buckets.filterMap id

def elems (t : Table T) : List T := t.entries.map Prod.snd

/-- The full buckets, in the order in which an iterator passes them. -/
def full (t : Table T) : List (Nat × T) :=
  t.buckets.zipIdx.filterMap fun (b, i) => b.map fun e => (i, e.2)

/-- The indices of the full buckets. -/
def places (t : Table T) : List Nat := t.full.map Prod.fst

/-- What growing, or clearing out tombstones, does to the elements. -/
def Rehashed (rehash : T → UInt64) (t t' : Table T) : Prop :=
  t'.entries.Perm (t.entries.map fun e => (rehash e.2, e.2))

instance [DecidableEq T] (rehash : T → UInt64) (t t' : Table T) :
    Decidable (Rehashed rehash t t') :=
  inferInstanceAs (Decidable (List.Perm ..))

/-- `try_reserve`: nothing to do when there is room, otherwise growth or refusal. -/
inductive TryReserve (rehash : T → UInt64) (n : Nat) (t : Table T) : Bool → Table T → Prop where
  | roomy : n ≤ t.free → TryReserve rehash n t true t
  | grown {t' : Table T} : t.free < n → Rehashed rehash t t' → n ≤ t'.free →
      TryReserve rehash n t true t'
  | refused : t.free < n → TryReserve rehash n t false t

/-- What a lookup answers: a bucket, or that no element placed under the hash qualifies. -/
def Found (t : Table T) (hash : UInt64) (eq : T → Bool) : Option Nat → Prop
  | some i => ∃ e, t.buckets[i]? = some (some e) ∧ eq e.2
  | none => ∀ e ∈ t.entries, e.1 = hash → eq e.2 = false

instance (t : Table T) (hash : UInt64) (eq : T → Bool) : Decidable (t.Found hash eq none) :=
  inferInstanceAs (Decidable (∀ e ∈ t.entries, e.1 = hash → eq e.2 = false))

/-- What an infallible reservation of one bucket does: it grows exactly when none is left. -/
def Reserved (rehash : T → UInt64) (t t' : Table T) : Prop :=
  if 0 < t.free then t' = t else Rehashed rehash t t' ∧ 0 < t'.free

/-- A lookup that answers a vacant bucket when it finds nothing. -/
def FoundOrSlot (t : Table T) (hash : UInt64) (eq : T → Bool) : Except Nat Nat → Prop
  | .ok i => t.Found hash eq (some i)
  | .error slot => t.Found hash eq none ∧ t.buckets[slot]? = some none

/-- An element is stored in a vacant bucket. A tombstone does not count against `free`. -/
structure Placed (t : Table T) (slot : Nat) (hash : UInt64) (x : T) (t' : Table T) : Prop where
  vacant : t.buckets[slot]? = some none
  buckets : t'.buckets = t.buckets.set slot (some (hash, x))
  free : t'.free = t.free ∨ t'.free + 1 = t.free

structure Removed (t : Table T) (i : Nat) (x : T) (t' : Table T) : Prop where
  occupied : ∃ hash, t.buckets[i]? = some (some (hash, x))
  buckets : t'.buckets = t.buckets.set i none
  free : t'.free = t.free ∨ t'.free = t.free + 1

/-- An element is overwritten in place. -/
structure Replaced (t : Table T) (i : Nat) (x : T) (t' : Table T) : Prop where
  buckets : ∃ hash old, t.buckets[i]? = some (some (hash, old)) ∧
    t'.buckets = t.buckets.set i (some (hash, x))
  free : t'.free = t.free

/-! ## The elements after each operation -/

variable {t t' : Table T} {rehash : T → UInt64} {n i slot : Nat} {hash : UInt64} {x : T}
  {e : UInt64 × T} {eq : T → Bool}

theorem mem_entries : e ∈ t.entries ↔ ∃ i : Nat, t.buckets[i]? = some (some e) := by
  rw [entries, List.mem_filterMap]
  simp only [id, exists_eq_right, List.mem_iff_getElem?]

theorem getElem?_mem_entries (h : t.buckets[i]? = some (some e)) : e ∈ t.entries :=
  mem_entries.mpr ⟨i, h⟩

theorem Rehashed.mem_entries (h : Rehashed rehash t t') :
    e ∈ t'.entries ↔ ∃ old, (old, e.2) ∈ t.entries ∧ e.1 = rehash e.2 := by
  rw [h.mem_iff, List.mem_map]
  constructor
  · rintro ⟨⟨old, x⟩, hmem, rfl⟩
    exact ⟨old, hmem, rfl⟩
  · rintro ⟨old, hmem, hhash⟩
    exact ⟨(old, e.2), hmem, Prod.ext hhash.symm rfl⟩

theorem Rehashed.elems_perm (h : Rehashed rehash t t') : t'.elems.Perm t.elems := by
  have hmap := h.map Prod.snd
  simpa only [List.map_map, Function.comp_def, elems] using hmap

theorem TryReserve.elems_perm {ok : Bool} (h : TryReserve rehash n t ok t') :
    t'.elems.Perm t.elems := by
  cases h with
  | roomy => rfl
  | grown _ hre _ => exact hre.elems_perm
  | refused => rfl

theorem TryReserve.free_le (h : TryReserve rehash n t true t') : n ≤ t'.free := by
  cases h with
  | roomy hroom => exact hroom
  | grown _ _ hfree => exact hfree

theorem Reserved.eq_of_free (h : Reserved rehash t t') (hfree : 0 < t.free) : t' = t := by
  simpa only [Reserved, if_pos hfree] using h

theorem Placed.entries_perm (h : Placed t slot hash x t') :
    t'.entries.Perm ((hash, x) :: t.entries) := by
  obtain ⟨rest, hold, hnew⟩ := ListUpdate.filterMap_id_set (some (hash, x)) h.vacant
  rw [entries, h.buckets]
  exact hnew.trans (hold.symm.cons (hash, x))

theorem Placed.elems_perm (h : Placed t slot hash x t') : t'.elems.Perm (x :: t.elems) :=
  h.entries_perm.map Prod.snd

theorem Removed.entries_perm (h : Removed t i x t') :
    ∃ hash, t.entries.Perm ((hash, x) :: t'.entries) := by
  obtain ⟨hash, hocc⟩ := h.occupied
  obtain ⟨rest, hold, hnew⟩ := ListUpdate.filterMap_id_set none hocc
  refine ⟨hash, hold.trans (List.Perm.cons _ ?_)⟩
  rw [entries, h.buckets]
  exact hnew.symm

theorem Removed.elems_perm (h : Removed t i x t') : t.elems.Perm (x :: t'.elems) := by
  obtain ⟨hash, hperm⟩ := h.entries_perm
  exact hperm.map Prod.snd

theorem Replaced.entries_perm (h : Replaced t i x t') :
    ∃ hash old rest, t.buckets[i]? = some (some (hash, old)) ∧
      t.entries.Perm ((hash, old) :: rest) ∧ t'.entries.Perm ((hash, x) :: rest) := by
  obtain ⟨hash, old, hocc, hset⟩ := h.buckets
  obtain ⟨rest, hold, hnew⟩ := ListUpdate.filterMap_id_set (some (hash, x)) hocc
  refine ⟨hash, old, rest, hocc, hold, ?_⟩
  rw [entries, hset]
  exact hnew

theorem full_map_snd (t : Table T) : t.full.map Prod.snd = t.elems := by
  have key : ∀ (l : List (Option (UInt64 × T))) (k : Nat),
      ((l.zipIdx k).filterMap fun (b, i) => b.map fun e => (i, e.2)).map Prod.snd =
        (l.filterMap id).map Prod.snd := by
    intro l
    induction l with
    | nil => intro k; rfl
    | cons b l ih =>
      intro k
      cases b with
      | none => simpa using ih (k + 1)
      | some e => simpa using ih (k + 1)
  exact key t.buckets 0

theorem mem_full {b : Nat × T} :
    b ∈ t.full ↔ ∃ hash, t.buckets[b.1]? = some (some (hash, b.2)) := by
  simp only [full, List.mem_filterMap, Option.map_eq_some_iff]
  constructor
  · rintro ⟨⟨entry, i⟩, hmem, e, rfl, rfl⟩
    exact ⟨e.1, List.mem_zipIdx_iff_getElem?.mp hmem⟩
  · rintro ⟨hash, hget⟩
    exact ⟨(some (hash, b.2), b.1), List.mem_zipIdx_iff_getElem?.mpr hget, (hash, b.2), rfl, rfl⟩

theorem full_nodup (t : Table T) : (t.full.map Prod.fst).Nodup := by
  have key : ∀ (l : List (Option (UInt64 × T))) (k : Nat),
      ((l.zipIdx k).filterMap fun (b, i) => b.map fun e => (i, e.2)).map Prod.fst
        |>.Sublist ((l.zipIdx k).map Prod.snd) := by
    intro l
    induction l with
    | nil => intro k; simp
    | cons b l ih =>
      intro k
      cases b with
      | none => exact (ih (k + 1)).cons _
      | some e => exact (ih (k + 1)).cons_cons _
  refine (key t.buckets 0).nodup ?_
  rw [List.zipIdx_map_snd]
  exact List.nodup_range' ..

theorem mem_places : i ∈ t.places ↔ ∃ e, t.buckets[i]? = some (some e) := by
  rw [places, List.mem_map]
  constructor
  · rintro ⟨b, hb, rfl⟩
    obtain ⟨hash, hget⟩ := mem_full.mp hb
    exact ⟨(hash, b.2), hget⟩
  · rintro ⟨e, hget⟩
    exact ⟨(i, e.2), mem_full.mpr ⟨e.1, hget⟩, rfl⟩

theorem places_nodup (t : Table T) : t.places.Nodup := t.full_nodup

theorem places_eq_nil : t.places = [] ↔ t.elems.isEmpty = true := by
  rw [places, List.map_eq_nil_iff, ← full_map_snd, List.isEmpty_iff, List.map_eq_nil_iff]

theorem places_congr (h : t'.buckets.map Option.isSome = t.buckets.map Option.isSome) :
    t'.places = t.places := by
  have key : ∀ (l : List (Option (UInt64 × T))) (k : Nat),
      ((l.zipIdx k).filterMap fun (b, i) => b.map fun e => (i, e.2)).map Prod.fst =
        ((l.map Option.isSome).zipIdx k).filterMap fun (b, i) => if b then some i else none := by
    intro l
    induction l with
    | nil => intro k; rfl
    | cons b l ih =>
      intro k
      cases b with
      | none => simpa using ih (k + 1)
      | some e => simpa using ih (k + 1)
  rw [places, places, full, full, key t'.buckets 0, key t.buckets 0, h]

theorem Replaced.places_eq (h : Replaced t i x t') : t'.places = t.places := by
  obtain ⟨hash, old, hget, hset⟩ := h.buckets
  have hsome : (t.buckets.map Option.isSome)[i]? = some true := by
    rw [List.getElem?_map, hget]
    rfl
  obtain ⟨hlt, hval⟩ := List.getElem?_eq_some_iff.mp hsome
  apply places_congr
  rw [hset, List.map_set]
  exact (congrArg _ hval.symm).trans (List.set_getElem_self hlt)

/-! ## What is always possible -/

/-- `RawTable::new`: no bucket yet. -/
def new : Table T := ⟨[], 0, Nat.le_refl 0⟩

def len (t : Table T) : Nat := t.elems.length

def capacity (t : Table T) : Nat := t.len + t.free

def get (t : Table T) (bucket : Nat) : Option T := t.buckets[bucket]?.join.map Prod.snd

theorem get_of_getElem? (h : t.buckets[i]? = some (some e)) : t.get i = some e.2 := by
  rw [get, h]
  rfl

theorem length_full (t : Table T) : t.full.length = t.len := by
  rw [len, ← full_map_snd, List.length_map]

theorem exists_vacant (h : 0 < t.free) : ∃ slot : Nat, t.buckets[slot]? = some none := by
  obtain ⟨b, hmem, hnone⟩ := List.countP_pos_iff.mp (Nat.lt_of_lt_of_le h t.room)
  obtain rfl := Option.isNone_iff_eq_none.mp hnone
  exact List.mem_iff_getElem?.mp hmem

theorem exists_placed (hslot : t.buckets[slot]? = some none) (h : 0 < t.free) (hash : UInt64)
    (x : T) : ∃ t', t.Placed slot hash x t' := by
  have hcount := ListUpdate.countP_set_getElem? Option.isNone (some (hash, x)) hslot
  have hroom := t.room
  refine ⟨⟨t.buckets.set slot (some (hash, x)), t.free - 1, ?_⟩, hslot, rfl, ?_⟩
  · simp only [Option.isNone_none, Option.isNone_some, if_true, Bool.false_eq_true, if_false]
      at hcount
    omega
  · right
    exact Nat.sub_add_cancel h

theorem exists_foundOrSlot (h : 0 < t.free) (hash : UInt64) (eq : T → Bool) :
    ∃ r, t.FoundOrSlot hash eq r := by
  by_cases hfound : ∃ i, t.Found hash eq (some i)
  · obtain ⟨i, hi⟩ := hfound
    exact ⟨.ok i, hi⟩
  · obtain ⟨slot, hslot⟩ := exists_vacant h
    refine ⟨.error slot, fun e he _ => ?_, hslot⟩
    obtain ⟨i, hi⟩ := mem_entries.mp he
    rw [← Bool.not_eq_true]
    intro heq
    exact hfound ⟨i, e, hi, heq⟩

theorem Placed.le_free (h : t.Placed slot hash x t') : t.free ≤ t'.free + 1 := by
  have hfree := h.free
  omega

theorem TryReserve.entries_new {ok : Bool} (h : TryReserve rehash n new ok t) : t.entries = [] := by
  cases h with
  | roomy => rfl
  | grown _ hre _ => exact List.perm_nil.mp hre
  | refused => rfl

/-! ## Tables of keys and values -/

section Keyed
variable {K : Type u} {V : Type u} [BEq K] {hashOne : K → UInt64} {t t' : Table (K × V)} {k : K}
  {kv : K × V} {r : Option (K × V)}

/-- Each pair lies under the hash of its key, and no two keys are equal. -/
structure Keyed (hashOne : K → UInt64) (t : Table (K × V)) : Prop where
  placed : ∀ e ∈ t.entries, e.1 = hashOne e.2.1
  distinct : t.elems.Pairwise fun a b => (a.1 == b.1) = false

/-- A lookup of a key may answer `r`. -/
def Gets (hashOne : K → UInt64) (t : Table (K × V)) (k : K) (r : Option (K × V)) : Prop :=
  ∃ found, t.Found (hashOne k) (fun kv => kv.1 == k) found ∧ r = found.bind t.get

omit [BEq K] in
theorem mem_elems_of_getElem? {e : UInt64 × K × V} (h : t.buckets[i]? = some (some e)) :
    e.2 ∈ t.elems :=
  List.mem_map.mpr ⟨e, getElem?_mem_entries h, rfl⟩

instance [EquivBEq K] : Std.Symm fun a b : K × V => (a.1 == b.1) = false :=
  ⟨fun _ _ h => by rw [BEq.comm]; exact h⟩

/-- Two pairs of which the keys are equal to the same key are one pair. -/
theorem Keyed.eq_of_beq [EquivBEq K] (h : t.Keyed hashOne) {kv' : K × V} (hmem : kv ∈ t.elems)
    (hmem' : kv' ∈ t.elems) (hk : (kv.1 == k) = true) (hk' : (kv'.1 == k) = true) : kv = kv' := by
  by_contra hne
  have hpair := h.distinct.forall hmem hmem' hne
  rw [BEq.trans hk (BEq.symm hk')] at hpair
  cases hpair

/-- A key in the table is found, with its value and whatever the probe passes before. -/
theorem Keyed.gets_of_mem [EquivBEq K] (h : t.Keyed hashOne)
    (hhash : ∀ a b : K, (a == b) = true → hashOne a = hashOne b) (hmem : kv ∈ t.elems)
    (hk : (kv.1 == k) = true) : t.Gets hashOne k r ↔ r = some kv := by
  obtain ⟨e, he, rfl⟩ := List.mem_map.mp hmem
  constructor
  · rintro ⟨found, hfound, rfl⟩
    cases found with
    | none =>
      have hmiss : (e.2.1 == k) = false := hfound e he ((h.placed e he).trans (hhash _ _ hk))
      rw [hk] at hmiss
      cases hmiss
    | some i =>
      obtain ⟨e', hget, hk'⟩ := hfound
      rw [Option.bind_some, get_of_getElem? hget]
      exact congrArg some (h.eq_of_beq (mem_elems_of_getElem? hget) hmem hk' hk)
  · rintro rfl
    obtain ⟨i, hget⟩ := mem_entries.mp he
    exact ⟨some i, ⟨e, hget, hk⟩, (get_of_getElem? hget).symm⟩

theorem gets_of_not_mem (h : ∀ kv ∈ t.elems, (kv.1 == k) = false) :
    t.Gets hashOne k r ↔ r = none := by
  constructor
  · rintro ⟨found, hfound, rfl⟩
    cases found with
    | none => rfl
    | some i =>
      obtain ⟨e, hget, hk⟩ := hfound
      have hmiss := h e.2 (mem_elems_of_getElem? hget)
      exact absurd hk (by simp [hmiss])
  · rintro rfl
    exact ⟨none, fun e he _ => h e.2 (List.mem_map.mpr ⟨e, he, rfl⟩), rfl⟩

theorem Keyed.gets_congr [EquivBEq K] (h : t.Keyed hashOne) (h' : t'.Keyed hashOne)
    (hhash : ∀ a b : K, (a == b) = true → hashOne a = hashOne b) (hperm : t'.elems.Perm t.elems) :
    t'.Gets hashOne k r ↔ t.Gets hashOne k r := by
  by_cases hmem : ∃ kv ∈ t.elems, (kv.1 == k) = true
  · obtain ⟨kv, hkv, hk⟩ := hmem
    rw [h.gets_of_mem hhash hkv hk, h'.gets_of_mem hhash (hperm.mem_iff.mpr hkv) hk]
  · have hnone : ∀ kv ∈ t.elems, (kv.1 == k) = false := by
      intro kv hkv
      rw [← Bool.not_eq_true]
      exact fun hk => hmem ⟨kv, hkv, hk⟩
    rw [gets_of_not_mem hnone, gets_of_not_mem fun kv hkv => hnone kv (hperm.mem_iff.mp hkv)]

/-- A table into which the pairs of another one were placed anew. -/
theorem Keyed.of_perm [EquivBEq K] (h : t.Keyed hashOne)
    (hperm : t'.entries.Perm (t.elems.map fun kv => (hashOne kv.1, kv))) : t'.Keyed hashOne := by
  have helems : t'.elems.Perm t.elems := by
    have hmap := hperm.map Prod.snd
    simpa only [List.map_map, Function.comp_def, List.map_id', elems] using hmap
  constructor
  · intro e he
    obtain ⟨kv, -, rfl⟩ := List.mem_map.mp (hperm.mem_iff.mp he)
    rfl
  · exact helems.symm.pairwise h.distinct fun hab => by rwa [BEq.comm]

end Keyed

end Table

end RawHash
