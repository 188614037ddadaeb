import Rustyfill.Lib.HashTable

/-!
# Hash tables as partial functions

What a table of keys and values stands for: the pair it stores for each key of its part of the
key space. Two keys are one key when `==` says so; a table keeps the pair that was stored, whose
key is then equal to the key that is asked for. Each operation of a table changes what it stands
for at one key, or nowhere.
-/

namespace RawHash

set_option autoImplicit false

universe u

variable {K : Type u} {V : Type u}

/-- The pair that is stored for a key. -/
abbrev Contents (K V : Type u) := K → Option (K × V)

namespace Contents

def empty : Contents K V := fun _ => none

def put [BEq K] (m : Contents K V) (k : K) (r : Option (K × V)) : Contents K V :=
  fun k' => if k' == k then r else m k'

variable [BEq K] [EquivBEq K] {m : Contents K V} {k k' : K} {r r' : Option (K × V)}

omit [EquivBEq K] in
theorem put_of_beq (h : (k' == k) = true) : m.put k r k' = r := if_pos h

omit [EquivBEq K] in
theorem put_of_not_beq (h : (k' == k) = false) : m.put k r k' = m k' := by
  simp only [put, h, Bool.false_eq_true, if_false]

@[simp] theorem put_self : m.put k r k = r := put_of_beq BEq.rfl

omit [EquivBEq K] in
@[simp] theorem put_put : (m.put k r).put k r' = m.put k r' := by
  funext k'
  by_cases h : (k' == k) = true
  · rw [put_of_beq h, put_of_beq h]
  · rw [Bool.not_eq_true] at h
    rw [put_of_not_beq h, put_of_not_beq h, put_of_not_beq h]

end Contents

/-! ## Lists of entries -/

/-- The entries are what `m` stores for the keys of the part `S`, each under its hash. -/
structure Lists [BEq K] (hashOne : K → UInt64) (S : K → Prop) (l : List (UInt64 × K × V))
    (m : Contents K V) : Prop where
  placed : ∀ e ∈ l, e.1 = hashOne e.2.1
  distinct : l.Pairwise fun a b => (a.2.1 == b.2.1) = false
  mine : ∀ e ∈ l, S e.2.1
  finds : ∀ k, S k → ∀ kv, m k = some kv ↔ (hashOne kv.1, kv) ∈ l ∧ (kv.1 == k) = true

namespace Lists

variable [BEq K] [EquivBEq K] {hashOne : K → UInt64} {S : K → Prop}
  {l l' : List (UInt64 × K × V)} {m m' : Contents K V} {k k' : K} {kv : K × V} {hash : UInt64}

theorem perm (h : Lists hashOne S l m) (hperm : l'.Perm l) : Lists hashOne S l' m where
  placed := fun e he => h.placed e (hperm.mem_iff.mp he)
  distinct := hperm.symm.pairwise h.distinct fun hab => by rwa [BEq.comm]
  mine := fun e he => h.mine e (hperm.mem_iff.mp he)
  finds := fun k hk kv => by rw [h.finds k hk kv, hperm.mem_iff]

omit [EquivBEq K] in
theorem congr (h : Lists hashOne S l m) (hm : ∀ k, S k → m' k = m k) : Lists hashOne S l m' where
  placed := h.placed
  distinct := h.distinct
  mine := h.mine
  finds := fun k hk kv => by rw [hm k hk, h.finds k hk kv]

omit [EquivBEq K] in
theorem mem (h : Lists hashOne S l m) {e : UInt64 × K × V} (he : e ∈ l)
    (hk : (e.2.1 == k) = true) (hS : S k) : m k = some e.2 := by
  refine (h.finds k hS e.2).mpr ⟨?_, hk⟩
  rw [← h.placed e he]
  exact he

omit [EquivBEq K] in
theorem unique (h : Lists hashOne S l m) (h' : Lists hashOne S l m') (hS : S k) : m k = m' k := by
  apply Option.ext
  intro kv
  rw [h.finds k hS kv, h'.finds k hS kv]

theorem cons_iff (hk : (kv.1 == k) = true) (hS : S k) :
    Lists hashOne S ((hash, kv) :: l) (m.put k (some kv)) ↔
      hash = hashOne kv.1 ∧ S kv.1 ∧ Lists hashOne S l (m.put k none) := by
  constructor
  · intro h
    obtain ⟨hhead, hrest⟩ := List.pairwise_cons.mp h.distinct
    refine ⟨h.placed _ List.mem_cons_self, h.mine _ List.mem_cons_self, ?_⟩
    refine ⟨fun e he => h.placed e (List.mem_cons_of_mem _ he), hrest,
      fun e he => h.mine e (List.mem_cons_of_mem _ he), fun k' hk' kv' => ?_⟩
    have hfinds := h.finds k' hk' kv'
    by_cases heq : (k' == k) = true
    · rw [Contents.put_of_beq heq]
      constructor
      · intro hnone
        cases hnone
      · rintro ⟨hmem, hkv'⟩
        have hdiff := hhead _ hmem
        rw [BEq.trans hk (BEq.symm (BEq.trans hkv' heq))] at hdiff
        cases hdiff
    · rw [Bool.not_eq_true] at heq
      rw [Contents.put_of_not_beq heq]
      rw [Contents.put_of_not_beq heq] at hfinds
      rw [hfinds, List.mem_cons]
      constructor
      · rintro ⟨hkv | hmem, hkv'⟩
        · obtain rfl : kv' = kv := congrArg Prod.snd hkv
          rw [BEq.trans (BEq.symm hkv') hk] at heq
          cases heq
        · exact ⟨hmem, hkv'⟩
      · rintro ⟨hmem, hkv'⟩
        exact ⟨.inr hmem, hkv'⟩
  · rintro ⟨rfl, hmine, h⟩
    have hother : ∀ e ∈ l, (e.2.1 == k) = false := by
      intro e he
      rw [← Bool.not_eq_true]
      intro hek
      have hget := h.mem he hek hS
      rw [Contents.put_self] at hget
      cases hget
    refine ⟨?_, ?_, ?_, fun k' hk' kv' => ?_⟩
    · rintro e he
      rcases List.mem_cons.mp he with rfl | he
      · rfl
      · exact h.placed e he
    · refine List.pairwise_cons.mpr ⟨fun e he => ?_, h.distinct⟩
      rw [BEq.congr_left hk, BEq.comm]
      exact hother e he
    · rintro e he
      rcases List.mem_cons.mp he with rfl | he
      · exact hmine
      · exact h.mine e he
    · have hfinds := h.finds k' hk' kv'
      rw [List.mem_cons]
      by_cases heq : (k' == k) = true
      · rw [Contents.put_of_beq heq]
        constructor
        · rintro hkv
          obtain rfl := Option.some.inj hkv
          exact ⟨.inl rfl, BEq.trans hk (BEq.symm heq)⟩
        · rintro ⟨hkv | hmem, hkv'⟩
          · exact congrArg (fun e : UInt64 × K × V => some e.2) hkv.symm
          · have hdiff := hother _ hmem
            rw [BEq.trans hkv' heq] at hdiff
            cases hdiff
      · rw [Bool.not_eq_true] at heq
        rw [Contents.put_of_not_beq heq]
        rw [Contents.put_of_not_beq heq] at hfinds
        rw [hfinds]
        constructor
        · rintro ⟨hmem, hkv'⟩
          exact ⟨.inr hmem, hkv'⟩
        · rintro ⟨hkv | hmem, hkv'⟩
          · obtain rfl : kv' = kv := congrArg Prod.snd hkv
            rw [BEq.trans (BEq.symm hkv') hk] at heq
            cases heq
          · exact ⟨hmem, hkv'⟩

theorem get_congr (h : Lists hashOne S l m) (hS : S k) (hS' : S k') (hk : (k' == k) = true) :
    m k' = m k := by
  apply Option.ext
  intro kv
  have hiff : (kv.1 == k') = true ↔ (kv.1 == k) = true :=
    ⟨fun heq => BEq.trans heq hk, fun heq => BEq.trans heq (BEq.symm hk)⟩
  rw [h.finds k' hS' kv, h.finds k hS kv, hiff]

theorem put_get (h : Lists hashOne S l m) (hS : S k) : Lists hashOne S l (m.put k (m k)) := by
  refine h.congr fun k' hS' => ?_
  by_cases hk : (k' == k) = true
  · rw [Contents.put_of_beq hk, h.get_congr hS hS' hk]
  · rw [Bool.not_eq_true] at hk
    exact Contents.put_of_not_beq hk

end Lists

/-! ## Tables -/

namespace Table

variable [BEq K] {hashOne : K → UInt64} {S : K → Prop} {t t' : Table (K × V)}
  {m m' : Contents K V} {k : K} {kv kv' : K × V} {b slot : Nat} {hash : UInt64} {v : V}

/-- The table stores what `m` gives for the keys of `S`. -/
abbrev Shows (hashOne : K → UInt64) (S : K → Prop) (t : Table (K × V)) (m : Contents K V) : Prop :=
  Lists hashOne S t.entries m

/-- The pair for `k` lies in bucket `b`, and `m` is right about all other keys. -/
structure Located (hashOne : K → UInt64) (S : K → Prop) (t : Table (K × V)) (m : Contents K V)
    (k : K) (b : Nat) (kv : K × V) : Prop where
  shows : t.Shows hashOne S (m.put k (some kv))
  bucket : ∃ hash, t.buckets[b]? = some (some (hash, kv))
  key : (kv.1 == k) = true
  mine : S k

/-- Nothing is stored for `k`, and the bucket `slot` is vacant. -/
structure Missing (hashOne : K → UInt64) (S : K → Prop) (t : Table (K × V)) (m : Contents K V)
    (k : K) (slot : Nat) : Prop where
  shows : t.Shows hashOne S (m.put k none)
  slot : t.buckets[slot]? = some none
  mine : S k

theorem shows_nothing (ht : t.entries = []) (hm : ∀ k, S k → m k = none) : t.Shows hashOne S m := by
  rw [Shows, ht]
  constructor
  · intro e he
    cases he
  · exact .nil
  · intro e he
    cases he
  · intro k hk kv
    simp [hm k hk]

variable [EquivBEq K]

theorem Shows.rehashed (h : t.Shows hashOne S m) (hre : Rehashed (fun kv => hashOne kv.1) t t') :
    t'.Shows hashOne S m := by
  refine h.perm (hre.trans (List.Perm.of_eq ?_))
  rw [List.map_congr_left (g := id), List.map_id]
  intro e he
  exact Prod.ext (h.placed e he).symm rfl

theorem Shows.tryReserve (h : t.Shows hashOne S m) {n : Nat} {ok : Bool}
    (hres : TryReserve (fun kv => hashOne kv.1) n t ok t') : t'.Shows hashOne S m := by
  cases hres with
  | roomy => exact h
  | grown _ hre _ => exact h.rehashed hre
  | refused => exact h

theorem Shows.reserved (h : t.Shows hashOne S m)
    (hres : Reserved (fun kv => hashOne kv.1) t t') : t'.Shows hashOne S m := by
  rw [Reserved] at hres
  split at hres
  · rwa [hres]
  · exact h.rehashed hres.1

theorem Shows.found (h : t.Shows hashOne S m) (hS : S k)
    (hfound : ∃ e, t.buckets[b]? = some (some e) ∧ (e.2.1 == k) = true) :
    ∃ kv, m k = some kv ∧ t.Located hashOne S m k b kv := by
  obtain ⟨e, hget, hk⟩ := hfound
  have hm := h.mem (getElem?_mem_entries hget) hk hS
  refine ⟨e.2, hm, ?_, ⟨e.1, hget⟩, hk, hS⟩
  rw [← hm]
  exact h.put_get hS

omit [EquivBEq K] in
theorem Shows.not_found (h : t.Shows hashOne S m) (hS : S k)
    (hhash : ∀ a b : K, (a == b) = true → hashOne a = hashOne b)
    (hfound : t.Found (hashOne k) (fun kv => kv.1 == k) none) : m k = none := by
  rw [Option.eq_none_iff_forall_ne_some]
  intro kv hkv
  obtain ⟨hmem, hk⟩ := (h.finds k hS kv).mp hkv
  have hmiss : (kv.1 == k) = false := hfound _ hmem (hhash _ _ hk)
  rw [hk] at hmiss
  cases hmiss

theorem Shows.missing (h : t.Shows hashOne S m) (hS : S k) (hm : m k = none)
    (hslot : t.buckets[slot]? = some none) : t.Missing hashOne S m k slot := by
  refine ⟨?_, hslot, hS⟩
  rw [← hm]
  exact h.put_get hS

omit [EquivBEq K] in
theorem Located.read (h : t.Located hashOne S m k b kv)
    (hget : t.buckets[b]? = some (some (hash, kv'))) : kv' = kv := by
  obtain ⟨hash', hold⟩ := h.bucket
  rw [hold] at hget
  exact congrArg Prod.snd (Option.some.inj (Option.some.inj hget)).symm

/-- The new pair may have another key, as long as it is the same to the map. -/
theorem Located.overwritten (h : t.Located hashOne S m k b kv) (hkey : (kv'.1 == k) = true)
    (hhash : hashOne kv'.1 = hashOne kv.1) (hmine : S kv'.1) (hrep : t.Replaced b kv' t') :
    t'.Located hashOne S m k b kv' := by
  obtain ⟨hash, old, rest, hget, hbefore, hafter⟩ := hrep.entries_perm
  obtain rfl := h.read hget
  obtain ⟨hstored, -, hrest⟩ := (Lists.cons_iff h.key h.mine).mp (h.shows.perm hbefore.symm)
  refine ⟨?_, ?_, hkey, h.mine⟩
  · exact ((Lists.cons_iff hkey h.mine).mpr ⟨hstored.trans hhash.symm, hmine, hrest⟩).perm hafter
  · obtain ⟨hash', old', hget', hset⟩ := hrep.buckets
    refine ⟨hash', ?_⟩
    rw [hset, List.getElem?_set_self (List.getElem?_eq_some_iff.mp hget').1]

theorem Located.stored (h : t.Located hashOne S m k b kv) : S kv.1 := by
  have hfinds := (h.shows.finds k h.mine kv).mp Contents.put_self
  exact h.shows.mine _ hfinds.1

theorem Located.replaced (h : t.Located hashOne S m k b kv) (hrep : t.Replaced b (kv.1, v) t') :
    t'.Located hashOne S m k b (kv.1, v) :=
  h.overwritten h.key rfl h.stored hrep

theorem Located.removed (h : t.Located hashOne S m k b kv) (hrem : t.Removed b kv' t') :
    kv' = kv ∧ t'.Shows hashOne S (m.put k none) := by
  obtain ⟨hash, hget⟩ := hrem.occupied
  obtain rfl := h.read hget
  obtain ⟨hash', hperm⟩ := hrem.entries_perm
  obtain ⟨-, -, hrest⟩ := (Lists.cons_iff h.key h.mine).mp (h.shows.perm hperm.symm)
  exact ⟨rfl, hrest⟩

/-- The pair may have another key, as long as it is the same to the map. -/
theorem Missing.placed_as (h : t.Missing hashOne S m k slot) (hkey : (kv.1 == k) = true)
    (hhash : hash = hashOne kv.1) (hmine : S kv.1) (hplaced : t.Placed slot hash kv t') :
    t'.Located hashOne S m k slot kv := by
  refine ⟨?_, ⟨hash, ?_⟩, hkey, h.mine⟩
  · exact ((Lists.cons_iff hkey h.mine).mpr ⟨hhash, hmine, h.shows⟩).perm hplaced.entries_perm
  · rw [hplaced.buckets, List.getElem?_set_self (List.getElem?_eq_some_iff.mp hplaced.vacant).1]

theorem Missing.placed (h : t.Missing hashOne S m k slot)
    (hplaced : t.Placed slot (hashOne k) (k, v) t') : t'.Located hashOne S m k slot (k, v) :=
  h.placed_as BEq.rfl rfl h.mine hplaced

end Table

end RawHash
