import Rustyfill.Maps.Iter

/-!
# What the iterators of `ConcurrentHashMap` yield and lose

A call of `next` that stalls loses nothing. What an iterator has still to yield is therefore a
list of which every call takes a part off the front: the item it answers with, or what it says it
discards. Two calls take a part silently: `unstall` between two shards, and a call of `next` that
meets a failure in auto-unstall mode.
-/

namespace Rustyfill.ConcurrentHashMap

open RawHash Transition

set_option autoImplicit false

variable {K V R : Type} {m : ConcurrentHashMap K} {tables : Nat → Table (K × V)} {it it' : Iter}
  {li li' : LockedIter} {a a' : Allocator} {i : Nat}

/-! ## The entries -/

theorem entriesFrom_of_le (h : m.shardCount ≤ i) : m.entriesFrom tables i = [] := by
  rw [entriesFrom, Nat.sub_eq_zero_of_le h]
  rfl

theorem entriesFrom_of_lt (h : i < m.shardCount) :
    m.entriesFrom tables i = shardEntries tables i ++ m.entriesFrom tables (i + 1) := by
  have hlen : m.shardCount - i = m.shardCount - (i + 1) + 1 := by omega
  rw [entriesFrom, hlen, List.range'_succ, List.flatMap_cons]
  rfl

theorem mem_shardEntries {p : Nat × Nat} :
    p ∈ shardEntries tables i ↔ p.1 = i ∧ ∃ e, (tables i).buckets[p.2]? = some (some e) := by
  rw [shardEntries, List.mem_map]
  constructor
  · rintro ⟨b, hb, rfl⟩
    exact ⟨rfl, Table.mem_places.mp hb⟩
  · rintro ⟨rfl, he⟩
    exact ⟨p.2, Table.mem_places.mpr he, rfl⟩

theorem mem_entriesFrom {p : Nat × Nat} : p ∈ m.entriesFrom tables i ↔
    (i ≤ p.1 ∧ p.1 < m.shardCount) ∧ ∃ e, (tables p.1).buckets[p.2]? = some (some e) := by
  rw [entriesFrom, List.mem_flatMap]
  constructor
  · rintro ⟨j, hj, hp⟩
    obtain ⟨rfl, he⟩ := mem_shardEntries.mp hp
    rw [List.mem_range'_1] at hj
    exact ⟨by omega, he⟩
  · rintro ⟨hrange, he⟩
    exact ⟨p.1, List.mem_range'_1.mpr (by omega), mem_shardEntries.mpr ⟨rfl, he⟩⟩

theorem entriesFrom_nodup : (m.entriesFrom tables i).Nodup := by
  rw [entriesFrom, List.nodup_flatMap]
  constructor
  · intro j _
    apply (Table.places_nodup (tables j)).map
    intro b b' h
    exact congrArg Prod.snd h
  · apply (List.nodup_range' ..).imp
    intro j j' hne p hp hp'
    exact hne ((mem_shardEntries.mp hp).1.symm.trans (mem_shardEntries.mp hp').1)

theorem shardEntries_eq_nil : shardEntries tables i = [] ↔ (tables i).elems.isEmpty = true := by
  rw [shardEntries, List.map_eq_nil_iff, Table.places_eq_nil]

theorem entriesFrom_congr {tables' : Nat → Table (K × V)}
    (h : ∀ j, (tables' j).places = (tables j).places) (i : Nat) :
    m.entriesFrom tables' i = m.entriesFrom tables i := by
  have hshard : shardEntries tables' = shardEntries tables := by
    funext j
    rw [shardEntries, shardEntries, h]
  rw [entriesFrom, entriesFrom, hshard]

theorem remaining_congr {tables' : Nat → Table (K × V)}
    (h : ∀ j, (tables' j).places = (tables j).places) (it : Iter) :
    it.remaining m tables' = it.remaining m tables := by
  rw [Iter.remaining, Iter.remaining]
  cases it.current with
  | none => exact entriesFrom_congr h _
  | some li =>
    dsimp only
    rw [entriesFrom_congr h]

theorem LockedIter.pop_cases (li : LockedIter) : (li.pop = none ∧ li.left = []) ∨
    ∃ b rest, li.pop = some (b, ⟨rest, none⟩) ∧ li.left = b :: rest := by
  rcases li with ⟨rawIter, pending | b⟩
  · cases rawIter with
    | nil => exact Or.inl ⟨rfl, rfl⟩
    | cons b rest => exact Or.inr ⟨b, rest, rfl, rfl⟩
  · exact Or.inr ⟨b, rawIter, rfl, rfl⟩

/-! ## One turn -/

namespace Iter

theorem advanceShard_eq (h : it.shardIdx < usizeMax) :
    it.advanceShard = .ok { it with shardIdx := it.shardIdx + 1 } := by
  rw [advanceShard, expect_checkedAdd _ h]
  rfl

theorem remaining_none (m : ConcurrentHashMap K) (tables : Nat → Table (K × V))
    (h : it.current = none) :
    it.remaining m tables = m.entriesFrom tables it.shardIdx := by
  rw [remaining, h]

theorem remaining_some (m : ConcurrentHashMap K) (tables : Nat → Table (K × V))
    (h : it.current = some li) : it.remaining m tables =
    li.left.map (fun b => (it.shardIdx, b)) ++ m.entriesFrom tables (it.shardIdx + 1) := by
  rw [remaining, h]

/-- A locked shard is one of the map's. -/
def Within (m : ConcurrentHashMap K) (it : Iter) : Prop :=
  ∀ li, it.current = some li → it.shardIdx < m.shardCount

def Settled (it : Iter) : Prop := ∀ li, it.current = some li → li.pendingBucket = none

/-- The iterator may be stalled: a bucket is pending, or no shard is locked though one is left. -/
def Stalled (m : ConcurrentHashMap K) (it : Iter) : Prop :=
  match it.current with
  | some li => li.pendingBucket.isSome
  | none => it.shardIdx < m.shardCount

def stalledOn (tables : Nat → Table (K × V)) (it : Iter) : List (Nat × Nat) :=
  match it.current with
  | some li => li.pendingBucket.toList.map fun b => (it.shardIdx, b)
  | none => shardEntries tables it.shardIdx

/-- How many requests a call of `next` makes when none is refused: one for the guard of a shard
and one for an item. -/
def asks (m : ConcurrentHashMap K) (tables : Nat → Table (K × V)) (it : Iter) : Nat :=
  if it.remaining m tables = [] then 0
  else
    match it.current with
    | some li => if li.left = [] then 2 else 1
    | none => 2

/-- No request of the next call of `next` is refused. -/
def Granted (m : ConcurrentHashMap K) (tables : Nat → Table (K × V)) (it : Iter)
    (a : Allocator) : Prop :=
  ∀ n < it.asks m tables, a.grants (a.requests + n) = true

/-- A failure that a fair schedule does not repeat for ever: less is asked afterwards, or all that
has happened is a refusal. -/
def Closer (m : ConcurrentHashMap K) (tables : Nat → Table (K × V)) (it : Iter) (a : Allocator)
    (it' : Iter) (a' : Allocator) : Prop :=
  it'.asks m tables < it.asks m tables ∨
    it'.asks m tables = it.asks m tables ∧ a.grants a.requests = false ∧ a' = a.request.2

/-- What a turn does when it does not discard anything silently. -/
inductive Turned (item : Nat → Nat → R) (m : ConcurrentHashMap K) (tables : Nat → Table (K × V))
    (it : Iter) (a : Allocator) : Turn R → Prop where
  | done (hnone : it.current = none) (hend : m.shardCount ≤ it.shardIdx) :
      Turned item m tables it a (.answer none it a)
  | skip {it' : Iter} (hnone : it'.current = none) (hidx : it'.shardIdx = it.shardIdx + 1)
      (hlt : it.shardIdx < m.shardCount) (hauto : it'.autoUnstall = it.autoUnstall)
      (hrem : it'.remaining m tables = it.remaining m tables)
      (hasks : it'.asks m tables = it.asks m tables) :
      Turned item m tables it a (.again it' a)
  | item {it' : Iter} {b : Nat} {a' : Allocator} (ha : a'.grants = a.grants)
      (hlt : it'.shardIdx < m.shardCount) (hsettled : it'.Settled)
      (hauto : it'.autoUnstall = it.autoUnstall)
      (hrem : it.remaining m tables = (it'.shardIdx, b) :: it'.remaining m tables) :
      Turned item m tables it a (.answer (some (.ok (item it'.shardIdx b))) it' a')
  | stall {it' : Iter} {e : IterError} {a' : Allocator} (ha : a'.grants = a.grants)
      (hwithin : it'.Within m) (hdefault : it.autoUnstall = false)
      (hauto : it'.autoUnstall = it.autoUnstall)
      (hrem : it'.remaining m tables = it.remaining m tables) (hstalled : it'.Stalled m)
      (hcloser : Closer m tables it a it' a') :
      Turned item m tables it a (.answer (some (.error e)) it' a')

section
variable {item : Nat → Nat → R}

theorem yieldBucket_nil (h : li.left = []) (hlt : it.shardIdx < usizeMax) :
    it.yieldBucket item li a =
      .ok (.again { it with current := none, shardIdx := it.shardIdx + 1 } a) := by
  rcases li.pop_cases with ⟨hpop, -⟩ | ⟨b, rest, -, hleft⟩
  · have hadvance : ({ it with current := none } : Iter).advanceShard = _ := advanceShard_eq hlt
    simp only [yieldBucket, hpop, hadvance, ok_bind]
  · rw [h] at hleft
    simp at hleft

theorem asks_one {b : Nat} {rest : List Nat} (hcur : it.current = some li)
    (hleft : li.left = b :: rest) : it.asks m tables = 1 := by
  have hrem := remaining_some m tables hcur
  rw [asks, hcur, hrem, hleft]
  simp [hleft]

/-- In a shard with a bucket left, a turn answers, after `a₀` has been asked for its guard or
not. -/
theorem yieldBucket_cons (a₀ : Allocator) {b : Nat} {rest : List Nat} (h : li.left = b :: rest)
    (hlt : it.shardIdx < m.shardCount) (ha : a.grants = a₀.grants)
    (hrem : it.remaining m tables =
      li.left.map (fun b => (it.shardIdx, b)) ++ m.entriesFrom tables (it.shardIdx + 1))
    (hasks : 1 < it.asks m tables ∨ it.asks m tables = 1 ∧ a₀ = a)
    (hgrant : it.autoUnstall = true → a.grants a.requests = true) :
    ∃ t, it.yieldBucket item li a = .ok t ∧ Turned item m tables it a₀ t := by
  have hpop : li.pop = some (b, ⟨rest, none⟩) := by
    rcases li.pop_cases with ⟨-, hleft⟩ | ⟨b', rest', hpop, hleft⟩
    · rw [h] at hleft
      simp at hleft
    · rw [h] at hleft
      obtain ⟨rfl, rfl⟩ := List.cons.inj hleft
      exact hpop
  rw [h, List.map_cons, List.cons_append] at hrem
  by_cases hreq : a.grants a.requests = true
  · refine ⟨_, ?_, @Turned.item _ _ _ item m tables it a₀
      { it with current := some ⟨rest, none⟩ } b a.request.2 ha hlt ?_ rfl ?_⟩
    · simp only [yieldBucket, hpop, Allocator.request_fst, if_pos hreq]
    · intro li' hli'
      obtain rfl := Option.some.inj hli'
      rfl
    · rw [hrem]
      rfl
  · have hdefault : it.autoUnstall = false := by
      rw [← Bool.not_eq_true]
      exact fun hauto => hreq (hgrant hauto)
    have hasks' : ({ it with current := some ⟨rest, some b⟩ } : Iter).asks m tables = 1 :=
      asks_one rfl rfl
    refine ⟨.answer (some (.error .clone)) { it with current := some ⟨rest, some b⟩ }
      a.request.2, ?_, .stall ha (fun _ _ => hlt) hdefault rfl ?_ rfl ?_⟩
    · simp only [yieldBucket, hpop, Allocator.request_fst, if_neg hreq, hdefault,
        Bool.false_eq_true, if_false]
    · rw [hrem]
      rfl
    · rw [Closer, hasks']
      rcases hasks with hmore | ⟨hone, rfl⟩
      · exact Or.inl hmore
      · exact Or.inr ⟨hone.symm, Bool.not_eq_true _ ▸ hreq, rfl⟩

theorem asks_none (h : it.current = none) :
    it.asks m tables = if it.remaining m tables = [] then 0 else 2 := by
  rw [asks, h]

/-- A turn discards nothing, and stays in the map, unless a failure strikes in auto-unstall
mode. -/
theorem turn_spec (item : Nat → Nat → R) (hcount : m.shardCount ≤ usizeMax) (hwithin : it.Within m)
    (hgrant : it.autoUnstall = true → it.Granted m tables a) :
    ∃ t, it.turn item m tables a = .ok t ∧ Turned item m tables it a t := by
  cases hcur : it.current with
  | some li =>
    have hlt := hwithin li hcur
    have hrem := remaining_some m tables hcur
    rw [turn, hcur]
    cases hleft : li.left with
    | nil =>
      rw [hleft, List.map_nil, List.nil_append] at hrem
      refine ⟨_, yieldBucket_nil hleft (hlt.trans_le hcount), .skip rfl rfl hlt rfl hrem.symm ?_⟩
      rw [asks_none rfl, asks, hcur]
      dsimp only
      rw [if_pos hleft, hrem]
      rfl
    | cons b rest =>
      have hasks : it.asks m tables = 1 := asks_one hcur hleft
      apply yieldBucket_cons a hleft hlt rfl hrem (Or.inr ⟨hasks, rfl⟩)
      intro hauto
      exact hgrant hauto 0 (by omega)
  | none =>
    have hrem := remaining_none m tables hcur
    simp only [turn, hcur]
    by_cases hend : m.shardCount ≤ it.shardIdx
    · exact ⟨_, if_pos hend, .done hcur hend⟩
    · have hlt := Nat.lt_of_not_le hend
      rw [entriesFrom_of_lt hlt] at hrem
      rw [if_neg hend]
      by_cases hempty : (tables it.shardIdx).elems.isEmpty = true
      · rw [shardEntries_eq_nil.mpr hempty, List.nil_append] at hrem
        rw [if_pos hempty, advanceShard_eq (hlt.trans_le hcount)]
        have hcur' : ({ it with shardIdx := it.shardIdx + 1 } : Iter).current = none := hcur
        have hrem' := (remaining_none m tables hcur').trans hrem.symm
        refine ⟨_, rfl, .skip hcur' rfl hlt rfl hrem' ?_⟩
        rw [asks_none hcur', asks_none hcur, hrem']
      · have hentries : it.remaining m tables ≠ [] := by
          rw [hrem]
          intro hnil
          exact hempty (shardEntries_eq_nil.mp (List.append_eq_nil_iff.mp hnil).1)
        have hasks : it.asks m tables = 2 := by rw [asks_none hcur, if_neg hentries]
        rw [if_neg hempty]
        by_cases hreq : a.grants a.requests = true
        · rw [Allocator.request_fst, if_pos hreq]
          obtain ⟨b, rest, hplaces⟩ : ∃ b rest, (tables it.shardIdx).places = b :: rest := by
            apply List.exists_cons_of_ne_nil
            exact fun hnil => hempty (Table.places_eq_nil.mp hnil)
          have hleft : (⟨(tables it.shardIdx).places, none⟩ : LockedIter).left = b :: rest :=
            hplaces
          apply yieldBucket_cons a (a := a.request.2) hleft hlt rfl hrem (Or.inl (by omega))
          intro hauto
          exact hgrant hauto 1 (by omega)
        · have hdefault : it.autoUnstall = false := by
            rw [← Bool.not_eq_true]
            exact fun hauto => hreq (hgrant hauto 0 (by omega))
          simp only [Allocator.request_fst, if_neg hreq, hdefault, Bool.false_eq_true, if_false]
          refine ⟨_, rfl, .stall rfl hwithin hdefault rfl rfl ?_ ?_⟩
          · rw [Stalled, hcur]
            exact hlt
          · exact Or.inr ⟨rfl, Bool.not_eq_true _ ▸ hreq, rfl⟩

/-! ## A call of `next` -/

/-- The answer of a call of `next` that discards nothing silently. -/
inductive Answered (item : Nat → Nat → R) (m : ConcurrentHashMap K)
    (tables : Nat → Table (K × V)) (it : Iter) (a : Allocator) (it' : Iter) (a' : Allocator) :
    Option (Except IterError R) → Prop where
  | item {b : Nat} (hsettled : it'.Settled)
      (hrem : it.remaining m tables = (it'.shardIdx, b) :: it'.remaining m tables) :
      Answered item m tables it a it' a' (some (.ok (item it'.shardIdx b)))
  | stall {e : IterError} (hdefault : it.autoUnstall = false)
      (hrem : it'.remaining m tables = it.remaining m tables) (hstalled : it'.Stalled m)
      (hcloser : Closer m tables it a it' a') :
      Answered item m tables it a it' a' (some (.error e))
  | done (hnone : it'.current = none) (hrem : it.remaining m tables = [])
      (hrem' : it'.remaining m tables = []) : Answered item m tables it a it' a' none

/-- What stays the same in every call. -/
structure Kept (m : ConcurrentHashMap K) (it : Iter) (a : Allocator) (it' : Iter)
    (a' : Allocator) : Prop where
  within : it'.Within m
  auto_eq : it'.autoUnstall = it.autoUnstall
  grants_eq : a'.grants = a.grants

theorem nextLoop_spec (hcount : m.shardCount ≤ usizeMax) (n : Nat) (hwithin : it.Within m)
    (hgrant : it.autoUnstall = true → it.Granted m tables a)
    (hn : m.shardCount - it.shardIdx + (it.remaining m tables).length < n) :
    ∃ res it' a', nextLoop item m tables n it a = .ok (res, it', a') ∧ Kept m it a it' a' ∧
      Answered item m tables it a it' a' res := by
  induction n generalizing it with
  | zero => omega
  | succ n ih =>
    obtain ⟨t, hturn, hspec⟩ := turn_spec item hcount hwithin hgrant
    simp only [nextLoop, hturn, ok_bind]
    cases hspec with
    | done hnone hend =>
      have hrem : it.remaining m tables = [] := by
        rw [remaining_none m tables hnone, entriesFrom_of_le hend]
      exact ⟨none, it, a, rfl, ⟨hwithin, rfl, rfl⟩, .done hnone hrem hrem⟩
    | @skip it₁ hnone hidx hlt hauto hrem hasks =>
      have hwithin₁ : it₁.Within m := by
        intro li hli
        rw [hnone] at hli
        simp at hli
      have hgrant₁ : it₁.autoUnstall = true → it₁.Granted m tables a := by
        intro h n hn
        rw [hasks] at hn
        exact hgrant (hauto ▸ h) n hn
      obtain ⟨res, it', a', hok, hkept, hanswered⟩ := ih hwithin₁ hgrant₁ (by rw [hrem]; omega)
      refine ⟨res, it', a', hok, ⟨hkept.within, hkept.auto_eq.trans hauto, hkept.grants_eq⟩, ?_⟩
      cases hanswered with
      | item hsettled hrem' => exact .item hsettled (hrem.symm.trans hrem')
      | stall hdefault hrem' hstalled hcloser =>
        rw [Closer, hasks] at hcloser
        exact .stall (hauto.symm.trans hdefault) (hrem'.trans hrem) hstalled hcloser
      | done hnone' hrem₁ hrem' => exact .done hnone' (hrem.symm.trans hrem₁) hrem'
    | item ha hlt hsettled hauto hrem =>
      exact ⟨_, _, _, rfl, ⟨fun _ _ => hlt, hauto, ha⟩, .item hsettled hrem⟩
    | stall ha hwithin' hdefault hauto hrem hstalled hcloser =>
      exact ⟨_, _, _, rfl, ⟨hwithin', hauto, ha⟩, .stall hdefault hrem hstalled hcloser⟩

/-- A call of `next` answers, and discards nothing, unless a failure strikes in auto-unstall
mode. -/
theorem nextWith_spec (hcount : m.shardCount ≤ usizeMax) (hwithin : it.Within m)
    (hgrant : it.autoUnstall = true → it.Granted m tables a) :
    ∃ res it' a', it.nextWith item m tables a = .ok (res, it', a') ∧ Kept m it a it' a' ∧
      Answered item m tables it a it' a' res :=
  nextLoop_spec hcount _ hwithin hgrant (Nat.lt_succ_self _)

end

theorem unstall_some (h : it.current = some li) : it.unstall m = .ok (li.pendingBucket.isSome,
    { it with current := some { li with pendingBucket := none } }) := by
  rw [unstall, h]

/-- On a stalled iterator `unstall` discards what the iterator is stalled on. -/
theorem unstall_stalled (tables : Nat → Table (K × V)) (hcount : m.shardCount ≤ usizeMax)
    (hwithin : it.Within m)
    (hstalled : it.Stalled m) : ∃ it', it.unstall m = .ok (true, it') ∧ it'.Within m ∧
      it'.Settled ∧ it.remaining m tables = it.stalledOn tables ++ it'.remaining m tables := by
  cases hcur : it.current with
  | some li =>
    rw [Stalled, hcur] at hstalled
    refine ⟨{ it with current := some { li with pendingBucket := none } }, ?_, ?_, ?_, ?_⟩
    · rw [unstall_some hcur, hstalled]
    · exact fun _ _ => hwithin li hcur
    · intro li' hli'
      obtain rfl := Option.some.inj hli'
      rfl
    · rw [remaining_some m tables hcur, stalledOn, hcur, LockedIter.left, List.map_append,
        List.append_assoc]
      rfl
  | none =>
    rw [Stalled, hcur] at hstalled
    have hcur' : ({ it with shardIdx := it.shardIdx + 1 } : Iter).current = none := hcur
    refine ⟨{ it with shardIdx := it.shardIdx + 1 }, ?_, ?_, ?_, ?_⟩
    · have hadvance := advanceShard_eq (hstalled.trans_le hcount)
      simp only [unstall, hadvance, ok_bind, hcur]
      exact if_pos hstalled
    · intro li hli
      rw [hcur'] at hli
      simp at hli
    · intro li hli
      rw [hcur'] at hli
      simp at hli
    · rw [remaining_none m tables hcur, remaining_none m tables hcur', stalledOn, hcur,
      entriesFrom_of_lt hstalled]

/-- `unstall` does nothing to an iterator that is not stalled, if a shard is locked or none is
left. -/
theorem unstall_settled (hsettled : it.Settled)
    (h : it.current.isSome = true ∨ m.shardCount ≤ it.shardIdx) :
    it.unstall m = .ok (false, it) := by
  cases hcur : it.current with
  | some li =>
    have hpending := hsettled li hcur
    rw [unstall_some hcur, hpending]
    rcases li with ⟨rawIter, pendingBucket⟩
    rcases it with ⟨shardIdx, current, autoUnstall⟩
    obtain rfl : current = _ := hcur
    obtain rfl : pendingBucket = none := hpending
    rfl
  | none =>
    have hend : m.shardCount ≤ it.shardIdx := by
      rw [hcur] at h
      simpa using h
    rw [unstall, hcur]
    dsimp only
    rw [if_neg (Nat.not_lt.mpr hend)]

end Iter

end Rustyfill.ConcurrentHashMap
