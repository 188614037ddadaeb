import Rustyfill.Lib.Calls
import Rustyfill.Lib.Contents
import Rustyfill.Maps.Locks

/-!
# Critical sections

A method that takes the guard of one shard, works on its table and drops the guard takes effect
when it drops it: until then nobody else sees the table, so what the method does may be read off
its code as if it ran alone.
-/

namespace Rustyfill.Maps

open RawHash Interleaving

set_option autoImplicit false

/-- Under which hash, and in which shard, a key lies. -/
structure Layout (K : Type) where
  hashOne : K → UInt64
  shardOf : K → Nat

namespace Layout

variable {K : Type}

def Mine (L : Layout K) (i : Nat) (k : K) : Prop := L.shardOf k = i

structure Lawful [BEq K] (L : Layout K) : Prop where
  hash : ∀ a b : K, (a == b) = true → L.hashOne a = L.hashOne b
  shard : ∀ a b : K, (a == b) = true → L.shardOf a = L.shardOf b

end Layout

/-! ## Who holds which guard -/

section
variable {T E X : Type} {o : Outside E X} {g : Held} {t u i j : Nat} {s s' : State T E}
  {a : Act T E X} {x : a.Res o}

/-- `g` is the only guard of client `t`. -/
structure HoldsOnly (g : Held) (t : Nat) (s : State T E) : Prop where
  write : ∀ i, s.writer i = some t ↔ g = .write i
  read : ∀ i, t ∈ s.readers i ↔ g = .read i

/-- Client `t` holds a guard of shard `i`. -/
def Guards (t i : Nat) (s : State T E) : Prop := s.writer i = some t ∨ t ∈ s.readers i

def Exclusive (s : State T E) : Prop := ∀ i, s.writer i = none ∨ s.readers i = ∅

@[simp] def Held.shard : Held → Option Nat
  | .none => .none
  | .read i | .write i => some i

theorem HoldsOnly.guards (h : HoldsOnly g t s) (hg : g.shard = some i) : Guards t i s := by
  cases g with
  | none => cases hg
  | read j =>
    cases hg
    exact .inr ((h.read i).mpr rfl)
  | write j =>
    cases hg
    exact .inl ((h.write i).mpr rfl)

theorem HoldsOnly.of_unlocked (h : s.Unlocked) : HoldsOnly .none t s where
  write := fun i => by simp [h.writer i]
  read := fun i => by simp [h.readers i]

theorem HoldsOnly.congr (h : HoldsOnly g t s) (hw : ∀ i, s'.writer i = some t ↔ s.writer i = some t)
    (hr : ∀ i, t ∈ s'.readers i ↔ t ∈ s.readers i) : HoldsOnly g t s' where
  write := fun i => (hw i).trans (h.write i)
  read := fun i => (hr i).trans (h.read i)

theorem HoldsOnly.take_read (h : HoldsOnly .none t s) :
    HoldsOnly (.read i) t (s.setReaders i (insert t (s.readers i))) where
  write := fun j => by simpa using h.write j
  read := fun j => by
    by_cases hj : j = i
    · subst hj
      simp
    · have hold : t ∉ s.readers j := fun hmem => nomatch (h.read j).mp hmem
      rw [State.setReaders_readers_ne hj, Held.read.injEq]
      exact ⟨fun hmem => (hold hmem).elim, fun hij => (hj hij.symm).elim⟩

theorem HoldsOnly.drop_read (h : HoldsOnly (.read i) t s) :
    HoldsOnly .none t (s.setReaders i ((s.readers i).erase t)) where
  write := fun j => by simpa using h.write j
  read := fun j => by
    by_cases hj : j = i
    · subst hj
      simp
    · have hold : t ∉ s.readers j := fun hmem => hj (Held.read.inj ((h.read j).mp hmem)).symm
      simp [State.setReaders_readers_ne hj, hold]

theorem HoldsOnly.take_write (h : HoldsOnly .none t s) :
    HoldsOnly (.write i) t (s.setWriter i (some t)) where
  write := fun j => by
    by_cases hj : j = i
    · subst hj
      simp
    · have hold : s.writer j ≠ some t := fun hmem => nomatch (h.write j).mp hmem
      rw [State.setWriter_writer_ne hj, Held.write.injEq]
      exact ⟨fun hmem => (hold hmem).elim, fun hij => (hj hij.symm).elim⟩
  read := fun j => by simpa using h.read j

theorem HoldsOnly.drop_write (h : HoldsOnly (.write i) t s) :
    HoldsOnly .none t (s.setWriter i none) where
  write := fun j => by
    by_cases hj : j = i
    · subst hj
      simp
    · have hold : s.writer j ≠ some t := fun hmem => hj (Held.write.inj ((h.write j).mp hmem)).symm
      simp [State.setWriter_writer_ne hj, hold]
  read := fun j => by simpa using h.read j

theorem HoldsOnly.step (h : HoldsOnly g t s) (ha : g.allows a) (hs : Sem o t s a x s') :
    HoldsOnly (g.next a x) t s' := by
  cases a with
  | readTable i =>
    obtain rfl := ha
    obtain ⟨-, rfl⟩ := hs
    exact h.take_read
  | dropReadGuard i =>
    obtain rfl := ha
    cases hs
    exact h.drop_read
  | writeTable i =>
    obtain rfl := ha
    obtain ⟨-, -, rfl⟩ := hs
    exact h.take_write
  | tryWriteTable i =>
    obtain rfl := ha
    simp only [Sem] at hs
    split at hs
    · obtain ⟨rfl, rfl⟩ := hs
      exact h.take_write
    · obtain ⟨rfl, rfl⟩ := hs
      exact h
  | dropWriteGuard i =>
    obtain rfl := ha
    cases hs
    exact h.drop_write
  | find | asRef | len | iter =>
    obtain ⟨-, rfl⟩ := hs
    exact h
  | tryReserve | findOrFindInsertSlot | insertInSlot | insertNoGrow | write | remove
  | «foreign» =>
    obtain ⟨table, rfl⟩ := hs.setTable rfl
    exact h.congr (fun _ => Iff.rfl) fun _ => Iff.rfl
  | user =>
    obtain ⟨ext, -, rfl⟩ := hs
    exact h.congr (fun _ => Iff.rfl) fun _ => Iff.rfl

theorem HoldsOnly.others (h : HoldsOnly g t s) (ha : g.allows a) (hs : Sem o t s a x s')
    (hut : u ≠ t) (i : Nat) :
    (s'.writer i = some u ↔ s.writer i = some u) ∧ (u ∈ s'.readers i ↔ u ∈ s.readers i) := by
  cases a with
  | readTable j =>
    obtain ⟨-, rfl⟩ := hs
    refine ⟨Iff.rfl, ?_⟩
    by_cases hij : i = j
    · subst hij
      simp [hut]
    · rw [State.setReaders_readers_ne hij]
  | dropReadGuard j =>
    cases hs
    refine ⟨Iff.rfl, ?_⟩
    by_cases hij : i = j
    · subst hij
      simp [hut]
    · rw [State.setReaders_readers_ne hij]
  | writeTable j =>
    obtain ⟨hw, -, rfl⟩ := hs
    refine ⟨?_, Iff.rfl⟩
    by_cases hij : i = j
    · subst hij
      simp [hw, Ne.symm hut]
    · rw [State.setWriter_writer_ne hij]
  | tryWriteTable j =>
    simp only [Sem] at hs
    split at hs
    · rename_i hfree
      obtain ⟨-, rfl⟩ := hs
      refine ⟨?_, Iff.rfl⟩
      by_cases hij : i = j
      · subst hij
        simp [hfree.1, Ne.symm hut]
      · rw [State.setWriter_writer_ne hij]
    · obtain ⟨-, rfl⟩ := hs
      exact ⟨Iff.rfl, Iff.rfl⟩
  | dropWriteGuard j =>
    obtain rfl := ha
    cases hs
    refine ⟨?_, Iff.rfl⟩
    by_cases hij : i = j
    · subst hij
      simp [(h.write i).mpr rfl, Ne.symm hut]
    · rw [State.setWriter_writer_ne hij]
  | find | asRef | len | iter =>
    obtain ⟨-, rfl⟩ := hs
    exact ⟨Iff.rfl, Iff.rfl⟩
  | tryReserve | findOrFindInsertSlot | insertInSlot | insertNoGrow | write | remove
  | «foreign» =>
    obtain ⟨table, rfl⟩ := hs.setTable rfl
    exact ⟨Iff.rfl, Iff.rfl⟩
  | user =>
    obtain ⟨ext, -, rfl⟩ := hs
    exact ⟨Iff.rfl, Iff.rfl⟩

theorem Exclusive.step (h : Exclusive s) (hs : Sem o t s a x s') : Exclusive s' := by
  intro i
  cases a with
  | readTable j =>
    obtain ⟨hw, rfl⟩ := hs
    by_cases hij : i = j
    · subst hij
      exact .inl hw
    · rw [State.setReaders_readers_ne hij]
      exact h i
  | dropReadGuard j =>
    cases hs
    by_cases hij : i = j
    · subst hij
      exact (h i).imp_right fun hr => by simp [hr]
    · rw [State.setReaders_readers_ne hij]
      exact h i
  | writeTable j =>
    obtain ⟨-, hr, rfl⟩ := hs
    by_cases hij : i = j
    · subst hij
      exact .inr hr
    · rw [State.setWriter_writer_ne hij]
      exact h i
  | tryWriteTable j =>
    simp only [Sem] at hs
    split at hs
    · rename_i hfree
      obtain ⟨-, rfl⟩ := hs
      by_cases hij : i = j
      · subst hij
        exact .inr hfree.2
      · rw [State.setWriter_writer_ne hij]
        exact h i
    · obtain ⟨-, rfl⟩ := hs
      exact h i
  | dropWriteGuard j =>
    cases hs
    by_cases hij : i = j
    · subst hij
      exact .inl State.setWriter_writer_self
    · rw [State.setWriter_writer_ne hij]
      exact h i
  | find | asRef | len | iter =>
    obtain ⟨-, rfl⟩ := hs
    exact h i
  | tryReserve | findOrFindInsertSlot | insertInSlot | insertNoGrow | write | remove
  | «foreign» =>
    obtain ⟨table, rfl⟩ := hs.setTable rfl
    exact h i
  | user =>
    obtain ⟨ext, -, rfl⟩ := hs
    exact h i

/-- Whoever guards a shard, a step of another client leaves its table as it is. -/
theorem HoldsOnly.table_eq (h : HoldsOnly g t s) (hex : Exclusive s) (ha : g.allows a)
    (hs : Sem o t s a x s') (hut : u ≠ t) (hu : Guards u j s) : s'.table j = s.table j := by
  refine hs.table_eq fun htouch => ?_
  have ht := (h.write j).mpr (ha.write_of_touches htouch)
  rcases hu with hu | hu
  · rw [ht] at hu
    exact hut (Option.some.inj hu).symm
  · rcases hex j with hnone | hempty
    · rw [ht] at hnone
      cases hnone
    · simp [hempty] at hu

theorem HoldsOnly.table_eq_of_unwritten (h : HoldsOnly g t s) (ha : g.allows a)
    (hs : Sem o t s a x s') (hw : s.writer j = none) : s'.table j = s.table j := by
  refine hs.table_eq fun htouch => ?_
  have ht := (h.write j).mpr (ha.write_of_touches htouch)
  rw [hw] at ht
  cases ht

end

/-! ## The protocol of the shards -/

section
variable {K V E X R : Type} [BEq K] (L : Layout K) (o : Outside E X)

/-- The table of a shard that nobody writes stores what `m` gives for its keys. -/
structure Consistent (s : State (K × V) E) (m : Contents K V) : Prop where
  shows : ∀ i, s.writer i = none → (s.table i).Shows L.hashOne (L.Mine i) m
  exclusive : Exclusive s

/-- What client `t` may rely on: its guards, and what they guard. -/
structure Relies (t : Nat) (τ τ' : State (K × V) E × Contents K V) : Prop where
  writer : ∀ i, τ'.1.writer i = some t ↔ τ.1.writer i = some t
  reader : ∀ i, t ∈ τ'.1.readers i ↔ t ∈ τ.1.readers i
  kept : ∀ i, Guards t i τ.1 → τ'.1.table i = τ.1.table i ∧ ∀ k, L.Mine i k → τ'.2 k = τ.2 k

def sharding : Protocol (State (K × V) E) (Contents K V) where
  inv := Consistent L
  idle := HoldsOnly .none
  rely := Relies L

variable (spec : Contents K V → R → Contents K V → Prop) (t : Nat)

/-- A method that serves its call when the client holds no guard. -/
def FromIdle (p : Method o (K × V) R) : Prop :=
  ∀ τ, Consistent L τ.1 τ.2 → HoldsOnly .none t τ.1 →
    Serves (sharding L) (Sem o t) spec t none p τ

/-- The step that drops a guard. -/
def Held.leaves : Held → Option (Act (K × V) E X)
  | .none => Option.none
  | .read i => some (.dropReadGuard i)
  | .write i => some (.dropWriteGuard i)

/-- What the call takes effect as when its guard is dropped, where `m` is what the shard stored
when the guard was taken. -/
def Commits (i : Nat) (m : Contents K V) (table : Table (K × V)) (r : R) : Prop :=
  ∀ m₁, (∀ k, L.Mine i k → m₁ k = m k) → ∃ m', spec m₁ r m' ∧
    table.Shows L.hashOne (L.Mine i) m' ∧ ∀ k, ¬ L.Mine i k → m' k = m₁ k

/-- What a method owes under its guard of shard `i`: it works on the table alone, and when it
drops the guard it has served its call, or changed nothing and goes on. -/
def Inside (g : Held) (i : Nat) (m : Contents K V) : Method o (K × V) R → Table (K × V) → Prop
  | .ret _, _ => False
  | .act a k, table =>
    g.allows a ∧ (∀ x : a.Res o, g.next a x = g) ∧
        (∀ s x s', s.table i = table → Sem o t s a x s' → Inside g i m (k x) (s'.table i)) ∨
      g.leaves = some a ∧ ((∃ r, (∀ x, k x = .ret r) ∧ Commits L spec i m table r) ∨
        table.Shows L.hashOne (L.Mine i) m ∧ ∀ x, FromIdle L o spec t (k x))

variable {L o spec t}

theorem sharding_rests : (sharding (E := E) (V := V) L).Rests :=
  fun _ _ _ hrely hidle => hidle.congr hrely.writer hrely.reader

/-- A step that changes what is stored only where nobody else looks. -/
theorem grants {g : Held} {s s' : State (K × V) E} {m m' : Contents K V} {a : Act (K × V) E X}
    {x : a.Res o} (hcons : Consistent L s m) (honly : HoldsOnly g t s) (ha : g.allows a)
    (hs : Sem o t s a x s')
    (hshows : ∀ j, s'.writer j = none → (s'.table j).Shows L.hashOne (L.Mine j) m')
    (hkeep : ∀ u j, u ≠ t → Guards u j s → ∀ k, L.Mine j k → m' k = m k) :
    (sharding L).Grants t (s, m) (s', m') where
  inv := ⟨hshows, hcons.exclusive.step hs⟩
  others := fun u hu =>
    { writer := fun i => (honly.others ha hs hu i).1
      reader := fun i => (honly.others ha hs hu i).2
      kept := fun i hi => ⟨honly.table_eq hcons.exclusive ha hs hu hi, hkeep u i hu hi⟩ }

/-- A step that stores nothing new: under a guard, or taking one, or dropping one of a shard
that is as it was. -/
theorem grants_same {g : Held} {s s' : State (K × V) E} {m : Contents K V} {a : Act (K × V) E X}
    {x : a.Res o} (hcons : Consistent L s m) (honly : HoldsOnly g t s) (ha : g.allows a)
    (hs : Sem o t s a x s')
    (hshows : ∀ j, s.writer j = some t → s'.writer j = none →
      (s'.table j).Shows L.hashOne (L.Mine j) m) :
    (sharding L).Grants t (s, m) (s', m) := by
  refine grants hcons honly ha hs (fun j hj => ?_) fun _ _ _ _ _ _ => rfl
  cases hw : s.writer j with
  | none =>
    rw [honly.table_eq_of_unwritten ha hs hw]
    exact hcons.shows j hw
  | some u =>
    by_cases hu : u = t
    · subst hu
      exact hshows j hw hj
    · rw [((honly.others ha hs hu j).1).mpr hw] at hj
      cases hj

/-! ## A section serves its call -/

/-- What client `t` knows between two steps under its guard. -/
structure Under (L : Layout K) (t : Nat) (g : Held) (i : Nat) (m : Contents K V)
    (table : Table (K × V)) (τ : State (K × V) E × Contents K V) : Prop where
  cons : Consistent L τ.1 τ.2
  only : HoldsOnly g t τ.1
  table : τ.1.table i = table
  agrees : ∀ k, L.Mine i k → τ.2 k = m k

variable {g : Held} {i : Nat} {m : Contents K V} {table : Table (K × V)}
  {τ τ' : State (K × V) E × Contents K V}

theorem Held.eq_of_shard (hg : g.shard = some i) : g = .read i ∨ g = .write i := by
  cases g with
  | none => cases hg
  | read j =>
    cases hg
    exact .inl rfl
  | write j =>
    cases hg
    exact .inr rfl

theorem Under.stable (hg : g.shard = some i) (h : Under L t g i m table τ)
    (hrely : Relies L t τ τ') (hcons : Consistent L τ'.1 τ'.2) : Under L t g i m table τ' := by
  obtain ⟨htable, hkeep⟩ := hrely.kept i (h.only.guards hg)
  exact ⟨hcons, h.only.congr hrely.writer hrely.reader, htable.trans h.table,
    fun k hk => (hkeep k hk).trans (h.agrees k hk)⟩

theorem Under.leave (hg : g.shard = some i) (h : Under L t g i m table τ) {a : Act (K × V) E X}
    {x : a.Res o} {s' : State (K × V) E} (ha : g.leaves = some a) (hs : Sem o t τ.1 a x s') :
    g.allows a ∧ s'.table = τ.1.table ∧ HoldsOnly .none t s' := by
  cases g with
  | none => cases hg
  | read j =>
    cases ha
    exact ⟨rfl, hs.table_eq_of_touches_eq_none rfl, h.only.step (a := .dropReadGuard j) rfl hs⟩
  | write j =>
    cases ha
    exact ⟨rfl, hs.table_eq_of_touches_eq_none rfl, h.only.step (a := .dropWriteGuard j) rfl hs⟩

theorem Under.unwatched (hg : g.shard = some i) (h : Under L t g i m table τ) {u : Nat}
    (hut : u ≠ t) (hu : Guards u i τ.1) : τ.1.writer i = none := by
  rcases Held.eq_of_shard hg with rfl | rfl
  · rcases h.cons.exclusive i with hnone | hempty
    · exact hnone
    · have hmem := (h.only.read i).mpr rfl
      simp [hempty] at hmem
  · have ht := (h.only.write i).mpr rfl
    rcases hu with hu | hu
    · rw [ht] at hu
      exact absurd (Option.some.inj hu).symm hut
    · rcases h.cons.exclusive i with hnone | hempty
      · exact hnone
      · simp [hempty] at hu

theorem Under.commit (hg : g.shard = some i) (h : Under L t g i m table τ) {a : Act (K × V) E X}
    {x : a.Res o} {s' : State (K × V) E} {m' : Contents K V} (ha : g.leaves = some a)
    (hs : Sem o t τ.1 a x s') (hshows : table.Shows L.hashOne (L.Mine i) m')
    (hrest : ∀ k, ¬ L.Mine i k → m' k = τ.2 k) :
    (sharding L).Grants t τ (s', m') ∧ HoldsOnly .none t s' := by
  obtain ⟨hallows, htable, honly⟩ := h.leave hg ha hs
  have happart : ∀ j k, j ≠ i → L.Mine j k → m' k = τ.2 k := by
    intro j k hj hk
    refine hrest k fun hi => hj ?_
    rw [Layout.Mine] at hk hi
    rw [← hk, hi]
  refine ⟨grants h.cons h.only hallows hs (fun j hj => ?_) fun u j hut hu k hk => ?_, honly⟩
  · rw [htable]
    by_cases hji : j = i
    · subst hji
      rwa [h.table]
    · have hw : τ.1.writer j = none := by
        cases hw : τ.1.writer j with
        | none => rfl
        | some u =>
          by_cases hut : u = t
          · subst hut
            obtain rfl := (h.only.write j).mp hw
            exact absurd (Option.some.inj hg) hji
          · rw [((h.only.others hallows hs hut j).1).mpr hw] at hj
            cases hj
      exact (h.cons.shows j hw).congr fun k hk => happart j k hji hk
  · by_cases hji : j = i
    · subst hji
      have hold := h.cons.shows j (h.unwatched hg hut hu)
      rw [h.table] at hold
      exact hshows.unique hold hk
    · exact happart j k hji hk

theorem Inside.serves (hg : g.shard = some i) {p : Method o (K × V) R} (table : Table (K × V))
    (h : Inside L o spec t g i m p table) (τ : State (K × V) E × Contents K V)
    (hu : Under L t g i m table τ) : Serves (sharding L) (Sem o t) spec t none p τ := by
  induction p generalizing table τ with
  | ret r => exact h.elim
  | act a k ih =>
    refine serves_act (Q := Under L t g i m table) (fun _ _ => Under.stable hg) hu ?_
    intro τ x s' hτ hs
    rcases h with ⟨ha, hnext, hstep⟩ | ⟨ha, ⟨r, hk, hcommit⟩ | ⟨hshows, hgoes⟩⟩
    · have honly := hτ.only.step ha hs
      rw [hnext x] at honly
      have hgrants : (sharding L).Grants t τ (s', τ.2) := by
        refine grants_same hτ.cons hτ.only ha hs fun j hj hj' => ?_
        rw [(honly.write j).mpr ((hτ.only.write j).mp hj)] at hj'
        cases hj'
      exact ⟨none, τ.2, .nothing, hgrants, ih x _ (hstep _ _ _ hτ.table hs) _
        ⟨hgrants.inv, honly, rfl, hτ.agrees⟩⟩
    · obtain ⟨m', hspec, hshows, hrest⟩ := hcommit τ.2 hτ.agrees
      obtain ⟨hgrants, honly⟩ := hτ.commit hg ha hs hshows hrest
      refine ⟨some r, m', .effect hspec, hgrants, ?_⟩
      rw [hk x]
      exact serves_ret (Q := fun τ => HoldsOnly .none t τ.1)
        (fun _ _ hidle hrely _ => sharding_rests _ _ _ hrely hidle) honly
        fun τ hidle => ⟨hidle, .inl rfl⟩
    · have hsame : table.Shows L.hashOne (L.Mine i) τ.2 := hshows.congr hτ.agrees
      obtain ⟨hgrants, honly⟩ := hτ.commit hg ha hs hsame fun _ _ => rfl
      exact ⟨none, τ.2, .nothing, hgrants, hgoes x _ hgrants.inv honly⟩

/-! ### Taking a guard -/

theorem fromIdle_ret {r : R} (h : ∀ m, spec m r m) : FromIdle L o spec t (.ret r) := by
  intro τ _ hidle
  refine serves_ret (Q := fun τ => HoldsOnly .none t τ.1) ?_ hidle fun τ hidle => ?_
  · exact fun _ _ hidle hrely _ => sharding_rests _ _ _ hrely hidle
  · exact ⟨hidle, .inr ⟨rfl, h τ.2⟩⟩

/-- A client that holds no guard takes a step that takes one or none. -/
theorem fromIdle_act {a : Act (K × V) E X} {k : a.Res o → Method o (K × V) R}
    (ha : Held.none.allows a) (hdoes : ∀ (τ : State (K × V) E × Contents K V) x s',
      Consistent L τ.1 τ.2 → HoldsOnly .none t τ.1 → Sem o t τ.1 a x s' → Consistent L s' τ.2 →
      Serves (sharding L) (Sem o t) spec t none (k x) (s', τ.2)) :
    FromIdle L o spec t (.act a k) := by
  intro τ hcons hidle
  refine serves_act (Q := fun τ => Consistent L τ.1 τ.2 ∧ HoldsOnly .none t τ.1) ?_
    ⟨hcons, hidle⟩ ?_
  · exact fun _ _ h hrely hcons => ⟨hcons, sharding_rests _ _ _ hrely h.2⟩
  · rintro τ x s' ⟨hcons, hidle⟩ hs
    have hgrants : (sharding L).Grants t τ (s', τ.2) := by
      refine grants_same hcons hidle ha hs fun j hj _ => ?_
      cases (hidle.write j).mp hj
    exact ⟨none, τ.2, .nothing, hgrants, hdoes τ x s' hcons hidle hs hgrants.inv⟩

theorem fromIdle_readTable {f : Unit → Method o (K × V) R}
    (h : ∀ m table, table.Shows L.hashOne (L.Mine i) m →
      Inside L o spec t (.read i) i m (f ()) table) :
    FromIdle L o spec t (.act (.readTable i) f) := by
  refine fromIdle_act rfl fun τ x s' hcons hidle hs hcons' => ?_
  have honly := hidle.step (a := .readTable i) rfl hs
  have hw := hs.1
  have htable := congrFun (hs.table_eq_of_touches_eq_none rfl) i
  exact (h τ.2 _ (hcons.shows i hw)).serves rfl _ _ ⟨hcons', honly, htable, fun _ _ => rfl⟩

theorem fromIdle_writeTable {f : Unit → Method o (K × V) R}
    (h : ∀ m table, table.Shows L.hashOne (L.Mine i) m →
      Inside L o spec t (.write i) i m (f ()) table) :
    FromIdle L o spec t (.act (.writeTable i) f) := by
  refine fromIdle_act rfl fun τ x s' hcons hidle hs hcons' => ?_
  have honly := hidle.step (a := .writeTable i) rfl hs
  have hw := hs.1
  have htable := congrFun (hs.table_eq_of_touches_eq_none rfl) i
  exact (h τ.2 _ (hcons.shows i hw)).serves rfl _ _ ⟨hcons', honly, htable, fun _ _ => rfl⟩

theorem fromIdle_tryWriteTable {f : Bool → Method o (K × V) R}
    (h : ∀ m table, table.Shows L.hashOne (L.Mine i) m →
      Inside L o spec t (.write i) i m (f true) table)
    (hlocked : FromIdle L o spec t (f false)) :
    FromIdle L o spec t (.act (.tryWriteTable i) f) := by
  refine fromIdle_act rfl fun τ ok s' hcons hidle hs hcons' => ?_
  have honly := hidle.step (a := .tryWriteTable i) rfl hs
  have htable := congrFun (hs.table_eq_of_touches_eq_none rfl) i
  simp only [Sem] at hs
  split at hs
  · rename_i hfree
    obtain ⟨rfl, -⟩ := hs
    exact (h τ.2 _ (hcons.shows i hfree.1)).serves rfl _ _ ⟨hcons', honly, htable, fun _ _ => rfl⟩
  · obtain ⟨rfl, -⟩ := hs
    exact hlocked _ hcons' honly

/-! ### Steps under a guard -/

section Steps
variable {hash : UInt64} {bucket slot : Nat}

theorem Inside.act {a : Act (K × V) E X} {k : a.Res o → Method o (K × V) R} (ha : g.allows a)
    (hnext : ∀ x : a.Res o, g.next a x = g)
    (h : ∀ s x s', s.table i = table → Sem o t s a x s' →
      Inside L o spec t g i m (k x) (s'.table i)) :
    Inside L o spec t g i m (.act a k) table :=
  .inl ⟨ha, hnext, h⟩

theorem Inside.find (hg : g.shard = some i) {eq : E → K × V → Bool}
    {f : Option Nat → Method o (K × V) R}
    (h : ∀ ext r, table.Found hash (eq ext) r → Inside L o spec t g i m (f r) table) :
    Inside L o spec t g i m (.act (.find i hash eq) f) table := by
  refine .act (Held.eq_of_shard hg) (fun _ => rfl) fun s r s' htable hs => ?_
  obtain ⟨hfound, rfl⟩ := hs
  rw [htable] at hfound ⊢
  exact h s'.ext r hfound

theorem Inside.asRef (hg : g.shard = some i) {f : K × V → Method o (K × V) R}
    (h : ∀ kv hash, table.buckets[bucket]? = some (some (hash, kv)) →
      Inside L o spec t g i m (f kv) table) :
    Inside L o spec t g i m (.act (.asRef i bucket) f) table := by
  refine .act (Held.eq_of_shard hg) (fun _ => rfl) fun s r s' htable hs => ?_
  obtain ⟨⟨hash, hget⟩, rfl⟩ := hs
  rw [htable] at hget ⊢
  exact h r hash hget

theorem Inside.len (hg : g.shard = some i) {f : Nat → Method o (K × V) R}
    (h : Inside L o spec t g i m (f table.elems.length) table) :
    Inside L o spec t g i m (.act (.len i) f) table := by
  refine .act (Held.eq_of_shard hg) (fun _ => rfl) fun s r s' htable hs => ?_
  obtain ⟨rfl, rfl⟩ := hs
  rw [htable]
  exact h

theorem Inside.iter (hg : g.shard = some i) {f : List (Nat × K × V) → Method o (K × V) R}
    (h : Inside L o spec t g i m (f table.full) table) :
    Inside L o spec t g i m (.act (.iter i) f) table := by
  refine .act (Held.eq_of_shard hg) (fun _ => rfl) fun s r s' htable hs => ?_
  obtain ⟨rfl, rfl⟩ := hs
  rw [htable]
  exact h

theorem Inside.user {y : X} {f : o.Res y → Method o (K × V) R}
    (h : ∀ r ext ext', o.sem t ext y r ext' → Inside L o spec t g i m (f r) table) :
    Inside L o spec t g i m (.act (.user y) f) table := by
  refine .act trivial (fun _ => rfl) fun s r s' htable hs => ?_
  obtain ⟨ext, hext, rfl⟩ := hs
  exact htable ▸ h r _ _ hext

theorem Inside.tryReserve {n : Nat} {rehash : K × V → UInt64}
    {f : Except TryReserveError Unit → Method o (K × V) R}
    (h : ∀ (r : Except TryReserveError Unit) table', table.TryReserve rehash n r.isOk table' →
      Inside L o spec t (.write i) i m (f r) table') :
    Inside L o spec t (.write i) i m (.act (.tryReserve i n rehash) f) table := by
  refine .act rfl (fun _ => rfl) fun s r s' htable hs => ?_
  obtain ⟨table', hres, rfl⟩ := hs
  rw [htable] at hres
  rw [State.setTable_table_self]
  exact h r table' hres

theorem Inside.findOrFindInsertSlot {eq : K × V → Bool} {rehash : K × V → UInt64}
    {f : Except Nat Nat → Method o (K × V) R}
    (h : ∀ r table', table.Reserved rehash table' → table'.FoundOrSlot hash eq r →
      Inside L o spec t (.write i) i m (f r) table') :
    Inside L o spec t (.write i) i m (.act (.findOrFindInsertSlot i hash eq rehash) f) table := by
  refine .act rfl (fun _ => rfl) fun s r s' htable hs => ?_
  obtain ⟨table', hres, hfound, rfl⟩ := hs
  rw [htable] at hres
  rw [State.setTable_table_self]
  exact h r table' hres hfound

theorem Inside.insertInSlot {kv : K × V} {f : Nat → Method o (K × V) R}
    (h : ∀ table', table.Placed slot hash kv table' →
      Inside L o spec t (.write i) i m (f slot) table') :
    Inside L o spec t (.write i) i m (.act (.insertInSlot i hash slot kv) f) table := by
  refine .act rfl (fun _ => rfl) fun s r s' htable hs => ?_
  obtain ⟨table', hplaced, hr, rfl⟩ := hs
  rw [htable] at hplaced
  rw [State.setTable_table_self, hr]
  exact h table' hplaced

theorem Inside.write {kv : K × V} {f : Unit → Method o (K × V) R}
    (h : ∀ table', table.Replaced bucket kv table' →
      Inside L o spec t (.write i) i m (f ()) table') :
    Inside L o spec t (.write i) i m (.act (.write i bucket kv) f) table := by
  refine .act rfl (fun _ => rfl) fun s r s' htable hs => ?_
  obtain ⟨table', hrep, rfl⟩ := hs
  rw [htable] at hrep
  rw [State.setTable_table_self]
  exact h table' hrep

theorem Inside.remove {f : K × V → Method o (K × V) R}
    (h : ∀ kv table', table.Removed bucket kv table' →
      Inside L o spec t (.write i) i m (f kv) table') :
    Inside L o spec t (.write i) i m (.act (.remove i bucket) f) table := by
  refine .act rfl (fun _ => rfl) fun s r s' htable hs => ?_
  obtain ⟨table', hrem, rfl⟩ := hs
  rw [htable] at hrem
  rw [State.setTable_table_self]
  exact h r table' hrem

theorem Inside.dropWriteGuard {r : R} (h : Commits L spec i m table r) :
    Inside L o spec t (.write i) i m (.act (.dropWriteGuard i) fun _ => .ret r) table :=
  .inr ⟨rfl, .inl ⟨r, fun _ => rfl, h⟩⟩

theorem Inside.dropReadGuard {r : R} (h : Commits L spec i m table r) :
    Inside L o spec t (.read i) i m (.act (.dropReadGuard i) fun _ => .ret r) table :=
  .inr ⟨rfl, .inl ⟨r, fun _ => rfl, h⟩⟩

/-- The section changed nothing, and the method goes on after it. -/
theorem Inside.leave_write {f : Unit → Method o (K × V) R}
    (hshows : table.Shows L.hashOne (L.Mine i) m) (h : FromIdle L o spec t (f ())) :
    Inside L o spec t (.write i) i m (.act (.dropWriteGuard i) f) table :=
  .inr ⟨rfl, .inr ⟨hshows, fun _ => h⟩⟩

theorem commits_same {r : R} (hshows : table.Shows L.hashOne (L.Mine i) m)
    (hspec : ∀ m₁, (∀ k, L.Mine i k → m₁ k = m k) → spec m₁ r m₁) : Commits L spec i m table r :=
  fun m₁ hm => ⟨m₁, hspec m₁ hm, hshows.congr hm, fun _ _ => rfl⟩

/-- A method that changed what is stored for one key of the shard. -/
theorem commits_put (hL : L.Lawful) {k : K} {kv : Option (K × V)} {r : R} (hk : L.Mine i k)
    (hshows : table.Shows L.hashOne (L.Mine i) (m.put k kv))
    (hspec : ∀ m₁, (∀ k, L.Mine i k → m₁ k = m k) → spec m₁ r (m₁.put k kv)) :
    Commits L spec i m table r := by
  refine fun m₁ hm => ⟨m₁.put k kv, hspec m₁ hm, hshows.congr fun k' hk' => ?_, fun k' hk' => ?_⟩
  · by_cases heq : (k' == k) = true
    · rw [Contents.put_of_beq heq, Contents.put_of_beq heq]
    · rw [Bool.not_eq_true] at heq
      rw [Contents.put_of_not_beq heq, Contents.put_of_not_beq heq, hm k' hk']
  · refine Contents.put_of_not_beq ?_
    rw [← Bool.not_eq_true]
    intro heq
    exact hk' ((hL.shard k' k heq).trans hk)

end Steps

end

/-! ## Under the guard of the shard of a key -/

section
variable {K V ε R : Type} [BEq K] {L : Layout K} {spec : Contents K V → R → Contents K V → Prop}
  {t i bucket : Nat} {c : Contents K V} {table : Table (K × V)} {key : K} {kv : K × V}

/-- Whatever else the map stores, `r` is the answer that stores `left` for the key. -/
def Ends (L : Layout K) (spec : Contents K V → R → Contents K V → Prop) (i : Nat)
    (c : Contents K V) (key : K) (r : R) (left : Option (K × V)) : Prop :=
  ∀ c₁, (∀ k, L.Mine i k → c₁ k = c k) → spec c₁ r (c₁.put key left)

abbrev Within (L : Layout K) (spec : Contents K V → R → Contents K V → Prop) (t i : Nat)
    (c : Contents K V) (p : MapMethod K V ε R) (table : Table (K × V)) : Prop :=
  Inside L (callerCode K V ε) spec t (.write i) i c p table

abbrev Lies (L : Layout K) (i : Nat) (table : Table (K × V)) (c : Contents K V) (key : K)
    (bucket : Nat) (kv : K × V) : Prop :=
  table.Located L.hashOne (L.Mine i) c key bucket kv

theorem within_unchanged {r : R} (hshows : table.Shows L.hashOne (L.Mine i) c)
    (hspec : ∀ c₁, spec c₁ r c₁) :
    Within (ε := ε) L spec t i c (.act (.dropWriteGuard i) fun _ => .ret r) table :=
  .dropWriteGuard (commits_same hshows fun c₁ _ => hspec c₁)

theorem within_drop (hL : L.Lawful) {r : R} {left : Option (K × V)}
    (hshows : table.Shows L.hashOne (L.Mine i) (c.put key left))
    (hmine : L.Mine i key) (hends : Ends L spec i c key r left) :
    Within (ε := ε) L spec t i c (.act (.dropWriteGuard i) fun _ => .ret r) table :=
  .dropWriteGuard (commits_put hL hmine hshows hends)

/-! ### A bucket in the hands of a client

What the client goes on with has to be within the section from the pair that then lies in the
bucket. -/

theorem within_read (hlies : Lies L i table c key bucket kv) {f : K × V → MapMethod K V ε R}
    (h : Within L spec t i c (f kv) table) :
    Within L spec t i c (.act (.asRef i bucket) f) table := by
  refine Inside.asRef rfl fun kv' hash hget => ?_
  obtain rfl := hlies.read hget
  exact h

theorem within_leave (hL : L.Lawful) (hlies : Lies L i table c key bucket kv) {r : R}
    (hends : Ends L spec i c key r (some kv)) :
    Within (ε := ε) L spec t i c (.act (.dropWriteGuard i) fun _ => .ret r) table :=
  within_drop hL hlies.shows hlies.mine hends

theorem within_abandon (hL : L.Lawful) {slot : Nat} {r : R}
    (hmissing : table.Missing L.hashOne (L.Mine i) c key slot)
    (hends : Ends L spec i c key r none) :
    Within (ε := ε) L spec t i c (.act (.dropWriteGuard i) fun _ => .ret r) table :=
  within_drop hL hmissing.shows hmissing.mine hends

variable [EquivBEq K]

theorem within_write (hlies : Lies L i table c key bucket kv) {value : V}
    {f : Unit → MapMethod K V ε R}
    (h : ∀ table', Lies L i table' c key bucket (kv.1, value) →
      Within L spec t i c (f ()) table') :
    Within L spec t i c (.act (.write i bucket (kv.1, value)) f) table :=
  Inside.write fun table' hrep => h table' (hlies.replaced hrep)

/-- The pair is taken out, and the client answers what it makes of it. -/
theorem within_remove (hL : L.Lawful) (hlies : Lies L i table c key bucket kv) {f : K × V → R}
    (hends : Ends L spec i c key (f kv) none) :
    Within (ε := ε) L spec t i c (.act (.remove i bucket) fun kv =>
      .act (.dropWriteGuard i) fun _ => .ret (f kv)) table := by
  refine Inside.remove fun kv' table' hrem => ?_
  obtain ⟨rfl, hshows⟩ := hlies.removed hrem
  exact within_drop hL hshows hlies.mine hends

theorem within_store {slot : Nat} {value : V} {f : Nat → MapMethod K V ε R}
    (hmissing : table.Missing L.hashOne (L.Mine i) c key slot)
    (h : ∀ table', Lies L i table' c key slot (key, value) →
      Within L spec t i c (f slot) table') :
    Within L spec t i c (.act (.insertInSlot i (L.hashOne key) slot (key, value)) f) table :=
  Inside.insertInSlot fun table' hplaced => h table' (hmissing.placed hplaced)

theorem within_reserve (hshows : table.Shows L.hashOne (L.Mine i) c) {n : Nat}
    {f : Except TryReserveError Unit → MapMethod K V ε R}
    (h : ∀ r table', table'.Shows L.hashOne (L.Mine i) c → Within L spec t i c (f r) table') :
    Within L spec t i c (.act (.tryReserve i n fun kv => L.hashOne kv.1) f) table :=
  Inside.tryReserve fun r table' hres => h r table' (hshows.tryReserve hres)

theorem within_find_slot (hL : L.Lawful) (hshows : table.Shows L.hashOne (L.Mine i) c)
    (hmine : L.Mine i key) {f : Except Nat Nat → MapMethod K V ε R}
    (hfound : ∀ table' bucket kv, table'.Shows L.hashOne (L.Mine i) c → c key = some kv →
      Lies L i table' c key bucket kv → Within L spec t i c (f (.ok bucket)) table')
    (hnone : ∀ table' slot, table'.Shows L.hashOne (L.Mine i) c → c key = none →
      table'.Missing L.hashOne (L.Mine i) c key slot →
      Within L spec t i c (f (.error slot)) table') :
    Within L spec t i c (.act (.findOrFindInsertSlot i (L.hashOne key) (fun kv => kv.1 == key)
      fun kv => L.hashOne kv.1) f) table := by
  refine Inside.findOrFindInsertSlot fun r table' hres hr => ?_
  have hshows' := hshows.reserved hres
  cases r with
  | ok bucket =>
    obtain ⟨kv, hkv, hlies⟩ := hshows'.found hmine hr
    exact hfound table' bucket kv hshows' hkv hlies
  | error slot =>
    have hmiss := hshows'.not_found hmine hL.hash hr.1
    exact hnone table' slot hshows' hmiss (hshows'.missing hmine hmiss hr.2)

end

/-! ## Clients -/

section
variable {K V ε R : Type} [BEq K] {L : Layout K} {C : Type} {CRes : C → Type}
  {Does : Contents K V → (call : C) → CRes call → Contents K V → Prop}
  {method : (call : C) → MapMethod K V ε (CRes call)} {s : State (K × V) Unit} {c : Contents K V}

/-- Clients whose methods are served are clients of one map whose calls are one step each. -/
theorem one_map_of_clients
    (hserved : ∀ t call, FromIdle L (callerCode K V ε) (fun c r c' => Does c call r c') t
      (method call))
    {clients : Nat → Option (Prog C CRes R)} (hs : s.Unlocked)
    (hc : ∀ i, (s.table i).Shows L.hashOne (L.Mine i) c)
    {es : List (Nat × Event (Act (K × V) Unit (Code K V ε)) (Act.Res (callerCode K V ε)) R)}
    {pool : Pool (State (K × V) Unit) (Act (K × V) Unit (Code K V ε))
      (Act.Res (callerCode K V ε)) R}
    (hrun : Transition.Run (Step (Sem (callerCode K V ε)) NoCalls)
      ⟨s, fun t => (clients t).map (·.expand method)⟩ es pool) :
    ∃ ces cpool, Transition.Run (Step (fun _ => Does) NoCalls) ⟨c, clients⟩ ces cpool ∧
      Traced es ces ∧
      (∀ i, pool.shared.writer i = none →
        (pool.shared.table i).Shows L.hashOne (L.Mine i) cpool.shared) ∧
      ((∀ t, pool.prog t = none) → pool.shared.Unlocked ∧ ∀ t, cpool.prog t = none) := by
  have hstart : Consistent L s c := ⟨fun i _ => hc i, fun i => .inl (hs.writer i)⟩
  obtain ⟨ces, cpool, hces, htraced, hinv, hdone⟩ := refines_calls
    (fun t call τ hcons hidle => hserved t call τ hcons hidle)
    sharding_rests hstart (fun t => HoldsOnly.of_unlocked hs) hrun
  refine ⟨ces, cpool, hces, htraced, hinv.shows, fun hall => ⟨⟨fun i => ?_, fun i => ?_⟩,
    fun t => (hdone t (hall t)).2⟩⟩
  · cases hw : pool.shared.writer i with
    | none => rfl
    | some t => cases ((hdone t (hall t)).1.write i).mp hw
  · refine Finset.eq_empty_of_forall_notMem fun t ht => ?_
    cases ((hdone t (hall t)).1.read i).mp ht

end

end Rustyfill.Maps
