import Rustyfill.Maps.Iteration

/-!
# Runs of an iterator of `ConcurrentHashMap`

Any calls of `next`, `unstall` and `set_auto_unstall`, under any schedule of failures, with
writes through the references of `IterMut` between them.
-/

namespace Rustyfill.ConcurrentHashMap

open RawHash Transition Resumable

set_option autoImplicit false

variable {K V R : Type}

/-- The guards of an iterator: the items it makes, and whether they can be written through. -/
structure Guards (R : Type) where
  item : Nat → Nat → R
  writes : Bool

def Iter.guards : Guards RefMulti := ⟨RefMulti.mk, false⟩

def IterMut.guards : Guards RefMutMulti := ⟨RefMutMulti.mk, true⟩

/-- `stalled` says that the last call of `next` or `unstall` was a `next` that failed. -/
structure Session (K V : Type) where
  tables : Nat → Table (K × V)
  it : Iter
  alloc : Allocator
  stalled : Bool

namespace Session

inductive Op (V : Type) where
  | next
  | unstall
  | setAutoUnstall (auto : Bool)
  | write (shard bucket : Nat) (f : V → V)

inductive Answer (R : Type) where
  | item (res : Option (Except IterError R))
  | discarded (b : Bool)
  | unit

def start (tables : Nat → Table (K × V)) (a : Allocator) : Session K V := ⟨tables, .new, a, false⟩

def failed : Option (Except IterError R) → Bool
  | some (.error _) => true
  | _ => false

inductive Call (g : Guards R) (m : ConcurrentHashMap K) (s : Session K V) :
    Op V × Answer R → Session K V → Prop where
  | next {res : Option (Except IterError R)} {it' : Iter} {a' : Allocator}
      (h : s.it.nextWith g.item m s.tables s.alloc = .ok (res, it', a')) :
      Call g m s (.next, .item res) { s with it := it', alloc := a', stalled := failed res }
  | unstall {b : Bool} {it' : Iter} (h : s.it.unstall m = .ok (b, it')) :
      Call g m s (.unstall, .discarded b) { s with it := it', stalled := false }
  | setAutoUnstall (auto : Bool) :
      Call g m s (.setAutoUnstall auto, .unit) { s with it := s.it.setAutoUnstall auto }
  | write {i b : Nat} {f : V → V} {hash : UInt64} {k : K} {v : V} {table : Table (K × V)}
      (hg : g.writes = true) (hget : (s.tables i).buckets[b]? = some (some (hash, (k, v))))
      (hset : (s.tables i).Replaced b (k, f v) table) :
      Call g m s (.write i b f, .unit) { s with tables := Function.update s.tables i table }

def remaining (m : ConcurrentHashMap K) (s : Session K V) : List (Nat × Nat) :=
  s.it.remaining m s.tables

/-- What the documentation promises of a call: which part of what is left it takes, by yielding
it or by saying that it discards it. -/
inductive Honest (g : Guards R) (m : ConcurrentHashMap K) (s s' : Session K V) :
    Op V × Answer R → List (Nat × Nat) → Prop where
  | item {i b : Nat} (h : s.remaining m = (i, b) :: s'.remaining m) :
      Honest g m s s' (.next, .item (some (.ok (g.item i b)))) [(i, b)]
  | stall {e : IterError} (hauto : s.it.autoUnstall = false)
      (h : s'.remaining m = s.remaining m) :
      Honest g m s s' (.next, .item (some (.error e))) []
  | bucket {e : IterError} {p : Nat × Nat} (hauto : s.it.autoUnstall = true)
      (h : s.remaining m = p :: s'.remaining m) :
      Honest g m s s' (.next, .item (some (.error e))) [p]
  | shard {e : IterError} {i : Nat} (hauto : s.it.autoUnstall = true)
      (h : s.remaining m = shardEntries s.tables i ++ s'.remaining m) :
      Honest g m s s' (.next, .item (some (.error e))) (shardEntries s.tables i)
  | done (h : s.remaining m = []) (h' : s'.remaining m = []) :
      Honest g m s s' (.next, .item none) []
  | unstalled (hstalled : s.stalled = true)
      (h : s.remaining m = s.it.stalledOn s.tables ++ s'.remaining m) :
      Honest g m s s' (.unstall, .discarded true) (s.it.stalledOn s.tables)
  | idle (hstalled : s.stalled = false) (h : s'.it = s.it) (h' : s'.tables = s.tables) :
      Honest g m s s' (.unstall, .discarded false) []
  | other {op : Op V} (h : s'.remaining m = s.remaining m) : Honest g m s s' (op, .unit) []

/-- `unstall` is not called between two shards, unless the iterator is stalled there, and no
failure strikes in auto-unstall mode. -/
def Sound (m : ConcurrentHashMap K) (s : Session K V) : Op V → Prop
  | .next => s.it.autoUnstall = true → s.it.Granted m s.tables s.alloc
  | .unstall => s.stalled = true ∨ s.it.current.isSome = true ∨ m.shardCount ≤ s.it.shardIdx
  | _ => True

/-! ## One call -/

variable {g : Guards R} {m : ConcurrentHashMap K} {s s' : Session K V} {c : Op V × Answer R}

structure Inv (m : ConcurrentHashMap K) (s : Session K V) : Prop where
  within : s.it.Within m
  stalled : s.stalled = true → s.it.Stalled m
  settled : s.stalled = false → s.it.Settled

theorem start_inv (tables : Nat → Table (K × V)) (a : Allocator) : Inv m (start tables a) where
  within := fun li hli => by simp [start, Iter.new] at hli
  stalled := fun h => by simp [start] at h
  settled := fun _ li hli => by simp [start, Iter.new] at hli

theorem Honest.remaining_eq {piece : List (Nat × Nat)} (h : Honest g m s s' c piece) :
    s.remaining m = piece ++ s'.remaining m := by
  cases h with
  | item h => exact h
  | stall hauto h => exact h.symm
  | bucket hauto h => exact h
  | shard hauto h => exact h
  | done h h' => rw [h, h', List.append_nil]
  | unstalled hstalled h => exact h
  | idle hstalled h h' => rw [remaining, remaining, h, h', List.nil_append]
  | other h => exact h.symm

theorem next_call (hcount : m.shardCount ≤ usizeMax) (hinv : Inv m s)
    (hsound : s.Sound m (.next : Op V)) : ∃ res it' a',
      s.it.nextWith g.item m s.tables s.alloc = .ok (res, it', a') ∧
      Iter.Kept m s.it s.alloc it' a' ∧ Iter.Answered g.item m s.tables s.it s.alloc it' a' res :=
  Iter.nextWith_spec hcount hinv.within hsound

theorem unstall_call (hcount : m.shardCount ≤ usizeMax) (hinv : Inv m s)
    (hsound : s.Sound m (.unstall : Op V)) : ∃ b it', s.it.unstall m = .ok (b, it') ∧
      it'.Within m ∧ it'.Settled ∧ ((b = true ∧ s.stalled = true ∧
        s.remaining m = s.it.stalledOn s.tables ++ it'.remaining m s.tables) ∨
      b = false ∧ s.stalled = false ∧ it' = s.it) := by
  cases hstalled : s.stalled with
  | true =>
    obtain ⟨it', hok, hwithin, hsettled, hrem⟩ :=
      Iter.unstall_stalled s.tables hcount hinv.within (hinv.stalled hstalled)
    exact ⟨true, it', hok, hwithin, hsettled, Or.inl ⟨rfl, rfl, hrem⟩⟩
  | false =>
    have hsettled := hinv.settled hstalled
    rw [Sound, hstalled] at hsound
    have hok := Iter.unstall_settled hsettled (by simpa using hsound)
    exact ⟨false, s.it, hok, hinv.within, hsettled, Or.inr ⟨rfl, rfl, rfl⟩⟩

theorem Answered.call {res : Option (Except IterError R)} {it' : Iter} {a' : Allocator}
    (hanswered : Iter.Answered g.item m s.tables s.it s.alloc it' a' res)
    (hwithin : it'.Within m) :
    Inv m { s with it := it', alloc := a', stalled := failed res } ∧
      ∃ piece, Honest g m s { s with it := it', alloc := a', stalled := failed res }
        (.next, .item res) piece := by
  cases hanswered with
  | item hsettled hrem =>
    exact ⟨⟨hwithin, fun h => by simp [failed] at h, fun _ => hsettled⟩, _, .item hrem⟩
  | stall hdefault hrem hstalled hcloser =>
    exact ⟨⟨hwithin, fun _ => hstalled, fun h => by simp [failed] at h⟩, _, .stall hdefault hrem⟩
  | done hnone hrem hrem' =>
    refine ⟨⟨hwithin, fun h => by simp [failed] at h, fun _ li hli => ?_⟩, _, .done hrem hrem'⟩
    rw [hnone] at hli
    simp at hli

theorem Call.honest (hcount : m.shardCount ≤ usizeMax) (hinv : Inv m s) (hc : Call g m s c s')
    (hsound : s.Sound m c.1) : Inv m s' ∧ ∃ piece, Honest g m s s' c piece := by
  cases hc with
  | next h =>
    obtain ⟨res, it', a', hok, hkept, hanswered⟩ := next_call (g := g) hcount hinv hsound
    obtain ⟨rfl, rfl, rfl⟩ : _ = res ∧ _ = it' ∧ _ = a' := by simpa using h.symm.trans hok
    exact Answered.call hanswered hkept.within
  | unstall h =>
    obtain ⟨b, it', hok, hwithin, hsettled, hcase⟩ := unstall_call hcount hinv hsound
    obtain ⟨rfl, rfl⟩ : _ = b ∧ _ = it' := by simpa using h.symm.trans hok
    refine ⟨⟨hwithin, fun h => by simp at h, fun _ => hsettled⟩, ?_⟩
    rcases hcase with ⟨rfl, hstalled, hrem⟩ | ⟨rfl, hstalled, rfl⟩
    · exact ⟨_, .unstalled hstalled hrem⟩
    · exact ⟨_, .idle hstalled rfl rfl⟩
  | setAutoUnstall auto => exact ⟨⟨hinv.within, hinv.stalled, hinv.settled⟩, _, .other rfl⟩
  | @write i b f hash k v table hg hget hset =>
    refine ⟨⟨hinv.within, hinv.stalled, hinv.settled⟩, _, .other ?_⟩
    apply remaining_congr
    intro j
    dsimp only
    by_cases hj : j = i
    · subst hj
      rw [Function.update_self]
      exact hset.places_eq
    · rw [Function.update_of_ne hj]

/-! ## Runs -/

/-- A call with the part that it takes. -/
def Accounted (g : Guards R) (m : ConcurrentHashMap K) (s : Session K V)
    (e : (Op V × Answer R) × List (Nat × Nat)) (s' : Session K V) : Prop :=
  Call g m s e.1 s' ∧ Honest g m s s' e.1 e.2

abbrev SoundCall (g : Guards R) (m : ConcurrentHashMap K) :
    Session K V → Op V × Answer R → Session K V → Prop :=
  Guarded (Call g m) fun s c => s.Sound m c.1

theorem accounted_of_run {calls : List (Op V × Answer R)} (hcount : m.shardCount ≤ usizeMax)
    (hinv : Inv m s) (hr : Run (SoundCall g m) s calls s') : Inv m s' ∧ ∃ log,
      log.map Prod.fst = calls ∧ Run (Accounted g m) s log s' ∧
      s.remaining m = log.flatMap Prod.snd ++ s'.remaining m := by
  induction hr with
  | nil s => exact ⟨hinv, [], rfl, .nil s, rfl⟩
  | cons hc _ ih =>
    obtain ⟨hsound, hcall⟩ := hc
    obtain ⟨hinv₁, piece, hhonest⟩ := Call.honest hcount hinv hcall hsound
    obtain ⟨hinv', log, hlog, hrun, hrem⟩ := ih hinv₁
    refine ⟨hinv', (_, piece) :: log, ?_, .cons ⟨hcall, hhonest⟩ hrun, ?_⟩
    · rw [List.map_cons, hlog]
    · rw [hhonest.remaining_eq, hrem, List.flatMap_cons, List.append_assoc]

/-- A call of `next` in the default mode, after any writes through earlier items. -/
def Asked (g : Guards R) (m : ConcurrentHashMap K) (s : Session K V)
    (res : Option (Except IterError R)) (s' : Session K V) : Prop :=
  ∃ writes s₁, Run (Guarded (Call g m) fun _ c => ∃ i b f, c.1 = Op.write i b f) s writes s₁ ∧
    Call g m s₁ (.next, .item res) s'

/-- In the default mode: what an iterator is to yield, and the state it keeps. -/
structure Plain (m : ConcurrentHashMap K) (s : Session K V) : Prop extends Inv m s where
  default : s.it.autoUnstall = false

def items (g : Guards R) (m : ConcurrentHashMap K) (s : Session K V) : List R :=
  (s.remaining m).map fun p => g.item p.1 p.2

/-- Writes through items change neither what is left nor the iterator. -/
theorem writes_eq {writes : List (Op V × Answer R)} (hcount : m.shardCount ≤ usizeMax)
    (h : Plain m s)
    (hr : Run (Guarded (Call g m) fun _ c => ∃ i b f, c.1 = Op.write i b f) s writes s') :
    Plain m s' ∧ s'.remaining m = s.remaining m := by
  induction hr with
  | nil s => exact ⟨h, rfl⟩
  | cons hc _ ih =>
    obtain ⟨⟨i, b, f, hop⟩, hcall⟩ := hc
    obtain ⟨hinv, piece, hhonest⟩ :=
      Call.honest hcount h.toInv hcall (by rw [hop]; trivial)
    cases hcall with
    | write hg hget hset =>
      obtain ⟨hplain, hrem⟩ := ih ⟨hinv, h.default⟩
      refine ⟨hplain, hrem.trans ?_⟩
      cases hhonest with
      | other hrem' => exact hrem'
    | next => simp at hop
    | unstall => simp at hop
    | setAutoUnstall => simp at hop

theorem next_spec (hcount : m.shardCount ≤ usizeMax) (h : Plain m s)
    {res : Option (Except IterError R)} (hc : Call g m s (.next, .item res) s') :
    Plain m s' ∧ s'.tables = s.tables ∧ s'.alloc.grants = s.alloc.grants ∧
      Iter.Answered g.item m s.tables s.it s.alloc s'.it s'.alloc res := by
  have hsound : s.Sound m (.next : Op V) := by
    intro hauto
    rw [h.default] at hauto
    simp at hauto
  obtain ⟨hinv, -⟩ := Call.honest hcount h.toInv hc hsound
  cases hc with
  | next hnext =>
    obtain ⟨res', it', a', hok, hkept, hanswered⟩ := next_call (g := g) hcount h.toInv hsound
    obtain ⟨rfl, rfl, rfl⟩ : _ = res' ∧ _ = it' ∧ _ = a' := by simpa using hnext.symm.trans hok
    exact ⟨⟨hinv, hkept.auto_eq.trans h.default⟩, rfl, hkept.grants_eq, hanswered⟩

theorem asked_accounts (hcount : m.shardCount ≤ usizeMax) :
    Accounts (Asked g m) (fun r => [r]) (Plain (V := V) m) (items g m) := by
  refine ⟨?_, ?_, ?_⟩
  · rintro s r t h ⟨writes, s₁, hwrites, hc⟩
    obtain ⟨h₁, hrem₁⟩ := writes_eq hcount h hwrites
    obtain ⟨ht, htables, -, hanswered⟩ := next_spec hcount h₁ hc
    refine ⟨ht, ?_⟩
    cases hanswered with
    | item hsettled hrem =>
      rw [items, ← hrem₁, remaining, hrem, items, remaining, htables]
      rfl
  · rintro s e t h ⟨writes, s₁, hwrites, hc⟩
    obtain ⟨h₁, hrem₁⟩ := writes_eq hcount h hwrites
    obtain ⟨ht, htables, -, hanswered⟩ := next_spec hcount h₁ hc
    refine ⟨ht, ?_⟩
    cases hanswered with
    | stall hdefault hrem hstalled hcloser =>
      rw [items, ← hrem₁, remaining, ← hrem, items, remaining, htables]
  · rintro s t h ⟨writes, s₁, hwrites, hc⟩
    obtain ⟨h₁, hrem₁⟩ := writes_eq hcount h hwrites
    obtain ⟨ht, htables, -, hanswered⟩ := next_spec hcount h₁ hc
    refine ⟨ht, ?_⟩
    cases hanswered with
    | done hnone hrem hrem' =>
      rw [items, items, ← hrem₁, remaining, hrem, remaining, htables, hrem']
      exact ⟨rfl, rfl⟩

/-- How much the iterator has still to ask for. -/
def size (m : ConcurrentHashMap K) (s : Session K V) : Nat :=
  2 * (s.remaining m).length + s.it.asks m s.tables

theorem asks_le (it : Iter) (tables : Nat → Table (K × V)) : it.asks m tables ≤ 2 := by
  unfold Iter.asks
  split
  · exact Nat.zero_le _
  · split
    · split <;> decide
    · exact Nat.le_refl 2

theorem asks_pos {it : Iter} {tables : Nat → Table (K × V)} (h : it.remaining m tables ≠ []) :
    0 < it.asks m tables := by
  rw [Iter.asks, if_neg h]
  split
  · split <;> decide
  · decide

/-- In the default mode, a fair schedule lets the iterator come to its end. -/
theorem exists_end (hcount : m.shardCount ≤ usizeMax) (tables : Nat → Table (K × V))
    (a : Allocator) (hfair : a.Fair) :
    ∃ es t, Run (Asked g m) (start tables a) es t ∧ none ∈ es := by
  have hasked : ∀ {s t : Session K V} {res : Option (Except IterError R)},
      Call g m s (.next, .item res) t → Asked g m s res t :=
    fun hc => ⟨[], _, .nil _, hc⟩
  have haccounts := asked_accounts (g := g) (V := V) hcount
  have hfairly : Accounts (fun s res t => Call g m s (.next, .item res) t) (fun r => [r])
      (fun s : Session K V => Plain m s ∧ s.alloc.Fair) (items g m) := by
    have hkeep : ∀ {s t : Session K V} {res : Option (Except IterError R)}, Plain m s ∧
      s.alloc.Fair →
        Call g m s (.next, .item res) t → t.alloc.Fair := by
      intro s t res hs hc n
      rw [(next_spec hcount hs.1 hc).2.2.1]
      exact hs.2 n
    refine ⟨fun hs hc => ?_, fun hs hc => ?_, fun hs hc => ?_⟩
    · obtain ⟨ht, hrem⟩ := haccounts.item hs.1 (hasked hc)
      exact ⟨⟨ht, hkeep hs hc⟩, hrem⟩
    · obtain ⟨ht, hrem⟩ := haccounts.failure hs.1 (hasked hc)
      exact ⟨⟨ht, hkeep hs hc⟩, hrem⟩
    · obtain ⟨ht, hrem⟩ := haccounts.done hs.1 (hasked hc)
      exact ⟨⟨ht, hkeep hs hc⟩, hrem⟩
  have htotal : ∀ s : Session K V, Plain m s ∧ s.alloc.Fair →
      ∃ res t, Call g m s (.next, .item res) t := by
    rintro s ⟨hs, -⟩
    have hsound : s.Sound m (.next : Op V) := by
      intro hauto
      rw [hs.default] at hauto
      simp at hauto
    obtain ⟨res, it', a', hok, -, -⟩ := next_call (g := g) hcount hs.toInv hsound
    exact ⟨res, _, .next hok⟩
  have hless : ∀ (s : Session K V) e t, Plain m s ∧ s.alloc.Fair →
      Call g m s (.next, .item (some e)) t → size m t < size m s ∨
        size m t = size m s ∧ t.alloc.wait < s.alloc.wait := by
    rintro s e t ⟨hs, hsfair⟩ hc
    obtain ⟨-, htables, hgrants, hanswered⟩ := next_spec hcount hs hc
    rw [size, size, remaining, remaining, htables]
    cases hanswered with
    | item hsettled hrem =>
      have hle := asks_le (m := m) t.it s.tables
      have hpos := asks_pos (hrem ▸ List.cons_ne_nil _ _)
      rw [hrem, List.length_cons]
      left
      omega
    | stall hdefault hrem hstalled hcloser =>
      rw [hrem]
      rcases hcloser with hfewer | ⟨heq, hrefused, halloc⟩
      · left
        omega
      · right
        refine ⟨by rw [heq], ?_⟩
        rw [halloc]
        exact Allocator.wait_request hsfair hrefused
  have hstart : Plain m (start tables a) := ⟨start_inv tables a, rfl⟩
  obtain ⟨es, t, hr, hnone⟩ :=
    hfairly.exists_none htotal (size m) (fun s => s.alloc.wait) hless ⟨hstart, hfair⟩
  exact ⟨es, t, hr.mono fun _ _ _ hc => hasked hc, hnone⟩

/-! ## What the iterators can be relied on for -/

/-- The entries of the map, each once. -/
structure Covers (m : ConcurrentHashMap K) (tables : Nat → Table (K × V))
    (l : List (Nat × Nat)) : Prop where
  nodup : l.Nodup
  mem_iff : ∀ i b, (i, b) ∈ l ↔ i < m.shardCount ∧ ∃ e, (tables i).buckets[b]? = some (some e)

theorem entries_cover (m : ConcurrentHashMap K) (tables : Nat → Table (K × V)) :
    Covers m tables (m.entriesFrom tables 0) where
  nodup := entriesFrom_nodup
  mem_iff := fun i b => by simp [mem_entriesFrom]

/-- `log`: every call under the condition takes what it yields or says that it discards, so that
all the calls together with what is left cover the map; nothing is left after `None`. `once` and
`ends`: in the default mode the items up to `None` are the entries, each once, and `None` comes
unless requests are refused for ever. -/
structure Dependable (g : Guards R) (m : ConcurrentHashMap K) (tables : Nat → Table (K × V))
    (a : Allocator) : Prop where
  log : ∀ calls s, Run (SoundCall g m) (start tables a) calls s →
    ∃ log, log.map Prod.fst = calls ∧ Run (Accounted g m) (start tables a) log s ∧
      Covers m tables (log.flatMap Prod.snd ++ s.remaining m)
  once : ∀ es s, Run (Asked g m) (start tables a) es s → none ∈ es →
    ∃ l, yielded (fun r => [r]) es = l.map (fun p => g.item p.1 p.2) ∧ Covers m tables l
  ends : a.Fair → ∃ es s, Run (Asked g m) (start tables a) es s ∧ none ∈ es

theorem dependable (g : Guards R) (hcount : m.shardCount ≤ usizeMax)
    (tables : Nat → Table (K × V)) (a : Allocator) : Dependable g m tables a where
  log := fun calls s hr => by
    obtain ⟨-, log, hlog, hrun, hrem⟩ := accounted_of_run hcount (start_inv tables a) hr
    refine ⟨log, hlog, hrun, ?_⟩
    rw [← hrem]
    exact entries_cover m tables
  once := fun es s hr hnone =>
    ⟨m.entriesFrom tables 0, (asked_accounts hcount).yielded_of_none hr
      ⟨start_inv tables a, rfl⟩ hnone, entries_cover m tables⟩
  ends := exists_end hcount tables a

/-- Both iterators can be relied on, where `unstall` is not called between shards and no failure
strikes in auto-unstall mode. -/
theorem iterators_dependable (m : ConcurrentHashMap K) (hcount : m.shardCount ≤ usizeMax)
    (tables : Nat → Table (K × V)) (a : Allocator) :
    Dependable Iter.guards m tables a ∧ Dependable IterMut.guards m tables a :=
  ⟨dependable _ hcount tables a, dependable _ hcount tables a⟩

def twoShards : ConcurrentHashMap Nat := ⟨2, 63, fun _ => 0⟩

def oneEntry (i : Nat) : Table (Nat × Nat) :=
  if i = 0 then ⟨[some (0, (1, 7))], 0, Nat.zero_le _⟩ else ⟨[none], 1, Nat.le_refl 1⟩

theorem twoShards_dependable :
    Dependable Iter.guards twoShards oneEntry ⟨fun n => n % 2 == 0, 0⟩ ∧
      Dependable IterMut.guards twoShards oneEntry ⟨fun n => n % 2 == 0, 0⟩ :=
  iterators_dependable twoShards (by decide) oneEntry _

/-- A shard is discarded silently by `unstall` on a fresh iterator, and by `next` in auto-unstall
mode. -/
theorem twoShards_silent :
    (¬ ∀ a calls s, Run (Call Iter.guards twoShards) (start oneEntry a) calls s →
      (∀ c ∈ calls, c.1 = .unstall) →
      ∃ log, log.map Prod.fst = calls ∧ Run (Accounted Iter.guards twoShards) (start oneEntry a)
        log s) ∧
    ¬ ∀ a calls s, Run (Call Iter.guards twoShards) (start oneEntry a) calls s →
      (∀ c ∈ calls, c.1 ≠ .unstall) →
      ∃ log, log.map Prod.fst = calls ∧
        Run (Accounted Iter.guards twoShards) (start oneEntry a) log s := by
  constructor
  · intro hclaim
    obtain ⟨log, hlog, hrun⟩ := hclaim ⟨fun _ => true, 0⟩ [(.unstall, .discarded true)] _
      (.single (.unstall rfl)) (by simp)
    obtain ⟨⟨c, piece⟩, rfl, he⟩ := List.map_eq_singleton_iff.mp hlog
    obtain rfl : c = _ := he
    cases hrun with
    | cons hc hrest =>
      cases hc.2 with
      | unstalled hstalled h => simp [start] at hstalled
  · intro hclaim
    obtain ⟨log, hlog, hrun⟩ := hclaim ⟨fun _ => false, 0⟩
      [(.setAutoUnstall true, .unit), (.next, .item none)] _
      (.cons (.setAutoUnstall true) (.single (.next rfl))) (by simp)
    obtain ⟨⟨c, piece⟩, log', rfl, he, hlog'⟩ := List.map_eq_cons_iff.mp hlog
    obtain ⟨⟨c', piece'⟩, rfl, he'⟩ := List.map_eq_singleton_iff.mp hlog'
    obtain rfl : c = _ := he
    obtain rfl : c' = _ := he'
    cases hrun with
    | cons hc hrest =>
      cases hc.1 with
      | setAutoUnstall =>
        cases hrest with
        | cons hc' _ =>
          cases hc'.2 with
          | done h _ =>
            have hmem : (0, 0) ∈ twoShards.entriesFrom oneEntry 0 := by
              rw [mem_entriesFrom]
              exact ⟨by decide, _, rfl⟩
            have hnil : twoShards.entriesFrom oneEntry 0 = [] := h
            rw [hnil] at hmem
            simp at hmem

end Session

end Rustyfill.ConcurrentHashMap
