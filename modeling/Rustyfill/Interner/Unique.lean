import Rustyfill.Interner.Invariant

/-!
# One live allocation for each value

The calls of the interner follow the discipline of its stages, so every run whose steps are
sound keeps the invariant, and a call returns the allocation that is alive for its value. The
rehash closure of `intern` hashes the stored hash once more, so growth is sound only where
that gives the stored hash back; where it does not, a value interned before is not found again.
-/

namespace Rustyfill.Interner

open Maps RawHash Interleaving Transition

set_option autoImplicit false

section
variable {Val R S : Type} [BEq Val] (n : Interner Val)

/-- `m` follows the stages from `h`, and ends as `Q` says. -/
abbrev Proceeds (h : Progress Val) (m : InternMethod Val R) (Q : Progress Val → R → Prop) : Prop :=
  m.Follows (discipline n) Q h

variable {n} {h : Progress Val} {i : Nat}

theorem Proceeds.bind {m : InternMethod Val R} {f : R → InternMethod Val S}
    {Q : Progress Val → R → Prop} {Q' : Progress Val → S → Prop} (hm : n.Proceeds h m Q)
    (hf : ∀ h' r, Q h' r → n.Proceeds h' (f r) Q') : n.Proceeds h (m >>= f) Q' :=
  Prog.follows_bind.mpr (hm.mono hf)

theorem pruneBuckets_proceeds (l : List (Nat × UInt64 × Nat)) :
    n.Proceeds ⟨.write i, .pruning l⟩ (pruneBuckets i l)
      fun h _ => h = ⟨.write i, .pruning []⟩ := by
  induction l with
  | nil => rfl
  | cons b l ih =>
    obtain ⟨bucket, key, weak⟩ := b
    refine ⟨⟨trivial, .inr ⟨bucket, key, l, rfl⟩⟩, fun r => ?_⟩
    match r with
    | .ok (some arc) => exact ⟨⟨trivial, l, rfl⟩, fun _ => ih⟩
    | .ok none => exact ⟨⟨rfl, (key, weak), l, rfl⟩, fun _ => ih⟩
    | .error () => exact ⟨⟨rfl, (key, weak), l, rfl⟩, fun _ => ih⟩

theorem pruneShards_proceeds (is : List Nat) :
    n.Proceeds .idle (pruneShards is) fun h _ => h = .idle := by
  induction is with
  | nil => rfl
  | cons i is ih =>
    refine ⟨⟨rfl, rfl⟩, fun locked => ?_⟩
    cases locked with
    | false => exact ih
    | true =>
      refine ⟨⟨.inr rfl, rfl, rfl⟩, fun buckets => ?_⟩
      refine (pruneBuckets_proceeds buckets).bind ?_
      rintro _ _ rfl
      exact ⟨⟨rfl, rfl⟩, fun _ => ih⟩

theorem maybePruneAllMaps_proceeds :
    n.Proceeds .idle n.maybePruneAllMaps fun h _ => h = .idle := by
  refine ⟨⟨trivial, rfl⟩, fun prevTotal => ?_⟩
  simp only [Prog.bind]
  split
  · exact pruneShards_proceeds _
  · rfl

def Stage.looked (hash : UInt64) (v : Val) : Option (Nat × UInt64 × Option Nat) → Stage Val
  | none => .absent hash (matches_ v)
  | some (bucket, key, none) => .stale hash (matches_ v) bucket key
  | some (_, _, some arc) => .holding (matches_ v) arc

theorem lookup_proceeds {held : Held} (v : Val) (hguard : Guards held (n.shardOf v)) :
    n.Proceeds ⟨held, .rest⟩ (lookup (n.shardOf v) (n.hashBorrowed v) v)
      fun h r => h = ⟨held, .looked (n.hashBorrowed v) v r⟩ := by
  refine ⟨⟨hguard, rfl, v, rfl, rfl, rfl⟩, fun found => ?_⟩
  cases found with
  | none => rfl
  | some bucket =>
    refine ⟨⟨hguard, _, _, rfl, rfl⟩, fun kv => ⟨⟨trivial, .inl ⟨_, _, _, _, rfl⟩⟩, fun r => ?_⟩⟩
    match r with
    | .ok (some arc) => rfl
    | .ok none => rfl
    | .error () => rfl

/-- What a call for `v` has in hand when it has come to an `Arc`. -/
def Progress.having (v : Val) : Option Nat → Progress Val
  | none => .idle
  | some arc => ⟨.none, .holding (matches_ v) arc⟩

theorem fastPath_proceeds (v : Val) :
    n.Proceeds .idle (n.fastPath v) fun h r => h = .having v r := by
  refine ⟨⟨rfl, rfl⟩, fun _ => ?_⟩
  refine (lookup_proceeds v (.inl rfl)).bind ?_
  rintro _ found rfl
  match found with
  | some (_, _, some arc) => exact ⟨⟨rfl, rfl⟩, fun _ => rfl⟩
  | some (_, _, none) => exact ⟨⟨rfl, rfl⟩, fun _ => rfl⟩
  | none => exact ⟨⟨rfl, rfl⟩, fun _ => rfl⟩

theorem slowPath_proceeds (v : Val) :
    n.Proceeds .idle (n.slowPath v) fun h r => h = .having v r.toOption := by
  refine ⟨⟨rfl, rfl⟩, fun _ => ⟨⟨rfl, rfl, rfl⟩, fun r => ?_⟩⟩
  cases r with
  | error e => exact ⟨⟨rfl, rfl⟩, fun _ => rfl⟩
  | ok u =>
    refine (lookup_proceeds v (.inr rfl)).bind ?_
    rintro _ found rfl
    match found with
    | some (_, _, some arc) => exact ⟨⟨rfl, rfl⟩, fun _ => rfl⟩
    | some (bucket, key, none) =>
      refine ⟨⟨trivial, ⟨_, rfl⟩, _, .inr ⟨bucket, key, rfl⟩⟩, fun r => ?_⟩
      cases r with
      | error e => exact ⟨⟨rfl, rfl⟩, fun _ => rfl⟩
      | ok arc => exact ⟨⟨rfl, v, rfl, rfl⟩, fun _ => ⟨⟨rfl, rfl⟩, fun _ => rfl⟩⟩
    | none =>
      refine ⟨⟨trivial, ⟨_, rfl⟩, _, .inl rfl⟩, fun r => ?_⟩
      cases r with
      | error e => exact ⟨⟨rfl, rfl⟩, fun _ => rfl⟩
      | ok arc => exact ⟨⟨rfl, v, rfl, rfl, rfl, rfl⟩, fun _ => ⟨⟨rfl, rfl⟩, fun _ => rfl⟩⟩

theorem doInternWithKey_proceeds (v : Val) :
    n.Proceeds .idle (n.doInternWithKey v) fun h r => h = .having v r.toOption := by
  refine (fastPath_proceeds v).bind ?_
  rintro _ found rfl
  cases found with
  | some arc => rfl
  | none => exact slowPath_proceeds v

theorem intern_proceeds (v : Val) : n.Proceeds .idle (n.intern v) Ends := by
  refine maybePruneAllMaps_proceeds.bind ?_
  rintro _ _ rfl
  refine (doInternWithKey_proceeds v).bind ?_
  rintro _ r rfl
  cases r with
  | error e => rfl
  | ok arc => exact ⟨⟨trivial, rfl⟩, fun _ => rfl⟩

/-- What the clients of the interner run: calls of `intern`, pruning on behalf of another of
the four maps, and clones and drops of the `Arc`s they were given. -/
inductive Call (n : Interner Val) :
    InternMethod Val (Except TryToOwnedError (Option Nat)) → Prop where
  | intern (v : Val) : Call n (Except.map some <$> n.intern v)
  | prune : Call n (n.pruneUnlockedShards >>= fun _ => return .ok none)
  | cloneByCaller (arc : Nat) : Call n (cloneByCaller arc >>= fun _ => return .ok none)
  | dropByCaller (arc : Nat) : Call n (dropByCaller arc >>= fun _ => return .ok none)

theorem Call.proceeds {p : InternMethod Val (Except TryToOwnedError (Option Nat))}
    (hp : Call n p) : n.Proceeds .idle p Ends := by
  cases hp with
  | intern v => exact (intern_proceeds v).bind fun _ _ hend => hend
  | prune => exact (pruneShards_proceeds _).bind fun _ _ hend => hend
  | cloneByCaller | dropByCaller => exact ⟨⟨trivial, rfl⟩, fun _ => rfl⟩

/-- In any run of any number of clients whose steps are sound, from empty tables, no two live
allocations hold equal values; and a call for a value returns an allocation that holds an
equal value, is alive, and is the only one alive for it. -/
theorem interned_once [EquivBEq Val] {s : State (UInt64 × Nat) (Arcs Val)}
    {es : List (Nat × Event (Act (UInt64 × Nat) (Arcs Val) (ArcAct Val)) (Act.Res (handles Val))
      (Except TryToOwnedError (Option Nat)))}
    {pool : Pool (State (UInt64 × Nat) (Arcs Val)) (Act (UInt64 × Nat) (Arcs Val) (ArcAct Val))
      (Act.Res (handles Val)) (Except TryToOwnedError (Option Nat))}
    (hunlocked : s.Unlocked) (hentries : ∀ i, (s.table i).entries = []) (hcells : s.ext.cells = [])
    (hrun : Run (Step (Meets Sound) (Call n)) ⟨s, fun _ => none⟩ es pool) :
    (∀ a b v w, pool.shared.ext.Live a v → pool.shared.ext.Live b w → v == w → a = b) ∧
      ∀ t v arc pool', Step (Meets Sound) (Call n) pool (t, .did (.user (.returnArc v arc)) ())
        pool' →
        (∃ w, pool'.shared.ext.Live arc w ∧ w == v) ∧
          ∀ b w, pool.shared.ext.Live b w → w == v → b = arc := by
  have hfollows := follows_of_run discipline_sound (fun _ hp => hp.proceeds)
    (Inv.empty hunlocked hentries hcells) hrun
  refine ⟨hfollows.shared.core.unique, fun t v arc pool' hstep => ?_⟩
  obtain ⟨⟨-, hstage⟩, -, hs⟩ := hfollows.allows hstep
  have hok := hfollows.shared.stages t
  rw [StageOk, show (ghosts (discipline n) .idle (fun _ => .idle) es t).stage = _ from hstage]
    at hok
  obtain ⟨hbusy, hholds⟩ := hok
  obtain ⟨w, hw, hwv⟩ := hholds v rfl
  refine ⟨⟨w, ?_, hwv⟩, fun b u hb huv => ?_⟩
  · obtain ⟨ext, ⟨c, hc, rfl⟩, hpool⟩ := hs
    obtain ⟨d, hd, rfl⟩ := hw
    rw [hc] at hd
    cases hd
    rw [hpool]
    exact ⟨_, Arcs.setCell_getElem?_self hc _, rfl, by unfold Cell.strong; simp only; omega⟩
  · exact hfollows.shared.core.unique b arc u w hb (hbusy.live hw) (BEq.trans huv (BEq.symm hwv))

/-! ## A call alone, for a value that is not interned -/

/-- The steps that are sound whatever the state. -/
def plain : Act (UInt64 × Nat) (Arcs Val) (ArcAct Val) → Bool
  | .tryReserve .. | .find .. | .user (.tryUpgrade _) => false
  | _ => true

section Miss
variable {P : State (UInt64 × Nat) (Arcs Val) → Act (UInt64 × Nat) (Arcs Val) (ArcAct Val) → Prop}
  {t slot : Nat} {v : Val} {s : State (UInt64 × Nat) (Arcs Val)}
  {table table' : Table (UInt64 × Nat)}

theorem shardIndexInternal_hashBorrowed :
    n.map.shardIndexInternal (n.hashBorrowed v) = n.shardOf v := rfl

theorem exec_lookup_miss (hfind : P s (.find i (n.hashBorrowed v) (matches_ v)))
    (hmiss : (s.table i).Found (n.hashBorrowed v) (matches_ v s.ext) none) :
    Prog.Exec (Meets P t) s (lookup i (n.hashBorrowed v) v) none s :=
  .act (x := none) ⟨hfind, hmiss, rfl⟩ (.ret s none)

theorem exec_fastPath_miss (hplain : ∀ s a, plain a = true → P s a)
    (hfind : ∀ r, P (s.setReaders (n.shardOf v) r)
      (.find (n.shardOf v) (n.hashBorrowed v) (matches_ v)))
    (hunlocked : s.Unlocked)
    (hmiss : (s.table (n.shardOf v)).Found (n.hashBorrowed v) (matches_ v s.ext) none) :
    Prog.Exec (Meets P t) s (n.fastPath v) none s := by
  simp only [fastPath, shardIndexInternal_hashBorrowed]
  refine .perform (x := ()) ⟨hplain _ _ rfl, hunlocked.writer _, rfl⟩ ?_
  refine Prog.exec_bind.mpr ⟨none, _, exec_lookup_miss (hfind _) hmiss, ?_⟩
  refine .perform (x := ()) ⟨hplain _ _ rfl, rfl⟩ ?_
  have hback : (s.setReaders (n.shardOf v) {t}).setReaders (n.shardOf v) ∅ = s := by
    rw [State.setReaders_setReaders, ← hunlocked.readers (n.shardOf v), State.setReaders_self]
  simpa [hunlocked.readers, hback] using Prog.Exec.ret s none

theorem exec_slowPath_miss (hplain : ∀ s a, plain a = true → P s a)
    (hreserve : P (s.setWriter (n.shardOf v) (some t)) (.tryReserve (n.shardOf v) 1 n.rehash))
    (hfind : P ((s.setWriter (n.shardOf v) (some t)).setTable (n.shardOf v) table)
      (.find (n.shardOf v) (n.hashBorrowed v) (matches_ v)))
    (hunlocked : s.Unlocked) (hres : (s.table (n.shardOf v)).TryReserve n.rehash 1 true table)
    (hmiss : table.Found (n.hashBorrowed v) (matches_ v s.ext) none)
    (hplaced : table.Placed slot (n.hashBorrowed v) (n.hashBorrowed v, s.ext.cells.length) table') :
    Prog.Exec (Meets P t) s (n.slowPath v) (.ok s.ext.cells.length)
      { s.setTable (n.shardOf v) table' with
        ext := { s.ext with cells := s.ext.cells ++ [⟨v, 0, {t}⟩] } } := by
  simp only [slowPath, shardIndexInternal_hashBorrowed]
  refine .perform (x := ()) ⟨hplain _ _ rfl, hunlocked.writer _, hunlocked.readers _, rfl⟩ ?_
  have hreserved : Sem (handles Val) t (s.setWriter (n.shardOf v) (some t))
      (.tryReserve (n.shardOf v) 1 n.rehash) (.ok ())
      ((s.setWriter (n.shardOf v) (some t)).setTable (n.shardOf v) table) := ⟨table, hres, rfl⟩
  refine .perform ⟨hreserve, hreserved⟩ ?_
  refine Prog.exec_bind.mpr ⟨none, _, exec_lookup_miss hfind (by simpa using hmiss), ?_⟩
  have hcreated : Sem (handles Val) t
      ((s.setWriter (n.shardOf v) (some t)).setTable (n.shardOf v) table)
      (.user (.createNewArc v)) (.ok s.ext.cells.length)
      { (s.setWriter (n.shardOf v) (some t)).setTable (n.shardOf v) table with
        ext := { s.ext with cells := s.ext.cells ++ [⟨v, 0, {t}⟩] } } := ⟨_, ⟨rfl, rfl⟩, rfl⟩
  refine .perform ⟨hplain _ _ rfl, hcreated⟩ ?_
  refine .perform (x := slot) ⟨hplain _ _ rfl, table', by simpa using hplaced, rfl⟩ ?_
  refine .perform (x := ()) ⟨hplain _ _ rfl, rfl⟩ ?_
  have hback : Function.update (Function.update s.writer (n.shardOf v) (some t)) (n.shardOf v)
      none = s.writer := by
    rw [Function.update_idem, ← hunlocked.writer (n.shardOf v), Function.update_eq_self]
  simpa [State.setTable, State.setWriter, hback] using Prog.Exec.ret _
    (Except.ok s.ext.cells.length)

/-- What `P` has to say of the steps it may forbid, in a call that finds nothing. -/
structure Passes (P : State (UInt64 × Nat) (Arcs Val) →
    Act (UInt64 × Nat) (Arcs Val) (ArcAct Val) → Prop) (n : Interner Val) (v : Val)
    (cells : List (Cell Val)) (old table : Table (UInt64 × Nat)) : Prop where
  plain : ∀ s a, plain a = true → P s a
  reserve : ∀ s, s.ext.cells = cells → s.table (n.shardOf v) = old →
    P s (.tryReserve (n.shardOf v) 1 n.rehash)
  find : ∀ s, s.ext.cells = cells → s.table (n.shardOf v) = old ∨ s.table (n.shardOf v) = table →
    P s (.find (n.shardOf v) (n.hashBorrowed v) (matches_ v))

theorem passes_any {v : Val} {cells : List (Cell Val)} {old table : Table (UInt64 × Nat)} :
    Passes (fun _ _ => True) n v cells old table :=
  ⟨fun _ _ _ => trivial, fun _ _ _ => trivial, fun _ _ _ => trivial⟩

/-- A value is looked up in vain, before and after a reservation, and then stored. -/
structure Missed (n : Interner Val) (v : Val) (arcs : Arcs Val)
    (old table : Table (UInt64 × Nat)) (slot : Nat) (table' : Table (UInt64 × Nat)) : Prop where
  before : old.Found (n.hashBorrowed v) (matches_ v arcs) none
  reserved : old.TryReserve n.rehash 1 true table
  after : table.Found (n.hashBorrowed v) (matches_ v arcs) none
  placed : table.Placed slot (n.hashBorrowed v) (n.hashBorrowed v, arcs.cells.length) table'

theorem exec_doInternWithKey_miss
    (hpass : Passes P n v s.ext.cells (s.table (n.shardOf v)) table) (hunlocked : s.Unlocked)
    (hmiss : Missed n v s.ext (s.table (n.shardOf v)) table slot table') :
    Prog.Exec (Meets P t) s (n.doInternWithKey v) (.ok s.ext.cells.length)
      { s.setTable (n.shardOf v) table' with
        ext := { s.ext with cells := s.ext.cells ++ [⟨v, 0, {t}⟩] } } := by
  refine Prog.exec_bind.mpr ⟨none, s, ?_, ?_⟩
  · exact exec_fastPath_miss hpass.plain (fun r => hpass.find _ rfl (.inl rfl)) hunlocked
      hmiss.before
  · exact exec_slowPath_miss hpass.plain (hpass.reserve _ rfl rfl)
      (hpass.find _ rfl (.inr State.setTable_table_self)) hunlocked hmiss.reserved hmiss.after
      hmiss.placed

theorem exec_maybePruneAllMaps_skip (hplain : ∀ s a, plain a = true → P s a)
    (hcalls : s.ext.calls % pruneInterval ≠ 0) :
    Prog.Exec (Meets P t) s n.maybePruneAllMaps ()
      { s with ext := { s.ext with calls := (s.ext.calls + 1) % (usizeMax + 1) } } := by
  have hcounted : Sem (handles Val) t s (.user .countCall) s.ext.calls
      { s with ext := { s.ext with calls := (s.ext.calls + 1) % (usizeMax + 1) } } :=
    ⟨_, ⟨rfl, rfl⟩, rfl⟩
  refine .perform ⟨hplain _ _ rfl, hcounted⟩ ?_
  rw [if_neg hcalls]
  exact .ret _ ()

theorem exec_intern_miss (hpass : Passes P n v s.ext.cells (s.table (n.shardOf v)) table)
    (hunlocked : s.Unlocked) (hcalls : s.ext.calls % pruneInterval ≠ 0)
    (hmiss : Missed n v s.ext (s.table (n.shardOf v)) table slot table') :
    Prog.Exec (Meets P t) s (n.intern v) (.ok s.ext.cells.length)
      { s.setTable (n.shardOf v) table' with
        ext := ⟨s.ext.cells ++ [⟨v, 1, ∅⟩], (s.ext.calls + 1) % (usizeMax + 1)⟩ } := by
  have hdone := exec_doInternWithKey_miss (t := t)
    (s := { s with ext := { s.ext with calls := (s.ext.calls + 1) % (usizeMax + 1) } })
    hpass ⟨hunlocked.writer, hunlocked.readers⟩ ⟨hmiss.before, hmiss.reserved, hmiss.after,
      hmiss.placed⟩
  refine Prog.exec_bind.mpr ⟨(), _, exec_maybePruneAllMaps_skip hpass.plain hcalls, ?_⟩
  refine Prog.exec_bind.mpr ⟨_, _, hdone, ?_⟩
  have hc : (s.ext.cells ++ [⟨v, 0, {t}⟩])[s.ext.cells.length]? = some ⟨v, 0, {t}⟩ := by simp
  refine .perform (x := ()) ⟨hpass.plain _ _ rfl, _, ⟨_, hc, rfl⟩, rfl⟩ ?_
  simpa [Arcs.setCell, State.setTable] using Prog.Exec.ret _ (Except.ok s.ext.cells.length)

theorem run_intern_miss (t : Nat)
    (hpass : Passes P n v s.ext.cells (s.table (n.shardOf v)) table)
    (hunlocked : s.Unlocked) (hcalls : s.ext.calls % pruneInterval ≠ 0)
    (hmiss : Missed n v s.ext (s.table (n.shardOf v)) table slot table') :
    ∃ es, Run (Step (Meets P) (Call n)) ⟨s, fun _ => none⟩ es
      ⟨{ s.setTable (n.shardOf v) table' with
        ext := ⟨s.ext.cells ++ [⟨v, 1, ∅⟩], (s.ext.calls + 1) % (usizeMax + 1)⟩ }, fun _ => none⟩ :=
  run_of_call (t := t) (.intern v)
    (Prog.exec_bind.mpr ⟨_, _, exec_intern_miss hpass hunlocked hcalls hmiss, .ret _ _⟩) rfl

end Miss

omit [BEq Val] in
theorem sound_of_plain {s : State (UInt64 × Nat) (Arcs Val)}
    {a : Act (UInt64 × Nat) (Arcs Val) (ArcAct Val)} (ha : plain a = true) : Sound s a := by
  unfold Sound
  split
  all_goals trivial

/-! ## A call alone, for a value that is interned -/

/-- A value is found in a bucket, and the allocation there can be upgraded. -/
structure Hits (n : Interner Val) (v : Val) (arcs : Arcs Val) (table : Table (UInt64 × Nat))
    (bucket : Nat) (kv : UInt64 × Nat) (c : Cell Val) : Prop where
  found : table.Found (n.hashBorrowed v) (matches_ v arcs) (some bucket)
  occupied : ∃ hash, table.buckets[bucket]? = some (some (hash, kv))
  cell : arcs.cells[kv.2]? = some c
  live : c.strong ≠ 0
  below : ¬ maxRefcount ≤ c.strong
  idle : c.busy = ∅

section Hit
variable {P : State (UInt64 × Nat) (Arcs Val) → Act (UInt64 × Nat) (Arcs Val) (ArcAct Val) → Prop}
  {t bucket : Nat} {v : Val} {s : State (UInt64 × Nat) (Arcs Val)} {kv : UInt64 × Nat}
  {c : Cell Val}

theorem exec_lookup_hit (hplain : ∀ s a, plain a = true → P s a)
    (hfind : P s (.find i (n.hashBorrowed v) (matches_ v)))
    (hupgrade : P s (.user (.tryUpgrade kv.2))) (hhits : Hits n v s.ext (s.table i) bucket kv c) :
    Prog.Exec (Meets P t) s (lookup i (n.hashBorrowed v) v) (some (bucket, kv.1, some kv.2))
      { s with ext := s.ext.setCell kv.2 { c with busy := {t} } } := by
  have hupgraded : Sem (handles Val) t s (.user (.tryUpgrade kv.2)) (.ok (some kv.2))
      { s with ext := s.ext.setCell kv.2 { c with busy := {t} } } := by
    refine ⟨_, ⟨c, hhits.cell, ?_⟩, rfl⟩
    rw [if_neg hhits.live, if_neg hhits.below, hhits.idle]
    exact ⟨rfl, rfl⟩
  refine .perform (x := some bucket) ⟨hfind, hhits.found, rfl⟩ ?_
  refine .perform (x := kv) ⟨hplain _ _ rfl, hhits.occupied, rfl⟩ ?_
  exact .perform ⟨hupgrade, hupgraded⟩ (.ret _ _)

theorem exec_fastPath_hit (hplain : ∀ s a, plain a = true → P s a)
    (hfind : ∀ r, P (s.setReaders (n.shardOf v) r)
      (.find (n.shardOf v) (n.hashBorrowed v) (matches_ v)))
    (hupgrade : ∀ r, P (s.setReaders (n.shardOf v) r) (.user (.tryUpgrade kv.2)))
    (hunlocked : s.Unlocked) (hhits : Hits n v s.ext (s.table (n.shardOf v)) bucket kv c) :
    Prog.Exec (Meets P t) s (n.fastPath v) (some kv.2)
      { s with ext := s.ext.setCell kv.2 { c with busy := {t} } } := by
  simp only [fastPath, shardIndexInternal_hashBorrowed]
  refine .perform (x := ()) ⟨hplain _ _ rfl, hunlocked.writer _, rfl⟩ ?_
  refine Prog.exec_bind.mpr ⟨_, _, exec_lookup_hit hplain (hfind _) (hupgrade _) hhits, ?_⟩
  refine .perform (x := ()) ⟨hplain _ _ rfl, rfl⟩ ?_
  have hback : Function.update (Function.update s.readers (n.shardOf v) {t}) (n.shardOf v) ∅ =
      s.readers := by
    rw [Function.update_idem, ← hunlocked.readers (n.shardOf v), Function.update_eq_self]
  simpa [State.setReaders, hunlocked.readers, hback] using Prog.Exec.ret _ (some kv.2)

/-- The call returns the allocation that was found, with one more handle on it. -/
theorem exec_intern_hit (hplain : ∀ s a, plain a = true → P s a)
    (hfind : ∀ s', s'.table = s.table → s'.ext.cells = s.ext.cells →
      P s' (.find (n.shardOf v) (n.hashBorrowed v) (matches_ v)))
    (hupgrade : ∀ s', s'.ext.cells = s.ext.cells → P s' (.user (.tryUpgrade kv.2)))
    (hunlocked : s.Unlocked)
    (hcalls : s.ext.calls % pruneInterval ≠ 0)
    (hhits : Hits n v s.ext (s.table (n.shardOf v)) bucket kv c) :
    Prog.Exec (Meets P t) s (n.intern v) (.ok kv.2)
      { s with ext := ⟨s.ext.cells.set kv.2 ⟨c.val, c.users + 1, ∅⟩,
        (s.ext.calls + 1) % (usizeMax + 1)⟩ } := by
  have hfound := exec_fastPath_hit (t := t)
    (s := { s with ext := { s.ext with calls := (s.ext.calls + 1) % (usizeMax + 1) } }) hplain
    (fun _ => hfind _ rfl rfl) (fun _ => hupgrade _ rfl) ⟨hunlocked.writer, hunlocked.readers⟩
    ⟨hhits.found, hhits.occupied, hhits.cell, hhits.live, hhits.below, hhits.idle⟩
  refine Prog.exec_bind.mpr ⟨(), _, exec_maybePruneAllMaps_skip hplain hcalls, ?_⟩
  refine Prog.exec_bind.mpr ⟨_, _, Prog.exec_bind.mpr ⟨_, _, hfound, .ret _ _⟩, ?_⟩
  have hc := Arcs.setCell_getElem?_self hhits.cell { c with busy := {t} }
  refine .perform (x := ()) ⟨hplain _ _ rfl, _, ⟨_, hc, rfl⟩, rfl⟩ ?_
  simpa [Arcs.setCell] using Prog.Exec.ret _ (Except.ok kv.2)

theorem run_intern_hit (t : Nat) (hplain : ∀ s a, plain a = true → P s a)
    (hfind : ∀ s', s'.table = s.table → s'.ext.cells = s.ext.cells →
      P s' (.find (n.shardOf v) (n.hashBorrowed v) (matches_ v)))
    (hupgrade : ∀ s', s'.ext.cells = s.ext.cells → P s' (.user (.tryUpgrade kv.2)))
    (hunlocked : s.Unlocked) (hcalls : s.ext.calls % pruneInterval ≠ 0)
    (hhits : Hits n v s.ext (s.table (n.shardOf v)) bucket kv c) :
    ∃ es, Run (Step (Meets P) (Call n)) ⟨s, fun _ => none⟩ es
      ⟨{ s with ext := ⟨s.ext.cells.set kv.2 ⟨c.val, c.users + 1, ∅⟩,
        (s.ext.calls + 1) % (usizeMax + 1)⟩ }, fun _ => none⟩ :=
  run_of_call (t := t) (.intern v) (Prog.exec_bind.mpr ⟨_, _,
    exec_intern_hit hplain hfind hupgrade hunlocked hcalls hhits, .ret _ _⟩) rfl

end Hit

end

/-! ## A hasher that is not the identity -/

/-- The hasher adds one. -/
def sample : Interner Nat where
  map := ⟨2, 63, fun k => k + 1⟩
  hashBorrowed v := UInt64.ofNat v
  hash_eq v w h := by rw [eq_of_beq h]

def freshTable : Table (UInt64 × Nat) := ⟨[], 0, by decide⟩

/-- One shard in use, nobody at work. -/
def sampleState (table : Table (UInt64 × Nat)) (cells : List (Cell Nat)) (calls : Nat) :
    State (UInt64 × Nat) (Arcs Nat) :=
  ⟨Function.update (fun _ => freshTable) 0 table, fun _ => none, fun _ => ∅, ⟨cells, calls⟩⟩

theorem sample_miss {P : State (UInt64 × Nat) (Arcs Nat) →
      Act (UInt64 × Nat) (Arcs Nat) (ArcAct Nat) → Prop}
    {table table₁ table' : Table (UInt64 × Nat)} {cells : List (Cell Nat)} {calls slot v : Nat}
    (hpass : Passes P sample v cells table table₁) (hshard : sample.shardOf v = 0)
    (hcalls : calls % pruneInterval ≠ 0)
    (hmiss : Missed sample v ⟨cells, calls⟩ table table₁ slot table') :
    ∃ es, Run (Step (Meets P) (Call sample)) ⟨sampleState table cells calls, fun _ => none⟩
      es ⟨sampleState table' (cells ++ [⟨v, 1, ∅⟩]) ((calls + 1) % (usizeMax + 1)),
        fun _ => none⟩ := by
  have htable : (sampleState table cells calls).table (sample.shardOf v) = table := by
    simp [sampleState, hshard]
  have hrun := run_intern_miss (s := sampleState table cells calls) 0 (htable ▸ hpass)
    ⟨fun _ => rfl, fun _ => rfl⟩ hcalls (htable ▸ hmiss)
  simpa [sampleState, State.setTable, hshard] using hrun

/-- Where the table grows before anything is stored in it, the first call is sound, and so is that
of another client that finds the value. -/
theorem interned_once_again : ∃ es pool,
    Run (Step (Meets Sound) (Call sample)) ⟨sampleState freshTable [] 1, fun _ => none⟩ es pool ∧
      pool.shared.ext.cells = [⟨1, 2, ∅⟩] ∧ ∀ b w, pool.shared.ext.Live b w → 1 == w → 0 = b := by
  have hmiss : Missed sample 1 ⟨[], 1⟩ freshTable ⟨[none, none, none, none], 3, by decide⟩ 0
      ⟨[some (1, 1, 0), none, none, none], 2, by decide⟩ :=
    ⟨by decide, .grown (by decide) (by decide) (by decide), by decide, by decide, by decide,
      by decide⟩
  have hentries : ∀ i, ((sampleState freshTable [] 1).table i).entries = [] := by
    intro i
    simp [sampleState, Table.entries, freshTable]
  have hpass : Passes Sound sample 1 [] freshTable ⟨[none, none, none, none], 3, by decide⟩ := by
    refine ⟨fun _ _ => sound_of_plain, ?_, ?_⟩
    · intro s _ htable
      exact .inr (by simp [htable, Table.entries, freshTable])
    · intro s _ htable
      rcases htable with htable | htable
      · simp [Sound, htable, Table.entries, freshTable]
      · simp [Sound, htable, Table.entries]
  obtain ⟨es₁, hrun₁⟩ := sample_miss hpass (by decide) (by decide) hmiss
  have hhits : Hits sample 1 ⟨[⟨1, 1, ∅⟩], 2⟩ ⟨[some (1, 1, 0), none, none, none], 2, by decide⟩ 0
      (1, 0) ⟨1, 1, ∅⟩ :=
    ⟨⟨_, rfl, by decide⟩, ⟨1, rfl⟩, rfl, by decide, by decide, rfl⟩
  have hbelow : ∀ s : State (UInt64 × Nat) (Arcs Nat), s.ext.cells = [⟨1, 1, ∅⟩] →
      ∀ (e : Nat) (c : Cell Nat), s.ext.cells[e]? = some c → c.strong < maxRefcount := by
    intro s hcells e c hc
    rw [hcells, List.getElem?_singleton] at hc
    split at hc
    · cases hc
      decide
    · cases hc
  obtain ⟨es₂, hrun₂⟩ := run_intern_hit
    (s := sampleState ⟨[some (1, 1, 0), none, none, none], 2, by decide⟩ [⟨1, 1, ∅⟩] 2) 1
    (fun _ _ => sound_of_plain) (fun s _ hcells e _ _ => hbelow s hcells e.2.2)
    (fun s hcells c => hbelow s hcells _ c) ⟨fun _ => rfl, fun _ => rfl⟩ (by decide) hhits
  have hrun := hrun₁.append hrun₂
  have hlive : Arcs.Live ⟨[⟨1, 2, ∅⟩], 3⟩ 0 1 := ⟨⟨1, 2, ∅⟩, rfl, rfl, by decide⟩
  refine ⟨_, _, hrun, rfl, fun b w hb hw => ?_⟩
  exact (interned_once ⟨fun _ => rfl, fun _ => rfl⟩ hentries rfl hrun).1 0 b 1 w hlive hb hw

/-- Four values are interned in one shard, whose table grows for the fourth, and then the
first is interned again: two live allocations hold it. -/
theorem interned_twice : ∃ es pool,
    Run (Step (Sem (handles Nat)) (Call sample)) ⟨sampleState freshTable [] 1, fun _ => none⟩ es
      pool ∧ pool.shared.ext.Live 0 1 ∧ pool.shared.ext.Live 4 1 := by
  have hfirst : Missed sample 1 ⟨[], 1⟩ freshTable ⟨[none, none, none, none], 3, by decide⟩ 0
      ⟨[some (1, 1, 0), none, none, none], 2, by decide⟩ :=
    ⟨by decide, .grown (by decide) (by decide) (by decide), by decide, by decide, by decide,
      by decide⟩
  have hsecond : Missed sample 2 ⟨[⟨1, 1, ∅⟩], 2⟩ ⟨[some (1, 1, 0), none, none, none], 2, by decide⟩
      ⟨[some (1, 1, 0), none, none, none], 2, by decide⟩ 1
      ⟨[some (1, 1, 0), some (2, 2, 1), none, none], 1, by decide⟩ :=
    ⟨by decide, .roomy (by decide), by decide, by decide, by decide, by decide⟩
  have hthird : Missed sample 3 ⟨[⟨1, 1, ∅⟩, ⟨2, 1, ∅⟩], 3⟩
      ⟨[some (1, 1, 0), some (2, 2, 1), none, none], 1, by decide⟩
      ⟨[some (1, 1, 0), some (2, 2, 1), none, none], 1, by decide⟩ 2
      ⟨[some (1, 1, 0), some (2, 2, 1), some (3, 3, 2), none], 0, by decide⟩ :=
    ⟨by decide, .roomy (by decide), by decide, by decide, by decide, by decide⟩
  have hfourth : Missed sample 4 ⟨[⟨1, 1, ∅⟩, ⟨2, 1, ∅⟩, ⟨3, 1, ∅⟩], 4⟩
      ⟨[some (1, 1, 0), some (2, 2, 1), some (3, 3, 2), none], 0, by decide⟩
      ⟨[some (2, 1, 0), some (3, 2, 1), some (4, 3, 2), none, none, none, none, none],
        4, by decide⟩ 3
      ⟨[some (2, 1, 0), some (3, 2, 1), some (4, 3, 2), some (4, 4, 3), none, none, none, none], 3,
        by decide⟩ :=
    ⟨by decide, .grown (by decide) (by decide) (by decide), by decide, by decide, by decide,
      by decide⟩
  have hagain : Missed sample 1 ⟨[⟨1, 1, ∅⟩, ⟨2, 1, ∅⟩, ⟨3, 1, ∅⟩, ⟨4, 1, ∅⟩], 5⟩
      ⟨[some (2, 1, 0), some (3, 2, 1), some (4, 3, 2), some (4, 4, 3), none, none, none, none], 3,
        by decide⟩
      ⟨[some (2, 1, 0), some (3, 2, 1), some (4, 3, 2), some (4, 4, 3), none, none, none, none], 3,
        by decide⟩ 4
      ⟨[some (2, 1, 0), some (3, 2, 1), some (4, 3, 2), some (4, 4, 3), some (1, 1, 4), none, none,
        none], 2, by decide⟩ :=
    ⟨by decide, .roomy (by decide), by decide, by decide, by decide, by decide⟩
  obtain ⟨es₁, hrun₁⟩ := sample_miss passes_any (by decide) (by decide) hfirst
  obtain ⟨es₂, hrun₂⟩ := sample_miss passes_any (by decide) (by decide) hsecond
  obtain ⟨es₃, hrun₃⟩ := sample_miss passes_any (by decide) (by decide) hthird
  obtain ⟨es₄, hrun₄⟩ := sample_miss passes_any (by decide) (by decide) hfourth
  obtain ⟨es₅, hrun₅⟩ := sample_miss passes_any (by decide) (by decide) hagain
  have hrun := (((hrun₁.append hrun₂).append hrun₃).append hrun₄).append hrun₅
  refine ⟨_, _, hrun.mono fun _ _ _ hs => hs.mono fun _ _ _ _ _ hsem => hsem.2, ?_, ?_⟩
  · exact ⟨⟨1, 1, ∅⟩, rfl, rfl, by decide⟩
  · exact ⟨⟨1, 1, ∅⟩, rfl, rfl, by decide⟩

end Rustyfill.Interner
