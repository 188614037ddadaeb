import Rustyfill.Interner.Core
import Rustyfill.Maps.Locks

/-!
# The stages of a call

What a call of the interner knows between two of its steps, and that the steps of the other
clients leave it true. A lookup under a guard of the shard of a value tells which allocation,
if any, is alive for that value; until the guard is dropped nobody else can make another.
-/

namespace Rustyfill.Interner

open Maps RawHash Interleaving

set_option autoImplicit false

/-- How far a call is. The lookup stages carry the hash and the closure of the lookup. -/
inductive Stage (Val : Type) where
  | rest
  | found (hash : UInt64) (eq : Arcs Val → UInt64 × Nat → Bool) (bucket : Nat)
  | read (hash : UInt64) (eq : Arcs Val → UInt64 × Nat → Bool) (bucket : Nat) (key : UInt64)
      (weak : Nat)
  | stale (hash : UInt64) (eq : Arcs Val → UInt64 × Nat → Bool) (bucket : Nat) (key : UInt64)
  | absent (hash : UInt64) (eq : Arcs Val → UInt64 × Nat → Bool)
  | created (v : Val) (arc : Nat) (into : Option (Nat × UInt64))
  | holding (eq : Arcs Val → UInt64 × Nat → Bool) (arc : Nat)
  | pruning (l : List (Nat × UInt64 × Nat))
  | upgraded (arc : Nat) (l : List (Nat × UInt64 × Nat))
  | expired (l : List (Nat × UInt64 × Nat))

/-- The allocation a call has made and not stored yet. -/
def Stage.pending {Val : Type} : Stage Val → Option Nat
  | .created _ arc _ => some arc
  | _ => none

structure Progress (Val : Type) where
  held : Held
  stage : Stage Val

def Progress.idle {Val : Type} : Progress Val := ⟨.none, .rest⟩

section
variable {Val : Type} [BEq Val] (n : Interner Val)

/-- The step a call may take in each stage. -/
def StageAllows (h : Progress Val) : Act (UInt64 × Nat) (Arcs Val) (ArcAct Val) → Prop
  | .readTable _ | .writeTable _ | .tryWriteTable _ => h.stage = .rest
  | .iter i => h.stage = .rest ∧ h.held = .write i
  | .dropReadGuard _ | .dropWriteGuard _ => h.stage.pending = none
  | .tryReserve _ _ rehash => h.stage = .rest ∧ rehash = n.rehash
  | .find i hash eq => h.stage = .rest ∧
    ∃ v, eq = matches_ v ∧ hash = n.hashBorrowed v ∧ i = n.shardOf v
  | .asRef i bucket => ∃ hash eq, h.stage = .found hash eq bucket ∧
      i = n.map.shardIndexInternal hash
  | .write i bucket x => ∃ v, h.stage = .created v x.2 (some (bucket, x.1)) ∧ i = n.shardOf v
  | .insertNoGrow i hash x => ∃ v, h.stage = .created v x.2 none ∧ x.1 = hash ∧
    hash = n.hashBorrowed v ∧ i = n.shardOf v
  | .remove _ bucket => ∃ kv l, h.stage = .expired ((bucket, kv) :: l)
  | .user (.tryUpgrade weak) => (∃ hash eq bucket key, h.stage = .read hash eq bucket key weak) ∨
    ∃ bucket key l, h.stage = .pruning ((bucket, key, weak) :: l)
  | .user (.dropUpgraded arc) => ∃ l, h.stage = .upgraded arc l
  | .user (.createNewArc v) => (∃ i, h.held = .write i) ∧ ∃ hash,
    h.stage = .absent hash (matches_ v) ∨
      ∃ bucket key, h.stage = .stale hash (matches_ v) bucket key
  | .user (.returnArc v arc) => h.stage = .holding (matches_ v) arc
  | .user (.cloneByCaller _) | .user (.dropByCaller _) | .user .countCall => h.stage = .rest
  | .findOrFindInsertSlot .. | .insertInSlot .. | .len _ | .foreign _ => False

/-- An upgrade that failed for any reason counts as one of an expired reference. -/
def Stage.next (stage : Stage Val) :
    (a : Act (UInt64 × Nat) (Arcs Val) (ArcAct Val)) → a.Res (handles Val) → Stage Val
  | .dropReadGuard _, _ | .dropWriteGuard _, _ =>
    match stage with
    | .holding eq arc => .holding eq arc
    | _ => .rest
  | .find _ hash eq, r =>
    match r with
    | some bucket => .found hash eq bucket
    | none => .absent hash eq
  | .asRef .., kv =>
    match stage with
    | .found hash eq bucket => .read hash eq bucket kv.1 kv.2
    | stage => stage
  | .iter _, l => .pruning l
  | .user (.tryUpgrade _), r =>
    match stage, r with
    | .read _ eq _ _ _, .ok (some arc) => .holding eq arc
    | .read hash eq bucket key _, _ => .stale hash eq bucket key
    | .pruning l, .ok (some arc) => .upgraded arc l.tail
    | .pruning l, _ => .expired l
    | stage, _ => stage
  | .user (.dropUpgraded _), _ =>
    match stage with
    | .upgraded _ l => .pruning l
    | stage => stage
  | .user (.createNewArc v), r =>
    match stage, r with
    | .absent _ _, .ok arc => .created v arc none
    | .stale _ _ bucket key, .ok arc => .created v arc (some (bucket, key))
    | _, _ => .rest
  | .write .., _ | .insertNoGrow .., _ =>
    match stage with
    | .created v arc _ => .holding (matches_ v) arc
    | stage => stage
  | .remove .., _ =>
    match stage with
    | .expired l => .pruning l.tail
    | stage => stage
  | .user (.returnArc _ _), _ => .rest
  | _, _ => stage

def discipline : Discipline (Act (UInt64 × Nat) (Arcs Val) (ArcAct Val)) (Act.Res (handles Val))
    (Progress Val) where
  allows h a := h.held.allows a ∧ StageAllows n h a
  next h a x := ⟨h.held.next a x, h.stage.next a x⟩

variable {n} in
theorem next_of_stage {h : Progress Val} {stage : Stage Val} (hstage : h.stage = stage)
    (a : Act (UInt64 × Nat) (Arcs Val) (ArcAct Val)) (x : a.Res (handles Val)) :
    (discipline n).next h a x = ⟨h.held.next a x, stage.next a x⟩ :=
  hstage ▸ rfl

/-- A call ends with nothing in hand. -/
def Ends {R : Type} (h : Progress Val) (_ : R) : Prop := h = .idle

/-! ## What each stage knows -/

def Guards (held : Held) (i : Nat) : Prop := held = .read i ∨ held = .write i

/-- The lookup was for `v`, and its shard is still guarded. -/
structure Sought (held : Held) (hash : UInt64) (v : Val) : Prop where
  hash : hash = n.hashBorrowed v
  guard : Guards held (n.shardOf v)

/-- The bucket refers to the only allocation that may be alive for `v`. -/
structure FoundAt (s : State (UInt64 × Nat) (Arcs Val)) (v : Val) (bucket weak : Nat) : Prop where
  entry : (s.table (n.shardOf v)).buckets[bucket]? =
    some (some (n.hashBorrowed v, n.hashBorrowed v, weak))
  equal : ∃ w, s.ext.Holds weak w ∧ w == v
  only : ∀ b u, s.ext.Live b u → u == v → b = weak

/-- The bucket refers to an allocation that is dead. -/
def StaleAt (s : State (UInt64 × Nat) (Arcs Val)) (v : Val) (bucket : Nat) : Prop :=
  ∃ weak, (s.table (n.shardOf v)).buckets[bucket]? =
    some (some (n.hashBorrowed v, n.hashBorrowed v, weak)) ∧ s.ext.Dead weak

/-- The buckets still to be pruned are as they were listed. -/
def Listed (s : State (UInt64 × Nat) (Arcs Val)) (held : Held) (l : List (Nat × UInt64 × Nat)) :
    Prop :=
  (l.map Prod.fst).Nodup ∧ ∃ i, held = .write i ∧ ∀ b ∈ l,
    ∃ hash, (s.table i).buckets[b.1]? = some (some (hash, b.2))

def StageOk (t : Nat) (h : Progress Val) (s : State (UInt64 × Nat) (Arcs Val)) : Prop :=
  match h.stage with
  | .rest => True
  | .found hash eq bucket => ∀ v, eq = matches_ v → n.Sought h.held hash v ∧
    ∃ weak, n.FoundAt s v bucket weak
  | .read hash eq bucket key weak => ∀ v, eq = matches_ v → n.Sought h.held hash v ∧
    key = hash ∧ n.FoundAt s v bucket weak
  | .stale hash eq bucket key => ∀ v, eq = matches_ v → n.Sought h.held hash v ∧
    key = hash ∧ n.StaleAt s v bucket ∧ NoLive s.ext v
  | .absent hash eq => ∀ v, eq = matches_ v → n.Sought h.held hash v ∧ NoLive s.ext v
  | .created v arc into => h.held = .write (n.shardOf v) ∧ s.ext.Busy t arc ∧ s.ext.Holds arc v ∧
    ∀ bucket key, into = some (bucket, key) → key = n.hashBorrowed v ∧ n.StaleAt s v bucket
  | .holding eq arc => s.ext.Busy t arc ∧ ∀ v, eq = matches_ v → ∃ w, s.ext.Holds arc w ∧ w == v
  | .pruning l => Listed s h.held l
  | .upgraded arc l => s.ext.Busy t arc ∧ Listed s h.held l
  | .expired l => Listed s h.held l ∧ ∀ b rest, l = b :: rest → s.ext.Dead b.2.2

/-- What a step of another client leaves as it is, or lets happen, for client `t`. -/
structure Undisturbed (t : Nat) (held : Held) (s s' : State (UInt64 × Nat) (Arcs Val)) : Prop where
  table : ∀ i, Guards held i → s'.table i = s.table i
  holds : ∀ a v, s.ext.Holds a v → s'.ext.Holds a v
  dead : ∀ a, s.ext.Dead a → s'.ext.Dead a
  busy : ∀ a, s.ext.Busy t a → s'.ext.Busy t a
  live : ∀ v, Guards held (n.shardOf v) → ∀ a w, s'.ext.Live a w → w == v → s.ext.Live a w

variable {n} {t : Nat} {h : Progress Val} {s s' : State (UInt64 × Nat) (Arcs Val)}
  {held : Held} {v : Val} {bucket weak : Nat}

theorem FoundAt.undisturbed (hf : n.FoundAt s v bucket weak) (hu : n.Undisturbed t held s s')
    (hg : Guards held (n.shardOf v)) : n.FoundAt s' v bucket weak where
  entry := by
    rw [hu.table _ hg]
    exact hf.entry
  equal := by
    obtain ⟨w, hw, hwv⟩ := hf.equal
    exact ⟨w, hu.holds _ _ hw, hwv⟩
  only b u hb huv := hf.only b u (hu.live v hg b u hb huv) huv

theorem StaleAt.undisturbed (hs : n.StaleAt s v bucket) (hu : n.Undisturbed t held s s')
    (hg : Guards held (n.shardOf v)) : n.StaleAt s' v bucket := by
  obtain ⟨weak, hentry, hdead⟩ := hs
  exact ⟨weak, by rwa [hu.table _ hg], hu.dead _ hdead⟩

theorem NoLive.undisturbed (hn : NoLive s.ext v) (hu : n.Undisturbed t held s s')
    (hg : Guards held (n.shardOf v)) : NoLive s'.ext v :=
  fun a w ha hwv => hn a w (hu.live v hg a w ha hwv) hwv

theorem Listed.undisturbed {l : List (Nat × UInt64 × Nat)} (hl : Listed s held l)
    (hu : n.Undisturbed t held s s') : Listed s' held l := by
  obtain ⟨hnodup, i, hheld, hentry⟩ := hl
  exact ⟨hnodup, i, hheld, by rwa [hu.table i (.inr hheld)]⟩

theorem StageOk.undisturbed (hs : n.StageOk t h s) (hu : n.Undisturbed t h.held s s') :
    n.StageOk t h s' := by
  obtain ⟨held, stage⟩ := h
  cases stage with
  | rest => trivial
  | found hash eq bucket =>
    intro v hv
    obtain ⟨hsought, weak, hf⟩ := hs v hv
    exact ⟨hsought, weak, hf.undisturbed hu hsought.guard⟩
  | read hash eq bucket key weak =>
    intro v hv
    obtain ⟨hsought, hkey, hf⟩ := hs v hv
    exact ⟨hsought, hkey, hf.undisturbed hu hsought.guard⟩
  | stale hash eq bucket key =>
    intro v hv
    obtain ⟨hsought, hkey, hstale, hnone⟩ := hs v hv
    exact ⟨hsought, hkey, hstale.undisturbed hu hsought.guard, hnone.undisturbed hu hsought.guard⟩
  | absent hash eq =>
    intro v hv
    obtain ⟨hsought, hnone⟩ := hs v hv
    exact ⟨hsought, hnone.undisturbed hu hsought.guard⟩
  | created v arc into =>
    obtain ⟨hheld, hbusy, hholds, hinto⟩ := hs
    refine ⟨hheld, hu.busy _ hbusy, hu.holds _ _ hholds, fun bucket key hi => ?_⟩
    obtain ⟨hkey, hstale⟩ := hinto bucket key hi
    exact ⟨hkey, hstale.undisturbed hu (.inr hheld)⟩
  | holding eq arc =>
    obtain ⟨hbusy, hholds⟩ := hs
    refine ⟨hu.busy _ hbusy, fun v hv => ?_⟩
    obtain ⟨w, hw, hwv⟩ := hholds v hv
    exact ⟨w, hu.holds _ _ hw, hwv⟩
  | pruning l => exact Listed.undisturbed hs hu
  | upgraded arc l => exact ⟨hu.busy _ hs.1, hs.2.undisturbed hu⟩
  | expired l =>
    exact ⟨hs.1.undisturbed hu, fun b rest hl => hu.dead _ (hs.2 b rest hl)⟩

end

end Rustyfill.Interner
