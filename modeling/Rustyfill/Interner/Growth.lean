import Rustyfill.Interner.Basic
import Rustyfill.Maps.Clients

/-!
# The fallible insertions never grow a table behind the caller's back

The interner follows the growth discipline as the maps do, and so all of them together keep
the promise: where an element is stored there is a bucket reserved under the same guard, and
a failure is reported and changes nothing.
-/

namespace Rustyfill.Interner

open Maps Interleaving RawHash

set_option autoImplicit false

section
variable {Val : Type}

/-- The calls on one map of the interner. A call of `intern` is a call of
`maybePruneAllMaps` followed by one of `doInternWithKey`. -/
inductive Api [BEq Val] (n : Interner Val) : InternMethod Val Outcome → Prop where
  | maybePruneAllMaps : Api n (n.maybePruneAllMaps >>= fun _ => return .ok)
  | doInternWithKey (v : Val) : Api n (outcome <$> n.doInternWithKey v)
  | returnArc (v : Val) (arc : Nat) : Api n (returnArc v arc >>= fun _ => return .ok)
  | cloneByCaller (arc : Nat) : Api n (cloneByCaller arc >>= fun _ => return .ok)
  | dropByCaller (arc : Nat) : Api n (dropByCaller arc >>= fun _ => return .ok)
  | other (i : Nat) : Api n (otherMethod i)

/-- Pruning changes contents, if it does anything, and never fails. -/
theorem pruneBuckets_grows (i : Nat) {phase : Phase} (hphase : phase ≠ .failed)
    (l : List (Nat × UInt64 × Nat)) : Grows ⟨.write i, phase⟩
      (pruneBuckets i l : InternMethod Val Unit)
      fun h _ => h.held = .write i ∧ h.phase ≠ .failed := by
  induction l generalizing phase with
  | nil => exact ⟨rfl, hphase⟩
  | cons b l ih =>
    obtain ⟨bucket, key, weak⟩ := b
    refine ⟨⟨trivial, hphase, fun _ _ => rfl⟩, fun r => ?_⟩
    match r with
    | .ok (some arc) => exact ⟨⟨trivial, hphase, fun _ _ => rfl⟩, fun _ => ih hphase⟩
    | .ok none => exact ⟨⟨rfl, hphase⟩, fun _ => ih (by simp)⟩
    | .error () => exact ⟨⟨rfl, hphase⟩, fun _ => ih (by simp)⟩

theorem pruneShards_grows (is : List Nat) {phase : Phase} (hphase : phase ≠ .failed) :
    Grows ⟨.none, phase⟩ (pruneShards is : InternMethod Val Unit)
      fun h _ => h.held = .none ∧ h.phase ≠ .failed := by
  induction is generalizing phase with
  | nil => exact ⟨rfl, hphase⟩
  | cons i is ih =>
    refine ⟨⟨rfl, hphase⟩, fun locked => ?_⟩
    cases locked with
    | false => exact ih hphase
    | true =>
      refine ⟨⟨.inr rfl, hphase⟩, fun buckets => ?_⟩
      refine (pruneBuckets_grows i hphase buckets).bind ?_
      rintro ⟨held, phase⟩ _ ⟨rfl, hphase⟩
      refine ⟨⟨rfl, trivial⟩, fun _ => ih ?_⟩
      simp only [Phase.next]
      split
      · simp
      · exact hphase

variable [BEq Val] (n : Interner Val)

theorem maybePruneAllMaps_grows :
    Grows .idle n.maybePruneAllMaps fun h _ => h.held = .none ∧ h.phase ≠ .failed := by
  refine ⟨⟨trivial, by simp⟩, fun prevTotal => ?_⟩
  simp only [Prog.bind]
  split
  · exact pruneShards_grows _ (by simp)
  · exact ⟨rfl, by simp⟩

theorem lookup_grows {idx : Nat} {h : Ghost} (hheld : h.held = .read idx ∨ h.held = .write idx)
    (hphase : h.phase ≠ .failed) (hash : UInt64) (v : Val) :
    Grows h (lookup idx hash v) fun h' _ => h' = h := by
  refine ⟨⟨hheld, hphase⟩, fun found => ?_⟩
  cases found with
  | none => rfl
  | some bucket =>
    refine ⟨⟨hheld, hphase⟩, fun kv => ⟨⟨trivial, hphase, fun _ _ => rfl⟩, fun r => ?_⟩⟩
    match r with
    | .ok (some arc) => rfl
    | .ok none => rfl
    | .error () => rfl

theorem fastPath_grows (v : Val) : Grows .idle (n.fastPath v) fun h _ => h = .idle := by
  refine ⟨⟨rfl, by simp⟩, fun _ => ?_⟩
  refine (lookup_grows (.inl rfl) (by simp) _ v).bind ?_
  rintro _ found rfl
  refine ⟨⟨rfl, trivial⟩, fun _ => ?_⟩
  match found with
  | some (_, _, some arc) => rfl
  | some (_, _, none) => rfl
  | none => rfl

theorem slowPath_grows (v : Val) :
    Grows .idle (n.slowPath v) fun h r => Reports h (outcome r) := by
  refine ⟨⟨rfl, by simp⟩, fun _ => ⟨⟨rfl, .inl rfl, Nat.one_pos⟩, fun r => ?_⟩⟩
  cases r with
  | error e => exact Grows.fail (by simp)
  | ok u =>
    refine (lookup_grows (h := ⟨.write _, .reserved⟩) (.inr rfl) (by simp) _ v).bind ?_
    rintro _ found rfl
    match found with
    | some (_, _, some arc) => exact ⟨⟨rfl, trivial⟩, fun _ => reports_ok.mpr ⟨rfl, by simp⟩⟩
    | some (bucket, key, none) =>
      refine ⟨⟨trivial, by simp⟩, fun r => ?_⟩
      cases r with
      | error e => exact Grows.fail (by simp)
      | ok arc =>
        exact ⟨⟨rfl, by simp⟩, fun _ => ⟨⟨rfl, trivial⟩, fun _ => reports_ok.mpr ⟨rfl, by simp⟩⟩⟩
    | none =>
      refine ⟨⟨trivial, by simp⟩, fun r => ?_⟩
      cases r with
      | error e => exact Grows.fail (by simp)
      | ok arc => exact ⟨⟨rfl, rfl⟩, fun _ => ⟨⟨rfl, trivial⟩, fun _ =>
          reports_ok.mpr ⟨rfl, by simp⟩⟩⟩

theorem doInternWithKey_grows (v : Val) :
    Grows .idle (n.doInternWithKey v) fun h r => Reports h (outcome r) := by
  refine (n.fastPath_grows v).bind ?_
  rintro _ found rfl
  cases found with
  | some arc => simp
  | none => exact n.slowPath_grows v

theorem Api.grows {n : Interner Val} {p : InternMethod Val Outcome} (hp : Api n p) :
    Grows .idle p Reports := by
  cases hp with
  | maybePruneAllMaps => exact n.maybePruneAllMaps_grows.bind fun _ _ h => reports_ok.mpr h
  | doInternWithKey v => exact (n.doInternWithKey_grows v).map fun _ _ h => h
  | returnArc | cloneByCaller | dropByCaller =>
    exact ⟨⟨trivial, by simp⟩, fun _ => reports_ok.mpr ⟨rfl, by simp⟩⟩
  | other i => exact otherMethod_grows i

end

end Rustyfill.Interner

namespace Rustyfill.Maps

open Interleaving RawHash Transition

/-- No hidden growth: in any run of any number of clients of a map, or of the interner, from
any tables and with any failures, a client that looks for a slot or stores an element holds
the write guard of the shard, whose table has a free bucket, so that it does not grow; a call
in which a step fails reports an error; and no step of a call that reports one changes what
the shards hold. -/
theorem no_hidden_growth {K V ε Val : Type} [BEq K] [BEq Val] (m₁ : HashMap K) (m₂ : DashMap K)
    (m₃ : ConcurrentHashMap K) (n : Interner Val) :
    NoHiddenGrowth (callerCode K V ε) (HashMap.Api m₁) ∧
      NoHiddenGrowth (callerCode K V ε) (DashMap.Api m₂) ∧
      NoHiddenGrowth (callerCode K V ε) (ConcurrentHashMap.Api m₃) ∧
      NoHiddenGrowth (Interner.handles Val) (Interner.Api n) :=
  ⟨noHiddenGrowth_of_follows fun _ hp => hp.grows, noHiddenGrowth_of_follows fun _ hp => hp.grows,
    noHiddenGrowth_of_follows fun _ hp => hp.grows, noHiddenGrowth_of_follows fun _ hp => hp.grows⟩

/-- A map with one pair and no room. -/
def fullTables : State (Nat × Nat) Unit where
  table _ := ⟨[some (0, (1, 1))], 0, by decide⟩
  writer _ := none
  readers _ := ∅
  ext := ()

def grownTable : Table (Nat × Nat) := ⟨[some (0, (1, 1)), none], 1, by decide⟩

/-- `try_insert` on the full map grows it where it can fail, and then stores the pair. -/
theorem no_hidden_growth_full : ∃ es p p',
    Run (Step (Sem (callerCode Nat Nat Unit)) (HashMap.Api ⟨fun _ => 0⟩))
      ⟨fullTables, fun _ => none⟩ es p ∧
    Step (Sem (callerCode Nat Nat Unit)) (HashMap.Api ⟨fun _ => 0⟩) p
      (0, .did (.insertNoGrow 0 0 (2, 2)) (1 : Nat)) p' ∧
    p.shared.writer 0 = some 0 ∧ 0 < (p.shared.table 0).free := by
  have hlock : Sem (callerCode Nat Nat Unit) 0 fullTables (.writeTable 0) ()
      (fullTables.setWriter 0 (some 0)) := ⟨rfl, rfl, rfl⟩
  have hreserve : Sem (callerCode Nat Nat Unit) 0 (fullTables.setWriter 0 (some 0))
      (.tryReserve 0 1 (HashMap.rehash ⟨fun _ => 0⟩)) (.ok ())
      ((fullTables.setWriter 0 (some 0)).setTable 0 grownTable) :=
    ⟨grownTable, .grown Nat.one_pos (.refl _) (Nat.le_refl 1), rfl⟩
  have hfind : Sem (callerCode Nat Nat Unit) 0
      ((fullTables.setWriter 0 (some 0)).setTable 0 grownTable)
      (.findOrFindInsertSlot 0 0 (fun kv => kv.1 == 2) (HashMap.rehash ⟨fun _ => 0⟩)) (.error 1)
      ((fullTables.setWriter 0 (some 0)).setTable 0 grownTable) := by
    refine ⟨grownTable, ?_, ⟨?_, rfl⟩, ?_⟩
    · simp [Table.Reserved, grownTable]
    · intro e he _
      simp only [Table.entries, grownTable, List.filterMap_cons, id, List.filterMap_nil,
        List.mem_singleton] at he
      subst he
      rfl
    · simp [State.setTable]
  have hcalled : Run (Step (Sem (callerCode Nat Nat Unit)) (HashMap.Api ⟨fun _ => 0⟩))
      ⟨fullTables, fun _ => none⟩ [(0, .call)] _ := .single (.call rfl (.tryInsert 2 2))
  have hrun := ((hcalled.snoc (.act rfl hlock)).snoc (.act rfl hreserve)).snoc (.act rfl hfind)
  have hstore : Sem (callerCode Nat Nat Unit) 0
      ((fullTables.setWriter 0 (some 0)).setTable 0 grownTable) (.insertNoGrow 0 0 (2, 2))
      (1 : Nat) _ :=
    ⟨⟨[some (0, (1, 1)), some (0, (2, 2))], 0, by decide⟩, ⟨rfl, rfl, .inr rfl⟩, rfl⟩
  refine ⟨_, _, _, hrun, .act rfl hstore, ?_⟩
  have hsafe := @no_hidden_growth Nat Nat Unit Nat _ _ ⟨fun _ => 0⟩ ⟨fun _ => 0, fun _ => 0⟩
    ⟨2, 63, fun _ => 0⟩ ⟨⟨2, 63, fun _ => 0⟩, fun _ => 0, fun _ _ _ => rfl⟩
  exact (hsafe.1 fullTables ⟨fun _ => rfl, fun _ => rfl⟩ _ _ hrun 0 _ _ _ (.act rfl hstore)).1 0 rfl

end Rustyfill.Maps
