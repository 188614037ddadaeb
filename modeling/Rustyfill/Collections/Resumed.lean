import Rustyfill.Collections.Extended
import Rustyfill.BTree.Extend

/-!
# `try_extend` of all collections

The collections that live in one buffer or table, the lists and the trees have different ways to
fail. Of each, a call of `try_extend` that fails has committed some of the items, and hands back
the others.
-/

namespace Rustyfill.Collections

open Guarded Offering

set_option autoImplicit false

section
variable {T C V E : Type} {view : C → V} {put : V → T → V}

/-- `try_extend` as a method of a collection. It always comes back. -/
def extension (view : C → V) (put : V → T → V)
    (tryExtend : Resumable T → Method C (Resumable T × E) Unit) :
    Extension (World C) (Resumable T) V T where
  holds w v := view w.store = v
  put := put
  items := Resumable.items
  returns w src r w' :=
    match r with
    | some src' => ∃ e, tryExtend src w = (.error (.error (src', e)), w')
    | none => tryExtend src w = (.ok (), w')
  stops _ _ := False
  vary := SameStore

theorem extension_accounts {tryExtend : Resumable T → Method C (Resumable T × E) Unit}
    (h : ∀ src w,
      Offers (fun w => view w.store) (putting put) HandsBack src.items (tryExtend src) w) :
    (extension view put tryExtend).Accounts where
  vary {w w' v} hw hsame := (congrArg view hsame).trans hw
  left {w w' src src' v} hw hcall := by
    obtain ⟨e, hcall⟩ := hcall
    have hoffer := h src w
    rw [Offers, Body.Meets, hcall] at hoffer
    obtain ⟨done, rest, hitems, ⟨src₁, err, herr, rfl⟩, hrun⟩ := hoffer
    cases herr
    subst hw
    exact ⟨done, hitems, run_put_iff.mp hrun⟩
  done {w w' src v} hw hcall := by
    change tryExtend src w = (.ok (), w') at hcall
    have hoffer := h src w
    rw [Offers, Body.Meets, hcall] at hoffer
    subst hw
    exact run_put_iff.mp hoffer
  ends {w v} src _ := by
    left
    have hoffer := h src w
    rw [Offers, Body.Meets] at hoffer
    rcases hcall : tryExtend src w with ⟨e | _, w'⟩
    · rw [hcall] at hoffer
      obtain ⟨done, rest, -, ⟨src', err, rfl, -⟩, -⟩ := hoffer
      exact ⟨some src', w', err, hcall⟩
    · exact ⟨none, w', hcall⟩

end

/-! ## The last value -/

namespace PairTable

variable {K V : Type} [BEq K]

/-- The value that a table has for a key. -/
def value (pairs : List (K × V)) (key : K) : Option V :=
  (pairs.find? fun kv => kv.1 == key).map Prod.snd

theorem value_insertPair [EquivBEq K] (pairs : List (K × V)) (kv : K × V) (key : K) :
    value (insertPair pairs kv) key = if kv.1 == key then some kv.2 else value pairs key := by
  induction pairs with
  | nil =>
    rw [insertPair, value, List.find?_singleton]
    split <;> rfl
  | cons p pairs ih =>
    rw [insertPair]
    by_cases hp : (p.1 == kv.1) = true
    · have hkey : (p.1 == key) = (kv.1 == key) := BEq.congr_left hp
      rw [if_pos hp, value, value, List.find?_cons, List.find?_cons, hkey]
      cases kv.1 == key <;> rfl
    · rw [if_neg hp, value, value, List.find?_cons, List.find?_cons]
      by_cases hkey : (p.1 == key) = true
      · have hkv : ¬ (kv.1 == key) = true := fun h => hp (BEq.trans hkey (BEq.symm h))
        rw [hkey, if_neg hkv]
      · rw [Bool.not_eq_true] at hkey
        rw [hkey]
        exact ih

end PairTable

end Rustyfill.Collections

namespace Rustyfill.BTree

open Guarded Offering
open Collections (Resumable)

set_option autoImplicit false

section
variable {K V T : Type} [LinearOrder K] {add : (K → Option V) → T → K → Option V}

/-- `try_extend` of a tree. A call may end in an abort. -/
def extension (add : (K → Option V) → T → K → Option V)
    (tryExtend : Resumable T → Routine K V (Except (Resumable T × AllocError) Unit)) :
    Extension (World K V) (Resumable T) (K → Option V) T where
  holds := Represents
  put := add
  items := Resumable.items
  returns w src r w' :=
    match r with
    | some src' => ∃ e, tryExtend src w = (.ok (.error (src', e)), w')
    | none => tryExtend src w = (.ok (.ok ()), w')
  stops w src := (tryExtend src w).1 = .error (.fault .abort)
  vary w w' := ∃ allocator, w' = { w with allocator := allocator }

theorem Represents.vary {w : World K V} {m : K → Option V} (hw : Represents w m)
    (allocator : Allocator) : Represents { w with allocator := allocator } m := by
  obtain ⟨seq, ⟨hsorted, hlength, hbeyond, htree⟩, hgraph⟩ := hw
  refine ⟨seq, ⟨hsorted, hlength, hbeyond, ?_⟩, hgraph⟩
  rcases htree with hempty | ⟨H, t, ht, hinorder⟩
  · exact .inl hempty
  · exact .inr ⟨H, t, { ht with }, hinorder⟩

theorem extension_accounts {R : Type} {insert : T → Routine K V (Except (T × AllocError) R)}
    (hinsert : InsertsOne add insert) : (extension add (extendGivingBack insert)).Accounts where
  vary {w w' m} hw hvary := by
    obtain ⟨allocator, rfl⟩ := hvary
    exact hw.vary allocator
  left {w w' src src' m} hw hcall := by
    obtain ⟨e, hcall⟩ := hcall
    have hmeets := extendGivingBack_meets hinsert src hw
    rw [Body.Meets, hcall] at hmeets
    exact hmeets
  done {w w' src m} hw hcall := by
    change extendGivingBack insert src w = (.ok (.ok ()), w') at hcall
    have hmeets := extendGivingBack_meets hinsert src hw
    rw [Body.Meets, hcall] at hmeets
    exact hmeets
  ends {w m} src hw := by
    have hmeets := extendGivingBack_meets hinsert src hw
    rw [Body.Meets] at hmeets
    rcases hcall : extendGivingBack insert src w with ⟨e | r, w'⟩
    · rw [hcall] at hmeets
      right
      change (extendGivingBack insert src w).1 = _
      rw [hcall]
      exact congrArg Except.error hmeets
    · left
      rcases r with ⟨src', e⟩ | _
      · exact ⟨some src', w', e, hcall⟩
      · exact ⟨none, w', hcall⟩

end

end Rustyfill.BTree

namespace Rustyfill.Collections

open Offering

set_option autoImplicit false

/-! ## All of them -/

/-- However often `try_extend` fails, of each collection the items that were committed, the item at
the head of what came back and the items behind it are those of the source, in order. Whoever goes
on until a call succeeds has what a single call would have left; in a map that is the last value
of each key. -/
theorem tryExtend_loses_nothing (T K V O : Type) [LE T] [DecidableLE T] [Std.IsLinearPreorder T]
    [BEq K] [EquivBEq K] [LinearOrder O] (l : Layout) (nodeSize : Nat) (g : Growth) :
    (extension Buffer.elems (fun elems x => elems ++ [x]) (Vec.tryExtend (T := T) l)).LosesNothing ∧
    (extension Buffer.elems (fun elems x => elems ++ [x])
      (VecDeque.tryExtend (T := T) l)).LosesNothing ∧
    (extension LinkedList.elems (fun elems x => elems ++ [x])
      (LinkedList.tryExtend (T := T) nodeSize)).LosesNothing ∧
    (extension BinaryHeap.elems MaxHeap.push (BinaryHeap.tryExtend (T := T) l)).LosesNothing ∧
    (BTree.extension (fun m (kv : O × V) => BTree.put m kv.1 kv.2)
      BTree.BTreeMap.tryExtend).LosesNothing ∧
    (BTree.extension (fun m (x : O) => BTree.put m x ()) BTree.BTreeSet.tryExtend).LosesNothing ∧
    (extension PairTable.pairs PairTable.insertPair
      (HashMap.tryExtend (K := K) (V := V) g)).LosesNothing ∧
    (extension PairTable.pairs (fun elems x => PairTable.insertPair elems (x, ()))
      (HashSet.tryExtend (T := K) g)).LosesNothing ∧
    (∀ (pairs items : List (K × V)) (key : K),
      PairTable.value (items.foldl PairTable.insertPair pairs) key =
        (lastGiven items key).or (PairTable.value pairs key)) ∧
    ∀ (m : O → Option V) (items : List (O × V)) (key : O),
      items.foldl (fun m kv => BTree.put m kv.1 kv.2) m key = (lastGiven items key).or (m key) := by
  refine ⟨?vec, ?vecDeque, ?linkedList, ?binaryHeap, ?btreeMap, ?btreeSet, ?hashMap, ?hashSet,
    ?lastInTable, ?lastInTree⟩
  case vec | vecDeque =>
    exact (extension_accounts (Buffer.growing_lawful l).tryExtend_offers).losesNothing
  case linkedList => exact (extension_accounts (LinkedList.tryExtend_offers nodeSize)).losesNothing
  case binaryHeap =>
    exact (extension_accounts (BinaryHeap.arranged_lawful l).tryExtend_offers).losesNothing
  case btreeMap => exact (BTree.extension_accounts BTree.insertPair_insertsOne).losesNothing
  case btreeSet => exact (BTree.extension_accounts BTree.setInsert_insertsOne).losesNothing
  case hashMap =>
    exact (extension_accounts (PairTable.growing_lawful g).tryExtend_offers).losesNothing
  case hashSet =>
    exact (extension_accounts (HashSet.growing_lawful g).tryExtend_offers).losesNothing
  case lastInTable =>
    intro pairs items key
    exact foldl_put_lastGiven PairTable.value PairTable.value_insertPair items pairs key
  case lastInTree =>
    intro m items key
    have hput : ∀ (m : O → Option V) (kv : O × V) (key : O),
        BTree.put m kv.1 kv.2 key = if kv.1 == key then some kv.2 else m key := by
      intro m kv key
      rw [BTree.put, Function.update_apply]
      exact if_congr (eq_comm.trans beq_iff_eq.symm) rfl rfl
    exact foldl_put_lastGiven (fun m key => m key) hput items m key

/-! ## Maps that are refused memory -/

theorem eq_of_fst {A B : Type} {p : A × B} {a : A} (h : p.1 = a) : p = (a, p.2) := Prod.ext h rfl

/-- Every request but the first is granted. -/
def refusedOnce : World (PairTable Nat Nat) := ⟨.new, ⟨fun n _ => n != 0, 0⟩, 0⟩

def pairSource : Resumable (Nat × Nat) := .fromRemainder ⟨[(1, 10), (2, 20), (1, 11)], fun _ => 0⟩

def pairsLeft : Resumable (Nat × Nat) := .new (1, 10) ⟨[(2, 20), (1, 11)], fun _ => 0⟩

/-- The first call cannot insert anything. -/
def stillEmpty : World (PairTable Nat Nat) :=
  (HashMap.tryExtend (Layout.growth ⟨8, 8⟩) pairSource refusedOnce).2

theorem pairSource_fails : (HashMap.tryExtend (Layout.growth ⟨8, 8⟩) pairSource refusedOnce).1 =
    .error (.error (pairsLeft, .allocError)) := by
  rfl

theorem pairsLeft_succeeds :
    (HashMap.tryExtend (Layout.growth ⟨8, 8⟩) pairsLeft stillEmpty).1 = .ok () := by
  rfl

/-- The second call on the table goes on with what the first one was refused, and the last value of
each key stays. The tree has replaced one value when it is refused a split. -/
theorem tryExtend_loses_nothing_refused :
    PairTable.value
      (HashMap.tryExtend (Layout.growth ⟨8, 8⟩) pairsLeft stillEmpty).2.store.pairs 1 = some 11 ∧
    BTree.Represents (BTree.BTreeMap.tryExtend BTree.leftOver BTree.halfExtended).2
      (BTree.put (BTree.put (fun k => if k < 11 then some k else none) 5 50) 11 110) := by
  have hall := tryExtend_loses_nothing Nat Nat Nat Nat ⟨8, 8⟩ 24 (Layout.growth ⟨8, 8⟩)
  obtain ⟨-, -, -, -, htree, -, htable, -, hlast, -⟩ := hall
  constructor
  · have hsame : ∀ w : World (PairTable Nat Nat), SameStore w w := fun _ => rfl
    have hpairs : (HashMap.tryExtend (Layout.growth ⟨8, 8⟩) pairsLeft stillEmpty).2.store.pairs =
        pairSource.items.foldl PairTable.insertPair [] :=
      htable.finish (s := refusedOnce) rfl
        (.cons (hsame refusedOnce) ⟨_, eq_of_fst pairSource_fails⟩ (.nil _ pairsLeft))
        (hsame stillEmpty) (eq_of_fst pairsLeft_succeeds)
    rw [hpairs, hlast]
    rfl
  · have hstart := BTree.fullMap_represents (· != 0)
    exact htree.finish hstart (.cons ⟨_, rfl⟩ ⟨⟨⟩, BTree.source_fails⟩ (.nil _ BTree.leftOver))
      ⟨_, rfl⟩ (eq_of_fst BTree.leftOver_succeeds)

end Rustyfill.Collections
