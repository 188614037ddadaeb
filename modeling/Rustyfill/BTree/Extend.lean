import Rustyfill.BTree.MapRuns
import Rustyfill.Collections.Extend

/-!
# Extensions of maps and sets

`alloc/btrees/entry_try_extend.rs`. The pair that an insertion handed back goes to the head of what
is handed back of the source, so that attempts that go on with it leave nothing out.
-/

namespace Rustyfill.BTree

open Guarded Transition
open Collections (Resumable Remainder)

set_option autoImplicit false

variable {K V T R : Type}

section
variable (insert : T → Routine K V (Except (T × AllocError) R))

def extendRemainder (lower : Nat → Nat) :
    List T → Routine K V (Except (Resumable T × AllocError) Unit)
  | [] => return .ok ()
  | item :: rest => do
    match ← insert item with
    | .ok _ => extendRemainder lower rest
    | .error (back, e) => return .error (.new back ⟨rest, lower⟩, e)

/-- `try_extend`, by an insertion that hands the item back. -/
def extendGivingBack (src : Resumable T) :
    Routine K V (Except (Resumable T × AllocError) Unit) := do
  match src.head with
  | none => extendRemainder insert src.remainder.lower src.remainder.items
  | some head =>
    match ← insert head with
    | .ok _ => extendRemainder insert src.remainder.lower src.remainder.items
    | .error (back, e) => return .error (.new back src.remainder, e)

end

section
variable [LinearOrder K]

def BTreeMap.insertPair (kv : K × V) : Routine K V (Except ((K × V) × AllocError) (Option V)) := do
  match ← BTreeMap.tryInsertGiveBack kv.1 kv.2 with
  | .ok old => return .ok old
  | .error (k, v, e) => return .error ((k, v), e)

def BTreeMap.tryExtend (src : Resumable (K × V)) :
    Routine K V (Except (Resumable (K × V) × AllocError) Unit) :=
  extendGivingBack BTreeMap.insertPair src

def BTreeSet.tryExtend (src : Resumable K) :
    Routine K Unit (Except (Resumable K × AllocError) Unit) :=
  extendGivingBack BTreeSet.tryInsertGiveBack src

variable {add : (K → Option V) → T → K → Option V}
  {insert : T → Routine K V (Except (T × AllocError) R)}
  {w w' : World K V} {m : K → Option V}

/-- An item is added, or handed back. -/
def InsertsOne (add : (K → Option V) → T → K → Option V)
    (insert : T → Routine K V (Except (T × AllocError) R)) : Prop :=
  ∀ {w m} x, Represents w m → (insert x).Meets w
    (fun r w' => (∃ a, r = .ok a ∧ Represents w' (add m x)) ∨
      ∃ e, r = .error (x, e) ∧ Represents w' m)
    (fun e _ => Aborted w e)

theorem insertPair_insertsOne :
    InsertsOne (fun m (kv : K × V) => put m kv.1 kv.2) BTreeMap.insertPair := by
  rintro w m ⟨k, v⟩ hw
  rw [BTreeMap.insertPair, Body.meets_bind]
  apply (tryInsertGiveBack_meets hw v).mono
  · rintro _ w' (⟨rfl, hput⟩ | ⟨err, rfl, -, hw', -⟩)
    · exact .inl ⟨_, rfl, hput⟩
    · exact .inr ⟨err, rfl, hw'⟩
  · intro _ _ h
    exact h

theorem setInsert_insertsOne :
    InsertsOne (fun m (x : K) => put m x ()) BTreeSet.tryInsertGiveBack := by
  intro w m x hw
  rw [BTreeSet.tryInsertGiveBack, Body.meets_bind]
  apply (tryInsertGiveBack_meets hw ()).mono
  · rintro _ w' (⟨rfl, hput⟩ | ⟨err, rfl, -, hw', -⟩)
    · exact .inl ⟨_, rfl, hput⟩
    · exact .inr ⟨err, rfl, hw'⟩
  · intro _ _ h
    exact h

/-- How an attempt ends: with all items added, or with some of them and a source of the others. -/
def Extended (add : (K → Option V) → T → K → Option V) (m : K → Option V) (items : List T)
    (r : Except (Resumable T × AllocError) Unit) (w' : World K V) : Prop :=
  match r with
  | .ok () => Represents w' (items.foldl add m)
  | .error (src, _) => ∃ done, items = done ++ src.items ∧ Represents w' (done.foldl add m)

theorem Extended.behind {x : T} {items : List T} {r : Except (Resumable T × AllocError) Unit}
    (h : Extended add (add m x) items r w') : Extended add m (x :: items) r w' := by
  rcases r with ⟨src, e⟩ | _
  · obtain ⟨done, rfl, hw'⟩ := h
    exact ⟨x :: done, rfl, hw'⟩
  · exact h

theorem extendRemainder_meets (hinsert : InsertsOne add insert) {lower : Nat → Nat}
    {items : List T} (hw : Represents w m) : (extendRemainder insert lower items).Meets w
      (Extended add m items) (fun e _ => e = .fault .abort) := by
  induction items generalizing w m with
  | nil => exact hw
  | cons x items ih =>
    rw [extendRemainder, Body.meets_bind]
    apply (hinsert x hw).mono
    · rintro _ w' (⟨a, rfl, hadd⟩ | ⟨e, rfl, hw'⟩)
      · exact (ih hadd).mono (fun _ _ h => h.behind) fun _ _ h => h
      · exact ⟨[], rfl, hw'⟩
    · intro _ _ h
      exact h.1

theorem extendGivingBack_meets (hinsert : InsertsOne add insert) (src : Resumable T)
    (hw : Represents w m) : (extendGivingBack insert src).Meets w (Extended add m src.items)
      (fun e _ => e = .fault .abort) := by
  obtain ⟨head, remainder⟩ := src
  cases head with
  | none => exact extendRemainder_meets hinsert hw
  | some head =>
    rw [extendGivingBack, Body.meets_bind]
    apply (hinsert head hw).mono
    · rintro _ w' (⟨a, rfl, hadd⟩ | ⟨e, rfl, hw'⟩)
      · exact (extendRemainder_meets hinsert hadd).mono (fun _ _ h => h.behind) fun _ _ h => h
      · exact ⟨[], rfl, hw'⟩
    · intro _ _ h
      exact h.1

/-! ## Any number of attempts -/

/-- A failed attempt, with the source that came back. -/
def FailsOn (attempt : Resumable T → Routine K V (Except (Resumable T × AllocError) Unit))
    (s : World K V × Resumable T) (e : AllocError) (s' : World K V × Resumable T) : Prop :=
  attempt s.2 s.1 = (.ok (.error (s'.2, e)), s'.1)

/-- Attempts to add the items of a source, of which each goes on with what the one before handed
back. However many fail, what was added and what is left are the items, in order, and the attempt
that succeeds leaves all of them added. -/
structure Resumes (add : (K → Option V) → T → K → Option V)
    (attempt : Resumable T → Routine K V (Except (Resumable T × AllocError) Unit)) : Prop where
  split : ∀ {w w' src src' es m}, Represents w m → Run (FailsOn attempt) (w, src) es (w', src') →
    ∃ done, src.items = done ++ src'.items ∧ Represents w' (done.foldl add m)
  finish : ∀ {w w' src src' es m}, Represents w m → Run (FailsOn attempt) (w, src) es (w', src') →
    (attempt src').Meets w' (fun r w'' => r = .ok () → Represents w'' (src.items.foldl add m))
      (fun e _ => e = .fault .abort)

theorem Resumes.ok {attempt : Resumable T → Routine K V (Except (Resumable T × AllocError) Unit)}
    {src src' : Resumable T} {es : List AllocError} (h : Resumes add attempt)
    (hm : Represents w m) (hrun : Run (FailsOn attempt) (w, src) es (w', src'))
    (hok : (attempt src' w').1 = .ok (.ok ())) :
    Represents (attempt src' w').2 (src.items.foldl add m) :=
  (h.finish hm hrun).ok hok rfl

theorem InsertsOne.split (hinsert : InsertsOne add insert) {s s' : World K V × Resumable T}
    {es : List AllocError} (hw : Represents s.1 m)
    (hrun : Run (FailsOn (extendGivingBack insert)) s es s') :
    ∃ done, s.2.items = done ++ s'.2.items ∧ Represents s'.1 (done.foldl add m) := by
  induction hrun generalizing m with
  | nil s => exact ⟨[], rfl, hw⟩
  | @cons s t u e es hstep _ ih =>
    have hmeets := extendGivingBack_meets hinsert s.2 hw
    rw [Body.Meets, hstep] at hmeets
    obtain ⟨done, hitems, ht⟩ := hmeets
    obtain ⟨more, hmore, hu⟩ := ih ht
    refine ⟨done ++ more, ?_, ?_⟩
    · rw [hitems, hmore, List.append_assoc]
    · rwa [List.foldl_append]

theorem InsertsOne.resumes (hinsert : InsertsOne add insert) :
    Resumes add (extendGivingBack insert) where
  split hw hrun := hinsert.split hw hrun
  finish {w w' src src' es m} hw hrun := by
    obtain ⟨done, hitems, hw'⟩ := hinsert.split hw hrun
    apply (extendGivingBack_meets hinsert src' hw').mono
    · rintro _ w'' hend rfl
      rw [hitems, List.foldl_append]
      exact hend
    · intro _ _ h
      exact h

/-- Of maps and sets alike. -/
theorem btree_extend_resumes (K V : Type) [LinearOrder K] :
    Resumes (fun m (kv : K × V) => put m kv.1 kv.2) BTreeMap.tryExtend ∧
      Resumes (fun m (x : K) => put m x ()) BTreeSet.tryExtend :=
  ⟨insertPair_insertsOne.resumes, setInsert_insertsOne.resumes⟩

end

theorem fullMap_represents (grants : Nat → Bool) :
    Represents (fullMap grants) fun k => if k < 11 then some k else none := by
  refine ⟨_, fullMap_isMap grants, fun k v => ?_⟩
  simp only [fullLeaf, List.mem_map, List.mem_range, Prod.mk.injEq, Option.ite_none_right_eq_some,
    Option.some.injEq]
  constructor
  · rintro ⟨j, hj, rfl, rfl⟩
    exact ⟨hj, rfl⟩
  · rintro ⟨hk, rfl⟩
    exact ⟨k, hk, rfl, rfl⟩

/-- A key that is there, and one for which the full leaf is split. -/
def source : Resumable (Nat × Nat) := .fromRemainder ⟨[(5, 50), (11, 110)], id⟩

def leftOver : Resumable (Nat × Nat) := .new (11, 110) ⟨[], id⟩

/-- The first attempt replaces a value and is refused the split. -/
def halfExtended : World Nat Nat := (BTreeMap.tryExtend source (fullMap (· != 0))).2

theorem source_fails :
    FailsOn BTreeMap.tryExtend (fullMap (· != 0), source) ⟨⟩ (halfExtended, leftOver) := by
  have hexit : (BTreeMap.tryExtend source (fullMap (· != 0))).1 = .ok (.error (leftOver, ⟨⟩)) := by
    simp only [BTreeMap.tryExtend, extendGivingBack, source, Resumable.fromRemainder,
      extendRemainder]
    rfl
  exact Prod.ext hexit rfl

theorem leftOver_succeeds : (BTreeMap.tryExtend leftOver halfExtended).1 = .ok (.ok ()) := by
  have hok :
      (BTreeMap.tryExtend leftOver halfExtended).1.toOption.map Except.isOk = some true := by
    decide +kernel
  match h : (BTreeMap.tryExtend leftOver halfExtended).1, hok with
  | .ok (.ok ()), _ => rfl

theorem btree_extend_resumes_refused :
    Represents halfExtended (put (fun k => if k < 11 then some k else none) 5 50) ∧
      Represents (BTreeMap.tryExtend leftOver halfExtended).2
        (put (put (fun k => if k < 11 then some k else none) 5 50) 11 110) := by
  have hresumes := (btree_extend_resumes Nat Nat).1
  have hstart := fullMap_represents (· != 0)
  have hfails := Run.single source_fails
  constructor
  · obtain ⟨done, hitems, hhalf⟩ := hresumes.split hstart hfails
    obtain ⟨rfl, -⟩ := List.append_inj' (show [(5, 50)] ++ leftOver.items = _ from hitems) rfl
    exact hhalf
  · exact hresumes.ok hstart hfails leftOver_succeeds

end Rustyfill.BTree
