import Rustyfill.BTree.Insert
import Rustyfill.Lib.Refinement

/-!
# Addresses are given out in order

However an insertion ends, no address from the next one on was given out before.
-/

namespace Rustyfill.BTree

open RawSlots Guarded Body

set_option autoImplicit false

variable {K V R α : Type}

/-! ## One step -/

theorem grows_fault {f : Fault} : Grows World.next (fault f : Routine K V R) := grows_exit

theorem grows_giveBack {key : K} {value : V} {e : AllocError} :
    Grows World.next (giveBack key value e : Routine K V R) := grows_exit

theorem grows_orUndefined {r : Option R} : Grows World.next (orUndefined r : Routine K V R) := by
  cases r with
  | none => exact grows_exit
  | some r => exact grows_pure

theorem grows_deref {p : Nat} : Grows World.next (deref p : Routine K V (Node K V)) :=
  fun w => grows_orUndefined w

theorem grows_world : Grows World.next (world : Routine K V (World K V)) := fun _ => le_rfl

theorem grows_modify {p : Nat} {f : Node K V → Option (Node K V)} :
    Grows World.next (modify p f) :=
  grows_deref.bind fun _ => grows_orUndefined.bind fun _ _ => le_rfl

theorem grows_modifyMap {f : SysBTreeMap → SysBTreeMap} :
    Grows World.next (modifyMap f : Routine K V Unit) := fun _ => le_rfl

theorem grows_request : Grows World.next (request : Routine K V Bool) := fun _ => le_rfl

theorem grows_place {n : Node K V} : Grows World.next (place n) := fun _ => Nat.le_succ _

theorem grows_free {p : Nat} : Grows World.next (free p : Routine K V Unit) := fun _ => le_rfl

theorem grows_tryNew {n : Node K V} : Grows World.next (tryNew n) := by
  refine grows_request.bind fun granted => ?_
  cases granted with
  | false => exact grows_pure
  | true => exact grows_place.bind fun _ => grows_pure

theorem grows_recycle {b : Scratch} {buf : Buf α} :
    Grows World.next (buf.recycle b : Routine K V Unit) := fun _ => le_rfl

theorem grows_push {buf : Buf α} {x : α} : Grows World.next (buf.push x : Routine K V (Buf α)) := by
  rw [Buf.push]
  split
  · exact grows_pure
  · refine grows_request.bind fun granted => ?_
    cases granted with
    | false => exact grows_fault
    | true => exact grows_pure

theorem grows_bufNew {b : Scratch} {capacity : Nat} :
    Grows World.next (Buf.tryNew b capacity : Routine K V (Except AllocError (Buf α))) := by
  have htake : Grows World.next (takeCached b : Routine K V (Option Nat)) := fun _ => le_rfl
  refine htake.bind fun cached => ?_
  split
  · exact grows_pure
  · split
    · refine grows_request.bind fun granted => ?_
      cases granted with
      | false => exact grows_pure
      | true => exact grows_pure
    · exact grows_pure

theorem grows_drainToPointers {buf : Buf Nat} :
    Grows World.next (drainToPointers buf : Routine K V (List Nat × Buf Nat)) := by
  rw [drainToPointers]
  split
  · refine grows_request.bind fun granted => ?_
    cases granted with
    | false => exact grows_fault
    | true => exact grows_pure
  · exact grows_pure

theorem grows_ascend {node : NodeRef} :
    Grows World.next (ascend node : Routine K V AscendResult) := by
  refine grows_deref.bind fun leaf => ?_
  split
  · exact grows_orUndefined.bind fun _ => grows_pure
  · exact grows_pure

theorem grows_readEdge {p i : Nat} : Grows World.next (readEdge p i : Routine K V Nat) :=
  grows_deref.bind fun _ => grows_orUndefined

theorem grows_nodeLen {p : Nat} : Grows World.next (nodeLen p : Routine K V Nat) :=
  grows_deref.bind fun _ => grows_pure

theorem grows_readKeyValue {p i : Nat} :
    Grows World.next (readKeyValue p i : Routine K V (K × V)) :=
  grows_deref.bind fun _ => grows_orUndefined.bind fun _ => grows_orUndefined.bind fun _ =>
    grows_pure

/-! ## The plan -/

theorem grows_countInternals {fuel count : Nat} {cur : NodeRef} :
    Grows World.next (countInternals fuel cur count : Routine K V Nat) := by
  induction fuel generalizing cur count with
  | zero => exact grows_fault
  | succ fuel ih =>
    refine grows_ascend.bind fun above => ?_
    cases above with
    | parent handle =>
      refine grows_deref.bind fun parent => ?_
      split
      · exact grows_pure
      · exact ih
    | root node => exact grows_pure

theorem grows_recordInternals {fuel : Nat} {cur : NodeRef} {buf : Buf CommitInternal} :
    Grows World.next (recordInternals fuel cur buf : Routine K V _) := by
  induction fuel generalizing cur buf with
  | zero => exact grows_fault
  | succ fuel ih =>
    refine grows_ascend.bind fun above => ?_
    cases above with
    | parent handle =>
      refine grows_deref.bind fun parent => grows_push.bind fun buf => ?_
      split
      · exact ih
      · exact grows_pure
    | root node => exact grows_pure

theorem grows_build {leafEdge : Handle} :
    Grows World.next (CommitPlan.build leafEdge : Routine K V _) := by
  have hlevels : Grows World.next (levels : Routine K V Nat) := grows_world.bind fun _ => grows_pure
  refine hlevels.bind fun fuel => grows_countInternals.bind fun n => grows_bufNew.bind fun buf => ?_
  cases buf with
  | error e => exact grows_pure
  | ok buf => exact grows_recordInternals.bind fun _ => grows_pure

theorem grows_reserveInternals {n : Nat} {buf : Buf Nat} :
    Grows World.next (reserveInternals n buf : Routine K V _) := by
  induction n generalizing buf with
  | zero => exact grows_pure
  | succ n ih =>
    refine grows_tryNew.bind fun node => ?_
    cases node with
    | error e => exact grows_pure
    | ok node => exact grows_push.bind fun _ => ih

theorem grows_dropReserved {buf : Buf Nat} :
    Grows World.next (dropReserved buf : Routine K V Unit) :=
  (Grows.forEach (fun _ => grows_free) _).bind fun _ => grows_recycle

/-! ## The commit -/

theorem grows_correctParentLinks {p first last : Nat} :
    Grows World.next (correctParentLinks p first last : Routine K V Unit) :=
  Grows.forEach (fun _ => grows_readEdge.bind fun _ => grows_modify) _

theorem grows_insertPromoted {p edgeIdx right : Nat} {kv : K × V} :
    Grows World.next (insertPromoted p edgeIdx kv right) :=
  grows_nodeLen.bind fun _ => grows_modify.bind fun _ => grows_correctParentLinks

theorem grows_growRoot {height right newRoot : Nat} {kv : K × V} :
    Grows World.next (growRoot height kv right newRoot) := by
  refine grows_world.bind fun w => ?_
  split
  · exact grows_fault
  · exact grows_modifyMap.bind fun _ => grows_modify.bind fun _ => grows_modify.bind fun _ =>
      grows_modify.bind fun _ => grows_modify.bind fun _ => grows_modifyMap

theorem grows_splitInternal {p ri spIdx childIdx right : Nat} {kv : K × V} :
    Grows World.next (splitInternal p ri spIdx childIdx kv right) := by
  have hcopy : Grows World.next (copyRightHalfInternal p ri spIdx : Routine K V Unit) :=
    grows_deref.bind fun _ => grows_modify.bind fun _ => grows_modify
  have hhalve : Grows World.next (halveInternal p ri spIdx : Routine K V Unit) :=
    hcopy.bind fun _ => grows_nodeLen.bind fun _ => grows_correctParentLinks
  refine grows_readKeyValue.bind fun promoted => hhalve.bind fun _ => ?_
  split
  · exact grows_insertPromoted.bind fun _ => grows_pure
  · exact grows_insertPromoted.bind fun _ => grows_pure

theorem grows_promote {newRoot : Bool} {insertNode insertIdx : Nat}
    {internals : List CommitInternal} {reserved : List Nat} {left right : NodeRef} {kv : K × V} :
    Grows World.next (promote newRoot insertNode insertIdx internals reserved left right kv) := by
  induction internals generalizing reserved left right kv with
  | nil =>
    rw [promote.eq_def]
    dsimp only
    split
    · exact grows_fault
    · cases reserved with
      | nil => exact grows_fault
      | cons nr reserved => exact grows_growRoot.bind fun _ => grows_pure
  | cons ci internals ih =>
    rw [promote.eq_def]
    dsimp only
    split
    · exact grows_insertPromoted.bind fun _ => grows_modifyMap.bind fun _ => grows_pure
    · cases ci.spIdx with
      | none => exact grows_fault
      | some spIdx =>
        cases reserved with
        | nil => exact grows_fault
        | cons ri reserved => exact grows_splitInternal.bind fun _ => ih

theorem grows_commitSplit {plan : CommitPlan} {leafRight : Nat} {reserved : List Nat} {key : K}
    {value : V} : Grows World.next (commitSplit plan leafRight reserved key value) := by
  have hcopy : Grows World.next
      (copyRightHalfLeaf plan.origLeaf leafRight plan.leafSp : Routine K V Unit) :=
    grows_deref.bind fun _ => grows_modify.bind fun _ => grows_modify
  exact grows_readKeyValue.bind fun _ => hcopy.bind fun _ =>
    grows_modify.bind fun _ => grows_promote

/-! ## The insertion -/

theorem grows_tryInsertWithSplit {leafEdge : Handle} {key : K} {value : V} :
    Grows World.next (tryInsertWithSplit leafEdge key value) := by
  refine grows_build.bind fun plan => ?_
  cases plan with
  | error e => exact grows_giveBack
  | ok plan =>
    refine grows_tryNew.bind fun leaf => ?_
    cases leaf with
    | error e => exact grows_recycle.bind fun _ => grows_giveBack
    | ok leaf =>
      refine grows_bufNew.bind fun buf => ?_
      cases buf with
      | error e => exact grows_free.bind fun _ => grows_recycle.bind fun _ => grows_giveBack
      | ok buf =>
        refine grows_reserveInternals.bind fun res => ?_
        obtain ⟨e | _, buf'⟩ := res
        · exact grows_dropReserved.bind fun _ => grows_free.bind fun _ =>
            grows_recycle.bind fun _ => grows_giveBack
        · exact grows_drainToPointers.bind fun _ => grows_commitSplit.bind fun _ =>
            grows_recycle.bind fun _ => grows_dropReserved.bind fun _ => grows_pure

theorem grows_tryInsertKv {handle : Option Handle} {key : K} {value : V} :
    Grows World.next (tryInsertKv handle key value) := by
  cases handle with
  | none =>
    refine grows_tryNew.bind fun leaf => ?_
    cases leaf with
    | error e => exact grows_giveBack
    | ok leaf => exact grows_modify.bind fun _ => grows_modifyMap.bind fun _ => grows_pure
  | some leafEdge =>
    refine grows_nodeLen.bind fun len => ?_
    split
    · exact grows_modify.bind fun _ => grows_modifyMap.bind fun _ => grows_pure
    · exact grows_tryInsertWithSplit

end Rustyfill.BTree
