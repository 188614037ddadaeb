import Rustyfill.Lib.Chains
import Rustyfill.Lib.Guarded
import Rustyfill.Runtime

/-!
# Pointer surgery on a linked list

`alloc/linked_list/mod.rs`: the two fallible pushes, which allocate a node and splice it into the
list by hand. The one at the back is the mirror image of the one at the front.
-/

namespace Rustyfill.LinkedList

open Guarded Chains

set_option autoImplicit false

/-- A `NonNull` address. -/
@[ext]
structure Address where
  raw : Nat
  pos : 0 < raw
  le : raw ≤ usizeMax

instance : DecidableEq Address := fun _ _ => decidable_of_iff _ Address.ext_iff.symm

structure Node (T : Type) where
  next : Option Address
  prev : Option Address
  element : T

structure SysLinkedList where
  head : Option Address
  tail : Option Address
  len : Nat

structure AllocError where
deriving DecidableEq

/-- `answers k` is the block that the allocator has for its request `k`, if it has one. -/
structure World (T : Type) where
  heap : Address → Option (Node T)
  list : SysLinkedList
  answers : Nat → Option Address
  requests : Nat

/-- How a push ends early: by handing the element back, or in a fault. -/
inductive Exit (T : Type) where
  | error (value : T) (e : AllocError)
  | fault (f : Fault)

abbrev Routine (T R : Type) := Body (World T) (Exit T) R

section
variable {T R : Type}

/-! ## The routines -/

/-- The block that answers the next request. No block that is in use is given out. -/
def World.fresh (w : World T) : Option Address :=
  (w.answers w.requests).filter fun a => (w.heap a).isNone

def World.set (w : World T) (a : Address) (n : Node T) : World T :=
  { w with heap := Function.update w.heap a (some n) }

def tryAllocNode (element : T) : Routine T Address := fun w =>
  let asked := { w with requests := w.requests + 1 }
  match w.fresh with
  | some a => (.ok a, asked.set a ⟨none, none, element⟩)
  | none => (.error (.error element ⟨⟩), asked)

/-- A write through `as_mut`, which needs a node that is there. -/
def modifyNode (a : Address) (f : Node T → Node T) : Routine T Unit := fun w =>
  match w.heap a with
  | some n => (.ok (), w.set a (f n))
  | none => (.error (.fault .undefined), w)

def getList : Routine T SysLinkedList := fun w => (.ok w.list, w)

def modifyList (f : SysLinkedList → SysLinkedList) : Routine T Unit := fun w =>
  (.ok (), { w with list := f w.list })

def incrementLen : Routine T Unit := do
  let list ← getList
  match checkedAdd usizeMax list.len 1 with
  | some len => modifyList fun l => { l with len := len }
  | none => Body.exit (.fault (.expect "linked list length overflow"))

def tryPushFrontMutGiveBack (value : T) : Routine T Unit := do
  let node ← tryAllocNode value
  let list ← getList
  modifyNode node fun n => { n with next := list.head }
  modifyNode node fun n => { n with prev := none }
  (match list.head with
    | none => modifyList fun l => { l with tail := some node }
    | some head => modifyNode head fun n => { n with prev := some node })
  modifyList fun l => { l with head := some node }
  incrementLen

def tryPushBackMutGiveBack (value : T) : Routine T Unit := do
  let node ← tryAllocNode value
  let list ← getList
  modifyNode node fun n => { n with next := none }
  modifyNode node fun n => { n with prev := list.tail }
  (match list.tail with
    | none => modifyList fun l => { l with head := some node }
    | some tail => modifyNode tail fun n => { n with next := some node })
  modifyList fun l => { l with tail := some node }
  incrementLen

/-! ## Well-formed lists -/

def World.forward (w : World T) (a : Address) : Option (Option Address) := (w.heap a).map Node.next

def World.backward (w : World T) (a : Address) : Option (Option Address) := (w.heap a).map Node.prev

/-- The nodes at `as` make up the list: a walk from the head passes them in this order, and one
from the tail in the opposite order. -/
structure Spans (w : World T) (as : List Address) (xs : List T) : Prop where
  forward : Chain w.forward w.list.head as
  backward : Chain w.backward w.list.tail as.reverse
  elements : as.map (fun a => (w.heap a).map Node.element) = xs.map some
  len : w.list.len = as.length

/-- The list is well formed, and `xs` is its sequence. -/
def WellFormed (w : World T) (xs : List T) : Prop := ∃ as, Spans w as xs

/-! ## The mirror image -/

def Node.mirror (n : Node T) : Node T := ⟨n.prev, n.next, n.element⟩

def SysLinkedList.mirror (l : SysLinkedList) : SysLinkedList := ⟨l.tail, l.head, l.len⟩

def World.mirror (w : World T) : World T :=
  { w with heap := fun a => (w.heap a).map Node.mirror, list := w.list.mirror }

/-- The routine `q` does to the mirror image what `p` does to the original. -/
def Mirrors (p q : Routine T R) : Prop := ∀ w, q w.mirror = ((p w).1, (p w).2.mirror)

variable {w : World T} {a : Address} {as : List Address} {x : T} {xs : List T} {S : Type}

theorem mirror_mirror (w : World T) : w.mirror.mirror = w := by
  have hheap : w.mirror.mirror.heap = w.heap := by
    funext a
    simp [World.mirror, Node.mirror, Function.comp_def]
  exact congrArg (fun heap => { w with heap := heap }) hheap

theorem mirror_set (n : Node T) : (w.set a n).mirror = w.mirror.set a n.mirror := by
  have hheap : (w.set a n).mirror.heap = (w.mirror.set a n.mirror).heap := by
    funext b
    by_cases hb : b = a
    · simp [World.mirror, World.set, hb]
    · simp [World.mirror, World.set, hb]
  exact congrArg (fun heap => { w.mirror with heap := heap }) hheap

theorem Mirrors.bind {p q : Routine T R} {f g : R → Routine T S} (h : Mirrors p q)
    (hfg : ∀ r, Mirrors (f r) (g r)) : Mirrors (p >>= f) (q >>= g) := by
  intro w
  have hp : (p >>= f) w = Body.bind p f w := rfl
  have hq : (q >>= g) w.mirror = Body.bind q g w.mirror := rfl
  rw [hp, hq, Body.bind, Body.bind, h w]
  rcases p w with ⟨_ | r, w'⟩
  · rfl
  · exact hfg r w'

theorem mirrors_getList {f g : SysLinkedList → Routine T S}
    (hfg : ∀ l, Mirrors (f l) (g l.mirror)) : Mirrors (getList >>= f) (getList >>= g) :=
  fun w => hfg w.list w

theorem mirrors_modifyList {f g : SysLinkedList → SysLinkedList}
    (hfg : ∀ l, g l.mirror = (f l).mirror) :
    Mirrors (modifyList f : Routine T Unit) (modifyList g) := by
  intro w
  have hlist : (modifyList g w.mirror).2 = (modifyList f w).2.mirror :=
    congrArg (fun l => { w.mirror with list := l }) (hfg w.list)
  exact congrArg (Prod.mk (Except.ok ())) hlist

theorem mirrors_modifyNode {f g : Node T → Node T} (hfg : ∀ n, g n.mirror = (f n).mirror) :
    Mirrors (modifyNode a f) (modifyNode a g) := by
  intro w
  simp only [modifyNode, World.mirror]
  cases w.heap a with
  | none => rfl
  | some n =>
    simp only [Option.map_some, hfg]
    exact congrArg (Prod.mk _) (mirror_set (f n)).symm

theorem fresh_mirror : w.mirror.fresh = w.fresh := by
  simp [World.fresh, World.mirror]

theorem mirrors_tryAllocNode : Mirrors (tryAllocNode x) (tryAllocNode x) := by
  intro w
  rw [tryAllocNode, tryAllocNode, fresh_mirror]
  cases w.fresh with
  | none => rfl
  | some a =>
    have hset := mirror_set (w := { w with requests := w.requests + 1 }) (a := a) ⟨none, none, x⟩
    exact congrArg (Prod.mk (Except.ok a)) hset.symm

theorem mirrors_incrementLen : Mirrors (incrementLen : Routine T Unit) incrementLen := by
  apply mirrors_getList
  intro l
  have hlen : l.mirror.len = l.len := rfl
  rw [hlen]
  cases checkedAdd usizeMax l.len 1 with
  | none => exact fun _ => rfl
  | some len => exact mirrors_modifyList fun _ => rfl

theorem modifyNode_twice {f g : Node T → Node T} {k : Routine T R} :
    (modifyNode a f >>= fun _ => modifyNode a g >>= fun _ => k) =
      modifyNode a (fun n => g (f n)) >>= fun _ => k := by
  funext w
  have hset : ∀ n m : Node T, (w.set a n).set a m = w.set a m := by
    intro n m
    exact congrArg (fun heap => { w with heap := heap }) (Function.update_idem ..)
  simp only [bind, Body.bind, modifyNode]
  cases w.heap a with
  | none => rfl
  | some n =>
    have hread : (w.set a (f n)).heap a = some (f n) := Function.update_self ..
    simp only [hread, hset]

theorem mirrors_push : Mirrors (tryPushFrontMutGiveBack x) (tryPushBackMutGiveBack x) := by
  rw [tryPushFrontMutGiveBack, tryPushBackMutGiveBack]
  apply mirrors_tryAllocNode.bind
  intro node
  apply mirrors_getList
  intro l
  rw [modifyNode_twice, modifyNode_twice]
  apply Mirrors.bind
  · exact mirrors_modifyNode fun _ => rfl
  intro _
  apply Mirrors.bind
  · change Mirrors _ (match l.head with
      | none => modifyList fun l => { l with head := some node }
      | some tail => modifyNode tail fun n => { n with next := some node })
    cases l.head with
    | none => exact mirrors_modifyList fun _ => rfl
    | some head => exact mirrors_modifyNode fun _ => rfl
  · intro _
    apply Mirrors.bind
    · exact mirrors_modifyList fun _ => rfl
    · exact fun _ => mirrors_incrementLen

theorem Spans.mirror (h : Spans w as xs) : Spans w.mirror as.reverse xs.reverse := by
  have hforward : w.mirror.forward = w.backward := by
    funext a
    simp [World.forward, World.backward, World.mirror, Node.mirror, Function.comp_def]
  have hbackward : w.mirror.backward = w.forward := by
    funext a
    simp [World.forward, World.backward, World.mirror, Node.mirror, Function.comp_def]
  have helement : ∀ a, (w.mirror.heap a).map Node.element = (w.heap a).map Node.element := by
    intro a
    simp [World.mirror, Node.mirror, Function.comp_def]
  refine ⟨?_, ?_, ?_, ?_⟩
  · rw [hforward]
    exact h.backward
  · rw [hbackward, List.reverse_reverse]
    exact h.forward
  · simp only [helement, List.map_reverse, h.elements]
  · rw [List.length_reverse]
    exact h.len

theorem WellFormed.mirror (h : WellFormed w xs) : WellFormed w.mirror xs.reverse := by
  obtain ⟨as, hspans⟩ := h
  exact ⟨as.reverse, hspans.mirror⟩

/-! ## The push at the front -/

theorem tryAllocNode_meets {Q : Address → World T → Prop} {E : Exit T → World T → Prop}
    (h : w.fresh = some a) : (tryAllocNode x).Meets w Q E ↔
      Q a (World.set { w with requests := w.requests + 1 } a ⟨none, none, x⟩) := by
  simp only [Body.Meets, tryAllocNode, h]

theorem modifyNode_meets {n : Node T} {f : Node T → Node T} {Q : Unit → World T → Prop}
    {E : Exit T → World T → Prop} (h : w.heap a = some n) :
    (modifyNode a f).Meets w Q E ↔ Q () (w.set a (f n)) := by
  simp only [Body.Meets, modifyNode, h]

theorem getList_meets {Q : SysLinkedList → World T → Prop} {E : Exit T → World T → Prop} :
    (getList : Routine T SysLinkedList).Meets w Q E ↔ Q w.list w := Iff.rfl

theorem modifyList_meets {f : SysLinkedList → SysLinkedList} {Q : Unit → World T → Prop}
    {E : Exit T → World T → Prop} :
    (modifyList f).Meets w Q E ↔ Q () { w with list := f w.list } := Iff.rfl

theorem incrementLen_meets {Q : Unit → World T → Prop} {E : Exit T → World T → Prop}
    (h : w.list.len < usizeMax) : (incrementLen : Routine T Unit).Meets w Q E ↔
      Q () { w with list := { w.list with len := w.list.len + 1 } } := by
  have hadd : checkedAdd usizeMax w.list.len 1 = some (w.list.len + 1) := if_pos h
  rw [incrementLen, Body.meets_bind, getList_meets, hadd]
  rfl

theorem length_le_of_nodup (h : as.Nodup) : as.length ≤ usizeMax := by
  have hraw : (as.map Address.raw).Nodup := by
    apply h.map
    rintro ⟨i, _, _⟩ ⟨j, _, _⟩ hij
    simpa using hij
  have hsub : as.map Address.raw ⊆ List.range' 1 usizeMax := by
    intro i hi
    obtain ⟨a, -, rfl⟩ := List.mem_map.mp hi
    rw [List.mem_range'_1]
    have hpos := a.pos
    have hle := a.le
    omega
  have hlen := (hraw.subperm hsub).length_le
  rwa [List.length_map, List.length_range'] at hlen

theorem fresh_spec (h : w.fresh = some a) : w.heap a = none := by
  rw [World.fresh, Option.filter_eq_some_iff] at h
  exact Option.isNone_iff_eq_none.mp h.2

/-- A fresh node was linked in before the head. -/
structure PushedFront (w w' : World T) (a : Address) (x : T) : Prop where
  node : w'.heap a = some ⟨w.list.head, none, x⟩
  others : ∀ b, b ≠ a → w'.heap b =
    (w.heap b).map fun n => if w.list.head = some b then { n with prev := some a } else n
  list : w'.list = ⟨some a, if w.list.head = none then some a else w.list.tail, w.list.len + 1⟩

theorem Spans.present (h : Spans w as xs) {b : Address} (hb : b ∈ as) : w.heap b ≠ none := by
  have hsome := Segment.isSome h.forward b hb
  intro hnone
  rw [World.forward, hnone] at hsome
  cases hsome

theorem tryPushFront_spec (h : Spans w as xs) (hfresh : w.fresh = some a) :
    (tryPushFrontMutGiveBack x).Meets w (fun _ w' => PushedFront w w' a x) (fun _ _ => False) := by
  have hnone := fresh_spec hfresh
  have hlen : w.list.len < usizeMax := by
    have hnot : a ∉ as := fun hmem => h.present hmem hnone
    have hle := length_le_of_nodup (List.nodup_cons.mpr ⟨hnot, Chain.nodup h.forward⟩)
    rw [h.len]
    exact hle
  rw [tryPushFrontMutGiveBack, Body.meets_bind, tryAllocNode_meets hfresh, Body.meets_bind,
    getList_meets, modifyNode_twice, Body.meets_bind,
    modifyNode_meets (n := ⟨none, none, x⟩) (Function.update_self ..), Body.meets_bind]
  cases as with
  | nil =>
    have hhead : w.list.head = none := h.forward
    simp only [World.set, hhead]
    rw [modifyList_meets, Body.meets_bind, modifyList_meets]
    rw [incrementLen_meets (by exact hlen)]
    refine ⟨?_, ?_, ?_⟩
    · simp [hhead]
    · intro b hb
      simp [hhead, hb]
    · simp [hhead]
  | cons head as =>
    have hhead : w.list.head = some head := h.forward.1
    obtain ⟨n, hn⟩ := Option.ne_none_iff_exists'.mp (h.present (b := head) List.mem_cons_self)
    have hne : head ≠ a := by
      rintro rfl
      rw [hn] at hnone
      cases hnone
    simp only [World.set, hhead]
    rw [modifyNode_meets (n := n) (by simp [hne, hn]), Body.meets_bind, modifyList_meets]
    rw [incrementLen_meets (by exact hlen)]
    refine ⟨?_, ?_, ?_⟩
    · simp [World.set, hhead, hne.symm]
    · intro b hb
      by_cases heq : b = head
      · simp [World.set, hhead, heq, hn]
      · simp [World.set, hhead, hb, heq, Ne.symm heq]
    · simp [World.set, hhead]

/-- The list after a push at the front. The cells between the ends are the old ones, and the old
head links back to the new one. -/
theorem PushedFront.spans {w' : World T} (h : Spans w as xs) (hnone : w.heap a = none)
    (hp : PushedFront w w' a x) : Spans w' (a :: as) (x :: xs) := by
  have hne : ∀ b ∈ as, b ≠ a := by
    rintro b hb rfl
    exact h.present hb hnone
  have hforward : ∀ b ∈ as, w'.forward b = w.forward b := by
    intro b hb
    rw [World.forward, World.forward, hp.others b (hne b hb), Option.map_map]
    congr 1
    funext n
    dsimp only [Function.comp_apply]
    split_ifs
    · rfl
    · rfl
  have helement : ∀ b ∈ as,
      (w'.heap b).map Node.element = (w.heap b).map Node.element := by
    intro b hb
    rw [hp.others b (hne b hb), Option.map_map]
    congr 1
    funext n
    dsimp only [Function.comp_apply]
    split_ifs
    · rfl
    · rfl
  refine ⟨⟨?_, w.list.head, ?_, ?_⟩, ?_, ?_, ?_⟩
  · rw [hp.list]
  · rw [World.forward, hp.node]
    rfl
  · exact Segment.congr h.forward hforward
  · rw [List.reverse_cons, hp.list]
    have hbackA : w'.backward a = some none := by
      rw [World.backward, hp.node]
      rfl
    refine segment_concat.mpr ⟨?_, hbackA⟩
    cases as with
    | nil =>
      have hhead : w.list.head = none := h.forward
      exact if_pos hhead
    | cons head as =>
      have hhead : w.list.head = some head := h.forward.1
      have hback := h.backward
      rw [List.reverse_cons, Chain, segment_concat] at hback
      have hnodup := (List.nodup_cons.mp (Chain.nodup h.forward)).1
      rw [if_neg (by rw [hhead]; exact Option.some_ne_none _), List.reverse_cons, segment_concat]
      constructor
      · apply Segment.congr hback.1
        intro b hb
        have hmem : b ∈ as := List.mem_reverse.mp hb
        have hother : w.list.head ≠ some b := by
          rw [hhead]
          rintro ⟨⟩
          exact hnodup hmem
        rw [World.backward, World.backward, hp.others b (hne b (.tail _ hmem))]
        simp only [if_neg hother, Option.map_id']
      · obtain ⟨n, hn⟩ := Option.ne_none_iff_exists'.mp (h.present (b := head) List.mem_cons_self)
        rw [World.backward, hp.others head (hne head List.mem_cons_self), hn]
        simp [hhead]
  · rw [List.map_cons, List.map_cons, hp.node, ← h.elements]
    exact congrArg (List.cons _) (List.map_congr_left helement)
  · rw [hp.list, h.len, List.length_cons]

/-- It depends on the one request for a node which of the two it is. -/
theorem tryPushFront_surgery (h : WellFormed w xs) :
    (tryPushFrontMutGiveBack x).Meets w
      (fun _ w' => w.fresh.isSome = true ∧ WellFormed w' (x :: xs) ∧
        w'.list.len = w.list.len + 1)
      (fun e w' => w.fresh.isSome = false ∧ e = .error x ⟨⟩ ∧ w'.heap = w.heap ∧
        w'.list = w.list) := by
  obtain ⟨as, hspans⟩ := h
  cases hfresh : w.fresh with
  | none =>
    have hrefused : (tryAllocNode x).Meets w (fun _ _ => False)
        (fun e w' => e = .error x ⟨⟩ ∧ w'.heap = w.heap ∧ w'.list = w.list) := by
      simp only [Body.Meets, tryAllocNode, hfresh, and_self]
    rw [tryPushFrontMutGiveBack, Body.meets_bind]
    apply hrefused.mono
    · intro _ _ h
      exact h.elim
    · intro _ _ h
      exact ⟨rfl, h⟩
  | some a =>
    apply (tryPushFront_spec hspans hfresh).mono
    · intro _ w' hp
      refine ⟨rfl, ⟨_, hp.spans hspans (fresh_spec hfresh)⟩, ?_⟩
      rw [hp.list]
    · intro _ _ h
      exact h.elim

/-! ## Both ends -/

theorem Mirrors.meets {p q : Routine T R} {Q : R → World T → Prop} {E : Exit T → World T → Prop}
    (h : Mirrors p q) : q.Meets w Q E ↔
      p.Meets w.mirror (fun r w' => Q r w'.mirror) (fun e w' => E e w'.mirror) := by
  have hq := h w.mirror
  rw [mirror_mirror] at hq
  simp only [Body.Meets, hq]
  rcases p w.mirror with ⟨_ | _, _⟩
  · rfl
  · rfl

theorem tryPushBack_surgery (h : WellFormed w xs) :
    (tryPushBackMutGiveBack x).Meets w
      (fun _ w' => w.fresh.isSome = true ∧ WellFormed w' (xs ++ [x]) ∧
        w'.list.len = w.list.len + 1)
      (fun e w' => w.fresh.isSome = false ∧ e = .error x ⟨⟩ ∧ w'.heap = w.heap ∧
        w'.list = w.list) := by
  rw [mirrors_push.meets]
  apply (tryPushFront_surgery h.mirror).mono
  · rintro _ w' ⟨hfresh, hwell, hlen⟩
    have hback := hwell.mirror
    rw [List.reverse_cons, List.reverse_reverse] at hback
    exact ⟨fresh_mirror ▸ hfresh, hback, hlen⟩
  · rintro _ w' ⟨hfresh, rfl, hheap, hlist⟩
    refine ⟨fresh_mirror ▸ hfresh, rfl, ?_, ?_⟩
    · rw [← mirror_mirror w, World.mirror, World.mirror, hheap]
    · rw [← mirror_mirror w, World.mirror, World.mirror, hlist]

theorem WellFormed.congr {w' : World T} (h : WellFormed w xs) (hheap : w'.heap = w.heap)
    (hlist : w'.list = w.list) : WellFormed w' xs := by
  obtain ⟨as, hspans⟩ := h
  have hforward : w'.forward = w.forward := by
    funext a
    rw [World.forward, World.forward, hheap]
  have hbackward : w'.backward = w.backward := by
    funext a
    rw [World.backward, World.backward, hheap]
  refine ⟨as, ?_, ?_, ?_, ?_⟩
  · rw [hforward, hlist]
    exact hspans.forward
  · rw [hbackward, hlist]
    exact hspans.backward
  · rw [hheap]
    exact hspans.elements
  · rw [hlist]
    exact hspans.len

inductive End where
  | front
  | back

def push : End → T → Routine T Unit
  | .front => tryPushFrontMutGiveBack
  | .back => tryPushBackMutGiveBack

/-- A sequence with one more element at an end. -/
def End.add : End → T → List T → List T
  | .front, x, xs => x :: xs
  | .back, x, xs => xs ++ [x]

/-- A push adds its element at its end of the list, which stays well formed; or it hands the element
back, and no pointer is changed. -/
theorem push_surgery (h : WellFormed w xs) (e : End) (x : T) :
    (push e x).Meets w
      (fun _ w' => WellFormed w' (e.add x xs) ∧ w'.list.len = w.list.len + 1)
      (fun exit w' => exit = .error x ⟨⟩ ∧ w'.heap = w.heap ∧ w'.list = w.list) := by
  cases e with
  | front => exact (tryPushFront_surgery h).mono (fun _ _ h => h.2) fun _ _ h => h.2
  | back => exact (tryPushBack_surgery h).mono (fun _ _ h => h.2) fun _ _ h => h.2

/-- The list of one element at an address, on a heap with nothing else. -/
def single (a : Address) (x : T) (answers : Nat → Option Address) : World T where
  heap := Function.update (fun _ => none) a (some ⟨none, none, x⟩)
  list := ⟨some a, some a, 1⟩
  answers := answers
  requests := 0

theorem single_wellFormed (a : Address) (x : T) (answers : Nat → Option Address) :
    WellFormed (single a x answers) [x] := by
  refine ⟨[a], ⟨rfl, none, ?_, rfl⟩, ⟨rfl, none, ?_, rfl⟩, ?_, rfl⟩
  · simp [World.forward, single]
  · simp [World.backward, single]
  · simp [single]

theorem push_surgery_single : ∃ w : World Nat, WellFormed w [7] ∧ w.fresh ≠ none ∧
    (push .back 8).Meets w (fun _ w' => WellFormed w' [7, 8] ∧ w'.list.len = w.list.len + 1)
      (fun exit w' => exit = .error 8 ⟨⟩ ∧ w'.heap = w.heap ∧ w'.list = w.list) := by
  let second : Address := ⟨2, Nat.two_pos, two_le_usizeMax⟩
  refine ⟨single ⟨1, Nat.one_pos, one_le_usizeMax⟩ 7 fun _ => some second,
    single_wellFormed _ 7 _, ?_, push_surgery (single_wellFormed _ 7 _) .back 8⟩
  simp [World.fresh, single, second]

end

end Rustyfill.LinkedList
