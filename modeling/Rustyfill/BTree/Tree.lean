import Rustyfill.BTree.View
import Rustyfill.Lib.Separated

/-!
# Trees on the heap

The tree that the nodes on the heap make up: every node shows its entries, and the children at
its edges name it, and their edge, as their parent. The heights of the leaves are equal by
construction.
-/

namespace Rustyfill.BTree

open RawSlots Guarded Separated

set_option autoImplicit false

/-- A node at an address; a leaf has no children. -/
structure Tree (K V : Type) where
  addr : Nat
  entries : List (K × V)
  children : List (Tree K V)

variable {K V : Type}

namespace Tree

/-! ## Trees of one height -/

def addrs : Nat → Tree K V → List Nat
  | 0, t => [t.addr]
  | h + 1, t => t.addr :: t.children.flatMap (addrs h)

def inorder : Nat → Tree K V → List (K × V)
  | 0, t => t.entries
  | h + 1, t => weave (t.children.map (inorder h)) t.entries

def leaves : Nat → Tree K V → List (Tree K V)
  | 0, t => [t]
  | h + 1, t => t.children.flatMap (leaves h)

/-- At least `B - 1` keys in every node but the topmost, which has at least `least`. -/
def Shaped : Nat → Nat → Tree K V → Prop
  | 0, least, t => least ≤ t.entries.length ∧ t.entries.length ≤ capacity
  | h + 1, least, t => least ≤ t.entries.length ∧ t.entries.length ≤ capacity ∧
    t.children.length = t.entries.length + 1 ∧ ∀ c ∈ t.children, Shaped h 5 c

/-- The heap has the tree, with its topmost node linked to `link`. -/
def Holds (heap : Nat → Option (Node K V)) : Nat → Option (Nat × Nat) → Tree K V → Prop
  | 0, link, t => Shown heap t.addr ⟨link, t.entries, none⟩
  | h + 1, link, t => Shown heap t.addr ⟨link, t.entries, some (t.children.map addr)⟩ ∧
    ∀ i c, t.children[i]? = some c → Holds heap h (some (t.addr, i)) c

variable {h least : Nat} {t : Tree K V} {link : Option (Nat × Nat)}
  {heap heap' : Nat → Option (Node K V)}

theorem addr_mem_addrs (h : Nat) (t : Tree K V) : t.addr ∈ addrs h t := by
  cases h with
  | zero => exact List.mem_singleton_self _
  | succ h => exact List.mem_cons_self

theorem Shaped.length (hs : Shaped h least t) :
    least ≤ t.entries.length ∧ t.entries.length ≤ capacity := by
  cases h with
  | zero => exact hs
  | succ h => exact ⟨hs.1, hs.2.1⟩

theorem Shaped.mono {least' : Nat} (hs : Shaped h least t) (hle : least' ≤ least) :
    Shaped h least' t := by
  cases h with
  | zero => exact ⟨Nat.le_trans hle hs.1, hs.2⟩
  | succ h => exact ⟨Nat.le_trans hle hs.1, hs.2⟩

/-- The edges of the topmost node. -/
def edges : Nat → Tree K V → Option (List Nat)
  | 0, _ => none
  | _ + 1, t => some (t.children.map addr)

theorem Holds.shown (ht : Holds heap h link t) :
    Shown heap t.addr ⟨link, t.entries, t.edges h⟩ := by
  cases h with
  | zero => exact ht
  | succ h => exact ht.1

theorem Holds.frame (ht : Holds heap h link t) (hsame : ∀ p ∈ addrs h t, heap' p = heap p) :
    Holds heap' h link t := by
  induction h generalizing link t with
  | zero =>
    rw [Holds, Shown, hsame _ (List.mem_singleton_self _)]
    exact ht
  | succ h ih =>
    refine ⟨?_, fun i c hc => ih (ht.2 i c hc) fun p hp => hsame p ?_⟩
    · rw [Shown, hsame _ List.mem_cons_self]
      exact ht.1
    · have hmem := List.mem_of_getElem? hc
      exact List.mem_cons_of_mem _ (List.mem_flatMap.mpr ⟨c, hmem, hp⟩)

theorem Holds.touched {S : List Nat} {w w' : World K V} (ht : Holds w.heap h link t)
    (htouch : Touches S w w') (hapart : ∀ p ∈ addrs h t, p ∉ S) : Holds w'.heap h link t :=
  ht.frame fun p hp => htouch.frame p (hapart p hp)

theorem Holds.allocated (ht : Holds heap h link t) : ∀ p ∈ addrs h t, heap p ≠ none := by
  induction h generalizing link t with
  | zero =>
    intro p hp
    obtain rfl := List.mem_singleton.mp hp
    obtain ⟨n, hn, -⟩ := ht
    rw [hn]
    exact Option.some_ne_none n
  | succ h ih =>
    intro p hp
    rcases List.mem_cons.mp hp with rfl | hp
    · obtain ⟨n, hn, -⟩ := ht.1
      rw [hn]
      exact Option.some_ne_none n
    · obtain ⟨c, hc, hp⟩ := List.mem_flatMap.mp hp
      obtain ⟨i, hi⟩ := List.getElem?_of_mem hc
      exact ih (ht.2 i c hi) p hp

theorem Holds.relink {link' : Option (Nat × Nat)} (ht : Holds heap h link t)
    (hnodup : (addrs h t).Nodup)
    (hshown : Shown heap' t.addr ⟨link', t.entries, t.edges h⟩)
    (hsame : ∀ p ∈ addrs h t, p ≠ t.addr → heap' p = heap p) : Holds heap' h link' t := by
  cases h with
  | zero => exact hshown
  | succ h =>
    have hapart := (List.nodup_cons.mp hnodup).1
    refine ⟨hshown, fun i c hc => (ht.2 i c hc).frame fun p hp => ?_⟩
    have hmem : p ∈ t.children.flatMap (addrs h) :=
      List.mem_flatMap.mpr ⟨c, List.mem_of_getElem? hc, hp⟩
    exact hsame p (List.mem_cons_of_mem _ hmem) fun heq => hapart (heq ▸ hmem)

/-! ## A cut -/

variable {m p : Nat} {kv : K × V}

/-- What stays in the node when the entry at `m` is promoted. -/
def lower (m : Nat) (t : Tree K V) : Tree K V :=
  ⟨t.addr, t.entries.take m, t.children.take (m + 1)⟩

/-- What goes into the node `p`. -/
def upper (m p : Nat) (t : Tree K V) : Tree K V :=
  ⟨p, t.entries.drop (m + 1), t.children.drop (m + 1)⟩

theorem inorder_cut (hlen : t.children.length = t.entries.length + 1)
    (hkv : t.entries[m]? = some kv) : inorder (h + 1) t =
      inorder (h + 1) (t.lower m) ++ kv :: inorder (h + 1) (t.upper m p) := by
  obtain ⟨hm, rfl⟩ := List.getElem?_eq_some_iff.mp hkv
  have hmapped : (t.children.map (inorder h)).length = t.entries.length + 1 := by
    rw [List.length_map, hlen]
  have hcut := weave_cut hmapped hm
  rw [← List.map_take, ← List.map_drop] at hcut
  exact hcut

theorem perm_addrs_cut :
    (addrs (h + 1) (t.lower m) ++ addrs (h + 1) (t.upper m p)).Perm (p :: addrs (h + 1) t) := by
  have hsplit := congrArg (List.flatMap (addrs h)) (List.take_append_drop (m + 1) t.children)
  rw [List.flatMap_append] at hsplit
  rw [addrs, addrs, addrs, ← hsplit]
  exact List.perm_middle

theorem leaves_cut :
    leaves (h + 1) t = leaves (h + 1) (t.lower m) ++ leaves (h + 1) (t.upper m p) := by
  have hsplit := congrArg (List.flatMap (leaves h)) (List.take_append_drop (m + 1) t.children)
  rw [List.flatMap_append] at hsplit
  exact hsplit.symm

theorem shaped_cut (hlen : t.children.length = t.entries.length + 1)
    (hfull : t.entries.length = capacity + 1) (hlow : 5 ≤ m) (hhigh : m ≤ 6)
    (hc : ∀ c ∈ t.children, Shaped h 5 c) :
    Shaped (h + 1) 5 (t.lower m) ∧ Shaped (h + 1) 5 (t.upper m p) := by
  rw [capacity] at hfull
  refine ⟨⟨?_, ?_, ?_, fun c hmem => hc c (List.mem_of_mem_take hmem)⟩,
    ⟨?_, ?_, ?_, fun c hmem => hc c (List.mem_of_mem_drop hmem)⟩⟩
  · rw [lower, List.length_take]
    omega
  · rw [lower, List.length_take, capacity]
    omega
  · rw [lower, List.length_take, List.length_take]
    omega
  · rw [upper, List.length_drop]
    omega
  · rw [upper, List.length_drop, capacity]
    omega
  · rw [upper, List.length_drop, List.length_drop]
    omega

end Tree

end Rustyfill.BTree
