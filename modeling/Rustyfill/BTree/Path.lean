import Rustyfill.BTree.Links

/-!
# The path above a node

What a tree holds around one of its subtrees: a frame for each level above it, the lowest one
first, as the probe and the commit climb them.
-/

namespace Rustyfill.BTree

open RawSlots Guarded Separated

set_option autoImplicit false

/-- A node without one of its children: the others, each with the entry between it and the
missing one. -/
structure Frame (K V : Type) where
  addr : Nat
  left : List (Tree K V × (K × V))
  right : List ((K × V) × Tree K V)

variable {K V : Type}

namespace Frame

def childrenL (f : Frame K V) : List (Tree K V) := f.left.map Prod.fst

def entriesL (f : Frame K V) : List (K × V) := f.left.map Prod.snd

def childrenR (f : Frame K V) : List (Tree K V) := f.right.map Prod.snd

def entriesR (f : Frame K V) : List (K × V) := f.right.map Prod.fst

def idx (f : Frame K V) : Nat := f.childrenL.length

def entries (f : Frame K V) : List (K × V) := f.entriesL ++ f.entriesR

def fill (f : Frame K V) (t : Tree K V) : Tree K V :=
  ⟨f.addr, f.entries, f.childrenL ++ t :: f.childrenR⟩

def siblings (f : Frame K V) : List (Tree K V) := f.childrenL ++ f.childrenR

/-- The sequence of the node when `mid` is that of the missing child. -/
def around (h : Nat) (f : Frame K V) (mid : List (K × V)) : List (K × V) :=
  before (f.childrenL.map (Tree.inorder h)) f.entriesL ++ mid ++
    after f.entriesR (f.childrenR.map (Tree.inorder h))

structure Shaped (h least : Nat) (f : Frame K V) : Prop where
  least : least ≤ f.entries.length
  full : f.entries.length ≤ capacity
  children : ∀ c ∈ f.siblings, Tree.Shaped h 5 c

variable {h least : Nat} {f : Frame K V} {t : Tree K V}

theorem lengthL (f : Frame K V) : f.childrenL.length = f.entriesL.length := by
  rw [childrenL, entriesL, List.length_map, List.length_map]

theorem lengthR (f : Frame K V) : f.childrenR.length = f.entriesR.length := by
  rw [childrenR, entriesR, List.length_map, List.length_map]

theorem length_children (f : Frame K V) (t : Tree K V) :
    (f.fill t).children.length = f.entries.length + 1 := by
  simp only [fill, entries, List.length_append, List.length_cons, f.lengthL, f.lengthR]
  omega

theorem idx_le (f : Frame K V) : f.idx ≤ f.entries.length := by
  rw [idx, entries, f.lengthL, List.length_append]
  omega

theorem mem_children {c : Tree K V} :
    c ∈ (f.fill t).children ↔ c = t ∨ c ∈ f.siblings := by
  simp only [fill, siblings, List.mem_append, List.mem_cons]
  exact or_left_comm

theorem Shaped.fill (hf : f.Shaped h least) (ht : Tree.Shaped h 5 t) :
    Tree.Shaped (h + 1) least (f.fill t) := by
  refine ⟨hf.least, hf.full, f.length_children t, fun c hc => ?_⟩
  rcases mem_children.mp hc with rfl | hc
  · exact ht
  · exact hf.children c hc

theorem inorder_fill :
    Tree.inorder (h + 1) (f.fill t) = f.around h (Tree.inorder h t) := by
  simp only [Tree.inorder, Frame.fill, entries, List.map_append, List.map_cons]
  exact weave_append (by rw [List.length_map, f.lengthL])

theorem perm_children (t : Tree K V) : (f.fill t).children.Perm (t :: f.siblings) :=
  List.perm_middle

/-- A new entry on the right of the missing child, with a tree on its own right. -/
theorem insert_entries (kv : K × V) :
    f.entries.insertIdx f.idx kv = f.entriesL ++ kv :: f.entriesR := by
  rw [idx, f.lengthL, entries, insertIdx_append]

theorem insert_children (t t' : Tree K V) :
    (f.fill t).children.insertIdx (f.idx + 1) t' = f.childrenL ++ t :: t' :: f.childrenR := by
  have happ := insertIdx_append (f.childrenL ++ [t]) f.childrenR t'
  rwa [List.length_append, List.length_singleton, List.append_assoc, List.append_assoc] at happ

/-- The node with one more entry and one more child. -/
def insert (f : Frame K V) (t : Tree K V) (kv : K × V) (t' : Tree K V) : Tree K V :=
  ⟨f.addr, f.entries.insertIdx f.idx kv, (f.fill t).children.insertIdx (f.idx + 1) t'⟩

variable {kv : K × V} {t' : Tree K V}

theorem length_insert :
    (f.insert t kv t').entries.length = f.entries.length + 1 ∧
      (f.insert t kv t').children.length = f.entries.length + 2 := by
  constructor
  · exact List.length_insertIdx_of_le_length f.idx_le _
  · have hlen := f.length_children t
    have hle := f.idx_le
    rw [insert, List.length_insertIdx_of_le_length (by omega), hlen]

theorem inorder_insert : Tree.inorder (h + 1) (f.insert t kv t') =
    f.around h (Tree.inorder h t ++ kv :: Tree.inorder h t') := by
  simp only [Tree.inorder, insert, insert_entries, insert_children, List.map_append,
    List.map_cons]
  rw [weave_append (by rw [List.length_map, f.lengthL]), after_cons]
  simp only [around, List.append_assoc, List.cons_append]

theorem perm_insert :
    (f.insert t kv t').children.Perm (t' :: (f.fill t).children) := by
  have hlen := f.length_children t
  have hle := f.idx_le
  exact List.perm_insertIdx _ _ (by omega)

theorem Shaped.children_insert (hf : f.Shaped h least) (ht : Tree.Shaped h 5 t)
    (ht' : Tree.Shaped h 5 t') : ∀ c ∈ (f.insert t kv t').children, Tree.Shaped h 5 c := by
  intro c hc
  rcases List.mem_cons.mp (perm_insert.mem_iff.mp hc) with rfl | hc
  · exact ht'
  · rcases mem_children.mp hc with rfl | hc
    · exact ht
    · exact hf.children c hc

end Frame

/-! ## Paths -/

namespace Path

def plug : List (Frame K V) → Tree K V → Tree K V
  | [], t => t
  | f :: fs, t => plug fs (f.fill t)

def around : Nat → List (Frame K V) → List (K × V) → List (K × V)
  | _, [], mid => mid
  | h, f :: fs, mid => around (h + 1) fs (f.around h mid)

def addrs : Nat → List (Frame K V) → List Nat
  | _, [] => []
  | h, f :: fs => f.addr :: f.siblings.flatMap (Tree.addrs h) ++ addrs (h + 1) fs

/-- The topmost node may have few keys. -/
def Shaped : Nat → List (Frame K V) → Prop
  | _, [] => True
  | h, f :: fs => f.Shaped h (if fs = [] then 0 else 5) ∧ Shaped (h + 1) fs

/-- The heap has the nodes above `addr`, which is linked to `link`, and all beside it. -/
def Holds (heap : Nat → Option (Node K V)) :
    Nat → Option (Nat × Nat) → Nat → List (Frame K V) → Prop
  | _, link, _, [] => link = none
  | h, link, addr, f :: fs => link = some (f.addr, f.idx) ∧ ∃ link',
    Shown heap f.addr ⟨link', f.entries,
      some (f.childrenL.map Tree.addr ++ addr :: f.childrenR.map Tree.addr)⟩ ∧
    (∀ i c, f.childrenL[i]? = some c → Tree.Holds heap h (some (f.addr, i)) c) ∧
    (∀ i c, f.childrenR[i]? = some c → Tree.Holds heap h (some (f.addr, f.idx + 1 + i)) c) ∧
    Holds heap (h + 1) link' f.addr fs

variable {heap heap' : Nat → Option (Node K V)} {h H p : Nat} {link : Option (Nat × Nat)}
  {f : Frame K V} {fs : List (Frame K V)} {t : Tree K V} {w w' : World K V} {S : List Nat}

theorem linked_fill (hL : ∀ i c, f.childrenL[i]? = some c → Tree.Holds heap h (some (f.addr, i)) c)
    (hR : ∀ i c, f.childrenR[i]? = some c → Tree.Holds heap h (some (f.addr, f.idx + 1 + i)) c)
    (ht : Tree.Holds heap h (some (f.addr, f.idx)) t) :
    Linked heap h f.addr (f.fill t).children := by
  intro i c hc
  rw [Frame.fill] at hc
  rcases Nat.lt_trichotomy i f.childrenL.length with hlt | heq | hgt
  · rw [List.getElem?_append_left hlt] at hc
    exact hL i c hc
  · rw [heq, List.getElem?_append_right (Nat.le_refl _), Nat.sub_self] at hc
    cases hc
    rw [heq]
    exact ht
  · rw [List.getElem?_append_right (by omega)] at hc
    obtain ⟨j, rfl⟩ : ∃ j, i = f.idx + 1 + j := ⟨i - (f.idx + 1), by rw [Frame.idx]; omega⟩
    have hidx : f.idx + 1 + j - f.childrenL.length = j + 1 := by rw [Frame.idx]; omega
    rw [hidx, List.getElem?_cons_succ] at hc
    exact hR j c hc

theorem Holds.plug (hH : h + fs.length = H) (hfs : Holds heap h link t.addr fs)
    (ht : Tree.Holds heap h link t) : Tree.Holds heap H none (plug fs t) := by
  induction fs generalizing h link t with
  | nil =>
    rw [Holds] at hfs
    subst hfs hH
    exact ht
  | cons f fs ih =>
    obtain ⟨rfl, link', hshown, hL, hR, hrest⟩ := hfs
    apply ih (h := h + 1) (by rw [List.length_cons] at hH; omega) hrest
    refine ⟨?_, linked_fill hL hR ht⟩
    simpa only [Frame.fill, List.map_append, List.map_cons] using hshown

theorem Holds.unplug (hH : h + fs.length = H) (ht : Tree.Holds heap H none (Path.plug fs t)) :
    ∃ link, Tree.Holds heap h link t ∧ Holds heap h link t.addr fs := by
  induction fs generalizing h t with
  | nil =>
    subst hH
    exact ⟨none, ht, rfl⟩
  | cons f fs ih =>
    obtain ⟨link', ⟨hshown, hlinked⟩, hrest⟩ :=
      ih (h := h + 1) (t := f.fill t) (by rw [List.length_cons] at hH; omega) ht
    refine ⟨some (f.addr, f.idx), hlinked f.idx t ?_, rfl, link', ?_, ?_, ?_, hrest⟩
    · rw [Frame.fill, Frame.idx, List.getElem?_append_right (Nat.le_refl _), Nat.sub_self]
      rfl
    · simpa only [Frame.fill, List.map_append, List.map_cons] using hshown
    · intro i c hc
      apply hlinked i c
      rw [Frame.fill, List.getElem?_append_left (List.getElem?_eq_some_iff.mp hc).1]
      exact hc
    · intro i c hc
      apply hlinked (f.idx + 1 + i) c
      have hidx : f.idx + 1 + i - f.childrenL.length = i + 1 := by rw [Frame.idx]; omega
      rw [Frame.fill, List.getElem?_append_right (by rw [Frame.idx]; omega), hidx,
        List.getElem?_cons_succ]
      exact hc

theorem Holds.frame {a : Nat} (hfs : Holds heap h link a fs)
    (hsame : ∀ q ∈ addrs h fs, heap' q = heap q) : Holds heap' h link a fs := by
  induction fs generalizing h link a with
  | nil => exact hfs
  | cons f fs ih =>
    obtain ⟨hlink, link', hshown, hL, hR, hrest⟩ := hfs
    have hsibling : ∀ c ∈ f.siblings, ∀ q ∈ Tree.addrs h c, heap' q = heap q := by
      intro c hc q hq
      have hmem : q ∈ f.siblings.flatMap (Tree.addrs h) := List.mem_flatMap.mpr ⟨c, hc, hq⟩
      exact hsame q (List.mem_append_left _ (List.mem_cons_of_mem _ hmem))
    refine ⟨hlink, link', ?_, ?_, ?_, ih hrest ?_⟩
    · rw [Shown, hsame f.addr (List.mem_append_left _ List.mem_cons_self)]
      exact hshown
    · intro i c hc
      exact (hL i c hc).frame (hsibling c (List.mem_append_left _ (List.mem_of_getElem? hc)))
    · intro i c hc
      exact (hR i c hc).frame (hsibling c (List.mem_append_right _ (List.mem_of_getElem? hc)))
    · intro q hq
      exact hsame q (List.mem_append_right _ hq)

theorem Holds.touched {a : Nat} (hfs : Holds w.heap h link a fs) (htouch : Touches S w w')
    (hapart : ∀ q ∈ addrs h fs, q ∉ S) : Holds w'.heap h link a fs :=
  hfs.frame fun q hq => htouch.frame q (hapart q hq)

theorem Shaped.plug (hH : h + fs.length = H) (hfs : Shaped h fs)
    (ht : Tree.Shaped h (if fs = [] then 0 else 5) t) : Tree.Shaped H 0 (plug fs t) := by
  induction fs generalizing h t with
  | nil =>
    subst hH
    exact ht
  | cons f fs ih =>
    apply ih (h := h + 1) (by rw [List.length_cons] at hH; omega) hfs.2
    exact hfs.1.fill ht

theorem Shaped.unplug (hH : h + fs.length = H) (ht : Tree.Shaped H 0 (Path.plug fs t)) :
    Tree.Shaped h (if fs = [] then 0 else 5) t ∧ Shaped h fs := by
  induction fs generalizing h t with
  | nil =>
    subst hH
    exact ⟨ht, trivial⟩
  | cons f fs ih =>
    obtain ⟨⟨hleast, hfull, -, hchildren⟩, hrest⟩ :=
      ih (h := h + 1) (t := f.fill t) (by rw [List.length_cons] at hH; omega) ht
    refine ⟨hchildren t (Frame.mem_children.mpr (.inl rfl)), ⟨hleast, hfull, ?_⟩, hrest⟩
    intro c hc
    exact hchildren c (Frame.mem_children.mpr (.inr hc))

theorem inorder_plug (hH : h + fs.length = H) :
    Tree.inorder H (plug fs t) = around h fs (Tree.inorder h t) := by
  induction fs generalizing h t with
  | nil =>
    subst hH
    rfl
  | cons f fs ih =>
    rw [plug, ih (h := h + 1) (by rw [List.length_cons] at hH; omega), Frame.inorder_fill, around]

theorem addrs_plug (hH : h + fs.length = H) :
    (Tree.addrs H (plug fs t)).Perm (Tree.addrs h t ++ addrs h fs) := by
  induction fs generalizing h t with
  | nil =>
    subst hH
    rw [addrs, List.append_nil]
    exact .refl _
  | cons f fs ih =>
    apply (ih (h := h + 1) (by rw [List.length_cons] at hH; omega)).trans
    have hperm := (Frame.perm_children (f := f) t).flatMap_right (Tree.addrs h)
    rw [List.flatMap_cons] at hperm
    rw [addrs, ← List.append_assoc, Tree.addrs]
    apply List.Perm.append_right
    exact (hperm.cons _).trans List.perm_middle.symm

/-- What a step of the commit writes is among the nodes it works on. -/
theorem mem_of_written {t' : Tree K V} {q : Nat}
    (hq : q ∈ f.addr :: (t' :: (f.fill t).children).map Tree.addr) :
    q ∈ Tree.addrs h t ++ Tree.addrs h t' ++ addrs h (f :: fs) := by
  have hfill := ((Frame.perm_children (f := f) t).flatMap_right (Tree.addrs h)).mem_iff (a := q)
  simp only [addrs, List.flatMap_cons, List.mem_append, List.mem_cons] at hfill ⊢
  rcases List.mem_cons.mp hq with rfl | hq
  · exact .inr (.inl (.inl rfl))
  · have hq' := mem_flatMap_of_mem_map (h := h) hq
    simp only [List.flatMap_cons, List.mem_append] at hq'
    tauto

theorem mem_leaves_plug {l : Tree K V} (hH : h + fs.length = H) (hl : l ∈ Tree.leaves h t) :
    l ∈ Tree.leaves H (plug fs t) := by
  induction fs generalizing h t with
  | nil =>
    subst hH
    exact hl
  | cons f fs ih =>
    apply ih (h := h + 1) (by rw [List.length_cons] at hH; omega)
    exact List.mem_flatMap.mpr ⟨t, Frame.mem_children.mpr (.inl rfl), hl⟩

theorem plug_addr {t' : Tree K V} (haddr : t'.addr = t.addr) :
    (plug fs t').addr = (plug fs t).addr := by
  induction fs generalizing t t' with
  | nil => exact haddr
  | cons f fs ih => exact ih rfl

end Path

end Rustyfill.BTree
