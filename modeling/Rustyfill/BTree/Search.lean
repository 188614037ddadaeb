import Mathlib.Order.Compare
import Rustyfill.BTree.Insertion

/-!
# The edge of a vacant entry

The search of the standard library ends at the edge of a leaf where an absent key belongs, and
an insertion there keeps the map in order.
-/

namespace Rustyfill.BTree

open RawSlots Guarded Separated

set_option autoImplicit false

variable {K V : Type} {w w' : World K V} {h i j least : Nat} {link : Option (Nat × Nat)}
  {t l : Tree K V} {fs : List (Frame K V)} {kv : K × V}

/-! ## Down one level -/

namespace Path

variable {gs : List (Frame K V)} {mid : List (K × V)}

theorem plug_append : plug (gs ++ fs) t = plug fs (plug gs t) := by
  induction gs generalizing t with
  | nil => rfl
  | cons g gs ih => exact ih

theorem around_append : around h (gs ++ fs) mid = around (h + gs.length) fs (around h gs mid) := by
  induction gs generalizing h mid with
  | nil => rfl
  | cons g gs ih =>
    rw [List.cons_append, around, around, ih, List.length_cons, Nat.add_right_comm, Nat.add_assoc]

end Path

namespace Tree

/-- The node without the child at `j`. -/
def frameAt (t : Tree K V) (j : Nat) : Frame K V :=
  ⟨t.addr, (t.children.take j).zip (t.entries.take j),
    (t.entries.drop j).zip (t.children.drop (j + 1))⟩

section
variable (hlen : t.children.length = t.entries.length + 1) (hj : j ≤ t.entries.length)
include hlen hj

theorem childrenL_frameAt : (t.frameAt j).childrenL = t.children.take j := by
  apply List.map_fst_zip
  rw [List.length_take, List.length_take]
  omega

theorem entriesL_frameAt : (t.frameAt j).entriesL = t.entries.take j := by
  apply List.map_snd_zip
  rw [List.length_take, List.length_take]
  omega

theorem childrenR_frameAt : (t.frameAt j).childrenR = t.children.drop (j + 1) := by
  apply List.map_snd_zip
  rw [List.length_drop, List.length_drop]
  omega

theorem entriesR_frameAt : (t.frameAt j).entriesR = t.entries.drop j := by
  apply List.map_fst_zip
  rw [List.length_drop, List.length_drop]
  omega

theorem fill_frameAt {c : Tree K V} (hc : t.children[j]? = some c) :
    (t.frameAt j).fill c = t := by
  obtain ⟨hlt, rfl⟩ := List.getElem?_eq_some_iff.mp hc
  have hchildren : t.children.take j ++ t.children[j] :: t.children.drop (j + 1) = t.children := by
    rw [← List.drop_eq_getElem_cons, List.take_append_drop]
  rw [Frame.fill, Frame.entries, childrenL_frameAt hlen hj, entriesL_frameAt hlen hj,
    childrenR_frameAt hlen hj, entriesR_frameAt hlen hj, hchildren, List.take_append_drop]
  cases t
  rfl

end

end Tree

theorem inorder_child {c : Tree K V} (hlen : t.children.length = t.entries.length + 1)
    (hj : j ≤ t.entries.length) (hc : t.children[j]? = some c) :
    t.inorder (h + 1) = (t.frameAt j).around h (c.inorder h) := by
  conv_lhs => rw [← Tree.fill_frameAt hlen hj hc]
  exact Frame.inorder_fill

/-! ## The search -/

section
variable [LinearOrder K] {key : K}

/-- The keys are strictly in order. -/
def Sorted (seq : List (K × V)) : Prop := seq.Pairwise fun a b => a.1 < b.1

/-- `key` is in none of the entries. -/
def Absent (key : K) (seq : List (K × V)) : Prop := ∀ e ∈ seq, e.1 ≠ key

theorem findKeyIndex_spec {n : Node K V} {v : View K V} (hn : n.Shows v)
    (habsent : Absent key v.entries) {rest : Nat} (hlen : i + rest = v.entries.length) :
    ∃ j, i ≤ j ∧ j ≤ v.entries.length ∧ findKeyIndex n key rest i = some (.lt, j) ∧
      (∀ (k : Nat) (hk : k < v.entries.length), i ≤ k → k < j → v.entries[k].1 < key) ∧
      ∀ hj : j < v.entries.length, key < v.entries[j].1 := by
  induction rest generalizing i with
  | zero =>
    refine ⟨i, Nat.le_refl i, by omega, rfl, ?_, ?_⟩
    · intro k hk hik hki
      omega
    · intro hj
      omega
  | succ rest ih =>
    have hi : i < v.entries.length := by omega
    have hkey := (hn.get hi).1
    rcases lt_trichotomy key v.entries[i].1 with hlt | heq | hgt
    · refine ⟨i, Nat.le_refl i, hi.le, ?_, ?_, fun _ => hlt⟩
      · simp only [findKeyIndex, hkey, Option.bind_eq_bind, Option.bind_some,
          compare_lt_iff_lt.mpr hlt]
      · intro k hk hik hki
        omega
    · exact absurd heq.symm (habsent _ (List.getElem_mem hi))
    · obtain ⟨j, hij, hj, hrest, hbefore, hat⟩ := @ih (i + 1) (by omega)
      refine ⟨j, by omega, hj, ?_, ?_, hat⟩
      · simp only [findKeyIndex, hkey, Option.bind_eq_bind, Option.bind_some,
          compare_gt_iff_gt.mpr hgt]
        exact hrest
      · intro k hk hik hkj
        rcases Nat.eq_or_lt_of_le hik with rfl | hlt
        · exact hgt
        · exact hbefore k hk hlt hkj

theorem searchNode_meets {p : Nat} {v : View K V} (hshown : Shown w.heap p v)
    (habsent : Absent key v.entries) : ∃ j ≤ v.entries.length,
      (∀ (k : Nat) (hk : k < v.entries.length), k < j → v.entries[k].1 < key) ∧
      (∀ hj : j < v.entries.length, key < v.entries[j].1) ∧
      ∀ (Q : SearchResult → World K V → Prop) (E : Exit K V → World K V → Prop),
        (searchNode key ⟨h, p⟩).Meets w Q E ↔ Q (.goDown ⟨⟨h, p⟩, j⟩) w := by
  obtain ⟨n, hn, hshows⟩ := hshown
  obtain ⟨j, -, hj, hfind, hbefore, hat⟩ := findKeyIndex_spec hshows habsent (Nat.zero_add _)
  refine ⟨j, hj, fun k hk => hbefore k hk (Nat.zero_le k), hat, fun Q E => ?_⟩
  rw [searchNode, Body.meets_bind, deref_meets hn, hshows.len, hfind, Body.meets_bind,
    orUndefined_meets]
  rfl

/-- The edge `i` of the leaf `l`, below the path `fs`, is where `key` belongs in the tree. -/
structure Position (key : K) (h : Nat) (t : Tree K V) (fs : List (Frame K V)) (l : Tree K V)
    (i : Nat) (pre post : List (K × V)) : Prop where
  length : fs.length = h
  plug : Path.plug fs l = t
  idx : i ≤ l.entries.length
  inorder : t.inorder h = pre ++ post
  insert : ∀ kv, Path.around 0 fs (l.entries.insertIdx i kv) = pre ++ kv :: post
  pre : ∀ e ∈ pre, e.1 < key
  post : ∀ e ∈ post, key < e.1

theorem insertIdx_eq {α : Type} {es : List α} {x : α} (hi : i ≤ es.length) :
    es.insertIdx i x = es.take i ++ x :: es.drop i := by
  have happ := insertIdx_append (es.take i) (es.drop i) x
  rwa [List.take_append_drop, List.length_take_of_le hi] at happ

theorem position_leaf {es : List (K × V)} (hi : i ≤ es.length) (hsorted : Sorted es)
    (hbefore : ∀ (k : Nat) (hk : k < es.length), k < i → es[k].1 < key)
    (hat : ∀ hi : i < es.length, key < es[i].1) (ht : t.entries = es) :
    Position key 0 t [] t i (es.take i) (es.drop i) where
  length := rfl
  plug := rfl
  idx := ht ▸ hi
  inorder := by rw [Tree.inorder, ht, List.take_append_drop]
  insert kv := by rw [Path.around, ht, insertIdx_eq hi]
  pre e he := by
    obtain ⟨k, hk, rfl⟩ := List.getElem_of_mem he
    rw [List.length_take] at hk
    rw [List.getElem_take]
    exact hbefore k (by omega) (by omega)
  post e he := by
    obtain ⟨k, hk, rfl⟩ := List.getElem_of_mem he
    rw [List.length_drop] at hk
    have hlt : i < es.length := by omega
    rw [List.getElem_drop]
    rcases Nat.eq_zero_or_pos k with rfl | hpos
    · exact hat hlt
    · exact (hat hlt).trans (List.pairwise_iff_getElem.mp hsorted i (i + k) hlt (by omega)
        (by omega))

theorem Position.raise {c : Tree K V} {pre post : List (K × V)}
    (hpos : Position key h c fs l i pre post) (hlen : t.children.length = t.entries.length + 1)
    (hj : j ≤ t.entries.length) (hc : t.children[j]? = some c)
    (hsorted : Sorted (t.inorder (h + 1)))
    (hbefore : ∀ (k : Nat) (hk : k < t.entries.length), k < j → t.entries[k].1 < key)
    (hat : ∀ hj : j < t.entries.length, key < t.entries[j].1) :
    ∃ pre' post', Position key (h + 1) t (fs ++ [t.frameAt j]) l i pre' post' := by
  have hseq := inorder_child (h := h) hlen hj hc
  rw [Frame.around, Tree.childrenL_frameAt hlen hj, Tree.entriesL_frameAt hlen hj,
    Tree.childrenR_frameAt hlen hj, Tree.entriesR_frameAt hlen hj] at hseq
  generalize hB : before ((t.children.take j).map (Tree.inorder h)) (t.entries.take j) = B at hseq
  generalize hA : after (t.entries.drop j) ((t.children.drop (j + 1)).map (Tree.inorder h)) = A
    at hseq
  rw [hseq] at hsorted
  obtain ⟨hleft, hright, -⟩ := List.pairwise_append.mp hsorted
  obtain ⟨hsortedB, -, -⟩ := List.pairwise_append.mp hleft
  refine ⟨B ++ pre, post ++ A, ?_, ?_, hpos.idx, ?_, ?_, ?_, ?_⟩
  · rw [List.length_append, hpos.length, List.length_singleton]
  · rw [Path.plug_append, hpos.plug]
    exact Tree.fill_frameAt hlen hj hc
  · rw [hseq, hpos.inorder]
    simp only [List.append_assoc]
  · intro kv
    rw [Path.around_append, hpos.insert, hpos.length, Nat.zero_add, Path.around, Path.around,
      Frame.around, Tree.childrenL_frameAt hlen hj, Tree.entriesL_frameAt hlen hj,
      Tree.childrenR_frameAt hlen hj, Tree.entriesR_frameAt hlen hj, hB, hA]
    simp only [List.append_assoc, List.cons_append]
  · intro e he
    rcases List.mem_append.mp he with he | he
    · rw [← hB] at hsortedB he
      obtain ⟨e', he', hle⟩ := exists_of_mem_before hsortedB he
      have hlt : e'.1 < key := by
        obtain ⟨k, hk, rfl⟩ := List.getElem_of_mem he'
        rw [List.length_take] at hk
        rw [List.getElem_take]
        exact hbefore k (by omega) (by omega)
      rcases hle with rfl | hle
      · exact hlt
      · exact hle.trans hlt
    · exact hpos.pre e he
  · intro e he
    rcases List.mem_append.mp he with he | he
    · exact hpos.post e he
    · rw [← hA] at hright he
      rcases Nat.eq_or_lt_of_le hj with heq | hlt
      · rw [heq, List.drop_length] at he
        cases he
      · rw [List.drop_eq_getElem_cons hlt] at hright he
        rcases rel_of_mem_after hright he with rfl | hle
        · exact hat hlt
        · exact (hat hlt).trans hle

theorem searchTree_meets (ht : Tree.Holds w.heap h link t) (hs : Tree.Shaped h least t)
    (hsorted : Sorted (t.inorder h)) (habsent : Absent key (t.inorder h)) :
    ∃ fs l i pre post, Position key h t fs l i pre post ∧
      ∀ (Q : SearchResult → World K V → Prop) (E : Exit K V → World K V → Prop),
        (searchTree key h t.addr).Meets w Q E ↔ Q (.goDown ⟨⟨0, l.addr⟩, i⟩) w := by
  induction h generalizing link t least with
  | zero =>
    obtain ⟨j, hj, hbefore, hat, hgoes⟩ := @searchNode_meets K V w 0 _ key _ _ ht habsent
    exact ⟨[], t, j, _, _, position_leaf hj hsorted hbefore hat rfl, hgoes⟩
  | succ h ih =>
    obtain ⟨hshown, hlinked⟩ := ht
    obtain ⟨-, -, hlen, hchildren⟩ := hs
    have hentries : Absent key t.entries := by
      intro e he
      obtain ⟨m, hm⟩ := List.getElem?_of_mem he
      apply habsent
      rw [Tree.inorder_cut (p := 0) hlen hm]
      exact List.mem_append_right _ List.mem_cons_self
    obtain ⟨j, hj, hbefore, hat, hnode⟩ :=
      @searchNode_meets K V w (h + 1) _ key _ _ hshown hentries
    have hlt : j < t.children.length := by
      rw [hlen]
      exact Nat.lt_succ_of_le hj
    have hc : t.children[j]? = some t.children[j] := List.getElem?_eq_getElem hlt
    have hseq := inorder_child (h := h) hlen hj hc
    rw [Frame.around] at hseq
    have hchild : Sorted (t.children[j].inorder h) := by
      rw [hseq] at hsorted
      exact (List.pairwise_append.mp (List.pairwise_append.mp hsorted).1).2.1
    have hmissing : Absent key (t.children[j].inorder h) := by
      intro e he
      apply habsent e
      rw [hseq]
      exact List.mem_append_left _ (List.mem_append_right _ he)
    obtain ⟨fs, l, i, pre, post, hpos, hgoes⟩ :=
      ih (hlinked j _ hc) (hchildren _ (List.getElem_mem hlt)) hchild hmissing
    obtain ⟨pre', post', hraised⟩ := hpos.raise hlen hj hc hsorted hbefore hat
    refine ⟨fs ++ [t.frameAt j], l, i, pre', post', hraised, ?_⟩
    intro Q E
    have hedge : (t.children.map Tree.addr)[j]? = some t.children[j].addr := by
      rw [List.getElem?_map, hc]
      rfl
    rw [searchTree, Body.meets_bind, hnode]
    exact (Body.meets_bind.trans (readEdge_meets hshown hedge)).trans (hgoes Q E)

end

end Rustyfill.BTree
