import Rustyfill.BTree.Search

/-!
# Insertion at a vacant entry

Whatever the entry of an absent key is, in an empty map, in a leaf with room, or in a full one,
an insertion that succeeds leaves a map again, with the pair at its place.
-/

namespace Rustyfill.BTree

open RawSlots Guarded Separated

set_option autoImplicit false

variable {K V : Type} {w : World K V} {i : Nat} {l : Tree K V} {fs : List (Frame K V)} {key : K}
  {value : V}

/-! ## A leaf with room -/

theorem insertIntoLeaf_spec (hw : OnHeap w fs.length (Path.plug fs l))
    (hroom : l.entries.length < capacity) (hi : i ≤ l.entries.length) :
    (do
      leafSliceInsert l.addr i key value
      modifyMap addOne
      return ((⟨0, l.addr⟩ : NodeRef), i)).Meets w
      (fun r w' =>
        Inserted w w' (Path.around 0 fs (l.entries.insertIdx i (key, value))) (key, value) r)
      (fun _ _ => False) := by
  obtain ⟨link, hl, hpath⟩ := Path.Holds.unplug (Nat.zero_add _) hw.holds
  obtain ⟨hleaf, hshaped⟩ := Path.Shaped.unplug (Nat.zero_add _) hw.shaped
  have haddrs : (Tree.addrs fs.length (Path.plug fs l)).Perm (l.addr :: Path.addrs 0 fs) :=
    Path.addrs_plug (Nat.zero_add _)
  have hnodup := haddrs.nodup_iff.mp hw.nodup
  rw [Body.meets_bind]
  apply (leafSliceInsert_spec hl hi hroom).mono
  · rintro _ w₁ ⟨htouch, hshown⟩
    rw [Body.meets_bind, modifyMap_meets]
    generalize hes : l.entries.insertIdx i (key, value) = es at hshown ⊢
    have hlen : es.length = l.entries.length + 1 := by
      rw [← hes, List.length_insertIdx_of_le_length hi]
    have hpath' : Path.Holds w₁.heap 0 link l.addr fs := by
      apply hpath.touched htouch
      intro q hq hmem
      obtain rfl := List.mem_singleton.mp hmem
      exact (List.nodup_cons.mp hnodup).1 hq
    have hwhole : Tree.Holds w₁.heap fs.length none (Path.plug fs ⟨l.addr, es, []⟩) :=
      Path.Holds.plug (Nat.zero_add _) hpath' hshown
    have hperm : (Tree.addrs fs.length (Path.plug fs ⟨l.addr, es, []⟩)).Perm
        (l.addr :: Path.addrs 0 fs) := Path.addrs_plug (Nat.zero_add _)
    obtain ⟨ps, hps⟩ := htouch.rest
    have hmap : w₁.map = w.map := by rw [hps]
    have hnext : w₁.next = w.next := by rw [hps]
    have htop : (Path.plug fs ⟨l.addr, es, []⟩).addr = (Path.plug fs l).addr := Path.plug_addr rfl
    refine ⟨?_, fs.length, Path.plug fs ⟨l.addr, es, []⟩, ⟨?_, hwhole, ?_, ?_, ?_⟩, ?_, ?_⟩
    · exact congrArg (·.length + 1) hmap
    · rw [htop]
      exact (congrArg SysBTreeMap.root hmap).trans hw.root
    · apply hshaped.plug (Nat.zero_add _)
      exact ⟨Nat.le_trans hleaf.1 (hlen ▸ Nat.le_succ _), hlen ▸ hroom⟩
    · exact hperm.nodup_iff.mpr hnodup
    · intro q hq
      change w₁.next ≤ q at hq
      rw [hnext] at hq
      refine (htouch.frame q ?_).trans (hw.beyond q hq)
      intro hmem
      obtain rfl := List.mem_singleton.mp hmem
      exact Nat.not_le_of_lt (hw.lt_next (haddrs.mem_iff.mpr List.mem_cons_self)) hq
    · exact Path.inorder_plug (Nat.zero_add _)
    · refine ⟨⟨l.addr, es, []⟩, ?_, rfl, ?_⟩
      · exact Path.mem_leaves_plug (Nat.zero_add _) List.mem_cons_self
      · change es[i]? = _
        rw [← hes, List.getElem?_insertIdx_self, if_pos hi]
  · intro _ _ h
    exact h

theorem tryInsertIntoExisting_spec (hw : OnHeap w fs.length (Path.plug fs l))
    (hi : i ≤ l.entries.length) : (tryInsertIntoExisting ⟨⟨0, l.addr⟩, i⟩ key value).Meets w
      (fun r w' =>
        Inserted w w' (Path.around 0 fs (l.entries.insertIdx i (key, value))) (key, value) r)
      (fun _ _ => Refuses w.allocator) := by
  obtain ⟨link, hl, -⟩ := Path.Holds.unplug (Nat.zero_add _) hw.holds
  obtain ⟨hleaf, -⟩ := Path.Shaped.unplug (Nat.zero_add _) hw.shaped
  rw [tryInsertIntoExisting, Body.meets_bind, nodeLen_meets hl]
  by_cases hroom : l.entries.length < capacity
  · rw [if_pos hroom]
    apply (insertIntoLeaf_spec hw hroom hi).mono
    · intro _ _ h
      exact h
    · intro _ _ h
      exact h.elim
  · rw [if_neg hroom]
    apply (tryInsertWithSplit_spec hw (Nat.le_antisymm hleaf.2 (Nat.le_of_not_lt hroom)) hi).mono
    · intro _ _ h
      exact h.2.2
    · intro _ _ h
      exact h.1

/-! ## A map without a root -/

theorem tryInsertEmptyMap_spec (hlength : w.map.length = 0)
    (hbeyond : ∀ q, w.next ≤ q → w.heap q = none) :
    (tryInsertEmptyMap key value).Meets w
      (fun r w' => Inserted w w' [(key, value)] (key, value) r)
      (fun _ _ => Refuses w.allocator) := by
  rw [tryInsertEmptyMap, Body.meets_bind, tryNewLeaf, tryNew, Body.meets_bind, request_meets]
  generalize hg : w.allocator.request.1 = g
  cases g with
  | false => exact ⟨0, hg⟩
  | true =>
    have hfresh : Shown (w.asked.placed Node.newLeaf).heap w.next ⟨none, [], none⟩ :=
      ⟨_, Function.update_self .., Node.shows_newLeaf⟩
    have hwrite : (modify w.next fun n => do
        let n ← n.writeKeyValue 0 key value
        return { n with len := 1 }).Meets (w.asked.placed Node.newLeaf)
        (fun _ w' => Touches [w.next] (w.asked.placed Node.newLeaf) w' ∧
          Shown w'.heap w.next ⟨none, [(key, value)], none⟩)
        (fun _ _ => False) := by
      apply modify_spec hfresh
      intro n hn
      refine ⟨{ n with len := 1, keys := n.keys.write 0 key, vals := n.vals.write 0 value }, ?_, ?_⟩
      · simp [Node.writeKeyValue, writeIn, capacity]
      · exact ⟨hn.parent, by simp, rfl, hn.keys.push, hn.vals.push, hn.edges⟩
    have hinserted : (do
        modify w.next fun n => do
          let n ← n.writeKeyValue 0 key value
          return { n with len := 1 }
        modifyMap fun _ => ⟨some ⟨0, w.next⟩, 1⟩
        return ((⟨0, w.next⟩ : NodeRef), 0)).Meets (w.asked.placed Node.newLeaf)
        (fun r w' => Inserted w w' [(key, value)] (key, value) r)
        (fun _ _ => Refuses w.allocator) := by
      rw [Body.meets_bind]
      apply hwrite.mono
      · rintro _ w₁ ⟨htouch, hshown⟩
        obtain ⟨ps, hps⟩ := htouch.rest
        have hnext : w₁.next = w.next + 1 := by rw [hps]; rfl
        refine ⟨?_, 0, ⟨w.next, [(key, value)], []⟩, ⟨rfl, hshown, ?_, ?_, ?_⟩, rfl, ?_⟩
        · rw [hlength]
        · exact ⟨Nat.zero_le _, Nat.succ_pos 10⟩
        · exact List.nodup_singleton _
        · intro q hq
          change w₁.next ≤ q at hq
          rw [hnext] at hq
          have hne : q ≠ w.next := Nat.ne_of_gt hq
          refine (htouch.frame q (by simpa using hne)).trans ?_
          exact (Function.update_of_ne hne ..).trans (hbeyond q (Nat.le_of_succ_le hq))
        · exact ⟨_, List.mem_cons_self, rfl, rfl⟩
      · intro _ _ h
        exact h.elim
    exact hinserted

/-! ## Maps -/

section
variable [LinearOrder K]

/-- A map: its entries are in order, its length is their number, and its nodes are a tree with
the fill, the heights and the parent links of a B-tree. -/
structure IsMap (w : World K V) (seq : List (K × V)) : Prop where
  sorted : Sorted seq
  length : w.map.length = seq.length
  beyond : ∀ q, w.next ≤ q → w.heap q = none
  tree : w.map.root = none ∧ seq = [] ∨ ∃ H t, OnHeap w H t ∧ t.inorder H = seq

theorem Sorted.insert {pre post : List (K × V)} (h : Sorted (pre ++ post))
    (hpre : ∀ e ∈ pre, e.1 < key) (hpost : ∀ e ∈ post, key < e.1) :
    Sorted (pre ++ (key, value) :: post) := by
  obtain ⟨hleft, hright, hcross⟩ := List.pairwise_append.mp h
  refine List.pairwise_append.mpr ⟨hleft, List.pairwise_cons.mpr ⟨hpost, hright⟩, ?_⟩
  intro a ha b hb
  rcases List.mem_cons.mp hb with rfl | hb
  · exact hpre a ha
  · exact hcross a ha b hb

theorem Inserted.isMap {w' : World K V} {pre post : List (K × V)} {r : NodeRef × Nat}
    (h : Inserted w w' (pre ++ (key, value) :: post) (key, value) r) (hw : IsMap w (pre ++ post))
    (hpre : ∀ e ∈ pre, e.1 < key) (hpost : ∀ e ∈ post, key < e.1) :
    IsMap w' (pre ++ (key, value) :: post) := by
  obtain ⟨hlen, H, t, htree, hseq, -⟩ := h
  refine ⟨hw.sorted.insert hpre hpost, ?_, htree.beyond, .inr ⟨H, t, htree, hseq⟩⟩
  rw [hlen, hw.length, List.length_append, List.length_append, List.length_cons, Nat.add_assoc]

/-- The entry of an absent key is vacant, and an insertion there that is not refused puts the pair
between the smaller keys and the larger ones, in a map again, and says where it is. -/
theorem vacant_insertion (w : World K V) (seq : List (K × V)) (key : K) (value : V)
    (hw : IsMap w seq) (habsent : Absent key seq) :
    ∃ handle pre post, entry key w = (.ok (.vacant handle), w) ∧ seq = pre ++ post ∧
      (∀ e ∈ pre, e.1 < key) ∧ (∀ e ∈ post, key < e.1) ∧
      (tryInsertKv handle key value).Meets w
        (fun r w' => IsMap w' (pre ++ (key, value) :: post) ∧
          Inserted w w' (pre ++ (key, value) :: post) (key, value) r)
        (fun _ _ => Refuses w.allocator) := by
  rcases hw.tree with ⟨hroot, rfl⟩ | ⟨H, t, htree, rfl⟩
  · refine ⟨none, [], [], ?_, rfl, by simp, by simp, ?_⟩
    · apply Body.eq_of_meets
      rw [entry, Body.meets_bind, world_meets, hroot]
      exact ⟨rfl, rfl⟩
    · apply (tryInsertEmptyMap_spec hw.length hw.beyond).mono
      · intro r w' h
        exact ⟨h.isMap hw (by simp) (by simp), h⟩
      · intro _ _ h
        exact h
  · obtain ⟨fs, l, i, pre, post, hpos, hgoes⟩ :=
      searchTree_meets htree.holds htree.shaped hw.sorted habsent
    obtain ⟨rfl, rfl, hi, hseq, hinsert, hpre, hpost⟩ := hpos
    refine ⟨some ⟨⟨0, l.addr⟩, i⟩, pre, post, ?_, hseq, hpre, hpost, ?_⟩
    · apply Body.eq_of_meets
      rw [entry, Body.meets_bind, world_meets, htree.root]
      dsimp only
      rw [Body.meets_bind, hgoes]
      exact ⟨rfl, rfl⟩
    · rw [hseq] at hw
      apply (tryInsertIntoExisting_spec htree hi).mono
      · intro r w' h
        rw [hinsert] at h
        exact ⟨h.isMap hw hpre hpost, h⟩
      · intro _ _ h
        exact h

end

theorem fullMap_isMap (grants : Nat → Bool) : IsMap (fullMap grants) fullLeaf.entries where
  sorted := by
    unfold Sorted
    decide
  length := rfl
  beyond := (fullMap_onHeap grants).beyond
  tree := .inr ⟨0, fullLeaf, fullMap_onHeap grants, rfl⟩

/-- Into the full leaf, which splits under a new root. -/
theorem vacant_insertion_full : ∃ handle pre post,
    entry 11 (fullMap fun _ => true) = (.ok (.vacant handle), fullMap fun _ => true) ∧
    fullLeaf.entries = pre ++ post ∧ (∀ e ∈ pre, e.1 < 11) ∧ (∀ e ∈ post, 11 < e.1) ∧
    (tryInsertKv handle 11 11).Meets (fullMap fun _ => true)
      (fun r w' => IsMap w' (pre ++ (11, 11) :: post) ∧
        Inserted (fullMap fun _ => true) w' (pre ++ (11, 11) :: post) (11, 11) r)
      (fun _ _ => Refuses (fullMap fun _ => true).allocator) :=
  vacant_insertion (fullMap fun _ => true) fullLeaf.entries 11 11 (fullMap_isMap _) (by
    unfold Absent
    decide)

end Rustyfill.BTree
