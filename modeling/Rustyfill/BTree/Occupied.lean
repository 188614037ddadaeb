import Rustyfill.BTree.Map
import Rustyfill.BTree.Vacant

/-!
# Occupied entries

The search of the standard library ends at the entry of a key that is there, which may be in a node
of any height, and a value that is replaced there is replaced in the sequence of the map.
-/

namespace Rustyfill.BTree

open RawSlots Guarded Separated

set_option autoImplicit false

variable {K V : Type} {w w' : World K V} {h i j least : Nat} {link : Option (Nat × Nat)}
  {t s l : Tree K V} {fs : List (Frame K V)} {kv : K × V}

/-! ## An entry of a tree -/

namespace Tree

/-- The node with another entry at `j`. -/
def withEntry (t : Tree K V) (j : Nat) (kv : K × V) : Tree K V :=
  { t with entries := t.entries.set j kv }

@[simp] theorem withEntry_addr (t : Tree K V) (j : Nat) : (t.withEntry j kv).addr = t.addr := rfl

theorem withEntry_self (hkv : t.entries[j]? = some kv) : t.withEntry j kv = t := by
  obtain ⟨hj, rfl⟩ := List.getElem?_eq_some_iff.mp hkv
  cases t
  rw [withEntry, List.set_getElem_self]

theorem addrs_withEntry : (t.withEntry j kv).addrs h = t.addrs h := by
  cases h with
  | zero => rfl
  | succ h => rfl

theorem Shaped.withEntry (hs : Shaped h least t) : Shaped h least (t.withEntry j kv) := by
  cases h with
  | zero =>
    rw [Shaped, Tree.withEntry, List.length_set]
    exact hs
  | succ h =>
    rw [Shaped, Tree.withEntry, List.length_set]
    exact hs

/-- What stands before an entry and behind it in the sequence does not depend on the entry. -/
theorem inorder_withEntry (hs : Shaped h least t) (hj : j < t.entries.length) :
    ∃ pre post, ∀ kv, (t.withEntry j kv).inorder h = pre ++ kv :: post := by
  cases h with
  | zero =>
    refine ⟨t.entries.take j, t.entries.drop (j + 1), fun kv => ?_⟩
    rw [inorder, withEntry, List.set_eq_take_append_cons_drop, if_pos hj]
  | succ h =>
    obtain ⟨-, -, hlen, -⟩ := hs
    refine ⟨(t.lower j).inorder (h + 1), (t.upper j 0).inorder (h + 1), fun kv => ?_⟩
    have hlen' : (t.withEntry j kv).children.length = (t.withEntry j kv).entries.length + 1 := by
      rw [withEntry, List.length_set, hlen]
    have hkv : (t.withEntry j kv).entries[j]? = some kv := List.getElem?_set_self hj
    have hlower : (t.withEntry j kv).lower j = t.lower j := by
      rw [lower, withEntry, List.take_set_of_le (Nat.le_refl j), lower]
    have hupper : (t.withEntry j kv).upper j 0 = t.upper j 0 := by
      rw [upper, withEntry, List.drop_set_of_lt (Nat.lt_succ_self j), upper]
    rw [inorder_cut hlen' hkv, hlower, hupper]

theorem Holds.entries {heap heap' : Nat → Option (Node K V)} {es : List (K × V)}
    (ht : Holds heap h link t) (hnodup : (addrs h t).Nodup)
    (hshown : Shown heap' t.addr ⟨link, es, t.edges h⟩)
    (hsame : ∀ p ∈ addrs h t, p ≠ t.addr → heap' p = heap p) :
    Holds heap' h link { t with entries := es } := by
  cases h with
  | zero => exact hshown
  | succ h =>
    have hapart := (List.nodup_cons.mp hnodup).1
    refine ⟨hshown, fun i c hc => (ht.2 i c hc).frame fun p hp => ?_⟩
    have hmem : p ∈ t.children.flatMap (addrs h) :=
      List.mem_flatMap.mpr ⟨c, List.mem_of_getElem? hc, hp⟩
    exact hsame p (List.mem_cons_of_mem _ hmem) fun heq => hapart (heq ▸ hmem)

end Tree

/-- What a path has around its subtree does not depend on the subtree. -/
theorem Path.exists_around (h : Nat) (fs : List (Frame K V)) :
    ∃ pre post, ∀ mid, Path.around h fs mid = pre ++ mid ++ post := by
  induction fs generalizing h with
  | nil => exact ⟨[], [], fun mid => (List.append_nil mid).symm⟩
  | cons f fs ih =>
    obtain ⟨pre, post, hrest⟩ := ih (h + 1)
    refine ⟨pre ++ before (f.childrenL.map (Tree.inorder h)) f.entriesL,
      after f.entriesR (f.childrenR.map (Tree.inorder h)) ++ post, fun mid => ?_⟩
    rw [Path.around, hrest, Frame.around]
    simp only [List.append_assoc]

/-- The handle is at the entry `kv` of the map, which stands between `pre` and `post`. -/
def Located (w : World K V) (handle : Handle) (pre : List (K × V)) (kv : K × V)
    (post : List (K × V)) : Prop :=
  ∃ h fs s, handle.node = ⟨h, s.addr⟩ ∧ OnHeap w (h + fs.length) (Path.plug fs s) ∧
    s.entries[handle.idx]? = some kv ∧
    ∀ kv', (Path.plug fs (s.withEntry handle.idx kv')).inorder (h + fs.length) = pre ++ kv' :: post

/-- The handle is at the entry `kv` of the sequence of the map. -/
def Refers (w : World K V) (handle : Handle) (kv : K × V) (seq : List (K × V)) : Prop :=
  ∃ pre post, Located w handle pre kv post ∧ seq = pre ++ kv :: post

theorem refers_plug (hw : OnHeap w (h + fs.length) (Path.plug fs s))
    (hkv : s.entries[j]? = some kv) :
    Refers w ⟨⟨h, s.addr⟩, j⟩ kv ((Path.plug fs s).inorder (h + fs.length)) := by
  obtain ⟨hj, -⟩ := List.getElem?_eq_some_iff.mp hkv
  obtain ⟨hs, -⟩ := Path.Shaped.unplug rfl hw.shaped
  obtain ⟨pre, post, hinorder⟩ := Tree.inorder_withEntry hs hj
  obtain ⟨before, behind, haround⟩ := Path.exists_around h fs
  have hplace : ∀ kv', (Path.plug fs (s.withEntry j kv')).inorder (h + fs.length) =
      (before ++ pre) ++ kv' :: (post ++ behind) := by
    intro kv'
    rw [Path.inorder_plug rfl, haround, hinorder]
    simp only [List.append_assoc, List.cons_append]
  refine ⟨before ++ pre, post ++ behind, ⟨h, fs, s, rfl, hw, hkv, hplace⟩, ?_⟩
  have hself := hplace kv
  rwa [Tree.withEntry_self hkv] at hself

/-! ## References to a value -/

section
variable {handle : Handle} {pre post : List (K × V)}

theorem Located.onHeap (hloc : Located w handle pre kv post) :
    ∃ H t, OnHeap w H t ∧ t.inorder H = pre ++ kv :: post := by
  obtain ⟨h, fs, s, -, hw, hkv, hplace⟩ := hloc
  have hself := hplace kv
  rw [Tree.withEntry_self hkv] at hself
  exact ⟨_, _, hw, hself⟩

theorem readValue_meets {Q : V → World K V → Prop} {E : Exit K V → World K V → Prop}
    (hloc : Located w handle pre kv post) : (readValue handle).Meets w Q E ↔ Q kv.2 w := by
  obtain ⟨h, fs, s, hnode, hw, hkv, -⟩ := hloc
  obtain ⟨link, hs, -⟩ := Path.Holds.unplug rfl hw.holds
  obtain ⟨n, hn, hshows⟩ := hs.shown
  obtain ⟨hj, rfl⟩ := List.getElem?_eq_some_iff.mp hkv
  rw [readValue, Body.meets_bind, hnode, deref_meets hn, (hshows.get hj).2, orUndefined_meets]

theorem Node.Shows.withValue {n : Node K V} {v : View K V} (hn : n.Shows v)
    (hkv : v.entries[j]? = some kv) (value : V) :
    ({ n with vals := n.vals.write j value } : Node K V).Shows
      { v with entries := v.entries.set j (kv.1, value) } where
  parent := hn.parent
  parentIdx := hn.parentIdx
  len := by rw [List.length_set, hn.len]
  keys := by
    obtain ⟨hj, rfl⟩ := List.getElem?_eq_some_iff.mp hkv
    have hsame : (v.entries.set j (v.entries[j].1, value)).map Prod.fst =
        v.entries.map Prod.fst := by
      rw [List.map_set]
      apply List.ext_getElem (by simp)
      intro m _ _
      rw [List.getElem_set]
      split
      · rename_i heq
        subst heq
        rw [List.getElem_map]
      · rfl
    rw [hsame]
    exact hn.keys
  vals := by
    rw [List.map_set]
    exact hn.vals.set
  edges := hn.edges

theorem writeValue_spec (hloc : Located w handle pre kv post) (value : V) :
    (writeValue handle value).Meets w
      (fun _ w' => Located w' handle pre (kv.1, value) post ∧ w'.map = w.map ∧ w'.next = w.next)
      (fun _ _ => False) := by
  obtain ⟨h, fs, s, hnode, hw, hkv, hplace⟩ := hloc
  obtain ⟨link, hs, hpath⟩ := Path.Holds.unplug rfl hw.holds
  obtain ⟨hshaped, hpathShaped⟩ := Path.Shaped.unplug rfl hw.shaped
  have haddrs : (Tree.addrs (h + fs.length) (Path.plug fs s)).Perm
      (Tree.addrs h s ++ Path.addrs h fs) := Path.addrs_plug rfl
  obtain ⟨hnodup, -, hapart⟩ := List.nodup_append.mp (haddrs.nodup_iff.mp hw.nodup)
  obtain ⟨hj, -⟩ := List.getElem?_eq_some_iff.mp hkv
  have hwrite : (writeValue handle value).Meets w
      (fun _ w' => Touches [s.addr] w w' ∧ Shown w'.heap s.addr
        ⟨link, s.entries.set handle.idx (kv.1, value), s.edges h⟩) (fun _ _ => False) := by
    rw [writeValue, hnode]
    apply modify_spec hs.shown
    intro n hn
    have hbound : handle.idx < capacity := Nat.lt_of_lt_of_le hj hshaped.length.2
    refine ⟨{ n with vals := n.vals.write handle.idx value }, ?_, hn.withValue hkv value⟩
    simp [writeIn, hbound]
  apply hwrite.mono
  · rintro _ w' ⟨htouch, hshown⟩
    obtain ⟨ps, hps⟩ := htouch.rest
    have hmap : w'.map = w.map := by rw [hps]
    have hnext : w'.next = w.next := by rw [hps]
    have hs' : Tree.Holds w'.heap h link (s.withEntry handle.idx (kv.1, value)) :=
      hs.entries hnodup hshown fun p _ hne => htouch.frame p (by simpa using hne)
    have hpath' : Path.Holds w'.heap h link s.addr fs := hpath.touched htouch fun q hq hmem => by
      obtain rfl := List.mem_singleton.mp hmem
      exact hapart _ (Tree.addr_mem_addrs h s) _ hq rfl
    have hperm : (Tree.addrs (h + fs.length)
        (Path.plug fs (s.withEntry handle.idx (kv.1, value)))).Perm
        (Tree.addrs h (s.withEntry handle.idx (kv.1, value)) ++ Path.addrs h fs) :=
      Path.addrs_plug rfl
    rw [Tree.addrs_withEntry] at hperm
    have hsame : (s.withEntry handle.idx (kv.1, value)).addr = s.addr := rfl
    refine ⟨⟨h, fs, s.withEntry handle.idx (kv.1, value), hnode, ⟨?_, hpath'.plug rfl hs',
      hpathShaped.plug rfl hshaped.withEntry, ?_, ?_⟩, ?_, ?_⟩, hmap, hnext⟩
    · rw [hmap, hw.root]
      exact congrArg (fun a => some (NodeRef.mk (h + fs.length) a)) (Path.plug_addr hsame).symm
    · exact hperm.nodup_iff.mpr (haddrs.nodup_iff.mp hw.nodup)
    · intro q hq
      rw [hnext] at hq
      refine (htouch.frame q ?_).trans (hw.beyond q hq)
      intro hmem
      obtain rfl := List.mem_singleton.mp hmem
      have hmem := haddrs.mem_iff.mpr (List.mem_append_left _ (Tree.addr_mem_addrs h s))
      exact Nat.not_le_of_lt (hw.lt_next hmem) hq
    · exact List.getElem?_set_self hj
    · intro kv'
      rw [Tree.withEntry, Tree.withEntry, List.set_set]
      exact hplace kv'
  · intro _ _ h
    exact h

end

/-! ## The search for a key that is there -/

section
variable [LinearOrder K] {key : K}

theorem findKeyIndex_found {n : Node K V} {v : View K V} (hn : n.Shows v) {m : Nat}
    (hm : m < v.entries.length) (hkey : v.entries[m].1 = key)
    (hbefore : ∀ (k : Nat) (hk : k < v.entries.length), k < m → v.entries[k].1 < key) {rest : Nat}
    (hlen : i + rest = v.entries.length) (him : i ≤ m) :
    findKeyIndex n key rest i = some (.eq, m) := by
  induction rest generalizing i with
  | zero => omega
  | succ rest ih =>
    have hi : i < v.entries.length := by omega
    have hread := (hn.get hi).1
    rcases Nat.eq_or_lt_of_le him with rfl | hlt
    · simp only [findKeyIndex, hread, Option.bind_eq_bind, Option.bind_some, hkey,
        compare_eq_iff_eq.mpr rfl]
    · simp only [findKeyIndex, hread, Option.bind_eq_bind, Option.bind_some,
        compare_gt_iff_gt.mpr (hbefore i hi hlt)]
      exact ih (by omega) hlt

theorem searchNode_found {p m : Nat} {v : View K V} (hshown : Shown w.heap p v)
    (hsorted : Sorted v.entries) (hkv : v.entries[m]? = some kv) (hkey : kv.1 = key)
    {Q : SearchResult → World K V → Prop} {E : Exit K V → World K V → Prop} :
    (searchNode key ⟨h, p⟩).Meets w Q E ↔ Q (.found ⟨⟨h, p⟩, m⟩) w := by
  obtain ⟨n, hn, hshows⟩ := hshown
  obtain ⟨hm, rfl⟩ := List.getElem?_eq_some_iff.mp hkv
  have hfind : findKeyIndex n key n.len 0 = some (.eq, m) := by
    rw [hshows.len]
    apply findKeyIndex_found hshows hm hkey _ (Nat.zero_add _) (Nat.zero_le m)
    intro k hk hlt
    rw [← hkey]
    exact List.pairwise_iff_getElem.mp hsorted k m hk hm hlt
  rw [searchNode, Body.meets_bind, deref_meets hn, hfind, Body.meets_bind, orUndefined_meets]
  rfl

/-- The entries of a node are in order, as parts of its sequence. -/
theorem Sorted.entries (hsorted : Sorted (t.inorder h)) (hs : Tree.Shaped h least t) :
    Sorted t.entries := by
  cases h with
  | zero => exact hsorted
  | succ h =>
    obtain ⟨-, -, hlen, -⟩ := hs
    exact hsorted.sublist (sublist_weave (by rw [List.length_map, hlen]))

/-- A key between the entries of a node is in the child between them. -/
theorem mem_child {c : Tree K V} (hlen : t.children.length = t.entries.length + 1)
    (hj : j ≤ t.entries.length) (hc : t.children[j]? = some c)
    (hsorted : Sorted (t.inorder (h + 1)))
    (hbefore : ∀ (k : Nat) (hk : k < t.entries.length), k < j → t.entries[k].1 < key)
    (hat : ∀ hj : j < t.entries.length, key < t.entries[j].1) {e : K × V}
    (he : e ∈ t.inorder (h + 1)) (hkey : e.1 = key) : e ∈ c.inorder h := by
  have hseq := inorder_child (h := h) hlen hj hc
  rw [Frame.around, Tree.childrenL_frameAt hlen hj, Tree.entriesL_frameAt hlen hj,
    Tree.childrenR_frameAt hlen hj, Tree.entriesR_frameAt hlen hj] at hseq
  rw [hseq] at hsorted he
  obtain ⟨hleft, hright, -⟩ := List.pairwise_append.mp hsorted
  obtain ⟨hsortedB, -, -⟩ := List.pairwise_append.mp hleft
  rcases List.mem_append.mp he with he | he
  · rcases List.mem_append.mp he with he | he
    · obtain ⟨e', he', hle⟩ := exists_of_mem_before hsortedB he
      have hlt : e'.1 < key := by
        obtain ⟨k, hk, rfl⟩ := List.getElem_of_mem he'
        rw [List.length_take] at hk
        rw [List.getElem_take]
        exact hbefore k (by omega) (by omega)
      rcases hle with rfl | hle
      · exact absurd hkey hlt.ne
      · exact absurd hkey (hle.trans hlt).ne
    · exact he
  · rcases Nat.eq_or_lt_of_le hj with heq | hlt
    · rw [heq, List.drop_length] at he
      cases he
    · rw [List.drop_eq_getElem_cons hlt] at hright he
      rcases rel_of_mem_after hright he with rfl | hle
      · exact absurd hkey (hat hlt).ne'
      · exact absurd hkey ((hat hlt).trans hle).ne'

theorem searchTree_here (ht : Tree.Holds w.heap h link t) (hs : Tree.Shaped h least t)
    (hsorted : Sorted (t.inorder h)) (hkv : t.entries[j]? = some kv) (hkey : kv.1 = key)
    {Q : SearchResult → World K V → Prop} {E : Exit K V → World K V → Prop} :
    (searchTree key h t.addr).Meets w Q E ↔ Q (.found ⟨⟨h, t.addr⟩, j⟩) w := by
  cases h with
  | zero => exact searchNode_found ht.shown (hsorted.entries hs) hkv hkey
  | succ h =>
    rw [searchTree, Body.meets_bind, searchNode_found ht.shown (hsorted.entries hs) hkv hkey]
    rfl

theorem searchTree_found (ht : Tree.Holds w.heap h link t) (hs : Tree.Shaped h least t)
    (hsorted : Sorted (t.inorder h)) {e : K × V} (he : e ∈ t.inorder h) (hkey : e.1 = key) :
    ∃ k fs s j kv, k + fs.length = h ∧ Path.plug fs s = t ∧ s.entries[j]? = some kv ∧
      kv.1 = key ∧ ∀ (Q : SearchResult → World K V → Prop) (E : Exit K V → World K V → Prop),
        (searchTree key h t.addr).Meets w Q E ↔ Q (.found ⟨⟨k, s.addr⟩, j⟩) w := by
  induction h generalizing link t least with
  | zero =>
    obtain ⟨m, hm⟩ := List.getElem?_of_mem he
    exact ⟨0, [], t, m, e, rfl, rfl, hm, hkey, fun Q E => searchTree_here ht hs hsorted hm hkey⟩
  | succ h ih =>
    by_cases hentry : ∃ kv ∈ t.entries, kv.1 = key
    · obtain ⟨kv, hmem, hkv⟩ := hentry
      obtain ⟨m, hm⟩ := List.getElem?_of_mem hmem
      exact ⟨h + 1, [], t, m, kv, rfl, rfl, hm, hkv,
        fun Q E => searchTree_here ht hs hsorted hm hkv⟩
    · have habsent : Absent key t.entries := fun e he hkey => hentry ⟨e, he, hkey⟩
      obtain ⟨hshown, hlinked⟩ := ht
      obtain ⟨-, -, hlen, hchildren⟩ := hs
      obtain ⟨j, hj, hbefore, hat, hnode⟩ :=
        @searchNode_meets K V w (h + 1) _ key _ _ hshown habsent
      have hlt : j < t.children.length := by
        rw [hlen]
        exact Nat.lt_succ_of_le hj
      have hc : t.children[j]? = some t.children[j] := List.getElem?_eq_getElem hlt
      have hmem := mem_child hlen hj hc hsorted hbefore hat he hkey
      have hchild : Sorted (t.children[j].inorder h) := by
        rw [inorder_child hlen hj hc, Frame.around] at hsorted
        exact (List.pairwise_append.mp (List.pairwise_append.mp hsorted).1).2.1
      obtain ⟨k, fs, s, m, kv, hheight, hplug, hm, hkv, hgoes⟩ :=
        ih (hlinked j _ hc) (hchildren _ (List.getElem_mem hlt)) hchild hmem
      refine ⟨k, fs ++ [t.frameAt j], s, m, kv, ?_, ?_, hm, hkv, fun Q E => ?_⟩
      · rw [List.length_append, List.length_singleton, ← hheight, Nat.add_assoc]
      · rw [Path.plug_append, hplug]
        exact Tree.fill_frameAt hlen hj hc
      · have hedge : (t.children.map Tree.addr)[j]? = some t.children[j].addr := by
          rw [List.getElem?_map, hc]
          rfl
        rw [searchTree, Body.meets_bind, hnode]
        exact (Body.meets_bind.trans (readEdge_meets hshown hedge)).trans (hgoes Q E)

theorem entry_occupied {seq : List (K × V)} (hw : IsMap w seq) {e : K × V} (he : e ∈ seq)
    (hkey : e.1 = key) : ∃ handle kv, entry key w = (.ok (.occupied handle), w) ∧
      kv.1 = key ∧ Refers w handle kv seq := by
  rcases hw.tree with ⟨-, rfl⟩ | ⟨H, t, htree, rfl⟩
  · cases he
  · obtain ⟨k, fs, s, j, kv, rfl, rfl, hkv, hkv', hgoes⟩ :=
      searchTree_found htree.holds htree.shaped hw.sorted he hkey
    refine ⟨⟨⟨k, s.addr⟩, j⟩, kv, ?_, hkv', refers_plug htree hkv⟩
    apply Body.eq_of_meets
    rw [entry, Body.meets_bind, world_meets, htree.root]
    dsimp only
    rw [Body.meets_bind, hgoes]
    exact ⟨rfl, rfl⟩

end

end Rustyfill.BTree
