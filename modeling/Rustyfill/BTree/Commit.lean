import Rustyfill.BTree.Path

/-!
# The commit

Each step of the commit takes a promotion and the subtree on its right one level up, until a
node absorbs them or a new root is put over them. No step asks the allocator for anything.
-/

namespace Rustyfill.BTree

open RawSlots Guarded Separated

set_option autoImplicit false

variable {K V : Type}

/-- What the probe records of a path. -/
def planOf : List (Frame K V) → List CommitInternal
  | [] => []
  | f :: fs =>
    if f.entries.length < capacity then [⟨f.addr, f.idx, false, none⟩]
    else ⟨f.addr, f.idx, true, some (splitpoint f.idx).1⟩ :: planOf fs

/-- Every node of the path splits. -/
def grows : List (Frame K V) → Bool
  | [] => true
  | f :: fs => if f.entries.length < capacity then false else grows fs

/-- How many internal nodes the commit takes. -/
def needed : List (Frame K V) → Nat
  | [] => 1
  | f :: fs => if f.entries.length < capacity then 0 else needed fs + 1

variable {w w' w'' : World K V} {h p : Nat} {t t₁ t₂ : Tree K V} {kv : K × V} {S : List Nat}

theorem modifyMap_meets {f : SysBTreeMap → SysBTreeMap} {Q : Unit → World K V → Prop}
    {E : Exit K V → World K V → Prop} :
    (modifyMap f).Meets w Q E ↔ Q () { w with map := f w.map } := Iff.rfl

theorem world_meets {Q : World K V → World K V → Prop} {E : Exit K V → World K V → Prop} :
    (world : Routine K V (World K V)).Meets w Q E ↔ Q w w := Iff.rfl

def Fresh (heap : Nat → Option (Node K V)) (p : Nat) : Prop := Shown heap p ⟨none, [], some []⟩

theorem Shows.edges_some {n : Node K V} {link : Option (Nat × Nat)} {es : List (K × V)}
    {as : List Nat} (hn : n.Shows ⟨link, es, some as⟩) :
    ∃ slots, n.edges = some slots ∧ slots.Holds as := by
  have hrel := hn.edges
  generalize n.edges = slots at hrel
  obtain ⟨hholds⟩ := hrel
  exact ⟨_, rfl, hholds⟩

theorem firstEdge_spec (hfresh : Fresh w.heap p) (old : Nat) : (modify p fun n => do
      let n := { n with parent := none, len := 0 }
      n.mapEdges fun edges => writeIn (capacity + 1) edges 0 old).Meets w
    (fun _ w' => Touches [p] w w' ∧ Shown w'.heap p ⟨none, [], some [old]⟩)
    (fun _ _ => False) := by
  apply modify_spec hfresh
  intro n hn
  obtain ⟨slots, hslots, hholds⟩ := Shows.edges_some hn
  refine ⟨{ n with parent := none, len := 0, edges := some (slots.write 0 old) }, ?_, ?_⟩
  · simp [Node.mapEdges, hslots, writeIn, capacity]
  · exact ⟨rfl, by simp, rfl, hn.keys, hn.vals, .some hholds.push⟩

theorem secondEdge_spec {old : Nat} (hshown : Shown w.heap p ⟨none, [], some [old]⟩) (right : Nat) :
    (modify p fun n => do
      let written ← n.writeKeyValue n.len kv.1 kv.2
      let linked ← written.mapEdges fun edges => writeIn (capacity + 1) edges (n.len + 1) right
      return { linked with len := n.len + 1 }).Meets w
    (fun _ w' => Touches [p] w w' ∧ Shown w'.heap p ⟨none, [kv], some [old, right]⟩)
    (fun _ _ => False) := by
  apply modify_spec hshown
  intro n hn
  obtain ⟨slots, hslots, hholds⟩ := Shows.edges_some hn
  have hlen : n.len = 0 := hn.len
  refine ⟨{ n with
    len := 1
    keys := n.keys.write 0 kv.1
    vals := n.vals.write 0 kv.2
    edges := some (slots.write 1 right) }, ?_, ?_⟩
  · simp [Node.writeKeyValue, Node.mapEdges, hslots, writeIn, capacity, hlen]
  · exact ⟨hn.parent, by simp, rfl, hn.keys.push, hn.vals.push, .some hholds.push⟩

theorem growRoot_spec {nr : Nat} (ht₁ : Tree.Holds w.heap h none t₁) (ht₂ : Floating w.heap h t₂)
    (hroot : w.map.root = some ⟨h, t₁.addr⟩) (hfresh : Fresh w.heap nr)
    (hnodup : (nr :: (t₁.addrs h ++ t₂.addrs h)).Nodup) :
    (growRoot (h + 1) kv t₂.addr nr).Meets w
      (fun _ w' => Tree.Holds w'.heap (h + 1) none ⟨nr, [kv], [t₁, t₂]⟩ ∧
        (∀ q, q ∉ nr :: (t₁.addrs h ++ t₂.addrs h) → w'.heap q = w.heap q) ∧
        ∃ ps : List Nat, w' = { w with
          heap := w'.heap
          map := ⟨some ⟨h + 1, nr⟩, w.map.length + 1⟩
          events := w.events ++ ps.map Event.write })
      (fun _ _ => False) := by
  obtain ⟨hnr, hnodup⟩ := List.nodup_cons.mp hnodup
  obtain ⟨hnodup₁, hnodup₂, hdisjoint⟩ := List.nodup_append.mp hnodup
  have hne₁ : ∀ q ∈ t₁.addrs h, q ∉ [nr] := fun q hq hmem =>
    hnr (List.mem_singleton.mp hmem ▸ List.mem_append_left _ hq)
  have hne₂ : ∀ q ∈ t₂.addrs h, q ∉ [nr] := fun q hq hmem =>
    hnr (List.mem_singleton.mp hmem ▸ List.mem_append_right _ hq)
  have hnr₁ : nr ∉ [t₁.addr] := fun hmem =>
    hne₁ _ (t₁.addr_mem_addrs h) (List.mem_singleton.mp hmem ▸ List.mem_singleton_self _)
  have hnr₂ : nr ∉ [t₂.addr] := fun hmem =>
    hne₂ _ (t₂.addr_mem_addrs h) (List.mem_singleton.mp hmem ▸ List.mem_singleton_self _)
  have hapart₁ : ∀ q ∈ t₁.addrs h, q ∉ [t₂.addr] := fun q hq hmem =>
    hdisjoint q hq _ (t₂.addr_mem_addrs h) (List.mem_singleton.mp hmem)
  have hapart₂ : ∀ q ∈ t₂.addrs h, q ∉ [t₁.addr] := fun q hq hmem =>
    hdisjoint _ (t₁.addr_mem_addrs h) q hq (List.mem_singleton.mp hmem).symm
  rw [growRoot, Body.meets_bind, world_meets]
  simp only [hroot]
  rw [Body.meets_bind, modifyMap_meets, Body.meets_bind]
  generalize hw₀ : ({ w with map := { w.map with root := none } } : World K V) = w₀
  have hheap₀ : w₀.heap = w.heap := by rw [← hw₀]
  rw [← hheap₀] at ht₁ hfresh
  have ht₂ : Floating w₀.heap h t₂ := by rwa [hheap₀]
  apply (firstEdge_spec hfresh t₁.addr).mono
  · rintro _ w₁ ⟨htouch₁, hshown₁⟩
    rw [Body.meets_bind]
    apply (setParentLink_tree ⟨_, ht₁.touched htouch₁ hne₁⟩ hnodup₁).mono
    · rintro _ w₂ ⟨htouch₂, hleft⟩
      rw [Body.meets_bind]
      apply (secondEdge_spec (htouch₂.shown hnr₁ hshown₁) t₂.addr).mono
      · rintro _ w₃ ⟨htouch₃, hshown₃⟩
        have ht₂' := ((ht₂.touched htouch₁ hne₂).touched htouch₂ hapart₂).touched htouch₃ hne₂
        rw [Body.meets_bind]
        apply (setParentLink_tree ht₂' hnodup₂).mono
        · rintro _ w₄ ⟨htouch₄, hright⟩
          have hleft' : Tree.Holds w₄.heap h (some (nr, 0)) t₁ :=
            (hleft.touched htouch₃ hne₁).touched htouch₄ hapart₁
          have hall : Touches [nr, t₁.addr, t₂.addr] w₀ w₄ :=
            (htouch₁.mono (by simp)).trans ((htouch₂.mono (by simp)).trans
              ((htouch₃.mono (by simp)).trans (htouch₄.mono (by simp))))
          rw [modifyMap_meets]
          refine ⟨⟨htouch₄.shown hnr₂ hshown₃, ?_⟩, ?_, ?_⟩
          · intro i c hc
            match i, hc with
            | 0, rfl => exact hleft'
            | 1, rfl => exact hright
          · intro q hq
            rw [← hheap₀]
            apply hall.frame
            intro hmem
            apply hq
            simp only [List.mem_cons, List.not_mem_nil, or_false] at hmem
            rcases hmem with rfl | rfl | rfl
            · exact List.mem_cons_self
            · exact .tail _ (List.mem_append_left _ (t₁.addr_mem_addrs h))
            · exact .tail _ (List.mem_append_right _ (t₂.addr_mem_addrs h))
          · obtain ⟨ps, hps⟩ := hall.rest
            refine ⟨ps, ?_⟩
            conv_lhs => rw [hps, ← hw₀]
            rfl
        · intro _ _ h
          exact h
      · intro _ _ h
        exact h
    · intro _ _ h
      exact h
  · intro _ _ h
    exact h

/-! ## The loop -/

/-- The promotion `kv` between `t₁`, which is in its place, and `t₂`, which is in none yet. -/
structure Pending (w : World K V) (h : Nat) (link : Option (Nat × Nat)) (fs : List (Frame K V))
    (t₁ t₂ : Tree K V) (reserved : List Nat) : Prop where
  left : Tree.Holds w.heap h link t₁
  right : Floating w.heap h t₂
  path : Path.Holds w.heap h link t₁.addr fs
  leftShaped : Tree.Shaped h 5 t₁
  rightShaped : Tree.Shaped h 5 t₂
  pathShaped : Path.Shaped h fs
  nodup : (t₁.addrs h ++ t₂.addrs h ++ Path.addrs h fs ++ reserved).Nodup
  fresh : ∀ r ∈ reserved, Fresh w.heap r
  root : w.map.root = some ⟨h + fs.length, (Path.plug fs t₁).addr⟩
  reserved : reserved.length = needed fs

/-- The tree after the commit: its sequence, its nodes, and leaves that are in it. Nothing but
the tree, and the record of the writes, has changed. -/
structure Committed (w w' : World K V) (seq : List (K × V)) (used : List Nat)
    (kept : Tree K V → Prop) (H : Nat) (t : Tree K V) : Prop where
  holds : Tree.Holds w'.heap H none t
  shaped : Tree.Shaped H 0 t
  addrs : (t.addrs H).Perm used
  inorder : t.inorder H = seq
  leaves : ∀ l, kept l → l ∈ t.leaves H
  frame : ∀ q, q ∉ used → w'.heap q = w.heap q
  rest : ∃ ps : List Nat, w' = { w with
    heap := w'.heap
    map := ⟨some ⟨H, t.addr⟩, w.map.length + 1⟩
    events := w.events ++ ps.map Event.write }

theorem Committed.trans {seq : List (K × V)} {used used' : List Nat} {kept kept' : Tree K V → Prop}
    {H : Nat} (htouch : Touches S w w') (hc : Committed w' w'' seq used kept H t)
    (hused : used.Perm used') (hS : ∀ q ∈ S, q ∈ used') (hkept : ∀ l, kept' l → kept l) :
    Committed w w'' seq used' kept' H t where
  holds := hc.holds
  shaped := hc.shaped
  addrs := hc.addrs.trans hused
  inorder := hc.inorder
  leaves l hl := hc.leaves l (hkept l hl)
  frame q hq := (hc.frame q (mt hused.mem_iff.mp hq)).trans (htouch.frame q (mt (hS q) hq))
  rest := by
    obtain ⟨ps, hps⟩ := htouch.rest
    obtain ⟨ps', hps'⟩ := hc.rest
    refine ⟨ps ++ ps', ?_⟩
    conv_lhs => rw [hps', hps]
    simp only [List.map_append, List.append_assoc]

namespace Pending

variable {link : Option (Nat × Nat)} {f : Frame K V} {fs : List (Frame K V)} {reserved : List Nat}

theorem nodup_frame (hp : Pending w h link (f :: fs) t₁ t₂ reserved) :
    (f.addr :: reserved ++ (t₂ :: (f.fill t₁).children).flatMap (Tree.addrs h) ++
      Path.addrs (h + 1) fs).Nodup := by
  apply (List.Perm.nodup_iff (List.perm_iff_count.mpr fun q => ?_)).mp hp.nodup
  have hcount := ((Frame.perm_children (f := f) t₁).flatMap_right (Tree.addrs h)).count_eq q
  simp only [Path.addrs, List.flatMap_cons, List.count_append, List.cons_append, List.count_cons]
    at hcount ⊢
  omega

theorem path_apart (hp : Pending w h link (f :: fs) t₁ t₂ reserved) {q : Nat}
    (hq : q ∈ Path.addrs (h + 1) fs) :
    q ∉ f.addr :: reserved ++ (t₂ :: (f.fill t₁).children).flatMap (Tree.addrs h) := fun hmem =>
  (List.nodup_append.mp hp.nodup_frame).2.2 q hmem q hq rfl

theorem linked (hp : Pending w h link (f :: fs) t₁ t₂ reserved) :
    ∃ link', Shown w.heap f.addr ⟨link', f.entries, some ((f.fill t₁).children.map Tree.addr)⟩ ∧
      Linked w.heap h f.addr (f.fill t₁).children ∧
      Path.Holds w.heap (h + 1) link' f.addr fs := by
  obtain ⟨hlink, link', hshown, hL, hR, hrest⟩ := hp.path
  have hleft := hp.left
  rw [hlink] at hleft
  refine ⟨link', ?_, Path.linked_fill hL hR hleft, hrest⟩
  simpa only [Frame.fill, List.map_append, List.map_cons] using hshown

end Pending

/-- What the commit of a path ends with. -/
def Commits (w : World K V) (h : Nat) (fs : List (Frame K V)) (t₁ t₂ : Tree K V) (kv : K × V)
    (reserved : List Nat) (w' : World K V) : Prop :=
  ∃ H t, Committed w w'
    (Path.around h fs (t₁.inorder h ++ kv :: t₂.inorder h))
    (t₁.addrs h ++ t₂.addrs h ++ Path.addrs h fs ++ reserved)
    (fun l => l ∈ t₁.leaves h ∨ l ∈ t₂.leaves h) H t

variable {link : Option (Nat × Nat)} {f : Frame K V} {fs : List (Frame K V)} {reserved : List Nat}

theorem growRoot_commits {nr : Nat} (hp : Pending w h link [] t₁ t₂ [nr]) :
    (growRoot (h + 1) kv t₂.addr nr).Meets w
      (fun _ w' => Commits w h [] t₁ t₂ kv [nr] w') (fun _ _ => False) := by
  have hlink : link = none := hp.path
  have hleft := hp.left
  rw [hlink] at hleft
  have hperm : (nr :: (t₁.addrs h ++ t₂.addrs h)).Perm
      (t₁.addrs h ++ t₂.addrs h ++ Path.addrs h ([] : List (Frame K V)) ++ [nr]) := by
    rw [Path.addrs, List.append_nil]
    exact (List.perm_append_singleton nr _).symm
  apply (growRoot_spec hleft hp.right hp.root (hp.fresh nr (List.mem_singleton_self _))
    ((List.Perm.nodup_iff hperm).mpr hp.nodup)).mono
  · rintro _ w' ⟨hholds, hframe, hrest⟩
    refine ⟨h + 1, ⟨nr, [kv], [t₁, t₂]⟩, hholds, ⟨Nat.zero_le _, ?_, rfl, ?_⟩, ?_, ?_, ?_, ?_,
      hrest⟩
    · simp [capacity]
    · intro c hc
      rcases List.mem_cons.mp hc with rfl | hc
      · exact hp.leftShaped
      · obtain rfl := List.mem_singleton.mp hc
        exact hp.rightShaped
    · simpa [Tree.addrs] using hperm
    · simp [Tree.inorder, weave, Path.around]
    · intro l hl
      simpa [Tree.leaves] using hl
    · intro q hq
      exact hframe q (mt hperm.mem_iff.mp hq)
  · intro _ _ h
    exact h

theorem absorb_commits (hp : Pending w h link (f :: fs) t₁ t₂ [])
    (hroom : f.entries.length < capacity) :
    (do
      insertPromoted f.addr f.idx kv t₂.addr
      modifyMap addOne).Meets w
      (fun _ w' => Commits w h (f :: fs) t₁ t₂ kv [] w') (fun _ _ => False) := by
  obtain ⟨link', hshown, hlinked, hpath⟩ := hp.linked
  have hf := hp.pathShaped.1
  have hnodup := (List.nodup_append.mp hp.nodup_frame).1
  obtain ⟨haddr, hapart⟩ := List.nodup_cons.mp hnodup
  have hpath' : ∀ q ∈ Path.addrs (h + 1) fs,
      q ∉ f.addr :: (t₂ :: (f.fill t₁).children).map Tree.addr := by
    intro q hq hmem
    apply hp.path_apart hq
    rcases List.mem_cons.mp hmem with rfl | hmem
    · exact List.mem_cons_self
    · exact List.mem_cons_of_mem _ (mem_flatMap_of_mem_map hmem)
  rw [Body.meets_bind]
  apply (insertPromoted_spec hshown (f.length_children t₁) hroom f.idx_le hlinked hp.right
    haddr hapart).mono
  · rintro _ w₁ ⟨htouch, hshown₁, hlinked₁⟩
    rw [modifyMap_meets]
    have hheight : h + 1 + fs.length = h + (f :: fs).length := by
      rw [List.length_cons]
      omega
    have hlen : (f.insert t₁ kv t₂).entries.length = f.entries.length + 1 ∧
        (f.insert t₁ kv t₂).children.length = f.entries.length + 2 := Frame.length_insert
    have hperm : (f.insert t₁ kv t₂).children.Perm (t₂ :: (f.fill t₁).children) := Frame.perm_insert
    have hwhole : Tree.Holds w₁.heap (h + (f :: fs).length) none
        (Path.plug fs (f.insert t₁ kv t₂)) :=
      Path.Holds.plug hheight (hpath.touched htouch hpath') ⟨hshown₁, hlinked₁⟩
    refine ⟨_, Path.plug fs (f.insert t₁ kv t₂), hwhole, ?_, ?_, ?_, ?_, ?_, ?_⟩
    · apply hp.pathShaped.2.plug hheight
      refine ⟨?_, ?_, ?_, hf.children_insert hp.leftShaped hp.rightShaped⟩
      · rw [hlen.1]
        exact Nat.le_succ_of_le hf.least
      · rw [hlen.1]
        exact hroom
      · rw [hlen.1, hlen.2]
    · refine (Path.addrs_plug hheight).trans (List.perm_iff_count.mpr fun q => ?_)
      have hinsert := (hperm.flatMap_right (Tree.addrs h)).count_eq q
      have hfill := ((Frame.perm_children (f := f) t₁).flatMap_right (Tree.addrs h)).count_eq q
      simp only [Tree.addrs, Path.addrs, Frame.insert, List.flatMap_cons, List.count_append,
        List.cons_append, List.count_cons, List.count_nil] at hinsert hfill ⊢
      omega
    · rw [Path.inorder_plug hheight, Frame.inorder_insert]
      rfl
    · intro l hl
      apply Path.mem_leaves_plug hheight
      rcases hl with hl | hl
      · exact List.mem_flatMap.mpr
          ⟨t₁, hperm.mem_iff.mpr (.tail _ (Frame.mem_children.mpr (.inl rfl))), hl⟩
      · exact List.mem_flatMap.mpr ⟨t₂, hperm.mem_iff.mpr List.mem_cons_self, hl⟩
    · intro q hq
      exact htouch.frame q (mt (fun hmem => List.mem_append_left _ (Path.mem_of_written hmem)) hq)
    · obtain ⟨ps, hps⟩ := htouch.rest
      refine ⟨ps, ?_⟩
      have hroot : w.map.root =
          some ⟨h + (f :: fs).length, (Path.plug fs (f.insert t₁ kv t₂)).addr⟩ := by
        have htop : (Path.plug fs (f.insert t₁ kv t₂)).addr = (Path.plug fs (f.fill t₁)).addr :=
          Path.plug_addr rfl
        rw [hp.root, htop]
        rfl
      conv_lhs => rw [hps]
      simp only [addOne, hroot]
  · intro _ _ h
    exact h

/-- What a full node of the path is split into is pending one level up. -/
structure Raised (w w' : World K V) (h : Nat) (f : Frame K V) (fs : List (Frame K V))
    (t₁ t₂ : Tree K V) (kv : K × V) (ri : Nat) (reserved : List Nat) (promoted : K × V)
    (t₁' t₂' : Tree K V) : Prop where
  left : t₁'.addr = f.addr
  right : t₂'.addr = ri
  touches : ∃ S, Touches S w w' ∧
    ∀ q ∈ S, q ∈ t₁.addrs h ++ t₂.addrs h ++ Path.addrs h (f :: fs) ++ ri :: reserved
  pending : ∃ link', Pending w' (h + 1) link' fs t₁' t₂' reserved
  inorder : t₁'.inorder (h + 1) ++ promoted :: t₂'.inorder (h + 1) =
    f.around h (t₁.inorder h ++ kv :: t₂.inorder h)
  addrs : (t₁'.addrs (h + 1) ++ t₂'.addrs (h + 1)).Perm
    (t₁.addrs h ++ t₂.addrs h ++ (f.addr :: f.siblings.flatMap (Tree.addrs h)) ++ [ri])
  leaves : ∀ l, l ∈ t₁.leaves h ∨ l ∈ t₂.leaves h →
    l ∈ t₁'.leaves (h + 1) ∨ l ∈ t₂'.leaves (h + 1)

theorem splitInternal_raised {ri : Nat} (hp : Pending w h link (f :: fs) t₁ t₂ (ri :: reserved))
    (hfull : ¬ f.entries.length < capacity) :
    (splitInternal f.addr ri (splitpoint f.idx).1 f.idx kv t₂.addr).Meets w
      (fun promoted w' => ∃ t₁' t₂', Raised w w' h f fs t₁ t₂ kv ri reserved promoted t₁' t₂' ∧
        t₁'.entries.length = cutAt f.idx ∧ t₂'.entries.length = capacity - cutAt f.idx)
      (fun _ _ => False) := by
  obtain ⟨link', hshown, hlinked, hpath⟩ := hp.linked
  have hf := hp.pathShaped.1
  have hlength : f.entries.length = capacity := Nat.le_antisymm hf.full (Nat.le_of_not_lt hfull)
  have hnodup : (f.addr :: ri :: (t₂ :: (f.fill t₁).children).flatMap (Tree.addrs h)).Nodup := by
    have hsub : (f.addr :: ri :: (t₂ :: (f.fill t₁).children).flatMap (Tree.addrs h)).Sublist
        (f.addr :: ri :: (reserved ++ (t₂ :: (f.fill t₁).children).flatMap (Tree.addrs h))) :=
      ((List.sublist_append_right reserved _).cons_cons ri).cons_cons f.addr
    exact List.Nodup.sublist hsub (List.nodup_append.mp hp.nodup_frame).1
  obtain ⟨m, hlow, hhigh, hcutAt, hsplit⟩ := @splitInternal_spec _ _ _ _ _ _ _ _ _ _ _ kv hshown
    (f.length_children t₁) hlength (hp.fresh ri List.mem_cons_self) f.idx_le hlinked hp.right
    hnodup
  apply hsplit.mono
  · rintro promoted w₁ ⟨hpromoted, htouch, hhalves⟩
    have hlen : (f.insert t₁ kv t₂).entries.length = f.entries.length + 1 ∧
        (f.insert t₁ kv t₂).children.length = f.entries.length + 2 := Frame.length_insert
    have hperm : (f.insert t₁ kv t₂).children.Perm (t₂ :: (f.fill t₁).children) := Frame.perm_insert
    have hcut := Tree.shaped_cut (h := h) (m := m) (p := ri) (t := f.insert t₁ kv t₂)
      (by rw [hlen.1, hlen.2]) (by rw [hlen.1, hlength]) hlow hhigh
      (hf.children_insert hp.leftShaped hp.rightShaped)
    have haddrs : (((f.insert t₁ kv t₂).lower m).addrs (h + 1) ++
        ((f.insert t₁ kv t₂).upper m ri).addrs (h + 1)).Perm
        (t₁.addrs h ++ t₂.addrs h ++ (f.addr :: f.siblings.flatMap (Tree.addrs h)) ++ [ri]) := by
      apply Tree.perm_addrs_cut.trans (List.perm_iff_count.mpr fun q => ?_)
      have hinsert := (hperm.flatMap_right (Tree.addrs h)).count_eq q
      have hfill := ((Frame.perm_children (f := f) t₁).flatMap_right (Tree.addrs h)).count_eq q
      simp only [Tree.addrs, Frame.insert, List.flatMap_cons, List.count_append, List.count_cons,
        List.count_nil] at hinsert hfill ⊢
      omega
    have htouched : ∀ q ∈ f.addr :: ri :: (t₂ :: (f.fill t₁).children).map Tree.addr,
        q ∈ f.addr :: ri :: (t₂ :: (f.fill t₁).children).flatMap (Tree.addrs h) := by
      intro q hq
      rcases List.mem_cons.mp hq with rfl | hq
      · exact List.mem_cons_self
      · rcases List.mem_cons.mp hq with rfl | hq
        · exact .tail _ List.mem_cons_self
        · exact .tail _ (.tail _ (mem_flatMap_of_mem_map hq))
    refine ⟨(f.insert t₁ kv t₂).lower m, (f.insert t₁ kv t₂).upper m ri, ⟨rfl, rfl,
      ⟨_, htouch, ?_⟩, ⟨link', ⟨hhalves.left, hhalves.leftLinked⟩,
        ⟨none, hhalves.right, hhalves.rightLinked⟩, ?_, hcut.1, hcut.2, hp.pathShaped.2, ?_, ?_,
        ?_, ?_⟩, ?_, haddrs, ?_⟩, ?_, ?_⟩
    · intro q hq
      by_cases heq : q = ri
      · rw [heq]
        exact List.mem_append_right _ List.mem_cons_self
      · apply List.mem_append_left
        apply Path.mem_of_written
        simp only [List.mem_cons] at hq ⊢
        tauto
    · apply hpath.touched htouch
      intro q hq hmem
      apply hp.path_apart hq
      have hmem' := htouched q hmem
      simp only [List.mem_cons, List.mem_append] at hmem' ⊢
      tauto
    · apply (List.Perm.nodup_iff _).mp hp.nodup
      refine List.perm_iff_count.mpr fun q => ?_
      have hcount := haddrs.count_eq q
      simp only [Path.addrs, List.count_append, List.cons_append, List.count_cons,
        List.count_nil] at hcount ⊢
      omega
    · intro r hr
      apply htouch.shown _ (hp.fresh r (List.mem_cons_of_mem _ hr))
      intro hmem
      have hmem' := htouched r hmem
      have hframe := (List.nodup_append.mp hp.nodup_frame).1
      have hcount := List.nodup_iff_count_le_one.mp hframe r
      have hone := List.count_pos_iff.mpr hr
      have htwo := List.count_pos_iff.mpr hmem'
      simp only [List.count_append, List.cons_append, List.count_cons] at hcount htwo
      omega
    · have htop : (Path.plug fs ((f.insert t₁ kv t₂).lower m)).addr =
          (Path.plug fs (f.fill t₁)).addr := Path.plug_addr rfl
      obtain ⟨ps, hps⟩ := htouch.rest
      have hmap : w₁.map = w.map := by rw [hps]
      rw [hmap, hp.root, htop, List.length_cons, Nat.add_right_comm]
      rfl
    · have hneeded := hp.reserved
      rw [needed, if_neg hfull, List.length_cons] at hneeded
      exact Nat.succ.inj hneeded
    · rw [← Frame.inorder_insert]
      apply (Tree.inorder_cut _ hpromoted).symm
      rw [hlen.1, hlen.2]
    · intro l hl
      have hmem : l ∈ (f.insert t₁ kv t₂).leaves (h + 1) := by
        rcases hl with hl | hl
        · exact List.mem_flatMap.mpr
            ⟨t₁, hperm.mem_iff.mpr (.tail _ (Frame.mem_children.mpr (.inl rfl))), hl⟩
        · exact List.mem_flatMap.mpr ⟨t₂, hperm.mem_iff.mpr List.mem_cons_self, hl⟩
      rw [Tree.leaves_cut (m := m) (p := ri)] at hmem
      exact List.mem_append.mp hmem
    · rw [Tree.lower, List.length_take, hlen.1, hlength, hcutAt]
      rw [capacity] at hlength ⊢
      omega
    · rw [Tree.upper, List.length_drop, hlen.1, hlength, ← hcutAt]
      omega
  · intro _ _ h
    exact h

theorem promote_commits {node idx : Nat} (hp : Pending w h link fs t₁ t₂ reserved) :
    (promote (grows fs) node idx (planOf fs) reserved ⟨h, t₁.addr⟩ ⟨h, t₂.addr⟩ kv).Meets w
      (fun r w' => r = (NodeRef.mk 0 node, idx) ∧ Commits w h fs t₁ t₂ kv reserved w')
      (fun _ _ => False) := by
  induction fs generalizing w h link t₁ t₂ kv reserved with
  | nil =>
    obtain ⟨nr, rfl⟩ : ∃ nr, reserved = [nr] := List.length_eq_one_iff.mp hp.reserved
    have hgrow : (do
        growRoot (h + 1) kv t₂.addr nr
        finishCommit node idx).Meets w
        (fun r w' => r = (NodeRef.mk 0 node, idx) ∧ Commits w h [] t₁ t₂ kv [nr] w')
        (fun _ _ => False) := by
      rw [Body.meets_bind]
      apply (growRoot_commits hp).mono
      · intro _ w' hcommits
        exact ⟨rfl, hcommits⟩
      · intro _ _ h
        exact h
    exact hgrow
  | cons f fs ih =>
    by_cases hroom : f.entries.length < capacity
    · have hnone : reserved = [] := by
        have hneeded := hp.reserved
        rw [needed, if_pos hroom] at hneeded
        exact List.eq_nil_of_length_eq_zero hneeded
      subst hnone
      have habsorb : (do
          insertPromoted f.addr f.idx kv t₂.addr
          modifyMap addOne
          finishCommit node idx).Meets w
          (fun r w' => r = (NodeRef.mk 0 node, idx) ∧ Commits w h (f :: fs) t₁ t₂ kv [] w')
          (fun _ _ => False) := by
        have habsorbed := @absorb_commits _ _ _ _ _ _ kv _ _ _ hp hroom
        rw [Body.meets_bind] at habsorbed ⊢
        apply habsorbed.mono
        · intro _ w' hadd
          rw [Body.meets_bind]
          exact ⟨rfl, hadd⟩
        · intro _ _ h
          exact h
      rw [planOf, if_pos hroom]
      exact habsorb
    · obtain ⟨ri, rest, rfl⟩ : ∃ ri rest, reserved = ri :: rest := by
        have hneeded := hp.reserved
        rw [needed, if_neg hroom] at hneeded
        exact List.exists_cons_of_length_eq_add_one hneeded
      rw [planOf, if_neg hroom, grows, if_neg hroom]
      have hsplit : (do
          let promoted ← splitInternal f.addr ri (splitpoint f.idx).1 f.idx kv t₂.addr
          promote (grows fs) node idx (planOf fs) rest ⟨h + 1, f.addr⟩ ⟨h + 1, ri⟩
            promoted).Meets w
          (fun r w' => r = (NodeRef.mk 0 node, idx) ∧
            Commits w h (f :: fs) t₁ t₂ kv (ri :: rest) w')
          (fun _ _ => False) := by
        rw [Body.meets_bind]
        apply (splitInternal_raised hp hroom).mono
        · rintro promoted w₁ ⟨t₁', t₂', hraised, -⟩
          obtain ⟨S, htouch, hS⟩ := hraised.touches
          obtain ⟨link', hpending⟩ := hraised.pending
          rw [← hraised.right] at hS
          rw [← hraised.left, ← hraised.right]
          apply Body.Meets.mono (ih hpending)
          · rintro r w₂ ⟨rfl, H, t, hcommitted⟩
            refine ⟨rfl, H, t, ?_⟩
            rw [hraised.inorder] at hcommitted
            apply hcommitted.trans htouch _ hS hraised.leaves
            refine List.perm_iff_count.mpr fun q => ?_
            have hcount := hraised.addrs.count_eq q
            simp only [Path.addrs, hraised.right, List.count_append, List.cons_append,
              List.count_cons, List.count_nil] at hcount ⊢
            omega
          · intro _ _ h
            exact h
        · intro _ _ h
          exact h
      exact hsplit

end Rustyfill.BTree
