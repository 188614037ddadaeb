import Rustyfill.BTree.Tree

/-!
# Children and their links

What the routines that move edges do to the subtrees at them: the children that changed place
are linked again, and all of them hold.
-/

namespace Rustyfill.BTree

open RawSlots Guarded Separated

set_option autoImplicit false

variable {K V : Type} {heap heap' : Nat → Option (Node K V)} {h p i : Nat}
  {cs : List (Tree K V)} {c t : Tree K V} {w w' : World K V} {S : List Nat}

/-- The children of `p`, each linked to its edge. -/
def Linked (heap : Nat → Option (Node K V)) (h p : Nat) (cs : List (Tree K V)) : Prop :=
  ∀ i c, cs[i]? = some c → Tree.Holds heap h (some (p, i)) c

/-- A tree that is linked anywhere. -/
def Floating (heap : Nat → Option (Node K V)) (h : Nat) (t : Tree K V) : Prop :=
  ∃ link, Tree.Holds heap h link t

/-- No two nodes of the trees are the same. -/
def Apart (h : Nat) (cs : List (Tree K V)) : Prop := (cs.flatMap (Tree.addrs h)).Nodup

theorem Linked.floating (hl : Linked heap h p cs) (hc : c ∈ cs) : Floating heap h c := by
  obtain ⟨i, hi⟩ := List.getElem?_of_mem hc
  exact ⟨_, hl i c hi⟩

theorem Linked.take {n : Nat} (hl : Linked heap h p cs) : Linked heap h p (cs.take n) := by
  intro i c hc
  rw [List.getElem?_take] at hc
  split at hc
  · exact hl i c hc
  · cases hc

theorem Linked.touched (hl : Linked w.heap h p cs) (htouch : Touches S w w')
    (hapart : ∀ q ∈ cs.flatMap (Tree.addrs h), q ∉ S) : Linked w'.heap h p cs := by
  intro i c hc
  apply (hl i c hc).touched htouch
  intro q hq
  exact hapart q (List.mem_flatMap.mpr ⟨c, List.mem_of_getElem? hc, hq⟩)

theorem Floating.touched (hf : Floating w.heap h t) (htouch : Touches S w w')
    (hapart : ∀ q ∈ t.addrs h, q ∉ S) : Floating w'.heap h t := by
  obtain ⟨link, ht⟩ := hf
  exact ⟨link, ht.touched htouch hapart⟩

theorem Apart.nodup (ha : Apart h cs) (hc : c ∈ cs) : (c.addrs h).Nodup :=
  (List.nodup_flatMap.mp ha).1 c hc

theorem Apart.perm {cs' : List (Tree K V)} (ha : Apart h cs) (hperm : cs.Perm cs') :
    Apart h cs' :=
  (List.Perm.nodup_iff (hperm.flatMap_right _)).mp ha

theorem Apart.not_mem {j : Nat} {d : Tree K V} (ha : Apart h cs) (hi : cs[i]? = some c)
    (hj : cs[j]? = some d) (hne : i ≠ j) {q : Nat} (hq : q ∈ c.addrs h) : q ∉ d.addrs h := by
  have hpair := (List.nodup_flatMap.mp ha).2
  obtain ⟨hi', rfl⟩ := List.getElem?_eq_some_iff.mp hi
  obtain ⟨hj', rfl⟩ := List.getElem?_eq_some_iff.mp hj
  rw [List.pairwise_iff_getElem] at hpair
  intro hq'
  rcases Nat.lt_or_gt_of_ne hne with hlt | hgt
  · exact hpair i j hi' hj' hlt hq hq'
  · exact hpair j i hj' hi' hgt hq' hq

theorem Apart.sublist {cs' : List (Tree K V)} (ha : Apart h cs) (hsub : cs'.Sublist cs) :
    Apart h cs' :=
  List.Nodup.sublist (hsub.flatMap _) ha

theorem Apart.take_drop {n q : Nat} (ha : Apart h cs)
    (hq : q ∈ (cs.take n).flatMap (Tree.addrs h)) :
    q ∉ (cs.drop n).flatMap (Tree.addrs h) := by
  rw [Apart, ← List.take_append_drop n cs, List.flatMap_append] at ha
  exact fun hq' => (List.nodup_append.mp ha).2.2 q hq q hq' rfl

theorem not_mem_of_sublist {cs' : List (Tree K V)} (hp : p ∉ cs.flatMap (Tree.addrs h))
    (hsub : cs'.Sublist cs) : p ∉ cs'.flatMap (Tree.addrs h) := fun hmem =>
  hp ((hsub.flatMap _).mem hmem)

theorem Apart.cons {q : Nat} (ha : Apart h (t :: cs)) (hq : q ∈ t.addrs h) :
    q ∉ cs.flatMap (Tree.addrs h) := by
  rw [Apart, List.flatMap_cons] at ha
  exact fun hq' => (List.nodup_append.mp ha).2.2 q hq q hq' rfl

theorem mem_flatMap_of_mem_map {q : Nat} (hq : q ∈ cs.map Tree.addr) :
    q ∈ cs.flatMap (Tree.addrs h) := by
  obtain ⟨c, hc, rfl⟩ := List.mem_map.mp hq
  exact List.mem_flatMap.mpr ⟨c, hc, c.addr_mem_addrs h⟩

/-- What an insertion of `t` beside the children `ds` writes is not under the children `es`. -/
theorem Apart.untouched {ds es : List (Tree K V)} (ha : Apart h (t :: cs))
    (hp : p ∉ (t :: cs).flatMap (Tree.addrs h)) (hsub : es.Sublist cs)
    (hdisjoint : ∀ q ∈ es.flatMap (Tree.addrs h), q ∉ ds.flatMap (Tree.addrs h)) :
    ∀ q ∈ es.flatMap (Tree.addrs h), q ∉ p :: (t :: ds).map Tree.addr := by
  intro q hq hmem
  have hq' : q ∈ cs.flatMap (Tree.addrs h) := (hsub.flatMap _).mem hq
  rcases List.mem_cons.mp hmem with rfl | hmem
  · exact hp (List.mem_append_right _ hq')
  · rcases List.mem_cons.mp hmem with rfl | hmem
    · exact ha.cons (t.addr_mem_addrs h) hq'
    · exact hdisjoint q hq (mem_flatMap_of_mem_map hmem)

/-! ## Links -/

theorem setParentLink_tree {q : Nat} (hf : Floating w.heap h t) (hnodup : (t.addrs h).Nodup) :
    (setParentLink t.addr q i).Meets w
      (fun _ w' => Touches [t.addr] w w' ∧ Tree.Holds w'.heap h (some (q, i)) t)
      (fun _ _ => False) := by
  obtain ⟨link, ht⟩ := hf
  apply (setParentLink_spec ht.shown).mono
  · rintro _ w' ⟨htouch, hshown⟩
    refine ⟨htouch, ht.relink hnodup hshown fun q' _ hne => ?_⟩
    exact htouch.frame q' (by simpa using hne)
  · intro _ _ h
    exact h

theorem readEdge_meets {link : Option (Nat × Nat)} {es : List (K × V)} {as : List Nat} {a : Nat}
    {Q : Nat → World K V → Prop} {E : Exit K V → World K V → Prop}
    (hshown : Shown w.heap p ⟨link, es, some as⟩) (ha : as[i]? = some a) :
    (readEdge p i).Meets w Q E ↔ Q a w := by
  obtain ⟨n, hn, hshows⟩ := hshown
  have hrel := hshows.edges
  generalize hslots : n.edges = slots at hrel
  obtain ⟨hholds⟩ := hrel
  have hi := (List.getElem?_eq_some_iff.mp ha).1
  rw [readEdge, Body.meets_bind, deref_meets hn, hslots, Option.bind_some, hholds i hi, ha,
    orUndefined_meets]

theorem correctParentLinks_spec {link : Option (Nat × Nat)} {es : List (K × V)} {first last : Nat}
    (hshown : Shown w.heap p ⟨link, es, some (cs.map Tree.addr)⟩) (hlast : last + 1 = cs.length)
    (hfirst : first ≤ cs.length) (hbefore : Linked w.heap h p (cs.take first))
    (hfloat : ∀ c ∈ cs, Floating w.heap h c) (hp : p ∉ cs.flatMap (Tree.addrs h))
    (hapart : Apart h cs) : (correctParentLinks p first last).Meets w
      (fun _ w' => Touches (cs.map Tree.addr) w w' ∧ Linked w'.heap h p cs)
      (fun _ _ => False) := by
  have hloop := @Body.forEach_meets (World K V) (Exit K V) Nat w (fun _ _ => False)
    (fun i => do
      let child ← readEdge p i
      setParentLink child p i)
    (fun done w' => Touches (cs.map Tree.addr) w w' ∧
      Linked w'.heap h p (cs.take (first + done.length)) ∧ ∀ c ∈ cs, Floating w'.heap h c)
    (List.range' first (last + 1 - first)) ?_ ⟨.refl _ w, hbefore, hfloat⟩
  · apply hloop.mono
    · rintro _ w' ⟨htouch, hlinked, -⟩
      rw [List.length_range', List.take_of_length_le (by omega)] at hlinked
      exact ⟨htouch, hlinked⟩
    · intro _ _ h
      exact h
  · rintro done i rest w' hl ⟨htouch, hlinked, hfloat'⟩
    have hi : i = first + done.length := by
      have hget : (List.range' first (last + 1 - first))[done.length]? = some i := by
        rw [hl, List.getElem?_append_right (Nat.le_refl _), Nat.sub_self]
        rfl
      obtain ⟨hdone, hat⟩ := List.getElem?_eq_some_iff.mp hget
      rw [← hat, List.getElem_range', Nat.one_mul]
    have hlt : i < cs.length := by
      have hlen := congrArg List.length hl
      rw [List.length_range', List.length_append, List.length_cons] at hlen
      omega
    have hc : cs[i]? = some cs[i] := List.getElem?_eq_getElem hlt
    have hmem : cs[i] ∈ cs := List.getElem_mem hlt
    have hedge : (cs.map Tree.addr)[i]? = some cs[i].addr := by
      rw [List.getElem?_map, hc]
      rfl
    rw [Body.meets_bind, readEdge_meets (htouch.shown (mt mem_flatMap_of_mem_map hp) hshown) hedge]
    apply (setParentLink_tree (hfloat' _ hmem) (hapart.nodup hmem)).mono
    · rintro _ w'' ⟨htouch', hchild⟩
      have hother : ∀ j c, cs[j]? = some c → j ≠ i → ∀ q ∈ c.addrs h, q ∉ [cs[i].addr] := by
        intro j c hj hne q hq hmem
        obtain rfl := List.mem_singleton.mp hmem
        exact hapart.not_mem hj hc hne hq (cs[i].addr_mem_addrs h)
      refine ⟨htouch.trans (htouch'.mono ?_), ?_, ?_⟩
      · intro q hq
        obtain rfl := List.mem_singleton.mp hq
        exact List.mem_map_of_mem hmem
      · intro j c hj
        rw [List.length_append, List.length_singleton, ← Nat.add_assoc, ← hi, List.getElem?_take]
          at hj
        split at hj
        · by_cases hji : j = i
          · subst hji
            rw [hc] at hj
            cases hj
            exact hchild
          · apply Tree.Holds.touched _ htouch' (hother j c hj hji)
            apply hlinked j c
            rw [List.getElem?_take_of_lt (by omega), hj]
        · cases hj
      · intro c hcmem
        obtain ⟨j, hj⟩ := List.getElem?_of_mem hcmem
        by_cases hji : j = i
        · subst hji
          rw [hc] at hj
          cases hj
          exact ⟨_, hchild⟩
        · exact (hfloat' c hcmem).touched htouch' (hother j c hj hji)
    · intro _ _ h
      exact h

theorem nodeLen_meets {v : View K V} {Q : Nat → World K V → Prop} {E : Exit K V → World K V → Prop}
    (hshown : Shown w.heap p v) : (nodeLen p).Meets w Q E ↔ Q v.entries.length w := by
  obtain ⟨n, hn, hshows⟩ := hshown
  rw [nodeLen, Body.meets_bind, deref_meets hn, ← hshows.len]
  rfl

/-- A promotion goes into a node that has room, with the subtree `t` on its right. -/
theorem insertPromoted_spec {link : Option (Nat × Nat)} {es : List (K × V)} {kv : K × V}
    (hshown : Shown w.heap p ⟨link, es, some (cs.map Tree.addr)⟩)
    (hlen : cs.length = es.length + 1) (hroom : es.length < capacity) (hi : i ≤ es.length)
    (hlinked : Linked w.heap h p cs) (hfloat : Floating w.heap h t)
    (hp : p ∉ (t :: cs).flatMap (Tree.addrs h)) (hapart : Apart h (t :: cs)) :
    (insertPromoted p i kv t.addr).Meets w
      (fun _ w' => Touches (p :: (t :: cs).map Tree.addr) w w' ∧
        Shown w'.heap p ⟨link, es.insertIdx i kv, some ((cs.insertIdx (i + 1) t).map Tree.addr)⟩ ∧
        Linked w'.heap h p (cs.insertIdx (i + 1) t))
      (fun _ _ => False) := by
  have hperm : (cs.insertIdx (i + 1) t).Perm (t :: cs) := List.perm_insertIdx t cs (by omega)
  rw [insertPromoted, Body.meets_bind, nodeLen_meets hshown, Body.meets_bind]
  apply (internalInsertFit_spec hshown rfl (by rw [List.length_map, hlen]) hi hroom).mono
  · rintro _ w₁ ⟨htouch₁, hshown₁⟩
    have hapart₁ : ∀ c ∈ t :: cs, ∀ q ∈ c.addrs h, q ∉ [p] := by
      intro c hc q hq hmem
      obtain rfl := List.mem_singleton.mp hmem
      exact hp (List.mem_flatMap.mpr ⟨c, hc, hq⟩)
    have hlinked₁ : Linked w₁.heap h p cs := by
      apply hlinked.touched htouch₁
      intro q hq
      obtain ⟨c, hc, hq⟩ := List.mem_flatMap.mp hq
      exact hapart₁ c (List.mem_cons_of_mem _ hc) q hq
    rw [← List.map_insertIdx] at hshown₁
    have hp' : p ∉ (cs.insertIdx (i + 1) t).flatMap (Tree.addrs h) := fun hmem =>
      hp ((hperm.flatMap_right _).mem_iff.mp hmem)
    have hcorrect := @correctParentLinks_spec K V h p (cs.insertIdx (i + 1) t) w₁ link
      (es.insertIdx i kv) (i + 1) (es.length + 1) hshown₁ ?_ ?_ ?_ ?_ hp' (hapart.perm hperm.symm)
    · apply hcorrect.mono
      · rintro _ w₂ ⟨htouch₂, hlinked₂⟩
        refine ⟨(htouch₁.mono ?_).trans (htouch₂.mono ?_), ?_, hlinked₂⟩
        · intro q hq
          obtain rfl := List.mem_singleton.mp hq
          exact List.mem_cons_self
        · intro q hq
          exact List.mem_cons_of_mem _ ((hperm.map _).mem_iff.mp hq)
        · exact htouch₂.shown (mt mem_flatMap_of_mem_map hp') hshown₁
      · intro _ _ h
        exact h
    · rw [List.length_insertIdx_of_le_length (by omega), hlen]
    · rw [List.length_insertIdx_of_le_length (by omega)]
      omega
    · rw [List.take_insertIdx_eq_take_of_le _ _ _ _ (Nat.le_refl _)]
      exact hlinked₁.take
    · intro c hc
      rcases List.mem_cons.mp (hperm.mem_iff.mp hc) with rfl | hc
      · exact hfloat.touched htouch₁ (hapart₁ c List.mem_cons_self)
      · exact hlinked₁.floating hc
  · intro _ _ h
    exact h

/-! ## Splitting a node -/

theorem readKeyValue_meets {v : View K V} {kv : K × V} {Q : K × V → World K V → Prop}
    {E : Exit K V → World K V → Prop} (hshown : Shown w.heap p v) (hkv : v.entries[i]? = some kv) :
    (readKeyValue p i).Meets w Q E ↔ Q kv w := by
  obtain ⟨n, hn, hshows⟩ := hshown
  obtain ⟨hi, rfl⟩ := List.getElem?_eq_some_iff.mp hkv
  obtain ⟨hkey, hval⟩ := hshows.get hi
  rw [readKeyValue, Body.meets_bind, deref_meets hn, hkey, hval, Body.meets_bind,
    orUndefined_meets, Body.meets_bind, orUndefined_meets, Body.meets_pure]

variable {link : Option (Nat × Nat)} {es : List (K × V)} {ri sp : Nat}

/-- The entries `es` and the children `cs` are in two nodes, but for the entry at `m`. -/
structure Halves (heap : Nat → Option (Node K V)) (h p ri : Nat) (link : Option (Nat × Nat))
    (es : List (K × V)) (cs : List (Tree K V)) (m : Nat) : Prop where
  left : Shown heap p ⟨link, es.take m, some ((cs.take (m + 1)).map Tree.addr)⟩
  leftLinked : Linked heap h p (cs.take (m + 1))
  right : Shown heap ri ⟨none, es.drop (m + 1), some ((cs.drop (m + 1)).map Tree.addr)⟩
  rightLinked : Linked heap h ri (cs.drop (m + 1))

theorem halveInternal_spec (hshown : Shown w.heap p ⟨link, es, some (cs.map Tree.addr)⟩)
    (hlen : cs.length = es.length + 1) (hfull : es.length ≤ capacity)
    (hright : Shown w.heap ri ⟨none, [], some []⟩) (hsp : sp < es.length)
    (hlinked : Linked w.heap h p cs) (hne : p ≠ ri) (hp : p ∉ cs.flatMap (Tree.addrs h))
    (hri : ri ∉ cs.flatMap (Tree.addrs h)) (hapart : Apart h cs) :
    (halveInternal p ri sp).Meets w
      (fun _ w' => Touches (p :: ri :: cs.map Tree.addr) w w' ∧
        Halves w'.heap h p ri link es cs sp)
      (fun _ _ => False) := by
  have hdrop := List.drop_sublist (sp + 1) cs
  rw [halveInternal, Body.meets_bind]
  apply (copyRightHalfInternal_spec hne hshown rfl (by rw [List.length_map, hlen]) hright hsp
    hfull).mono
  · rintro _ w₁ ⟨htouch₁, hleft₁, hright₁⟩
    rw [← List.map_take] at hleft₁
    rw [← List.map_drop] at hright₁
    have hfree : ∀ q ∈ cs.flatMap (Tree.addrs h), q ∉ [p, ri] := by
      intro q hq hmem
      rcases List.mem_cons.mp hmem with rfl | hmem
      · exact hp hq
      · obtain rfl := List.mem_singleton.mp hmem
        exact hri hq
    have hlinked₁ := hlinked.touched htouch₁ hfree
    rw [Body.meets_bind, nodeLen_meets hright₁]
    have hcorrect := @correctParentLinks_spec K V h ri (cs.drop (sp + 1)) w₁ none
      (es.drop (sp + 1)) 0 (es.drop (sp + 1)).length hright₁ ?_ (Nat.zero_le _) ?_ ?_
      (not_mem_of_sublist hri hdrop) (hapart.sublist hdrop)
    · apply hcorrect.mono
      · rintro _ w₂ ⟨htouch₂, hlinked₂⟩
        refine ⟨(htouch₁.mono ?_).trans (htouch₂.mono ?_), htouch₂.shown ?_ hleft₁,
          hlinked₁.take.touched htouch₂ ?_, htouch₂.shown ?_ hright₁, hlinked₂⟩
        · intro q hq
          simp only [List.mem_cons, List.not_mem_nil, or_false] at hq ⊢
          exact hq.imp_right .inl
        · intro q hq
          exact List.mem_cons_of_mem _ (List.mem_cons_of_mem _ ((hdrop.map _).mem hq))
        · exact mt mem_flatMap_of_mem_map (not_mem_of_sublist hp hdrop)
        · intro q hq hmem
          exact hapart.take_drop hq (mem_flatMap_of_mem_map hmem)
        · exact mt mem_flatMap_of_mem_map (not_mem_of_sublist hri hdrop)
      · intro _ _ h
        exact h
    · rw [List.length_drop, List.length_drop]
      omega
    · intro j c hc
      cases hc
    · intro c hc
      exact hlinked₁.floating (hdrop.mem hc)
  · intro _ _ h
    exact h

theorem splitpoint_cases (hi : i ≤ capacity) : ∃ sp,
    splitpoint i = (sp, .left i) ∧ i ≤ sp ∧ 4 ≤ sp ∧ sp ≤ 5 ∨
      splitpoint i = (sp, .right (i - (sp + 1))) ∧ sp + 1 ≤ i ∧ 5 ≤ sp ∧ sp ≤ 6 := by
  simp only [capacity] at hi
  by_cases hlt : i < edgeIdxLeftOfCenter
  · have hsp : splitpoint i = (4, .left i) := if_pos hlt
    simp only [edgeIdxLeftOfCenter] at hlt
    exact ⟨4, .inl ⟨hsp, by omega, by omega, by omega⟩⟩
  · by_cases hfive : i = edgeIdxLeftOfCenter
    · have hsp : splitpoint i = (5, .left i) := (if_neg hlt).trans (if_pos hfive)
      simp only [edgeIdxLeftOfCenter] at hfive
      exact ⟨5, .inl ⟨hsp, by omega, by omega, by omega⟩⟩
    · by_cases hsix : i = edgeIdxRightOfCenter
      · have hsp : splitpoint i = (5, .right 0) :=
          (if_neg hlt).trans ((if_neg hfive).trans (if_pos hsix))
        simp only [edgeIdxRightOfCenter] at hsix
        subst hsix
        exact ⟨5, .inr ⟨hsp, by omega, by omega, by omega⟩⟩
      · have hsp : splitpoint i = (6, .right (i - 7)) :=
          (if_neg hlt).trans ((if_neg hfive).trans (if_neg hsix))
        simp only [edgeIdxLeftOfCenter, edgeIdxRightOfCenter] at hlt hfive hsix
        exact ⟨6, .inr ⟨hsp, by omega, by omega, by omega⟩⟩

/-- How many entries stay in a full node that is split for the edge `i`: those before the promoted
one, and the new one if it comes before it. -/
def cutAt (i : Nat) : Nat := (splitpoint i).1 + if (splitpoint i).2.isRight then 0 else 1

theorem splitInternal_spec {kv : K × V}
    (hshown : Shown w.heap p ⟨link, es, some (cs.map Tree.addr)⟩)
    (hlen : cs.length = es.length + 1) (hfull : es.length = capacity)
    (hright : Shown w.heap ri ⟨none, [], some []⟩) (hi : i ≤ es.length)
    (hlinked : Linked w.heap h p cs) (hfloat : Floating w.heap h t)
    (hnodup : (p :: ri :: (t :: cs).flatMap (Tree.addrs h)).Nodup) :
    ∃ m, 5 ≤ m ∧ m ≤ 6 ∧ m = cutAt i ∧ (splitInternal p ri (splitpoint i).1 i kv t.addr).Meets w
      (fun promoted w' => (es.insertIdx i kv)[m]? = some promoted ∧
        Touches (p :: ri :: (t :: cs).map Tree.addr) w w' ∧
        Halves w'.heap h p ri link (es.insertIdx i kv) (cs.insertIdx (i + 1) t) m)
      (fun _ _ => False) := by
  obtain ⟨hp, hnodup⟩ := List.nodup_cons.mp hnodup
  obtain ⟨hri, hapart⟩ := List.nodup_cons.mp hnodup
  have hne : p ≠ ri := fun heq => hp (heq ▸ List.mem_cons_self)
  have hp' : p ∉ (t :: cs).flatMap (Tree.addrs h) := fun hmem => hp (List.mem_cons_of_mem _ hmem)
  have hcs : cs.Sublist (t :: cs) := List.sublist_cons_self t cs
  have hcsapart : Apart h cs := Apart.sublist hapart hcs
  have hfresh : Floating w.heap h t → ∀ w₁, Touches (p :: ri :: cs.map Tree.addr) w w₁ →
      Floating w₁.heap h t := by
    intro hfloat w₁ htouch₁
    apply hfloat.touched htouch₁
    intro q hq hmem
    have hq' : q ∈ (t :: cs).flatMap (Tree.addrs h) :=
      List.mem_flatMap.mpr ⟨t, List.mem_cons_self, hq⟩
    rcases List.mem_cons.mp hmem with rfl | hmem
    · exact hp' hq'
    · rcases List.mem_cons.mp hmem with rfl | hmem
      · exact hri hq'
      · exact Apart.cons hapart hq (mem_flatMap_of_mem_map hmem)
  obtain ⟨sp, ⟨hsplit, hle, hlow, hhigh⟩ | ⟨hsplit, hle, hlow, hhigh⟩⟩ :=
    splitpoint_cases (hfull ▸ hi)
  · -- The new entry comes before the promoted one.
    have hsp : sp < es.length := by rw [hfull, capacity]; omega
    refine ⟨sp + 1, by omega, by omega, by rw [cutAt, hsplit]; rfl, ?_⟩
    have hread : es[sp]? = some es[sp] := List.getElem?_eq_getElem hsp
    rw [splitInternal, hsplit, Body.meets_bind, readKeyValue_meets hshown hread, Body.meets_bind]
    apply (halveInternal_spec hshown hlen hfull.le hright hsp hlinked hne
      (not_mem_of_sublist hp' hcs) (not_mem_of_sublist hri hcs) hcsapart).mono
    · rintro _ w₁ ⟨htouch₁, hleft₁, hleftLinked₁, hright₁, hrightLinked₁⟩
      have hsub : (t :: cs.take (sp + 1)).Sublist (t :: cs) := (List.take_sublist _ _).cons_cons _
      have hinsert := @insertPromoted_spec K V h p i (cs.take (sp + 1)) t w₁ link (es.take sp) kv
        hleft₁ ?_ ?_ ?_ hleftLinked₁ (hfresh hfloat w₁ htouch₁) (not_mem_of_sublist hp' hsub)
        (Apart.sublist hapart hsub)
      · rw [Body.meets_bind]
        apply hinsert.mono
        · rintro _ w₂ ⟨htouch₂, hleft₂, hleftLinked₂⟩
          refine ⟨?_, (htouch₁.mono ?_).trans (htouch₂.mono ?_), ⟨?_, ?_, ?_, ?_⟩⟩
          · rw [List.getElem?_insertIdx_of_gt (by omega)]
            exact hread
          · intro q hq
            simp only [List.map_cons, List.mem_cons] at hq ⊢
            exact hq.imp_right fun hq => hq.imp_right .inr
          · intro q hq
            rcases List.mem_cons.mp hq with rfl | hq
            · exact List.mem_cons_self
            · exact List.mem_cons_of_mem _ (List.mem_cons_of_mem _ ((hsub.map _).mem hq))
          · rwa [take_insertIdx hle, take_insertIdx (Nat.succ_le_succ hle)]
          · rwa [take_insertIdx (Nat.succ_le_succ hle)]
          · rw [drop_insertIdx (by omega), drop_insertIdx (by omega)]
            apply htouch₂.shown _ hright₁
            intro hmem
            rcases List.mem_cons.mp hmem with heq | hmem
            · exact hne heq.symm
            · exact not_mem_of_sublist hri hsub (mem_flatMap_of_mem_map hmem)
          · rw [drop_insertIdx (by omega)]
            apply hrightLinked₁.touched htouch₂
            apply Apart.untouched hapart hp' (List.drop_sublist _ _)
            exact fun q hq hq' => hcsapart.take_drop hq' hq
        · intro _ _ h
          exact h
      · rw [List.length_take, List.length_take]
        omega
      · rw [List.length_take, capacity]
        omega
      · rw [List.length_take]
        omega
    · intro _ _ h
      exact h
  · -- The new entry comes after the promoted one.
    have hsp : sp < es.length := by omega
    refine ⟨sp, by omega, by omega, by rw [cutAt, hsplit]; rfl, ?_⟩
    have hread : es[sp]? = some es[sp] := List.getElem?_eq_getElem hsp
    rw [splitInternal, hsplit, Body.meets_bind, readKeyValue_meets hshown hread, Body.meets_bind]
    apply (halveInternal_spec hshown hlen hfull.le hright hsp hlinked hne
      (not_mem_of_sublist hp' hcs) (not_mem_of_sublist hri hcs) hcsapart).mono
    · rintro _ w₁ ⟨htouch₁, hleft₁, hleftLinked₁, hright₁, hrightLinked₁⟩
      have hsub : (t :: cs.drop (sp + 1)).Sublist (t :: cs) := (List.drop_sublist _ _).cons_cons _
      have hinsert := @insertPromoted_spec K V h ri (i - (sp + 1)) (cs.drop (sp + 1)) t w₁ none
        (es.drop (sp + 1)) kv hright₁ ?_ ?_ ?_ hrightLinked₁ (hfresh hfloat w₁ htouch₁)
        (not_mem_of_sublist hri hsub) (Apart.sublist hapart hsub)
      · rw [Body.meets_bind]
        apply hinsert.mono
        · rintro _ w₂ ⟨htouch₂, hright₂, hrightLinked₂⟩
          have hidx : i - (sp + 1) + 1 = i + 1 - (sp + 1) := by omega
          rw [hidx, ← drop_insertIdx_of_le (Nat.succ_le_succ (Nat.le_of_succ_le hle)) (by omega),
            ← drop_insertIdx_of_le hle hi] at hright₂
          rw [hidx, ← drop_insertIdx_of_le (Nat.succ_le_succ (Nat.le_of_succ_le hle)) (by omega)]
            at hrightLinked₂
          refine ⟨?_, (htouch₁.mono ?_).trans (htouch₂.mono ?_), ⟨?_, ?_, hright₂, hrightLinked₂⟩⟩
          · rw [List.getElem?_insertIdx_of_lt (by omega)]
            exact hread
          · intro q hq
            simp only [List.map_cons, List.mem_cons] at hq ⊢
            exact hq.imp_right fun hq => hq.imp_right .inr
          · intro q hq
            rcases List.mem_cons.mp hq with rfl | hq
            · exact List.mem_cons_of_mem _ List.mem_cons_self
            · exact List.mem_cons_of_mem _ (List.mem_cons_of_mem _ ((hsub.map _).mem hq))
          · rw [List.take_insertIdx_eq_take_of_le _ _ _ _ (Nat.le_of_succ_le hle),
              List.take_insertIdx_eq_take_of_le _ _ _ _ (by omega)]
            apply htouch₂.shown _ hleft₁
            intro hmem
            rcases List.mem_cons.mp hmem with heq | hmem
            · exact hne heq
            · exact not_mem_of_sublist hp' hsub (mem_flatMap_of_mem_map hmem)
          · rw [List.take_insertIdx_eq_take_of_le _ _ _ _ (by omega)]
            apply hleftLinked₁.touched htouch₂
            apply Apart.untouched hapart hri (List.take_sublist _ _)
            exact fun q hq => hcsapart.take_drop hq
        · intro _ _ h
          exact h
      · rw [List.length_drop, List.length_drop]
        omega
      · rw [List.length_drop]
        omega
      · rw [List.length_drop]
        omega
    · intro _ _ h
      exact h

end Rustyfill.BTree
