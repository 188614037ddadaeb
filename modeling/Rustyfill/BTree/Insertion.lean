import Rustyfill.BTree.Reserve
import Rustyfill.BTree.Splits

/-!
# Insertion into a full leaf

The plan, the reserve and the commit together: what a run asks of the allocator and in which
order, what it leaves behind when it is refused, and the tree it ends with.
-/

namespace Rustyfill.BTree

open RawSlots Guarded Separated

set_option autoImplicit false

variable {K V : Type} {w w' : World K V} {p ri i : Nat} {link : Option (Nat × Nat)}
  {es : List (K × V)} {fs : List (Frame K V)} {l : Tree K V} {kv : K × V} {key : K} {value : V}

/-! ## The leaf -/

/-- The handle `r` is to the entry `kv` of one of the leaves. -/
def PointsTo (r : NodeRef × Nat) (kv : K × V) (leaves : List (Tree K V)) : Prop :=
  ∃ leaf ∈ leaves, r.1 = ⟨0, leaf.addr⟩ ∧ leaf.entries[r.2]? = some kv

theorem splitLeaf_spec (hshown : Shown w.heap p ⟨link, es, none⟩) (hfull : es.length = capacity)
    (hright : Shown w.heap ri ⟨none, [], none⟩) (hi : i ≤ es.length) (hne : p ≠ ri) :
    ∃ m promoted, 5 ≤ m ∧ m ≤ 6 ∧ m = cutAt i ∧ es[(splitpoint i).1]? = some promoted ∧
      (es.insertIdx i kv)[m]? = some promoted ∧
      PointsTo (⟨0, if (splitpoint i).2.isRight then ri else p⟩, (splitpoint i).2.idx) kv
        [⟨p, (es.insertIdx i kv).take m, []⟩, ⟨ri, (es.insertIdx i kv).drop (m + 1), []⟩] ∧
      (do
        copyRightHalfLeaf p ri (splitpoint i).1
        leafSliceInsert (if (splitpoint i).2.isRight then ri else p) (splitpoint i).2.idx
          kv.1 kv.2).Meets w
        (fun _ w' => Touches [p, ri] w w' ∧
          Shown w'.heap p ⟨link, (es.insertIdx i kv).take m, none⟩ ∧
          Shown w'.heap ri ⟨none, (es.insertIdx i kv).drop (m + 1), none⟩)
        (fun _ _ => False) := by
  rw [capacity] at hfull
  obtain ⟨sp, ⟨hsplit, hle, hlow, hhigh⟩ | ⟨hsplit, hle, hlow, hhigh⟩⟩ :=
    splitpoint_cases (i := i) (by rw [capacity]; omega)
  · -- The new entry comes before the promoted one.
    have hsp : sp < es.length := by omega
    have hread : es[sp]? = some es[sp] := List.getElem?_eq_getElem hsp
    refine ⟨sp + 1, es[sp], by omega, by omega, by rw [cutAt, hsplit]; rfl, ?_, ?_, ?_, ?_⟩
    · rw [hsplit]
      exact hread
    · rw [List.getElem?_insertIdx_of_gt (by omega)]
      exact hread
    · refine ⟨_, List.mem_cons_self, ?_, ?_⟩
      · rw [hsplit]
        rfl
      · rw [hsplit]
        change ((es.insertIdx i kv).take (sp + 1))[i]? = some kv
        rw [List.getElem?_take_of_lt (by omega), List.getElem?_insertIdx_self, if_pos (by omega)]
    · rw [hsplit, Body.meets_bind]
      apply (copyRightHalfLeaf_spec hne hshown hright hsp.le (by rw [hfull, capacity])).mono
      · rintro _ w₁ ⟨htouch₁, hleft₁, hright₁⟩
        have hlen : (es.take sp).length = sp := List.length_take_of_le hsp.le
        have hfits : i ≤ (es.take sp).length := hlen.symm ▸ hle
        have hroom : (es.take sp).length < capacity := by rw [hlen, capacity]; omega
        apply (leafSliceInsert_spec hleft₁ hfits hroom).mono
        · rintro _ w₂ ⟨htouch₂, hleft₂⟩
          refine ⟨htouch₁.trans (htouch₂.mono ?_), ?_, ?_⟩
          · intro q hq
            exact List.mem_cons.mpr (.inl (List.mem_singleton.mp hq))
          · rw [take_insertIdx hle]
            exact hleft₂
          · rw [drop_insertIdx (by omega)]
            exact htouch₂.shown (by simpa using hne.symm) hright₁
        · intro _ _ h
          exact h
      · intro _ _ h
        exact h
  · -- The new entry comes after the promoted one.
    have hsp : sp < es.length := by omega
    have hread : es[sp]? = some es[sp] := List.getElem?_eq_getElem hsp
    refine ⟨sp, es[sp], by omega, by omega, by rw [cutAt, hsplit]; rfl, ?_, ?_, ?_, ?_⟩
    · rw [hsplit]
      exact hread
    · rw [List.getElem?_insertIdx_of_lt (by omega)]
      exact hread
    · refine ⟨_, .tail _ List.mem_cons_self, ?_, ?_⟩
      · rw [hsplit]
        rfl
      · rw [hsplit]
        change ((es.insertIdx i kv).drop (sp + 1))[i - (sp + 1)]? = some kv
        rw [List.getElem?_drop, Nat.add_sub_cancel' hle, List.getElem?_insertIdx_self,
          if_pos (by omega)]
    · rw [hsplit, Body.meets_bind]
      apply (copyRightHalfLeaf_spec hne hshown hright hsp.le (by rw [hfull, capacity])).mono
      · rintro _ w₁ ⟨htouch₁, hleft₁, hright₁⟩
        have hfits : i - (sp + 1) ≤ (es.drop (sp + 1)).length := by rw [List.length_drop]; omega
        have hroom : (es.drop (sp + 1)).length < capacity := by
          rw [List.length_drop, capacity]
          omega
        apply (leafSliceInsert_spec hright₁ hfits hroom).mono
        · rintro _ w₂ ⟨htouch₂, hright₂⟩
          refine ⟨htouch₁.trans (htouch₂.mono ?_), ?_, ?_⟩
          · intro q hq
            exact .tail _ (List.mem_singleton.mpr (List.mem_singleton.mp hq))
          · rw [List.take_insertIdx_eq_take_of_le _ _ _ _ (Nat.le_of_succ_le hle)]
            exact htouch₂.shown (by simpa using hne) hleft₁
          · rw [drop_insertIdx_of_le hle hi]
            exact hright₂
        · intro _ _ h
          exact h
      · intro _ _ h
        exact h

/-! ## The commit -/

theorem commitSplit_spec {c : Nat} {reserved : List Nat} (hl : Tree.Holds w.heap 0 link l)
    (hpath : Path.Holds w.heap 0 link l.addr fs) (hshaped : Path.Shaped 0 fs)
    (hfull : l.entries.length = capacity) (hi : i ≤ l.entries.length)
    (hleaf : Shown w.heap ri ⟨none, [], none⟩) (hfresh : ∀ r ∈ reserved, Fresh w.heap r)
    (hnodup : (l.addr :: ri :: (Path.addrs 0 fs ++ reserved)).Nodup)
    (hroot : w.map.root = some ⟨fs.length, (Path.plug fs l).addr⟩)
    (hreserved : reserved.length = needed fs) :
    (commitSplit ⟨l.addr, (splitpoint i).1, (splitpoint i).2.isRight, (splitpoint i).2.idx,
      ⟨c, planOf fs⟩, grows fs⟩ ri reserved key value).Meets w
      (fun r w' => (∃ H t, Committed w w'
        (Path.around 0 fs (l.entries.insertIdx i (key, value)))
        (l.addr :: ri :: (Path.addrs 0 fs ++ reserved)) (fun _ => False) H t ∧
        PointsTo r (key, value) (t.leaves H)) ∧
        SplitAt w' l.addr ri (splitpoint i).1 (splitpoint i).2.isRight ∧
        SplitsMade w' (planOf fs) reserved)
      (fun _ _ => False) := by
  obtain ⟨hnot, hnodup'⟩ := List.nodup_cons.mp hnodup
  obtain ⟨hnot', -⟩ := List.nodup_cons.mp hnodup'
  have hne : l.addr ≠ ri := fun heq => hnot (heq ▸ List.mem_cons_self)
  obtain ⟨m, promoted, hlow, hhigh, hcut, hread, hpromoted, hpoints, hsplit⟩ :=
    @splitLeaf_spec K V w l.addr ri i link l.entries (key, value) hl hfull hleaf hi hne
  generalize hes : l.entries.insertIdx i (key, value) = es at *
  have hlength : es.length = 12 := by
    rw [← hes, List.length_insertIdx_of_le_length hi, hfull, capacity]
  rw [Body.meets_bind] at hsplit
  rw [commitSplit, Body.meets_bind, readKeyValue_meets hl hread, Body.meets_bind]
  apply hsplit.mono
  · intro _ w₁ hinsert
    rw [Body.meets_bind]
    apply hinsert.mono
    · rintro _ w₂ ⟨htouch, hleft, hright⟩
      have hapart : ∀ q ∈ Path.addrs 0 fs ++ reserved, q ∉ [l.addr, ri] := by
        intro q hq hmem
        rcases List.mem_cons.mp hmem with rfl | hmem
        · exact hnot (.tail _ hq)
        · obtain rfl := List.mem_singleton.mp hmem
          exact hnot' hq
      have hp : Pending w₂ 0 link fs ⟨l.addr, es.take m, []⟩ ⟨ri, es.drop (m + 1), []⟩ reserved := {
        left := hleft
        right := ⟨none, hright⟩
        path := hpath.touched htouch fun q hq => hapart q (List.mem_append_left _ hq)
        leftShaped := by
          refine ⟨?_, ?_⟩
          · rw [List.length_take]
            omega
          · rw [List.length_take, capacity]
            omega
        rightShaped := by
          refine ⟨?_, ?_⟩
          · rw [List.length_drop]
            omega
          · rw [List.length_drop, capacity]
            omega
        pathShaped := hshaped
        nodup := hnodup
        fresh := fun r hr =>
          htouch.shown (hapart r (List.mem_append_right _ hr)) (hfresh r hr)
        root := by
          obtain ⟨ps, hps⟩ := htouch.rest
          have htop : (Path.plug fs ⟨l.addr, es.take m, []⟩).addr = (Path.plug fs l).addr :=
            Path.plug_addr rfl
          rw [hps, hroot, htop, Nat.zero_add]
        reserved := hreserved }
      have hmade : SplitAt w₂ l.addr ri (splitpoint i).1 (splitpoint i).2.isRight := by
        apply splitAt_cut (Nat.le_trans hi hfull.le) hleft hright
        · rw [List.length_take, ← hcut]
          omega
        · rw [List.length_drop, ← hcut, hlength, capacity]
          omega
      have hkept := LenKept.promote_planOf (grows fs)
        (if (splitpoint i).2.isRight then ri else l.addr) (splitpoint i).2.idx 0 fs reserved
        ⟨0, l.addr⟩ ⟨0, ri⟩ promoted w₂
      apply ((promote_commits hp).and ((promote_splits hp).and hkept)).mono
      · rintro r w₃ ⟨⟨rfl, H, t, hcommitted⟩, hsplits, hkept⟩
        refine ⟨?_, hmade.kept hkept (fun hmem => hnot (.tail _ hmem)) hnot', hsplits⟩
        have hwhole : es.take m ++ promoted :: es.drop (m + 1) = es := by
          obtain ⟨hm, rfl⟩ := List.getElem?_eq_some_iff.mp hpromoted
          rw [← List.drop_eq_getElem_cons, List.take_append_drop]
        rw [Tree.inorder, Tree.inorder, hwhole] at hcommitted
        refine ⟨H, t, hcommitted.trans htouch (.refl _) ?_ fun _ hl => hl.elim, ?_⟩
        · intro q hq
          rcases List.mem_cons.mp hq with rfl | hq
          · exact List.mem_cons_self
          · obtain rfl := List.mem_singleton.mp hq
            exact .tail _ List.mem_cons_self
        · obtain ⟨leaf, hleaf, hat⟩ := hpoints
          refine ⟨leaf, hcommitted.leaves leaf ?_, hat⟩
          simpa [Tree.leaves] using hleaf
      · rintro _ _ ⟨h, -⟩
        exact h
    · intro _ _ h
      exact h
  · intro _ _ h
    exact h

/-! ## The whole run -/

/-- The map is the tree `t`, and no address was given out that is not below `next`. -/
structure OnHeap (w : World K V) (H : Nat) (t : Tree K V) : Prop where
  root : w.map.root = some ⟨H, t.addr⟩
  holds : Tree.Holds w.heap H none t
  shaped : Tree.Shaped H 0 t
  nodup : (t.addrs H).Nodup
  beyond : ∀ q, w.next ≤ q → w.heap q = none

theorem OnHeap.lt_next {H : Nat} {t : Tree K V} (hw : OnHeap w H t) {q : Nat}
    (hq : q ∈ t.addrs H) : q < w.next := by
  apply Nat.lt_of_not_le
  intro hle
  exact hw.holds.allocated q hq (hw.beyond q hle)

/-- The entry `kv` was put where `r` says, and the sequence of the map is now `seq`. -/
def Inserted (w w' : World K V) (seq : List (K × V)) (kv : K × V) (r : NodeRef × Nat) : Prop :=
  w'.map.length = w.map.length + 1 ∧ ∃ H t, OnHeap w' H t ∧ t.inorder H = seq ∧
    PointsTo r kv (t.leaves H)

/-- All requests come before the first write to a node. -/
def RequestsFirst (w w' : World K V) : Prop :=
  ∃ (gs : List Bool) (ps : List Nat),
    w'.events = w.events ++ gs.map Event.request ++ ps.map Event.write

section
variable {gs : List Bool} {leaf : Nat} {reserved : List Nat}

/-- The commit with the nodes of the reserve. All of them are in the tree at the end. -/
theorem Planned.committed {c : Nat} (hp : Planned w w' gs [leaf] reserved)
    (hw : OnHeap w fs.length (Path.plug fs l)) (hfull : l.entries.length = capacity)
    (hi : i ≤ l.entries.length) (hreserved : reserved.length = needed fs) :
    (commitSplit ⟨l.addr, (splitpoint i).1, (splitpoint i).2.isRight, (splitpoint i).2.idx,
      ⟨c, planOf fs⟩, grows fs⟩ leaf reserved key value).Meets w'
      (fun r w'' => RequestsFirst w w'' ∧ w''.map.length = w.map.length + 1 ∧
        (∃ H t, OnHeap w'' H t ∧
          (t.addrs H).Perm (Tree.addrs fs.length (Path.plug fs l) ++ leaf :: reserved) ∧
          t.inorder H = Path.around 0 fs (l.entries.insertIdx i (key, value)) ∧
          PointsTo r (key, value) (t.leaves H)) ∧
        SplitAt w'' l.addr leaf (splitpoint i).1 (splitpoint i).2.isRight ∧
        SplitsMade w'' (planOf fs) reserved)
      (fun _ _ => False) := by
  obtain ⟨link, hl, hpath⟩ := Path.Holds.unplug (Nat.zero_add _) hw.holds
  have hshaped := (Path.Shaped.unplug (Nat.zero_add _) hw.shaped).2
  have haddrs : (Tree.addrs fs.length (Path.plug fs l)).Perm (l.addr :: Path.addrs 0 fs) :=
    Path.addrs_plug (Nat.zero_add _)
  have hold : ∀ q ∈ l.addr :: Path.addrs 0 fs, q < w.next := fun q hq =>
    hw.lt_next (haddrs.mem_iff.mpr hq)
  have hapart : ∀ q ∈ l.addr :: Path.addrs 0 fs, q ∉ leaf :: reserved := fun q hq hmem =>
    Nat.not_le_of_lt (hold q hq) (hp.new q hmem).1
  have hperm : (l.addr :: leaf :: (Path.addrs 0 fs ++ reserved)).Perm
      ((l.addr :: Path.addrs 0 fs) ++ leaf :: reserved) :=
    (List.perm_middle.symm).cons l.addr
  have hnodup : (l.addr :: leaf :: (Path.addrs 0 fs ++ reserved)).Nodup := by
    rw [hperm.nodup_iff, List.nodup_append]
    refine ⟨haddrs.nodup_iff.mp hw.nodup, hp.nodup, ?_⟩
    intro q hq r hr heq
    exact hapart q hq (heq ▸ hr)
  have htouched : ∀ q, q ∉ leaf :: reserved → w'.heap q = w.heap q := fun q hq => hp.heap q hq
  have hl' : Tree.Holds w'.heap 0 link l := hl.frame fun q hq =>
    htouched q (hapart q (List.mem_cons.mpr (.inl (List.mem_singleton.mp hq))))
  have hpath' : Path.Holds w'.heap 0 link l.addr fs := hpath.frame fun q hq =>
    htouched q (hapart q (.tail _ hq))
  apply (commitSplit_spec hl' hpath' hshaped hfull hi (hp.leaf leaf List.mem_cons_self)
    hp.internal hnodup (by rw [hp.map, hw.root]) hreserved).mono
  · rintro r w'' ⟨⟨H, t, hcommitted, hpoints⟩, hsplits⟩
    obtain ⟨ps, hps⟩ := hcommitted.rest
    have hmap : w''.map = ⟨some ⟨H, t.addr⟩, w.map.length + 1⟩ := by rw [hps, hp.map]
    have hnext : w''.next = w'.next := by rw [hps]
    refine ⟨⟨gs, ps, ?_⟩, by rw [hmap], ⟨H, t, ⟨by rw [hmap], hcommitted.holds,
      hcommitted.shaped, hcommitted.addrs.nodup_iff.mpr hnodup, ?_⟩,
      (hcommitted.addrs.trans hperm).trans (haddrs.symm.append_right _), hcommitted.inorder,
      hpoints⟩, hsplits⟩
    · rw [hps, hp.events]
    · intro q hq
      rw [hnext] at hq
      rw [hcommitted.frame q, hp.beyond q hq]
      intro hmem
      have hlt : q < w'.next := by
        rcases List.mem_cons.mp hmem with rfl | hmem
        · exact Nat.lt_of_lt_of_le (hold _ List.mem_cons_self) hp.next
        · rcases List.mem_cons.mp hmem with rfl | hmem
          · exact (hp.new _ List.mem_cons_self).2
          · rcases List.mem_append.mp hmem with hmem | hmem
            · exact Nat.lt_of_lt_of_le (hold q (.tail _ hmem)) hp.next
            · exact (hp.new q (.tail _ hmem)).2
      exact Nat.not_le_of_lt hlt hq
  · intro _ _ h
    exact h

theorem Planned.commits {c : Nat} (hp : Planned w w' gs [leaf] reserved)
    (hw : OnHeap w fs.length (Path.plug fs l)) (hfull : l.entries.length = capacity)
    (hi : i ≤ l.entries.length) (hreserved : reserved.length = needed fs) :
    (commitSplit ⟨l.addr, (splitpoint i).1, (splitpoint i).2.isRight, (splitpoint i).2.idx,
      ⟨c, planOf fs⟩, grows fs⟩ leaf reserved key value).Meets w'
      (fun r w'' => RequestsFirst w w'' ∧
        Inserted w w'' (Path.around 0 fs (l.entries.insertIdx i (key, value))) (key, value) r)
      (fun _ _ => False) := by
  apply (hp.committed hw hfull hi hreserved).mono
  · rintro r w'' ⟨hfirst, hlen, ⟨H, t, hheap, -, hinorder, hpoints⟩, -⟩
    exact ⟨hfirst, hlen, H, t, hheap, hinorder, hpoints⟩
  · intro _ _ h
    exact h

end

/-- How many requests the plan and the reserve make when none is refused. -/
def planRequests (w : World K V) (fs : List (Frame K V)) : Nat :=
  asksFor (w.cached .probe) (planOf fs).length + 1 + asksFor (w.cached .reserved) (needed fs) +
    needed fs

/-- They are all granted, and the one after them, for the list of the reserved nodes, is
refused. -/
def Strikes (w : World K V) (fs : List (Frame K V)) : Prop :=
  0 < needed fs ∧
    (∀ k < planRequests w fs, w.allocator.grants (w.allocator.requests + k) = true) ∧
    w.allocator.grants (w.allocator.requests + planRequests w fs) = false

def Refuses (a : Allocator) : Prop := ∃ k, a.grants (a.requests + k) = false

structure HandsBack (w : World K V) (key : K) (value : V) (e : Exit K V) (w' : World K V) :
    Prop where
  error : ∃ err, e = .error key value err
  heap : w'.heap = w.heap
  map : w'.map = w.map
  requestsFirst : RequestsFirst w w'

/-- How a run ends early. -/
def Fails (w : World K V) (fs : List (Frame K V)) (key : K) (value : V) (e : Exit K V)
    (w' : World K V) : Prop :=
  Refuses w.allocator ∧
    (Strikes w fs ∧ e = .fault .abort ∨ ¬ Strikes w fs ∧ HandsBack w key value e w')

section
variable {gs : List Bool} {leaves internals : List Nat}

/-- The last request was refused, and nothing is left of what was allocated. -/
theorem Planned.handsBack {err : AllocError} (hp : Planned w w' (gs ++ [false]) [] [])
    (hlt : gs.length < planRequests w fs) :
    Fails w fs key value (.error key value err) w' := by
  have hrefused : w.allocator.grants (w.allocator.requests + gs.length) = false := by
    apply hp.grants
    rw [List.getElem?_append_right (Nat.le_refl _), Nat.sub_self]
    rfl
  refine ⟨⟨_, hrefused⟩, .inr ⟨?_, ⟨err, rfl⟩, ?_, hp.map, gs ++ [false], [], ?_⟩⟩
  · rintro ⟨-, hall, -⟩
    rw [hall _ hlt] at hrefused
    cases hrefused
  · funext q
    exact hp.heap q (fun hq => by cases hq)
  · rw [hp.events, List.map_nil, List.append_nil]

theorem Planned.freed_handsBack {err : AllocError} {leaf : Nat}
    (hbeyond : ∀ q, w.next ≤ q → w.heap q = none) (hp : Planned w w' (gs ++ [false]) [leaf] [])
    (hlt : gs.length < planRequests w fs) (c : Option Nat) :
    Fails w fs key value (.error key value err) ((w'.freed leaf).cache .probe c) :=
  ((hp.freed hbeyond (.refl _) (fun _ hr => by cases hr) fun _ hr => by cases hr).cache).handsBack
    hlt

theorem drainToPointers_meets {buf : Buf Nat} (hp : Planned w w' gs leaves buf.items) :
    (drainToPointers buf).Meets w'
      (fun r w'' => r = (buf.items, { buf with items := [] }) ∧
        Planned w w'' (gs ++ List.replicate (min 1 buf.items.length) true) leaves buf.items)
      (fun e w'' => e = .fault .abort ∧ 0 < buf.items.length ∧
        Planned w w'' (gs ++ [false]) leaves buf.items) := by
  rw [drainToPointers]
  by_cases hpos : 0 < buf.items.length
  · have hw := hp.asked
    rw [if_pos hpos, Body.meets_bind, request_meets, Nat.min_eq_left hpos]
    generalize hg : w'.allocator.request.1 = g at hw
    cases g with
    | true => exact ⟨rfl, hw⟩
    | false => exact ⟨rfl, hpos, hw⟩
  · have hnil : buf.items = [] := List.eq_nil_of_length_eq_zero (Nat.eq_zero_of_not_pos hpos)
    rw [if_neg hpos]
    refine ⟨?_, ?_⟩
    · rw [← hnil]
    · rw [hnil, List.length_nil, Nat.min_zero, List.replicate_zero, List.append_nil, ← hnil]
      exact hp

end

theorem Inserted.cache {seq : List (K × V)} {r : NodeRef × Nat} (h : Inserted w w' seq kv r)
    (b : Scratch) (c : Option Nat) : Inserted w (w'.cache b c) seq kv r := by
  obtain ⟨hlen, H, t, hw, hseq, hpoints⟩ := h
  exact ⟨hlen, H, t, { hw with }, hseq, hpoints⟩

theorem Planned.drained {gs : List Bool} {leaf : Nat} {buf : Buf Nat}
    (hp : Planned w w' gs [leaf] buf.items) (hw : OnHeap w fs.length (Path.plug fs l))
    (hfull : l.entries.length = capacity) (hi : i ≤ l.entries.length)
    (hlen : buf.items.length = needed fs) (hgs : gs = List.replicate (planRequests w fs) true)
    (c : Nat) : (do
      let (reservedPtrs, reserveBuf) ← drainToPointers buf
      let inserted ← commitSplit ⟨l.addr, (splitpoint i).1, (splitpoint i).2.isRight,
        (splitpoint i).2.idx, ⟨c, planOf fs⟩, grows fs⟩ leaf reservedPtrs key value
      Buf.recycle .probe (⟨c, planOf fs⟩ : Buf CommitInternal)
      dropReserved reserveBuf
      return inserted).Meets w'
      (fun r w' => ¬ Strikes w fs ∧ RequestsFirst w w' ∧
        Inserted w w' (Path.around 0 fs (l.entries.insertIdx i (key, value))) (key, value) r)
      (Fails w fs key value) := by
  have hgranted : ∀ k < planRequests w fs,
      w.allocator.grants (w.allocator.requests + k) = true := by
    intro k hk
    apply hp.grants
    rw [hgs, List.getElem?_replicate_of_lt hk]
  rw [Body.meets_bind]
  apply (drainToPointers_meets hp).mono
  · rintro r w₁ ⟨rfl, hp₁⟩
    dsimp only
    rw [Body.meets_bind]
    apply (hp₁.commits hw hfull hi hlen).mono
    · rintro r w₂ ⟨hfirst, hinserted⟩
      refine ⟨?_, hfirst, (hinserted.cache _ _).cache _ _⟩
      rintro ⟨hpos, -, hrefused⟩
      have hlast : w.allocator.grants (w.allocator.requests + planRequests w fs) = true := by
        apply hp₁.grants
        rw [hgs, hlen, Nat.min_eq_left hpos, List.getElem?_append_right (by simp),
          List.length_replicate, Nat.sub_self]
        rfl
      rw [hlast] at hrefused
      cases hrefused
    · intro _ _ h
      exact h.elim
  · rintro e w₁ ⟨rfl, hpos, hp₁⟩
    have hrefused : w.allocator.grants (w.allocator.requests + planRequests w fs) = false := by
      apply hp₁.grants
      rw [hgs, List.getElem?_append_right (by simp), List.length_replicate, Nat.sub_self]
      rfl
    exact ⟨⟨_, hrefused⟩, .inl ⟨⟨hlen ▸ hpos, hgranted, hrefused⟩, rfl⟩⟩

theorem tryInsertWithSplit_spec (hw : OnHeap w fs.length (Path.plug fs l))
    (hfull : l.entries.length = capacity) (hi : i ≤ l.entries.length) :
    (tryInsertWithSplit ⟨⟨0, l.addr⟩, i⟩ key value).Meets w
      (fun r w' => ¬ Strikes w fs ∧ RequestsFirst w w' ∧
        Inserted w w' (Path.around 0 fs (l.entries.insertIdx i (key, value))) (key, value) r)
      (Fails w fs key value) := by
  obtain ⟨link, hl, hpath⟩ := Path.Holds.unplug (Nat.zero_add _) hw.holds
  rw [tryInsertWithSplit, Body.meets_bind]
  apply (build_spec (Planned.refl hw.beyond) hl hpath ⟨_, hw.root⟩).mono
  · rintro (err | plan) w₁ ⟨hcached₁, hplan⟩
    · exact hplan.2.handsBack (by rw [planRequests, hplan.1, List.length_nil]; omega)
    · obtain ⟨⟨c, rfl⟩, hp₁⟩ := hplan
      dsimp only
      rw [Body.meets_bind]
      apply (tryNewLeafBox_spec hp₁).mono
      · rintro (err | leaf) w₂ ⟨hcached₂, hp₂⟩
        · apply (hp₂.cache).handsBack
          rw [planRequests, List.length_append, List.length_replicate, List.length_nil]
          omega
        · have hreserved : (CommitPlan.mk l.addr (splitpoint i).1 (splitpoint i).2.isRight
              (splitpoint i).2.idx ⟨c, planOf fs⟩ (grows fs)).numReserved = needed fs :=
            planOf_splits fs
          dsimp only
          rw [hreserved, Body.meets_bind]
          apply (tryNew_spec hp₂).mono
          · rintro (err | buf) w₃ ⟨-, -, hbuf⟩
            · apply hbuf.2.freed_handsBack hw.beyond _ (some c)
              rw [hcached₂, hcached₁] at hbuf
              rw [planRequests, hbuf.1, List.length_append, List.length_append,
                List.length_replicate, List.length_nil, List.length_singleton]
              omega
            · obtain ⟨hroom, hempty, hp₃⟩ := hbuf
              rw [hcached₂, hcached₁] at hp₃
              have hfits : buf.items.length + needed fs ≤ buf.capacity := by
                rwa [hempty, List.length_nil, Nat.zero_add]
              dsimp only
              rw [Body.meets_bind]
              have hbuf : Planned w w₃ ([] ++ List.replicate
                  (asksFor (w.cached .probe) (planOf fs).length) true ++ [true] ++
                  List.replicate (asksFor (w.cached .reserved) (needed fs)) true)
                  [leaf] buf.items := by
                rw [hempty]
                exact hp₃
              apply (reserveInternals_spec hfits hbuf).mono
              · rintro ⟨err | _, buf'⟩ w₄ hloop
                · obtain ⟨k, hk, hp₄⟩ := hloop
                  dsimp only
                  rw [Body.meets_bind]
                  apply (hp₄.dropReserved_meets hw.beyond).mono
                  · intro _ w₅ hp₅
                    apply hp₅.freed_handsBack hw.beyond _ (some c)
                    simp only [planRequests, List.length_append, List.length_replicate,
                      List.length_nil, List.length_singleton]
                    omega
                  · intro _ _ h
                    exact h.elim
                · obtain ⟨hlen, hp₄⟩ := hloop
                  rw [hempty, List.length_nil, Nat.zero_add] at hlen
                  have hgs : [] ++ List.replicate (asksFor (w.cached .probe) (planOf fs).length)
                      true ++ [true] ++ List.replicate (asksFor (w.cached .reserved) (needed fs))
                      true ++ List.replicate (needed fs) true =
                      List.replicate (planRequests w fs) true := by
                    rw [List.nil_append, ← List.replicate_one, ← List.replicate_add,
                      ← List.replicate_add, ← List.replicate_add, planRequests]
                  exact Planned.drained hp₄ hw hfull hi hlen hgs c
              · intro _ _ h
                exact h.elim
          · intro _ _ h
            exact h.elim
      · intro _ _ h
        exact h.elim
  · intro _ _ h
    exact h.elim

/-! ## The planned run -/

/-- A split insertion succeeds or hands the pair back with the map as it was, and asks for nothing
once it has written to a node, exactly when the request that the plan leaves out is granted. -/
theorem split_hands_back_iff (w : World K V) (fs : List (Frame K V)) (l : Tree K V) (i : Nat)
    (key : K) (value : V) (hw : OnHeap w fs.length (Path.plug fs l))
    (hfull : l.entries.length = capacity) (hi : i ≤ l.entries.length) :
    (tryInsertWithSplit ⟨⟨0, l.addr⟩, i⟩ key value).Meets w (fun _ w' => RequestsFirst w w')
      (HandsBack w key value) ↔ ¬ Strikes w fs := by
  have hspec := @tryInsertWithSplit_spec K V w i fs l key value hw hfull hi
  constructor
  · intro hback hstrikes
    apply Body.not_meets_false
    apply (hback.and hspec).mono
    · intro r w' h
      exact h.2.1 hstrikes
    · rintro e w' ⟨hback, -, ⟨-, rfl⟩ | ⟨hnot, -⟩⟩
      · obtain ⟨err, herr⟩ := hback.error
        cases herr
      · exact hnot hstrikes
  · intro hnot
    apply hspec.mono
    · intro r w' h
      exact h.2.1
    · intro e w' h
      rcases h.2 with ⟨hstrikes, -⟩ | ⟨-, hback⟩
      · exact absurd hstrikes hnot
      · exact hback

/-- The keys `0` to `10`, in one leaf. -/
def fullLeaf : Tree Nat Nat := ⟨0, (List.range 11).map fun k => (k, k), []⟩

/-- A map with this leaf alone, and the buffers of the scratch empty. -/
def fullMap (grants : Nat → Bool) : World Nat Nat where
  heap p := if p = 0 then some ⟨none, none, 11, fun i => if i < 11 then some i else none,
    fun i => if i < 11 then some i else none, none⟩ else none
  next := 1
  map := ⟨some ⟨0, 0⟩, 11⟩
  allocator := ⟨grants, 0⟩
  cached _ := none
  events := []

theorem fullMap_onHeap (grants : Nat → Bool) : OnHeap (fullMap grants) 0 fullLeaf where
  root := rfl
  holds := by
    refine ⟨_, rfl, rfl, by simp, rfl, ?_, ?_, .none⟩
    · intro i hi
      simp_all [fullLeaf]
    · intro i hi
      simp_all [fullLeaf]
  shaped := ⟨Nat.zero_le _, Nat.le_refl _⟩
  nodup := List.nodup_singleton _
  beyond q hq := if_neg (Nat.ne_of_gt hq)

theorem split_hands_back_granted :
    (tryInsertWithSplit ⟨⟨0, 0⟩, 11⟩ 11 11).Meets (fullMap fun _ => true)
      (fun _ w' => RequestsFirst (fullMap fun _ => true) w')
      (HandsBack (fullMap fun _ => true) 11 11) :=
  (split_hands_back_iff (fullMap fun _ => true) [] fullLeaf 11 11 11 (fullMap_onHeap _) rfl
    (Nat.le_refl _)).mpr fun h => Bool.noConfusion h.2.2

/-- The leaf, the buffer and the new root are there, and the list of the reserved nodes, one in
number, is refused. -/
theorem reserved_list_aborts : ¬ ∀ (w : World Nat Nat) (fs : List (Frame Nat Nat))
    (l : Tree Nat Nat) (i key value : Nat), OnHeap w fs.length (Path.plug fs l) →
    l.entries.length = capacity → i ≤ l.entries.length →
    (tryInsertWithSplit ⟨⟨0, l.addr⟩, i⟩ key value).Meets w (fun _ w' => RequestsFirst w w')
      (HandsBack w key value) := by
  intro h
  have hback : HandsBack (fullMap (decide <| · < 3)) 11 11 (.fault .abort) _ :=
    h (fullMap (decide <| · < 3)) [] fullLeaf 11 11 11 (fullMap_onHeap _) rfl (Nat.le_refl _)
  obtain ⟨err, herr⟩ := hback.error
  cases herr

end Rustyfill.BTree
