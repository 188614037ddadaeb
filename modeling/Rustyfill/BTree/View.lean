import Rustyfill.BTree.Insert

/-!
# What a node shows

The initialised slots of a node are lists: its entries, and the edges of an internal node. Each
helper changes what the nodes it writes show, and touches no other node.
-/

namespace Rustyfill.BTree

open RawSlots Guarded

set_option autoImplicit false

/-- `parent` is the parent and the edge of it that leads here. -/
structure View (K V : Type) where
  parent : Option (Nat × Nat)
  entries : List (K × V)
  edges : Option (List Nat)

variable {K V : Type}

namespace Node

structure Shows (n : Node K V) (v : View K V) : Prop where
  parent : n.parent = v.parent.map Prod.fst
  parentIdx : ∀ link ∈ v.parent, n.parentIdx = some link.2
  len : n.len = v.entries.length
  keys : n.keys.Holds (v.entries.map Prod.fst)
  vals : n.vals.Holds (v.entries.map Prod.snd)
  edges : Option.Rel Slots.Holds n.edges v.edges

variable {n : Node K V} {v : View K V} {kv : K × V} {i : Nat}

theorem Shows.get (h : n.Shows v) (hi : i < v.entries.length) :
    n.keys i = some v.entries[i].1 ∧ n.vals i = some v.entries[i].2 := by
  constructor
  · rw [h.keys.get (by simpa using hi), List.getElem_map]
  · rw [h.vals.get (by simpa using hi), List.getElem_map]

theorem shows_newLeaf : (newLeaf : Node K V).Shows ⟨none, [], none⟩ where
  parent := rfl
  parentIdx := by simp
  len := rfl
  keys := Slots.holds_nil
  vals := Slots.holds_nil
  edges := .none

theorem shows_newInternal : (newInternal : Node K V).Shows ⟨none, [], some []⟩ where
  parent := rfl
  parentIdx := by simp
  len := rfl
  keys := Slots.holds_nil
  vals := Slots.holds_nil
  edges := .some Slots.holds_nil

/-! ## Insertion into a node -/

/-- The node with an entry at `idx`, the later ones shifted. -/
def inserted (n : Node K V) (idx : Nat) (kv : K × V) : Node K V :=
  { n with
    len := n.len + 1
    keys := (n.keys.copy idx n.keys (idx + 1) (n.len - idx)).write idx kv.1
    vals := (n.vals.copy idx n.vals (idx + 1) (n.len - idx)).write idx kv.2 }

theorem leafSliceInsert_eq (hi : i ≤ n.len) (hlen : n.len < capacity) :
    n.leafSliceInsert i kv.1 kv.2 = some (n.inserted i kv) := by
  simp only [capacity] at hlen
  have hwrite : i < 11 := by omega
  simp only [leafSliceInsert, shiftKeyValues, writeKeyValue, copyIn, writeIn, capacity, inserted]
  by_cases hlt : i < n.len
  · have hfrom : i + (n.len - i) ≤ 11 ∧ i + 1 + (n.len - i) ≤ 11 := by omega
    simp [hlt, hfrom, hwrite]
  · have hzero : n.len - i = 0 := by omega
    simp [hlt, hzero, hwrite]

theorem internalInsertFit_eq {edges : Slots Nat} {child : Nat} (hedges : n.edges = some edges)
    (hi : i ≤ n.len) (hlen : n.len < capacity) :
    n.internalInsertFit i kv.1 kv.2 child = some { n.inserted i kv with
      edges := some ((edges.copy (i + 1) edges (i + 2) (n.len - i)).write (i + 1) child) } := by
  simp only [capacity] at hlen
  have hwrite : i < 11 ∧ i + 1 < 12 := by omega
  simp only [internalInsertFit, shiftKeyValues, writeKeyValue, mapEdges, copyIn, writeIn, capacity,
    inserted, hedges]
  by_cases hlt : 0 < n.len - i
  · have hfrom : i + (n.len - i) ≤ 11 ∧ i + 1 + (n.len - i) ≤ 11 := by omega
    have hedge : i + 1 + (n.len - i) ≤ 12 ∧ i + 2 + (n.len - i) ≤ 12 := by omega
    simp [hlt, hfrom, hedge, hwrite]
  · have hzero : n.len - i = 0 := by omega
    simp [hzero, hwrite, hedges]

theorem Shows.inserted (h : n.Shows v) (hi : i ≤ v.entries.length) :
    (n.inserted i kv).Shows { v with entries := v.entries.insertIdx i kv } where
  parent := h.parent
  parentIdx := h.parentIdx
  len := by
    rw [List.length_insertIdx_of_le_length hi, ← h.len]
    rfl
  keys := by
    have hkeys := h.keys.insert (x := kv.1) (by simpa using hi)
    rw [List.length_map, ← h.len] at hkeys
    rwa [List.map_insertIdx]
  vals := by
    have hvals := h.vals.insert (x := kv.2) (by simpa using hi)
    rw [List.length_map, ← h.len] at hvals
    rwa [List.map_insertIdx]
  edges := h.edges

/-! ## The upper half of a node -/

theorem copyKeyValues_eq {r : Node K V} (hlen : n.len ≤ capacity) :
    ∃ r', n.copyKeyValues r i = some r' ∧ r'.parent = r.parent ∧ r'.parentIdx = r.parentIdx ∧
      r'.len = n.len - (i + 1) ∧ r'.edges = r.edges ∧
      r'.keys = n.keys.copy (i + 1) r.keys 0 (n.len - (i + 1)) ∧
      r'.vals = n.vals.copy (i + 1) r.vals 0 (n.len - (i + 1)) := by
  simp only [capacity] at hlen
  simp only [copyKeyValues, copyIn, capacity, Nat.sub_sub]
  by_cases hpos : 0 < n.len - (i + 1)
  · have hfrom : i + 1 + (n.len - (i + 1)) ≤ 11 ∧ n.len - (i + 1) ≤ 11 := by omega
    simp [hpos, hfrom]
  · have hzero : n.len - (i + 1) = 0 := by omega
    simp [hzero]

theorem Shows.copyKeyValues {r r' : Node K V} (h : n.Shows v) (hpar : r.parent = none)
    (hr : r'.parent = r.parent ∧ r'.parentIdx = r.parentIdx ∧ r'.len = n.len - (i + 1) ∧
      r'.edges = r.edges ∧ r'.keys = n.keys.copy (i + 1) r.keys 0 (n.len - (i + 1)) ∧
      r'.vals = n.vals.copy (i + 1) r.vals 0 (n.len - (i + 1)))
    {edges : Option (List Nat)} (hedges : Option.Rel Slots.Holds r'.edges edges) :
    r'.Shows ⟨none, v.entries.drop (i + 1), edges⟩ := by
  obtain ⟨hparent, -, hlen, -, hkeys, hvals⟩ := hr
  refine ⟨by rw [hparent, hpar]; rfl, by simp, ?_, ?_, ?_, hedges⟩
  · rw [hlen, h.len, List.length_drop]
  · have hdrop := h.keys.copy_drop (d := r.keys) (i := i + 1)
    rw [List.length_map, ← h.len] at hdrop
    rwa [hkeys, List.map_drop]
  · have hdrop := h.vals.copy_drop (d := r.vals) (i := i + 1)
    rw [List.length_map, ← h.len] at hdrop
    rwa [hvals, List.map_drop]

theorem Shows.truncated (h : n.Shows v) (hi : i ≤ v.entries.length) :
    ({ n with len := i } : Node K V).Shows { v with entries := v.entries.take i } where
  parent := h.parent
  parentIdx := h.parentIdx
  len := by
    rw [List.length_take]
    exact (Nat.min_eq_left hi).symm
  keys := by
    rw [List.map_take]
    exact h.keys.take
  vals := by
    rw [List.map_take]
    exact h.vals.take
  edges := h.edges

end Node

/-! ## The heap -/

def Shown (heap : Nat → Option (Node K V)) (p : Nat) (v : View K V) : Prop :=
  ∃ n, heap p = some n ∧ n.Shows v

/-- Only nodes in `S` are written, and nothing is requested. -/
structure Touches (S : List Nat) (w w' : World K V) : Prop where
  frame : ∀ p, p ∉ S → w'.heap p = w.heap p
  rest : ∃ ps : List Nat, w' =
    { w with heap := w'.heap, events := w.events ++ ps.map Event.write }

variable {w w' w'' : World K V} {S S' : List Nat} {p q : Nat} {n n' : Node K V} {v : View K V}

namespace Touches

theorem refl (S : List Nat) (w : World K V) : Touches S w w where
  frame _ _ := rfl
  rest := ⟨[], by simp⟩

theorem trans (h : Touches S w w') (h' : Touches S w' w'') : Touches S w w'' where
  frame p hp := (h'.frame p hp).trans (h.frame p hp)
  rest := by
    obtain ⟨ps, hps⟩ := h.rest
    obtain ⟨ps', hps'⟩ := h'.rest
    refine ⟨ps ++ ps', ?_⟩
    rw [hps', hps, List.map_append, List.append_assoc]

theorem mono (h : Touches S w w') (hS : ∀ p ∈ S, p ∈ S') : Touches S' w w' where
  frame p hp := h.frame p fun hmem => hp (hS p hmem)
  rest := h.rest

theorem wrote (p : Nat) (n : Node K V) : Touches [p] w (w.wrote p n) where
  frame _ hq := Function.update_of_ne (by simpa using hq) ..
  rest := ⟨[p], rfl⟩

theorem shown (h : Touches S w w') (hp : p ∉ S) (hv : Shown w.heap p v) : Shown w'.heap p v := by
  rw [Shown, h.frame p hp]
  exact hv

end Touches

theorem shown_wrote (h : n.Shows v) : Shown (w.wrote p n).heap p v :=
  ⟨n, Function.update_self .., h⟩

/-! ## What the routines on one node do -/

section
variable {R : Type} {Q : R → World K V → Prop} {E : Exit K V → World K V → Prop}

theorem deref_meets {Q : Node K V → World K V → Prop} (h : w.heap p = some n) :
    (deref p).Meets w Q E ↔ Q n w := by
  simp only [Body.Meets, deref, h]
  rfl

theorem orUndefined_meets {r : R} : (orUndefined (some r)).Meets w Q E ↔ Q r w := Iff.rfl

theorem modify_meets {f : Node K V → Option (Node K V)} {Q : Unit → World K V → Prop}
    (h : w.heap p = some n) (hf : f n = some n') :
    (modify p f).Meets w Q E ↔ Q () (w.wrote p n') := by
  rw [modify, Body.meets_bind, deref_meets h, Body.meets_bind, hf, orUndefined_meets]
  rfl

theorem modify_spec {f : Node K V → Option (Node K V)} {v' : View K V} (hv : Shown w.heap p v)
    (hf : ∀ n, n.Shows v → ∃ n', f n = some n' ∧ n'.Shows v') :
    (modify p f).Meets w (fun _ w' => Touches [p] w w' ∧ Shown w'.heap p v')
      (fun _ _ => False) := by
  obtain ⟨n, hn, hshows⟩ := hv
  obtain ⟨n', hn', hshows'⟩ := hf n hshows
  rw [modify_meets hn hn']
  exact ⟨.wrote p n', shown_wrote hshows'⟩

variable {i : Nat} {key : K} {val : V}

theorem leafSliceInsert_spec (hv : Shown w.heap p v) (hi : i ≤ v.entries.length)
    (hlen : v.entries.length < capacity) : (leafSliceInsert p i key val).Meets w
      (fun _ w' => Touches [p] w w' ∧
        Shown w'.heap p { v with entries := v.entries.insertIdx i (key, val) })
      (fun _ _ => False) := by
  apply modify_spec hv
  intro n hn
  rw [← hn.len] at hlen
  exact ⟨_, @Node.leafSliceInsert_eq _ _ _ (key, val) _ (by rwa [hn.len]) hlen, hn.inserted hi⟩

theorem internalInsertFit_spec {as : List Nat} {child : Nat} (hv : Shown w.heap p v)
    (hedges : v.edges = some as) (has : as.length = v.entries.length + 1)
    (hi : i ≤ v.entries.length) (hlen : v.entries.length < capacity) :
    (internalInsertFit p i key val child).Meets w
      (fun _ w' => Touches [p] w w' ∧ Shown w'.heap p
        ⟨v.parent, v.entries.insertIdx i (key, val), some (as.insertIdx (i + 1) child)⟩)
      (fun _ _ => False) := by
  apply modify_spec hv
  intro n hn
  have hrel := hn.edges
  rw [hedges] at hrel
  generalize hslots : n.edges = slots at hrel
  obtain ⟨hholds⟩ := hrel
  rename_i edges
  rw [← hn.len] at hlen
  refine ⟨_, @Node.internalInsertFit_eq _ _ _ (key, val) _ _ _ hslots (by rwa [hn.len]) hlen, ?_⟩
  have hins := @Node.Shows.inserted _ _ _ _ (key, val) _ hn hi
  refine ⟨hins.parent, hins.parentIdx, hins.len, hins.keys, hins.vals, .some ?_⟩
  have hedge := hholds.insert (x := child) (i := i + 1) (by omega)
  rwa [has, ← hn.len, Nat.add_sub_add_right] at hedge

theorem setParentLink_spec (hv : Shown w.heap p v) : (setParentLink p q i).Meets w
    (fun _ w' => Touches [p] w w' ∧ Shown w'.heap p { v with parent := some (q, i) })
    (fun _ _ => False) := by
  apply modify_spec hv
  intro n hn
  refine ⟨_, rfl, rfl, ?_, hn.len, hn.keys, hn.vals, hn.edges⟩
  intro link hlink
  cases hlink
  rfl

/-! ## Halving a node -/

variable {source right sp : Nat} {edges : Option (List Nat)}

/-- The upper half of one node is moved into another, and the first one is cut. -/
theorem halve_spec {f : Node K V → Node K V → Option (Node K V)} {right' source' : View K V}
    (hne : source ≠ right) (hs : Shown w.heap source v) (hr : ∃ r, w.heap right = some r ∧
      ∀ n, n.Shows v → ∃ r', f n r = some r' ∧ r'.Shows right')
    (hcut : ∀ n : Node K V, n.Shows v → ({ n with len := sp } : Node K V).Shows source') :
    (do
      let s ← deref source
      modify right fun r => f s r
      modify source fun s => some { s with len := sp }).Meets w
      (fun _ w' => Touches [source, right] w w' ∧ Shown w'.heap source source' ∧
        Shown w'.heap right right')
      (fun _ _ => False) := by
  obtain ⟨n, hn, hshows⟩ := hs
  obtain ⟨r, hr, hf⟩ := hr
  obtain ⟨r', hr', hright⟩ := hf n hshows
  have hn' : (w.wrote right r').heap source = some n := by
    rw [← hn]
    exact Function.update_of_ne hne ..
  have hsource : (fun s : Node K V => some { s with len := sp }) n = some { n with len := sp } :=
    rfl
  rw [Body.meets_bind, deref_meets hn, Body.meets_bind, modify_meets hr hr',
    modify_meets hn' hsource]
  refine ⟨?_, shown_wrote (hcut n hshows), r', ?_, hright⟩
  · apply ((Touches.wrote right r').mono _).trans ((Touches.wrote source _).mono _)
    · simp
    · simp
  · exact (Function.update_of_ne hne.symm ..).trans (Function.update_self ..)

theorem copyRightHalfLeaf_spec (hne : source ≠ right) (hs : Shown w.heap source v)
    (hr : Shown w.heap right ⟨none, [], none⟩) (hsp : sp ≤ v.entries.length)
    (hlen : v.entries.length ≤ capacity) : (copyRightHalfLeaf source right sp).Meets w
      (fun _ w' => Touches [source, right] w w' ∧
        Shown w'.heap source { v with entries := v.entries.take sp } ∧
        Shown w'.heap right ⟨none, v.entries.drop (sp + 1), none⟩)
      (fun _ _ => False) := by
  obtain ⟨r, hr, hshows⟩ := hr
  apply halve_spec hne hs
  · refine ⟨r, hr, fun n hn => ?_⟩
    obtain ⟨r', hr', hcopied⟩ := Node.copyKeyValues_eq (r := r) (i := sp) (hn.len ▸ hlen)
    refine ⟨r', hr', hn.copyKeyValues hshows.parent hcopied ?_⟩
    rw [hcopied.2.2.2.1]
    exact hshows.edges
  · intro n hn
    exact hn.truncated hsp

theorem copyRightHalfInternal_spec {as : List Nat} (hne : source ≠ right)
    (hs : Shown w.heap source v) (hedges : v.edges = some as)
    (has : as.length = v.entries.length + 1) (hr : Shown w.heap right ⟨none, [], some []⟩)
    (hsp : sp < v.entries.length) (hlen : v.entries.length ≤ capacity) :
    (copyRightHalfInternal source right sp).Meets w
      (fun _ w' => Touches [source, right] w w' ∧
        Shown w'.heap source ⟨v.parent, v.entries.take sp, some (as.take (sp + 1))⟩ ∧
        Shown w'.heap right ⟨none, v.entries.drop (sp + 1), some (as.drop (sp + 1))⟩)
      (fun _ _ => False) := by
  obtain ⟨r, hr, hshows⟩ := hr
  have hslots : ∀ n : Node K V, n.Shows v → ∃ edges, n.edges = some edges ∧ edges.Holds as := by
    intro n hn
    have hrel := hn.edges
    rw [hedges] at hrel
    generalize n.edges = slots at hrel
    obtain ⟨hholds⟩ := hrel
    exact ⟨_, rfl, hholds⟩
  apply halve_spec hne hs
  · refine ⟨r, hr, fun n hn => ?_⟩
    obtain ⟨r₁, hr₁, hcopied⟩ := Node.copyKeyValues_eq (r := r) (i := sp) (hn.len ▸ hlen)
    obtain ⟨edges, hn', hholds⟩ := hslots n hn
    have hrel := hshows.edges
    generalize hrslots : r.edges = slots at hrel
    obtain ⟨-⟩ := hrel
    rename_i redges
    have hcount : n.len - sp - 1 + 1 = as.length - (sp + 1) := by
      rw [hn.len]
      omega
    have hbounds : sp + 1 + (as.length - (sp + 1)) ≤ capacity + 1 ∧
        0 + (as.length - (sp + 1)) ≤ capacity + 1 := by omega
    have hcopy : copyIn (capacity + 1) edges (sp + 1) redges 0 (n.len - sp - 1 + 1) =
        some (edges.copy (sp + 1) redges 0 (as.length - (sp + 1))) := by
      rw [hcount, copyIn, if_pos hbounds]
    refine ⟨{ r₁ with edges := some (edges.copy (sp + 1) redges 0 (as.length - (sp + 1))) }, ?_,
      ?_⟩
    · simp only [hr₁, Node.copyEdges, hn', Node.mapEdges, hcopied.2.2.2.1, hrslots, hcopy,
        Option.bind_eq_bind, Option.bind_some, Option.pure_def]
    · have hempty : Option.Rel Slots.Holds r₁.edges (some []) := by
        rw [hcopied.2.2.2.1, hrslots]
        exact .some Slots.holds_nil
      have hright := hn.copyKeyValues hshows.parent hcopied hempty
      exact ⟨hright.parent, hright.parentIdx, hright.len, hright.keys, hright.vals,
        .some hholds.copy_drop⟩
  · intro n hn
    obtain ⟨edges, hn', hholds⟩ := hslots n hn
    have hcut := hn.truncated hsp.le
    refine ⟨hcut.parent, hcut.parentIdx, hcut.len, hcut.keys, hcut.vals, ?_⟩
    rw [hn']
    exact .some hholds.take

end

end Rustyfill.BTree
