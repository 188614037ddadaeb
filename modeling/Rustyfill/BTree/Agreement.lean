import Rustyfill.BTree.Insertion

/-!
# The plan and the commit agree

What the two passes of the probe say of the ancestors of a leaf, and what the commit makes of it:
it takes every node that was reserved, and splits where the plan says.
-/

namespace Rustyfill.BTree

open RawSlots Guarded Separated

set_option autoImplicit false

variable {K V : Type} {w : World K V} {fs : List (Frame K V)} {l : Tree K V} {i : Nat}

/-- What a promotion out of the node `p` comes to on its way up: full nodes, which split, and then
a node that has room, or the root. -/
inductive Climbs (heap : Nat → Option (Node K V)) : Nat → List CommitInternal → Bool → Prop where
  | root {p : Nat} {n : Node K V} : heap p = some n → n.parent = none → Climbs heap p [] true
  | room {p q i : Nat} {n m : Node K V} : heap p = some n → n.parent = some q →
      n.parentIdx = some i → heap q = some m → m.len < capacity →
      Climbs heap p [⟨q, i, false, none⟩] false
  | full {p q i : Nat} {n m : Node K V} {items : List CommitInternal} {newRoot : Bool} :
      heap p = some n → n.parent = some q → n.parentIdx = some i → heap q = some m →
      m.len = capacity → Climbs heap q items newRoot →
      Climbs heap p (⟨q, i, true, some (splitpoint i).1⟩ :: items) newRoot

theorem climbs_planOf {heap : Nat → Option (Node K V)} {h p : Nat} {link : Option (Nat × Nat)}
    {es : List (K × V)} {edges : Option (List Nat)} (hshown : Shown heap p ⟨link, es, edges⟩)
    (hfs : Path.Holds heap h link p fs) (hshaped : Path.Shaped h fs) :
    Climbs heap p (planOf fs) (grows fs) := by
  induction fs generalizing h p link es edges with
  | nil =>
    obtain ⟨n, hn, hshows⟩ := hshown
    have hlink : link = none := hfs
    subst hlink
    exact .root hn hshows.parent
  | cons f fs ih =>
    obtain ⟨rfl, link', hframe, -, -, hrest⟩ := hfs
    obtain ⟨n, hn, hshows⟩ := hshown
    obtain ⟨m, hm, hshows'⟩ := hframe
    have hparent : n.parent = some f.addr := hshows.parent
    have hidx : n.parentIdx = some f.idx := hshows.parentIdx _ rfl
    have hlen : m.len = f.entries.length := hshows'.len
    by_cases hroom : f.entries.length < capacity
    · rw [planOf, if_pos hroom, grows, if_pos hroom]
      exact .room hn hparent hidx hm (hlen ▸ hroom)
    · rw [planOf, if_neg hroom, grows, if_neg hroom]
      have hfull : m.len = capacity := by
        rw [hlen]
        exact Nat.le_antisymm hshaped.1.full (Nat.le_of_not_lt hroom)
      exact .full hn hparent hidx hm hfull (ih ⟨m, hm, hshows'⟩ hrest hshaped.2)

/-- The two passes see the same nodes, and the commit, given as many fresh nodes as the plan
counts, uses all of them up, makes the splits that are recorded and meets no fault. -/
structure Agrees (w : World K V) (H : Nat) (t : Tree K V) (leaf : Nat) (key : K) (value : V)
    (plan : CommitPlan) : Prop where
  counted : (countInternals (H + 1) ⟨0, leaf⟩ 0).Meets w
    (fun n _ => n = plan.internals.items.length) (fun _ _ => False)
  recorded : Climbs w.heap leaf plan.internals.items plan.newRoot
  consumed : ∀ gs node reserved w₁, Planned w w₁ gs [node] reserved →
    reserved.length = plan.numReserved →
      (commitSplit plan node reserved key value).Meets w₁
        (fun _ w₂ => (∃ H' t', OnHeap w₂ H' t' ∧
            (t'.addrs H').Perm (t.addrs H ++ node :: reserved)) ∧
          SplitAt w₂ leaf node plan.leafSp plan.insertRight ∧
          SplitsMade w₂ plan.internals.items reserved)
        (fun _ _ => False)

/-- The plan for an insertion into a full leaf agrees with the commit, and no run of the insertion
ends in a failed `expect`. -/
theorem plan_commit_agree (w : World K V) (fs : List (Frame K V)) (l : Tree K V) (i : Nat)
    (key : K) (value : V) (hw : OnHeap w fs.length (Path.plug fs l))
    (hfull : l.entries.length = capacity) (hi : i ≤ l.entries.length) :
    (CommitPlan.build ⟨⟨0, l.addr⟩, i⟩).Meets w
      (fun r _ => ∀ plan, r = .ok plan →
        Agrees w fs.length (Path.plug fs l) l.addr key value plan)
      (fun _ _ => False) ∧
    (tryInsertWithSplit ⟨⟨0, l.addr⟩, i⟩ key value).Meets w (fun _ _ => True)
      (fun e _ => ∀ msg, e ≠ .fault (.expect msg)) := by
  obtain ⟨link, hl, hpath⟩ := Path.Holds.unplug (Nat.zero_add _) hw.holds
  have hshaped := (Path.Shaped.unplug (Nat.zero_add _) hw.shaped).2
  constructor
  · apply (build_spec (i := i) (Planned.refl hw.beyond) hl.shown hpath ⟨_, hw.root⟩).mono
    · rintro r w₁ ⟨-, hr⟩ plan rfl
      obtain ⟨⟨c, rfl⟩, -⟩ := hr
      refine ⟨?_, climbs_planOf hl.shown hpath hshaped, ?_⟩
      · rw [countInternals_meets hl.shown hpath (Nat.lt_succ_self _)]
        exact Nat.zero_add _
      · intro gs node reserved w₂ hplanned hlen
        rw [CommitPlan.numReserved, planOf_splits] at hlen
        apply (hplanned.committed hw hfull hi hlen).mono
        · rintro r w₃ ⟨-, -, ⟨H, t, hheap, hperm, -⟩, hsplits⟩
          exact ⟨⟨H, t, hheap, hperm⟩, hsplits⟩
        · intro _ _ h
          exact h
    · intro _ _ h
      exact h
  · apply (tryInsertWithSplit_spec hw hfull hi).mono
    · intro _ _ _
      trivial
    · rintro e w₁ ⟨-, ⟨-, rfl⟩ | ⟨-, hback⟩⟩ msg heq
      · cases heq
      · obtain ⟨err, rfl⟩ := hback.error
        cases heq

/-- The node that shows `v`, with nothing in the slots behind. -/
def Node.ofView (v : View Nat Nat) : Node Nat Nat where
  parent := v.parent.map Prod.fst
  parentIdx := v.parent.map Prod.snd
  len := v.entries.length
  keys := fun i => (v.entries.map Prod.fst)[i]?
  vals := fun i => (v.entries.map Prod.snd)[i]?
  edges := v.edges.map fun l i => l[i]?

theorem Node.shows_ofView (v : View Nat Nat) : (Node.ofView v).Shows v where
  parent := rfl
  parentIdx link hlink := congrArg (Option.map Prod.snd) (Option.mem_def.mp hlink)
  len := rfl
  keys _ _ := rfl
  vals _ _ := rfl
  edges := by
    rcases v with ⟨parent, entries, _ | l⟩
    · exact .none
    · exact .some fun _ _ => rfl

/-- Twelve full leaves under a full root, the keys from `0` to `142`. -/
def tallLeaf (j : Nat) : Tree Nat Nat := ⟨j + 1, (List.range 11).map fun k => (12 * j + k, k), []⟩

/-- The root without its last child. -/
def tallFrame : Frame Nat Nat :=
  ⟨0, (List.range 11).map fun j => (tallLeaf j, (12 * j + 11, j)), []⟩

def tallHeap (p : Nat) : Option (Node Nat Nat) :=
  if p = 0 then some (.ofView ⟨none, tallFrame.entries, some ((List.range 12).map (· + 1))⟩)
  else if p ≤ 12 then some (.ofView ⟨some (0, p - 1), (tallLeaf (p - 1)).entries, none⟩) else none

def tallMap : World Nat Nat :=
  ⟨tallHeap, 13, ⟨some ⟨1, 0⟩, 143⟩, ⟨fun _ => true, 0⟩, fun _ => none, []⟩

theorem tall_children :
    (tallFrame.fill (tallLeaf 11)).children = (List.range 12).map tallLeaf := rfl

theorem tallMap_onHeap : OnHeap tallMap 1 (tallFrame.fill (tallLeaf 11)) where
  root := rfl
  holds := by
    refine ⟨⟨_, rfl, Node.shows_ofView _⟩, fun i c hc => ?_⟩
    rw [tall_children, List.getElem?_map] at hc
    obtain ⟨j, hj, rfl⟩ := Option.map_eq_some_iff.mp hc
    obtain ⟨hi, rfl⟩ := List.getElem?_eq_some_iff.mp hj
    rw [List.length_range] at hi
    rw [List.getElem_range]
    refine ⟨.ofView ⟨some (0, i), (tallLeaf i).entries, none⟩, ?_, Node.shows_ofView _⟩
    have hle : i + 1 ≤ 12 := hi
    simp [tallMap, tallHeap, tallLeaf, hle]
  shaped := by
    refine ⟨Nat.zero_le _, by decide, rfl, fun c hc => ?_⟩
    rw [tall_children] at hc
    obtain ⟨j, -, rfl⟩ := List.mem_map.mp hc
    simp [Tree.Shaped, tallLeaf, capacity]
  nodup := by decide
  beyond q hq := by
    have hq' : 13 ≤ q := hq
    have hne : q ≠ 0 := by omega
    have hgt : ¬ q ≤ 12 := by omega
    simp [tallMap, tallHeap, hne, hgt]

/-- Both the leaf and the root are split. -/
theorem plan_commit_agree_tallMap :
    (CommitPlan.build ⟨⟨0, 12⟩, 11⟩).Meets tallMap
      (fun r _ => ∀ plan, r = .ok plan →
        Agrees tallMap 1 (tallFrame.fill (tallLeaf 11)) 12 143 11 plan)
      (fun _ _ => False) ∧
    (tryInsertWithSplit ⟨⟨0, 12⟩, 11⟩ 143 11).Meets tallMap (fun _ _ => True)
      (fun e _ => ∀ msg, e ≠ .fault (.expect msg)) :=
  plan_commit_agree tallMap [tallFrame] (tallLeaf 11) 11 143 11 tallMap_onHeap rfl
    (Nat.le_refl _)

end Rustyfill.BTree
