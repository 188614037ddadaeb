import Rustyfill.BTree.Commit

/-!
# What a split leaves in its halves

A node that the commit has split is not cut again: later steps link it to a new parent only. So
its length at the end says at which index, and on which side of it, the split was made.
-/

namespace Rustyfill.BTree

open RawSlots Guarded Separated

set_option autoImplicit false

variable {K V R R' : Type} {w w' w'' : World K V} {S S' : List Nat} {p q : Nat}

/-! ## Lengths that are kept -/

/-- The nodes that are not in `S` have as many keys as before. -/
def KeepsLen (S : List Nat) (w w' : World K V) : Prop :=
  ∀ p, p ∉ S → (w'.heap p).map Node.len = (w.heap p).map Node.len

theorem KeepsLen.refl (S : List Nat) (w : World K V) : KeepsLen S w w := fun _ _ => rfl

theorem KeepsLen.trans (h : KeepsLen S w w') (h' : KeepsLen S w' w'') : KeepsLen S w w'' :=
  fun p hp => (h' p hp).trans (h p hp)

/-- However the routine ends, if it returns it has kept the lengths. -/
def LenKept (S : List Nat) (r : Routine K V R) : Prop :=
  ∀ w, r.Meets w (fun _ w' => KeepsLen S w w') (fun _ _ => True)

namespace LenKept

theorem bind {r : Routine K V R} {f : R → Routine K V R'} (h : LenKept S r)
    (hf : ∀ x, LenKept S (f x)) : LenKept S (r >>= f) := by
  intro w
  rw [Body.meets_bind]
  apply (h w).mono
  · intro x w' hkept
    apply (hf x w').mono
    · intro _ w'' hkept'
      exact hkept.trans hkept'
    · intro _ _ h
      exact h
  · intro _ _ h
    exact h

theorem pure (x : R) : LenKept S (Pure.pure x : Routine K V R) := fun w => KeepsLen.refl S w

theorem exit (e : Exit K V) : LenKept S (Body.exit e : Routine K V R) := fun _ => trivial

theorem orUndefined (x : Option R) : LenKept S (orUndefined x : Routine K V R) := by
  cases x with
  | none => exact exit _
  | some x => exact pure x

theorem deref (p : Nat) : LenKept S (deref p : Routine K V (Node K V)) := by
  intro w
  exact orUndefined (w.heap p) w

theorem world : LenKept S (world : Routine K V (World K V)) := fun w => KeepsLen.refl S w

theorem modifyMap (f : SysBTreeMap → SysBTreeMap) :
    LenKept S (modifyMap f : Routine K V Unit) := fun _ _ _ => rfl

theorem store (hp : p ∈ S) (n : Node K V) : LenKept S (store p n) := by
  intro w q hq
  have hne : q ≠ p := fun heq => hq (heq ▸ hp)
  exact congrArg (Option.map Node.len) (Function.update_of_ne hne ..)

theorem modify (hp : p ∈ S) (f : Node K V → Option (Node K V)) : LenKept S (modify p f) :=
  (deref p).bind fun _ => (orUndefined _).bind fun n => store hp n

theorem setParentLink (child parent idx : Nat) :
    LenKept S (setParentLink child parent idx : Routine K V Unit) := by
  intro w
  rw [BTree.setParentLink]
  cases hn : w.heap child with
  | none =>
    rw [BTree.modify, Body.meets_bind]
    have hderef : (BTree.deref child : Routine K V (Node K V)).Meets w (fun _ _ => False)
        (fun _ _ => True) := by
      simp only [Body.Meets, BTree.deref, hn]
      trivial
    apply hderef.mono
    · intro _ _ h
      exact h.elim
    · intro _ _ h
      exact h
  | some n =>
    have hlinked : (fun n : Node K V =>
        some { n with parent := some parent, parentIdx := some idx }) n =
          some { n with parent := some parent, parentIdx := some idx } := rfl
    rw [modify_meets hn hlinked]
    intro q _
    by_cases hq : q = child
    · subst hq
      have hwrote : (w.wrote q { n with parent := some parent, parentIdx := some idx }).heap q =
          some { n with parent := some parent, parentIdx := some idx } := Function.update_self ..
      rw [hwrote, hn]
      rfl
    · exact congrArg (Option.map Node.len) (Function.update_of_ne hq ..)

theorem forEach {f : Nat → Routine K V Unit} (hf : ∀ i, LenKept S (f i)) (l : List Nat) :
    LenKept S (Body.forEach f l) := by
  induction l with
  | nil => exact pure ()
  | cons i l ih => exact (hf i).bind fun _ => ih

theorem correctParentLinks (internal first last : Nat) :
    LenKept S (correctParentLinks internal first last : Routine K V Unit) := by
  apply forEach
  intro i
  exact ((deref internal).bind fun _ => orUndefined _).bind fun _ => setParentLink _ _ _

theorem nodeLen (p : Nat) : LenKept S (nodeLen p : Routine K V Nat) :=
  (deref p).bind fun _ => pure _

theorem insertPromoted (hp : p ∈ S) (edgeIdx : Nat) (kv : K × V) (right : Nat) :
    LenKept S (insertPromoted p edgeIdx kv right) :=
  (nodeLen p).bind fun _ => (modify hp _).bind fun _ => correctParentLinks _ _ _

theorem growRoot (hp : p ∈ S) (height : Nat) (kv : K × V) (right : Nat) :
    LenKept S (growRoot height kv right p) := by
  apply world.bind
  intro w
  cases w.map.root with
  | none => exact exit _
  | some root =>
    exact (modifyMap _).bind fun _ => (modify hp _).bind fun _ => (setParentLink _ _ _).bind
      fun _ => (modify hp _).bind fun _ => (setParentLink _ _ _).bind fun _ => modifyMap _

theorem splitInternal (hp : p ∈ S) (hq : q ∈ S) (spIdx childIdx : Nat) (kv : K × V) (right : Nat) :
    LenKept S (splitInternal p q spIdx childIdx kv right) := by
  have hread : LenKept S (readKeyValue p spIdx : Routine K V (K × V)) :=
    (deref p).bind fun _ => (orUndefined _).bind fun _ => (orUndefined _).bind fun _ => pure _
  have hhalve : LenKept S (halveInternal p q spIdx : Routine K V Unit) :=
    ((deref p).bind fun _ => (modify hq _).bind fun _ => modify hp _).bind fun _ =>
      (nodeLen q).bind fun _ => correctParentLinks _ _ _
  apply hread.bind
  intro promoted
  apply hhalve.bind
  intro _
  cases (splitpoint childIdx).2 with
  | left ii => exact (insertPromoted hp ii kv right).bind fun _ => pure _
  | right ii => exact (insertPromoted hq ii kv right).bind fun _ => pure _

theorem promote {newRoot : Bool} {node idx : Nat} {items : List CommitInternal}
    {reserved : List Nat} (hitems : ∀ ci ∈ items, ci.ptr ∈ S) (hreserved : ∀ r ∈ reserved, r ∈ S)
    (left right : NodeRef) (kv : K × V) :
    LenKept S (promote newRoot node idx items reserved left right kv) := by
  induction items generalizing reserved left right kv with
  | nil =>
    cases newRoot with
    | false => exact exit _
    | true =>
      cases reserved with
      | nil => exact exit _
      | cons nr rest =>
        exact (growRoot (hreserved nr List.mem_cons_self) _ _ _).bind fun _ => pure _
  | cons ci items ih =>
    obtain ⟨ptr, childIdx, willSplit, spIdx⟩ := ci
    have hptr : ptr ∈ S := hitems _ List.mem_cons_self
    cases willSplit with
    | false =>
      exact (insertPromoted hptr _ _ _).bind fun _ => (modifyMap _).bind fun _ => pure _
    | true =>
      cases spIdx with
      | none => exact exit _
      | some spIdx =>
        cases reserved with
        | nil => exact exit _
        | cons ri rest =>
          exact (splitInternal hptr (hreserved ri List.mem_cons_self) _ _ _ _).bind fun _ =>
            ih (fun c hc => hitems c (.tail _ hc)) (fun r hr => hreserved r (.tail _ hr)) _ _ _

end LenKept

/-! ## The halves -/

/-- The node `p` was split at `sp` into itself and `q`, and then one more entry was put into the
right half, or the left one. -/
structure SplitAt (w : World K V) (p q sp : Nat) (right : Bool) : Prop where
  left : (w.heap p).map Node.len = some (sp + if right then 0 else 1)
  right : (w.heap q).map Node.len = some (capacity - 1 - sp + if right then 1 else 0)

theorem SplitAt.kept {sp : Nat} {right : Bool} (h : SplitAt w p q sp right)
    (hkept : KeepsLen S w w') (hp : p ∉ S) (hq : q ∉ S) : SplitAt w' p q sp right where
  left := (hkept p hp).trans h.left
  right := (hkept q hq).trans h.right

theorem Shown.len_eq {v : View K V} (h : Shown w.heap p v) :
    (w.heap p).map Node.len = some v.entries.length := by
  obtain ⟨n, hn, hshows⟩ := h
  rw [hn, Option.map_some, hshows.len]

theorem splitAt_cut {i : Nat} {v v' : View K V} (hi : i ≤ capacity) (hp : Shown w.heap p v)
    (hq : Shown w.heap q v') (hv : v.entries.length = cutAt i)
    (hv' : v'.entries.length = capacity - cutAt i) :
    SplitAt w p q (splitpoint i).1 (splitpoint i).2.isRight := by
  refine ⟨?_, ?_⟩
  · rw [hp.len_eq, hv, cutAt]
  · rw [hq.len_eq, hv', cutAt]
    obtain ⟨sp, ⟨hsplit, -, hlow, hhigh⟩ | ⟨hsplit, -, hlow, hhigh⟩⟩ := splitpoint_cases hi
    · simp only [hsplit, InsertionSide.isRight, capacity, Bool.false_eq_true, if_false]
      congr 1
      omega
    · simp only [hsplit, InsertionSide.isRight, capacity, if_true]
      congr 1
      omega

/-- A recorded split was made with the node `ri`, at the recorded index and on the side of the
recorded edge. -/
def MadeWith (w : World K V) (ci : CommitInternal) (ri : Nat) : Prop :=
  ∃ sp, ci.spIdx = some sp ∧ SplitAt w ci.ptr ri sp (splitpoint ci.childIdx).2.isRight

/-- The recorded splits, in their order, were made with the first of the reserved nodes. -/
def SplitsMade (w : World K V) (items : List CommitInternal) (reserved : List Nat) : Prop :=
  List.Forall₂ (MadeWith w) (items.filter (·.willSplit))
    (reserved.take (items.filter (·.willSplit)).length)

theorem mem_addrs_of_mem_planOf {fs : List (Frame K V)} {h : Nat} {ci : CommitInternal}
    (hci : ci ∈ planOf fs) : ci.ptr ∈ Path.addrs h fs := by
  induction fs generalizing h with
  | nil => cases hci
  | cons f fs ih =>
    rw [planOf] at hci
    split_ifs at hci
    · obtain rfl := List.mem_singleton.mp hci
      exact List.mem_append_left _ List.mem_cons_self
    · rcases List.mem_cons.mp hci with rfl | hci
      · exact List.mem_append_left _ List.mem_cons_self
      · exact List.mem_append_right _ (ih hci)

theorem LenKept.promote_planOf (newRoot : Bool) (node idx h : Nat) (fs : List (Frame K V))
    (reserved : List Nat) (left right : NodeRef) (kv : K × V) :
    LenKept (Path.addrs h fs ++ reserved)
      (BTree.promote newRoot node idx (planOf fs) reserved left right kv) :=
  LenKept.promote (fun _ hci => List.mem_append_left _ (mem_addrs_of_mem_planOf hci))
    (fun _ hr => List.mem_append_right _ hr) left right kv

theorem promote_splits {h node idx : Nat} {link : Option (Nat × Nat)} {fs : List (Frame K V)}
    {t₁ t₂ : Tree K V} {kv : K × V} {reserved : List Nat}
    (hp : Pending w h link fs t₁ t₂ reserved) :
    (promote (grows fs) node idx (planOf fs) reserved ⟨h, t₁.addr⟩ ⟨h, t₂.addr⟩ kv).Meets w
      (fun _ w' => SplitsMade w' (planOf fs) reserved) (fun _ _ => True) := by
  induction fs generalizing w h link t₁ t₂ kv reserved with
  | nil =>
    have hmade : ∀ w' : World K V, SplitsMade w' [] reserved := fun _ => .nil
    apply (LenKept.promote_planOf _ node idx h [] reserved _ _ kv w).mono
    · intro _ w' _
      exact hmade w'
    · intro _ _ h
      exact h
  | cons f fs ih =>
    by_cases hroom : f.entries.length < capacity
    · apply (LenKept.promote_planOf _ node idx h (f :: fs) reserved _ _ kv w).mono
      · intro _ w' _
        rw [planOf, if_pos hroom]
        exact .nil
      · intro _ _ h
        exact h
    · obtain ⟨ri, rest, rfl⟩ : ∃ ri rest, reserved = ri :: rest := by
        have hneeded := hp.reserved
        rw [needed, if_neg hroom] at hneeded
        exact List.exists_cons_of_length_eq_add_one hneeded
      rw [planOf, if_neg hroom, grows, if_neg hroom]
      have hsplit : (do
          let promoted ← splitInternal f.addr ri (splitpoint f.idx).1 f.idx kv t₂.addr
          promote (grows fs) node idx (planOf fs) rest ⟨h + 1, f.addr⟩ ⟨h + 1, ri⟩
            promoted).Meets w
          (fun _ w' => SplitsMade w'
            (⟨f.addr, f.idx, true, some (splitpoint f.idx).1⟩ :: planOf fs) (ri :: rest))
          (fun _ _ => True) := by
        rw [Body.meets_bind]
        apply (splitInternal_raised hp hroom).mono
        · rintro promoted w₁ ⟨t₁', t₂', hraised, hlen₁, hlen₂⟩
          obtain ⟨link', hpending⟩ := hraised.pending
          have hidx : f.idx ≤ capacity := Nat.le_trans f.idx_le hp.pathShaped.1.full
          obtain ⟨link₂, hright⟩ := hpending.right
          have hmade : SplitAt w₁ f.addr ri (splitpoint f.idx).1 (splitpoint f.idx).2.isRight := by
            rw [← hraised.left, ← hraised.right]
            exact splitAt_cut hidx hpending.left.shown hright.shown hlen₁ hlen₂
          -- What the later steps write is above the two halves.
          have hkept := LenKept.promote_planOf (grows fs) node idx (h + 1) fs rest
            ⟨h + 1, f.addr⟩ ⟨h + 1, ri⟩ promoted w₁
          have hnodup := hpending.nodup
          rw [List.append_assoc, List.nodup_append] at hnodup
          have hapart : ∀ q ∈ t₁'.addrs (h + 1) ++ t₂'.addrs (h + 1),
              q ∉ Path.addrs (h + 1) fs ++ rest := fun q hq hmem => hnodup.2.2 q hq q hmem rfl
          have hmem₁ := hapart _ (List.mem_append_left _ (t₁'.addr_mem_addrs (h + 1)))
          have hmem₂ := hapart _ (List.mem_append_right _ (t₂'.addr_mem_addrs (h + 1)))
          rw [hraised.left] at hmem₁
          rw [hraised.right] at hmem₂
          have hrest := @ih _ _ _ _ _ promoted _ hpending
          rw [hraised.left, hraised.right] at hrest
          apply (hrest.and hkept).mono
          · rintro _ w₂ ⟨hsplits, hkept⟩
            exact .cons ⟨_, rfl, hmade.kept hkept hmem₁ hmem₂⟩ hsplits
          · intro _ _ _
            trivial
        · intro _ _ h
          exact h.elim
      exact hsplit

end Rustyfill.BTree
