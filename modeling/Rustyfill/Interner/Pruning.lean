import Rustyfill.Interner.Unique
import Rustyfill.Lib.Interference

/-!
# Pruning

What pruning does in each shard while other clients make, clone and drop the `Arc`s: from
the steps it takes itself, with the states before and after them. A reference whose count is
saturated cannot be told from one that expired, and is removed as well.
-/

namespace Rustyfill.Interner

open Maps RawHash Interleaving Transition

set_option autoImplicit false

section
variable {Val : Type}

/-- The shared state: the shards of one map, and the allocations. -/
abbrev Shards (Val : Type) := State (UInt64 × Nat) (Arcs Val)

/-- One step of the client that prunes. -/
abbrev OwnStep (Val : Type) :=
  Own (Shards Val) (Act (UInt64 × Nat) (Arcs Val) (ArcAct Val)) (Act.Res (handles Val))

/-- Every weak reference in a table refers to an allocation, dead or alive. -/
def Allocated (s : Shards Val) : Prop :=
  ∀ i, ∀ e ∈ (s.table i).entries, e.2.2 < s.ext.cells.length

/-- A count from which `try_upgrade` makes an `Arc`. -/
def Arcs.Upgradable (arcs : Arcs Val) (a : Nat) : Prop :=
  ∃ c, arcs.cells[a]? = some c ∧ 0 < c.strong ∧ c.strong < maxRefcount

def Arcs.Saturated (arcs : Arcs Val) (a : Nat) : Prop :=
  ∃ c, arcs.cells[a]? = some c ∧ maxRefcount ≤ c.strong

/-- What a step of a client other than `t` does, as far as client `t` can tell. -/
structure Others (t : Nat) (s s' : Shards Val) : Prop where
  locked : ∀ i, s.writer i = some t → s'.writer i = some t ∧ s'.table i = s.table i
  length_le : s.ext.cells.length ≤ s'.ext.cells.length
  dead : ∀ a, s.ext.Dead a → s'.ext.Dead a
  allocated : Allocated s → Allocated s'

/-! ## One shard -/

/-- The steps over the listed buckets of shard `i`, and what they make of its buckets. The
allocations of `gone` were dead when the shard was locked. -/
inductive Visits (i : Nat) (gone : Nat → Prop) : List (Nat × UInt64 × Nat) →
    List (Option (UInt64 × UInt64 × Nat)) → List (OwnStep Val) →
    List (Option (UInt64 × UInt64 × Nat)) → Prop where
  | nil (bs : List (Option (UInt64 × UInt64 × Nat))) : Visits i gone [] bs [] bs
  | kept {bucket weak : Nat} {key : UInt64} {rest : List (Nat × UInt64 × Nat)}
      {bs bs' : List (Option (UInt64 × UInt64 × Nat))} {log : List (OwnStep Val)}
      {s s₁ s₂ s₃ : Shards Val} : s.ext.Upgradable weak → ¬ gone weak →
      Visits i gone rest bs log bs' →
      Visits i gone ((bucket, key, weak) :: rest) bs
        (⟨s, .user (.tryUpgrade weak), .ok (some weak), s₁⟩ ::
          ⟨s₂, .user (.dropUpgraded weak), (), s₃⟩ :: log) bs'
  | removed {bucket weak : Nat} {key : UInt64} {rest : List (Nat × UInt64 × Nat)}
      {bs bs' : List (Option (UInt64 × UInt64 × Nat))} {log : List (OwnStep Val)}
      {s s₁ s₂ s₃ : Shards Val} {r : Except Unit (Option Nat)} :
      r = .ok none ∧ s.ext.Dead weak ∨ r = .error () ∧ s.ext.Saturated weak →
      Visits i gone rest (bs.set bucket none) log bs' →
      Visits i gone ((bucket, key, weak) :: rest) bs
        (⟨s, .user (.tryUpgrade weak), r, s₁⟩ ::
          ⟨s₂, .remove i bucket, (key, weak), s₃⟩ :: log) bs'

/-- Client `t` is at work in shard `i`. -/
structure Working (t i : Nat) (gone : Nat → Prop) (bs : List (Option (UInt64 × UInt64 × Nat)))
    (s : Shards Val) : Prop where
  locked : s.writer i = some t
  buckets : (s.table i).buckets = bs
  gone : ∀ a, gone a → s.ext.Dead a
  allocated : Allocated s

theorem Others.refl (t : Nat) (s : Shards Val) : Others t s s where
  locked _ h := ⟨h, rfl⟩
  length_le := Nat.le_refl _
  dead _ h := h
  allocated h := h

variable {t i : Nat} {gone : Nat → Prop} {bs : List (Option (UInt64 × UInt64 × Nat))}
  {s s' : Shards Val}

theorem Working.others (h : Working t i gone bs s) (ho : Others t s s') :
    Working t i gone bs s' where
  locked := (ho.locked i h.locked).1
  buckets := by rw [(ho.locked i h.locked).2, h.buckets]
  gone a ha := ho.dead a (h.gone a ha)
  allocated := ho.allocated h.allocated

theorem Working.weak_lt (h : Working t i gone bs s) {bucket : Nat} {e : UInt64 × UInt64 × Nat}
    (hb : bs[bucket]? = some (some e)) : e.2.2 < s.ext.cells.length :=
  h.allocated i e (Table.getElem?_mem_entries (by rw [h.buckets]; exact hb))

theorem Allocated.setCell (h : Allocated s) (a : Nat) (c : Cell Val) :
    Allocated { s with ext := s.ext.setCell a c } := by
  intro j e he
  rw [Arcs.setCell, List.length_set]
  exact h j e he

/-- `try_upgrade` of a reference to an allocation, by what the count is. -/
theorem tryUpgrade_cases {weak : Nat} {r : Except Unit (Option Nat)}
    (h : Sem (handles Val) t s (.user (.tryUpgrade weak)) r s') :
    r = .ok none ∧ s.ext.Dead weak ∧ s' = s ∨ r = .error () ∧ s.ext.Saturated weak ∧ s' = s ∨
      r = .ok (some weak) ∧ s.ext.Upgradable weak ∧
        ∃ c, s.ext.cells[weak]? = some c ∧
          s' = { s with ext := s.ext.setCell weak { c with busy := insert t c.busy } } := by
  obtain ⟨ext, ⟨c, hc, h⟩, rfl⟩ := h
  split at h
  · rename_i hzero
    obtain ⟨rfl, rfl⟩ := h
    exact .inl ⟨rfl, ⟨c, hc, hzero⟩, rfl⟩
  · rename_i hpos
    split at h
    · rename_i hmax
      obtain ⟨rfl, rfl⟩ := h
      exact .inr (.inl ⟨rfl, ⟨c, hc, hmax⟩, rfl⟩)
    · rename_i hmax
      obtain ⟨rfl, rfl⟩ := h
      exact .inr (.inr ⟨rfl, ⟨c, hc, Nat.pos_of_ne_zero hpos, Nat.not_le.mp hmax⟩, c, hc, rfl⟩)

theorem tryUpgrade_can {weak : Nat} (h : weak < s.ext.cells.length) :
    ∃ r s', Sem (handles Val) t s (.user (.tryUpgrade weak)) r s' := by
  have hc := List.getElem?_eq_getElem h
  by_cases hzero : s.ext.cells[weak].strong = 0
  · exact ⟨.ok none, _, s.ext, ⟨_, hc, by rw [if_pos hzero]; exact ⟨rfl, rfl⟩⟩, rfl⟩
  · by_cases hmax : maxRefcount ≤ s.ext.cells[weak].strong
    · exact ⟨.error (), _, s.ext,
        ⟨_, hc, by rw [if_neg hzero, if_pos hmax]; exact ⟨rfl, rfl⟩⟩, rfl⟩
    · exact ⟨.ok (some weak), _, _,
        ⟨_, hc, by rw [if_neg hzero, if_neg hmax]; exact ⟨rfl, rfl⟩⟩, rfl⟩

/-- The client's own steps on the allocations leave it at work as it was. -/
theorem Working.user (h : Working t i gone bs s) {y : ArcAct Val} {r : y.Res}
    (hs : Sem (handles Val) t s (.user y) r s') (hy : ∀ v a, y ≠ .returnArc v a)
    (hlen : s.ext.cells.length ≤ s'.ext.cells.length) : Working t i gone bs s' := by
  obtain ⟨ext, hsem, rfl⟩ := hs
  have hev := ArcAct.evolves hsem fun v a heq => absurd heq (hy v a)
  exact ⟨h.locked, h.buckets, fun a ha => hev.dead a (h.gone a ha),
    fun j e he => Nat.lt_of_lt_of_le (h.allocated j e he) hlen⟩

theorem Working.remove (h : Working t i gone bs s) {bucket : Nat} {kv : UInt64 × Nat}
    (hs : Sem (handles Val) t s (.remove i bucket) kv s') :
    Working t i gone (bs.set bucket none) s' := by
  obtain ⟨table, hremoved, rfl⟩ := hs
  refine ⟨h.locked, ?_, h.gone, fun j e he => ?_⟩
  · rw [State.setTable_table_self, hremoved.buckets, h.buckets]
  · by_cases hj : j = i
    · subst hj
      rw [State.setTable_table_self] at he
      obtain ⟨hash, hperm⟩ := hremoved.entries_perm
      exact h.allocated j e (hperm.symm.subset (List.mem_cons_of_mem _ he))
    · rw [State.setTable_table_ne hj] at he
      exact h.allocated j e he

theorem Working.remove_can (h : Working t i gone bs s) {bucket : Nat}
    {e : UInt64 × UInt64 × Nat} (hb : bs[bucket]? = some (some e)) :
    ∃ kv s', Sem (handles Val) t s (.remove i bucket) kv s' := by
  rw [← h.buckets] at hb
  have hcount := ListUpdate.countP_set_getElem? Option.isNone none hb
  have hroom := (s.table i).room
  simp only [Option.isNone_some, Bool.false_eq_true, if_false, Option.isNone_none, if_true]
    at hcount
  exact ⟨e.2, _, ⟨(s.table i).buckets.set bucket none, (s.table i).free, by omega⟩,
    ⟨⟨e.1, hb⟩, rfl, .inl rfl⟩, rfl⟩

theorem pruneBuckets_wp {l : List (Nat × UInt64 × Nat)} (hnodup : (l.map Prod.fst).Nodup)
    (hlisted : ∀ b ∈ l, ∃ hash, bs[b.1]? = some (some (hash, b.2))) (h : Working t i gone bs s) :
    (pruneBuckets i l : InternMethod Val Unit).Wp (Sem (handles Val) t) (Others t)
      (fun log _ s' => ∃ bs', Visits i gone l bs log bs' ∧ Working t i gone bs' s') [] s := by
  induction l generalizing bs s with
  | nil =>
    exact Prog.wp_ret (fun _ _ => Working.others) (fun s hs => ⟨bs, .nil bs, hs⟩) h
  | cons b l ih =>
    obtain ⟨bucket, key, weak⟩ := b
    obtain ⟨hout, hnodup⟩ := List.nodup_cons.mp hnodup
    obtain ⟨⟨hash, hb⟩, hrest⟩ := List.forall_mem_cons.mp hlisted
    have hrest' : ∀ b ∈ l, ∃ hash, (bs.set bucket none)[b.1]? = some (some (hash, b.2)) := by
      intro b hmem
      have hne : bucket ≠ b.1 := by
        intro heq
        have hin : b.1 ∈ l.map Prod.fst := List.mem_map_of_mem hmem
        exact hout (heq.symm ▸ hin)
      rw [List.getElem?_set_ne hne]
      exact hrest b hmem
    have hgo : ∀ {bs₁ : List (Option (UInt64 × UInt64 × Nat))} {s₁ : Shards Val}
        (pre : List (OwnStep Val)),
        (∀ b ∈ l, ∃ hash, bs₁[b.1]? = some (some (hash, b.2))) → Working t i gone bs₁ s₁ →
        (∀ log bs', Visits i gone l bs₁ log bs' →
          Visits i gone ((bucket, key, weak) :: l) bs (pre ++ log) bs') →
        (pruneBuckets i l : InternMethod Val Unit).Wp (Sem (handles Val) t) (Others t)
          (fun log _ s' => ∃ bs', Visits i gone ((bucket, key, weak) :: l) bs log bs' ∧
            Working t i gone bs' s') (pre ++ []) s₁ := by
      intro bs₁ s₁ pre hlisted₁ hs₁ hvisit
      refine Prog.Wp.frame ((ih hnodup hlisted₁ hs₁).mono ?_)
      rintro log _ s' ⟨bs', hvisits, hs'⟩
      exact ⟨bs', hvisit log bs' hvisits, hs'⟩
    have hkv : ∀ {s₁ s₂ : Shards Val} {kv : UInt64 × Nat}, Working t i gone bs s₁ →
        Sem (handles Val) t s₁ (.remove i bucket) kv s₂ → kv = (key, weak) := by
      rintro s₁ s₂ kv hs₁ ⟨table, ⟨⟨hash', hocc⟩, -, -⟩, -⟩
      rw [hs₁.buckets, hb] at hocc
      simp only [Option.some.injEq, Prod.mk.injEq] at hocc
      exact hocc.2.symm
    refine Prog.wp_act (fun _ _ => Working.others) (fun s hs => tryUpgrade_can (hs.weak_lt hb))
      (fun s r s₁ hs hr => ?_) h
    have hremove : (r = .ok none ∧ s.ext.Dead weak ∨ r = .error () ∧ s.ext.Saturated weak) →
        Working t i gone bs s₁ → (do
          let _ ← remove i bucket
          pruneBuckets i l : InternMethod Val Unit).Wp (Sem (handles Val) t) (Others t)
            (fun log _ s' => ∃ bs', Visits i gone ((bucket, key, weak) :: l) bs log bs' ∧
              Working t i gone bs' s') [⟨s, .user (.tryUpgrade weak), r, s₁⟩] s₁ := by
      intro hstale hs₁
      refine Prog.wp_act (fun _ _ => Working.others) (fun s hs => hs.remove_can hb)
        (fun s₂ kv s₃ hs₂ hrem => ?_) hs₁
      obtain rfl := hkv hs₂ hrem
      exact hgo [_, _] hrest' (hs₂.remove hrem) fun _ _ => .removed hstale
    rcases tryUpgrade_cases hr with ⟨rfl, hdead, rfl⟩ | ⟨rfl, hsat, rfl⟩ | ⟨rfl, hup, c, hc, rfl⟩
    · exact hremove (.inl ⟨rfl, hdead⟩) hs
    · exact hremove (.inr ⟨rfl, hsat⟩) hs
    · have hs₁ := hs.user hr (by simp) (by simp [Arcs.setCell])
      have hgone : ¬ gone weak := by
        intro hg
        obtain ⟨d, hd, hpos, -⟩ := hup
        obtain ⟨e, he, hzero⟩ := hs.gone weak hg
        rw [hd] at he
        cases he
        omega
      refine Prog.wp_act (fun _ _ => Working.others)
        (fun s₂ hs₂ => ⟨(), _, _, ⟨_, List.getElem?_eq_getElem (hs₂.weak_lt hb), rfl⟩, rfl⟩)
        (fun s₂ _ s₃ hs₂ hdrop => ?_) hs₁
      have hs₃ : Working t i gone bs s₃ := by
        refine hs₂.user hdrop (by simp) ?_
        obtain ⟨_, ⟨_, _, rfl⟩, rfl⟩ := hdrop
        simp [Arcs.setCell]
      exact hgo [_, _] hrest hs₃ fun _ _ => .kept hup hgone

def upgraded? (o : OwnStep Val) : Option Nat :=
  match o.act with
  | .user (.tryUpgrade weak) => some weak
  | _ => none

/-- What pruning makes of shard `i` between the state `s₁`, in which it has just locked it,
and the state `s₂`, in which it is about to unlock it. -/
structure Pruned (i : Nat) (s₁ s₂ : Shards Val) (log : List (OwnStep Val)) : Prop where
  once : log.filterMap upgraded? = (s₁.table i).full.map fun b => b.2.2
  decided : ∀ (b : Nat) e, (s₁.table i).buckets[b]? = some (some e) →
    (s₂.table i).buckets[b]? = some (some e) ∧
      (∃ o ∈ log, o.act = .user (.tryUpgrade e.2.2) ∧ o.before.ext.Upgradable e.2.2) ∨
    (s₂.table i).buckets[b]? = some none ∧ ∃ o ∈ log, o.act = .user (.tryUpgrade e.2.2) ∧
      (o.before.ext.Dead e.2.2 ∨ o.before.ext.Saturated e.2.2)
  expired : ∀ (b : Nat) e, (s₁.table i).buckets[b]? = some (some e) → s₁.ext.Dead e.2.2 →
    (s₂.table i).buckets[b]? = some none
  vacant : ∀ b : Nat, (s₁.table i).buckets[b]? = some none → (s₂.table i).buckets[b]? = some none
  inside : ∀ o ∈ log, ∀ j, o.act.touches = some j → j = i

/-- The steps in shard `i`: it cannot be locked, and then nothing is done; or it is pruned. -/
inductive Pass (i : Nat) : List (OwnStep Val) → Prop where
  | skipped {s : Shards Val} : ¬ (s.writer i = none ∧ s.readers i = ∅) →
      Pass i [⟨s, .tryWriteTable i, false, s⟩]
  | pruned {s₀ s₁ s₂ s₃ s₄ : Shards Val} {log : List (OwnStep Val)} :
      s₀.writer i = none → s₀.readers i = ∅ → s₁.table = s₀.table → Pruned i s₁ s₃ log →
      Pass i (⟨s₀, .tryWriteTable i, true, s₁⟩ :: ⟨s₂, .iter i, (s₁.table i).full, s₂⟩ ::
        (log ++ [⟨s₃, .dropWriteGuard i, (), s₄⟩]))

theorem Visits.once {l : List (Nat × UInt64 × Nat)}
    {bs' : List (Option (UInt64 × UInt64 × Nat))} {log : List (OwnStep Val)}
    (h : Visits i gone l bs log bs') : log.filterMap upgraded? = l.map fun b => b.2.2 := by
  induction h with
  | nil => rfl
  | kept _ _ _ ih => simpa [upgraded?, List.filterMap_cons] using ih
  | removed _ _ ih => simpa [upgraded?, List.filterMap_cons] using ih

theorem Visits.inside {l : List (Nat × UInt64 × Nat)}
    {bs' : List (Option (UInt64 × UInt64 × Nat))} {log : List (OwnStep Val)}
    (h : Visits i gone l bs log bs') : ∀ o ∈ log, ∀ j, o.act.touches = some j → j = i := by
  induction h with
  | nil => simp
  | kept _ _ _ ih => simpa [Act.touches] using ih
  | removed _ _ ih => simpa [Act.touches] using ih

theorem Visits.unlisted {l : List (Nat × UInt64 × Nat)}
    {bs' : List (Option (UInt64 × UInt64 × Nat))} {log : List (OwnStep Val)}
    (h : Visits i gone l bs log bs') {b : Nat} (hb : b ∉ l.map Prod.fst) : bs'[b]? = bs[b]? := by
  induction h with
  | nil => rfl
  | kept _ _ _ ih =>
    simp only [List.map_cons, List.mem_cons, not_or] at hb
    exact ih hb.2
  | removed _ _ ih =>
    simp only [List.map_cons, List.mem_cons, not_or] at hb
    rw [ih hb.2, List.getElem?_set_ne (Ne.symm hb.1)]

/-- A listed bucket stays when its reference was upgraded, and is vacant when it was not. -/
theorem Visits.decided {l : List (Nat × UInt64 × Nat)}
    {bs' : List (Option (UInt64 × UInt64 × Nat))} {log : List (OwnStep Val)}
    (h : Visits i gone l bs log bs') (hnodup : (l.map Prod.fst).Nodup) {b : Nat}
    {e : UInt64 × UInt64 × Nat} (hmem : (b, e.2) ∈ l) (hb : bs[b]? = some (some e)) :
    bs'[b]? = some (some e) ∧ ¬ gone e.2.2 ∧
      (∃ o ∈ log, o.act = .user (.tryUpgrade e.2.2) ∧ o.before.ext.Upgradable e.2.2) ∨
    bs'[b]? = some none ∧ ∃ o ∈ log, o.act = .user (.tryUpgrade e.2.2) ∧
      (o.before.ext.Dead e.2.2 ∨ o.before.ext.Saturated e.2.2) := by
  have hlt : b < bs.length := (List.getElem?_eq_some_iff.mp hb).1
  induction h with
  | nil => exact absurd hmem List.not_mem_nil
  | @kept bucket weak key rest bs bs' log s s₁ s₂ s₃ hup hgone hrest ih =>
    obtain ⟨hout, hnodup⟩ := List.nodup_cons.mp hnodup
    rcases List.mem_cons.mp hmem with heq | hmem
    · simp only [Prod.mk.injEq] at heq
      obtain ⟨rfl, he⟩ := heq
      obtain rfl : weak = e.2.2 := by rw [he]
      exact .inl ⟨by rw [hrest.unlisted hout, hb], hgone, _, List.mem_cons_self, rfl, hup⟩
    · rcases ih hnodup hmem hb hlt with ⟨hkeep, hng, o, ho, hact⟩ | ⟨hvac, o, ho, hact⟩
      · exact .inl ⟨hkeep, hng, o, by simp [ho], hact⟩
      · exact .inr ⟨hvac, o, by simp [ho], hact⟩
  | @removed bucket weak key rest bs bs' log s s₁ s₂ s₃ r hstale hrest ih =>
    obtain ⟨hout, hnodup⟩ := List.nodup_cons.mp hnodup
    rcases List.mem_cons.mp hmem with heq | hmem
    · simp only [Prod.mk.injEq] at heq
      obtain ⟨rfl, he⟩ := heq
      obtain rfl : weak = e.2.2 := by rw [he]
      refine .inr ⟨?_, _, List.mem_cons_self, rfl, hstale.imp And.right And.right⟩
      rw [hrest.unlisted hout, List.getElem?_set_self hlt]
    · have hin : b ∈ rest.map Prod.fst := List.mem_map_of_mem hmem
      have hne : bucket ≠ b := fun heq => hout (heq.symm ▸ hin)
      rcases ih hnodup hmem (by rwa [List.getElem?_set_ne hne]) (by simpa using hlt) with
        ⟨hkeep, hng, o, ho, hact⟩ | ⟨hvac, o, ho, hact⟩
      · exact .inl ⟨hkeep, hng, o, by simp [ho], hact⟩
      · exact .inr ⟨hvac, o, by simp [ho], hact⟩

theorem Visits.pruned {s₁ s₂ : Shards Val} {log : List (OwnStep Val)}
    (h : Visits i s₁.ext.Dead (s₁.table i).full (s₁.table i).buckets log (s₂.table i).buckets) :
    Pruned i s₁ s₂ log where
  once := h.once
  decided b e hb := by
    rcases h.decided (s₁.table i).full_nodup (Table.mem_full.mpr ⟨e.1, hb⟩) hb with
      ⟨hkeep, _, hseen⟩ | hvac
    · exact .inl ⟨hkeep, hseen⟩
    · exact .inr hvac
  expired b e hb hdead := by
    rcases h.decided (s₁.table i).full_nodup (Table.mem_full.mpr ⟨e.1, hb⟩) hb with
      ⟨_, hlive, _⟩ | hvac
    · exact absurd hdead hlive
    · exact hvac.1
  vacant b hb := by
    rw [h.unlisted, hb]
    intro hmem
    obtain ⟨e, he⟩ := Table.mem_places.mp hmem
    rw [hb] at he
    simp at he
  inside := h.inside

/-! ## All shards -/

theorem tryWriteTable_free (hw : s.writer i = none) (hr : s.readers i = ∅) :
    Sem (handles Val) t s (.tryWriteTable i) true (s.setWriter i (some t)) := by
  rw [Sem, if_pos ⟨hw, hr⟩]
  exact ⟨rfl, rfl⟩

theorem tryWriteTable_can (s : Shards Val) :
    ∃ ok s', Sem (handles Val) t s (.tryWriteTable i) ok s' := by
  by_cases hfree : s.writer i = none ∧ s.readers i = ∅
  · exact ⟨true, _, tryWriteTable_free hfree.1 hfree.2⟩
  · exact ⟨false, s, by rw [Sem, if_neg hfree]; exact ⟨rfl, rfl⟩⟩

theorem pruneShards_wp (is : List Nat) (h : Allocated s) :
    (pruneShards is : InternMethod Val Unit).Wp (Sem (handles Val) t) (Others t)
      (fun log _ s' => Allocated s' ∧ ∃ passes, log = passes.flatten ∧ List.Forall₂ Pass is passes)
      [] s := by
  induction is generalizing s with
  | nil =>
    exact Prog.wp_ret (fun _ _ hs ho => ho.allocated hs) (fun s hs => ⟨hs, [], rfl, .nil⟩) h
  | cons i is ih =>
    have hgo : ∀ {pass : List (OwnStep Val)} {s' : Shards Val}, Pass i pass → Allocated s' →
        (pruneShards is : InternMethod Val Unit).Wp (Sem (handles Val) t) (Others t)
          (fun log _ s' => Allocated s' ∧ ∃ passes, log = passes.flatten ∧
            List.Forall₂ Pass (i :: is) passes) (pass ++ []) s' := by
      intro pass s' hpass hs'
      refine Prog.Wp.frame ((ih hs').mono ?_)
      rintro _ _ s'' ⟨hs'', passes, rfl, hpasses⟩
      exact ⟨hs'', pass :: passes, rfl, .cons hpass hpasses⟩
    refine Prog.wp_act (fun _ _ hs ho => ho.allocated hs) (fun s _ => tryWriteTable_can s)
      (fun s ok s₁ hs hlock => ?_) h
    by_cases hfree : s.writer i = none ∧ s.readers i = ∅
    · simp only [Sem, if_pos hfree] at hlock
      obtain ⟨rfl, rfl⟩ := hlock
      have hs₁ : Working t i s.ext.Dead (s.table i).buckets (s.setWriter i (some t)) :=
        ⟨by simp, rfl, fun _ ha => ha, hs⟩
      refine Prog.wp_act (fun _ _ => Working.others) (fun s _ => ⟨_, s, rfl, rfl⟩)
        (fun s₂ l s₂' hs₂ hiter => ?_) hs₁
      obtain ⟨rfl, rfl⟩ := hiter
      have hfull : (s₂'.table i).full = (s.table i).full := by
        rw [Table.full, hs₂.buckets]
        rfl
      rw [hfull]
      change (pruneBuckets i (s.table i).full >>= fun _ => dropWriteGuard i >>= fun _ =>
        pruneShards is : InternMethod Val Unit).Wp _ _ _ [_, _] _
      refine Prog.Wp.bind (@Prog.Wp.frame _ _ _ _ _ _ _ [] _ _ [_, _]
        ((pruneBuckets_wp (s.table i).full_nodup (fun b hb => Table.mem_full.mp hb) hs₂).mono ?_))
      rintro log _ s₃ ⟨bs', hvisits, hs₃⟩
      refine Prog.wp_act (fun _ _ => Working.others) (fun s _ => ⟨(), _, rfl⟩)
        (fun s₃ _ s₄ hs₃ hdrop => ?_) hs₃
      obtain rfl := hdrop
      rw [← hs₃.buckets] at hvisits
      have halloc : Allocated (s₃.setWriter i none) := hs₃.allocated
      have hpass : Pass i (⟨s, .tryWriteTable i, true, s.setWriter i (some t)⟩ ::
          ⟨s₂', .iter i, (s.table i).full, s₂'⟩ ::
            (log ++ [⟨s₃, .dropWriteGuard i, (), s₃.setWriter i none⟩])) :=
        .pruned hfree.1 hfree.2 rfl (@Visits.pruned _ i (s.setWriter i (some t)) s₃ log hvisits)
      have hrest := hgo hpass halloc
      rw [List.append_nil] at hrest
      exact hrest
    · simp only [Sem, if_neg hfree] at hlock
      obtain ⟨rfl, rfl⟩ := hlock
      exact hgo (.skipped hfree) hs

/-! ## Among the other clients -/

/-- The allocation of which a call has a handle. -/
def Stage.arc {Val : Type} : Stage Val → Option Nat
  | .created _ arc _ => some arc
  | .holding _ arc => some arc
  | .upgraded arc _ => some arc
  | _ => none

variable [BEq Val] {n : Interner Val}

/-- What holds between the steps of any clients of the interner, whatever the counts. -/
structure Kept (g : Nat → Progress Val) (s : Shards Val) : Prop where
  locks : Locks (fun t => (g t).held) s
  allocated : Allocated s
  busy : ∀ t arc, (g t).stage.arc = some arc → s.ext.Busy t arc

omit [BEq Val] in
theorem Arcs.Evolves.length_le {u : Nat} {arcs arcs' : Arcs Val} (h : Arcs.Evolves u arcs arcs') :
    arcs.cells.length ≤ arcs'.cells.length := by
  by_contra hlt
  have hget := List.getElem?_eq_getElem (Nat.not_le.mp hlt)
  obtain ⟨c, hc, -⟩ := h.holds _ _ ⟨_, hget, rfl⟩
  have hlen := (List.getElem?_eq_some_iff.mp hc).1
  omega

namespace Kept

variable {g : Nat → Progress Val} {a : Act (UInt64 × Nat) (Arcs Val) (ArcAct Val)}
  {x : a.Res (handles Val)}

theorem evolves (h : Kept g s) (ha : (discipline n).allows (g t) a)
    (hs : Sem (handles Val) t s a x s') : Arcs.Evolves t s.ext s'.ext := by
  by_cases huser : ∃ y, a = .user y
  · obtain ⟨y, rfl⟩ := huser
    obtain ⟨ext, hsem, rfl⟩ := hs
    refine ArcAct.evolves hsem fun v arc heq => h.busy t arc ?_
    obtain rfl := heq
    rw [show (g t).stage = .holding (matches_ v) arc from ha.2]
    rfl
  · rw [hs.ext_eq fun y hy => huser ⟨y, hy⟩]
    exact .refl t s.ext

omit [BEq Val] in
theorem allocated_setTable (h : Allocated s) {table : Table (UInt64 × Nat)}
    (htable : ∀ e ∈ table.entries, e.2.2 < s.ext.cells.length) :
    Allocated (s.setTable i table) := by
  intro j e he
  by_cases hj : j = i
  · subst hj
    rw [State.setTable_table_self] at he
    exact htable e he
  · rw [State.setTable_table_ne hj] at he
    exact h j e he

omit [BEq Val] in
theorem busy_lt (h : Kept g s) {arc : Nat} (harc : (g t).stage.arc = some arc) :
    arc < s.ext.cells.length := by
  obtain ⟨c, hc, -⟩ := h.busy t arc harc
  exact (List.getElem?_eq_some_iff.mp hc).1

theorem allocated_step (h : Kept g s) (ha : (discipline n).allows (g t) a)
    (hs : Sem (handles Val) t s a x s') : Allocated s' := by
  have hlen := (h.evolves ha hs).length_le
  cases htouch : a.touches with
  | none =>
    intro j e he
    rw [hs.table_eq_of_touches_eq_none htouch] at he
    exact Nat.lt_of_lt_of_le (h.allocated j e he) hlen
  | some i =>
    cases a with
    | tryReserve i additional rehash =>
      obtain ⟨table, hres, rfl⟩ := hs
      refine allocated_setTable h.allocated fun e he => ?_
      have hmem : e.2 ∈ (s.table i).elems := hres.elems_perm.subset (List.mem_map_of_mem he)
      obtain ⟨old, hold, heq⟩ := List.mem_map.mp hmem
      rw [← heq]
      exact h.allocated i old hold
    | insertNoGrow i hash kv =>
      obtain ⟨table, hplaced, rfl⟩ := hs
      obtain ⟨-, v, hstage, -⟩ := ha
      refine allocated_setTable h.allocated fun e he => ?_
      rcases List.mem_cons.mp (hplaced.entries_perm.subset he) with rfl | hold
      · exact h.busy_lt (by rw [hstage]; rfl)
      · exact h.allocated i e hold
    | write i bucket kv =>
      obtain ⟨table, hreplaced, rfl⟩ := hs
      obtain ⟨-, v, hstage, -⟩ := ha
      obtain ⟨hash, old, rest, -, hold, hnew⟩ := hreplaced.entries_perm
      refine allocated_setTable h.allocated fun e he => ?_
      rcases List.mem_cons.mp (hnew.subset he) with rfl | hrest
      · exact h.busy_lt (by rw [hstage]; rfl)
      · exact h.allocated i e (hold.symm.subset (List.mem_cons_of_mem _ hrest))
    | remove i bucket =>
      obtain ⟨table, hremoved, rfl⟩ := hs
      obtain ⟨hash, hperm⟩ := hremoved.entries_perm
      exact allocated_setTable h.allocated fun e he =>
        h.allocated i e (hperm.symm.subset (List.mem_cons_of_mem _ he))
    | findOrFindInsertSlot | insertInSlot | «foreign» => exact ha.2.elim
    | readTable | dropReadGuard | writeTable | tryWriteTable | dropWriteGuard | find | asRef | len
    | iter | user => cases htouch

/-- A step that is not on the allocations leaves a call with the handle it had, at most. -/
theorem arc_next {stage : Stage Val} (ha : ∀ y, a ≠ .user y) {arc : Nat}
    (h : (stage.next a x).arc = some arc) : stage.arc = some arc := by
  cases a with
  | user y => exact absurd rfl (ha y)
  | find i hash eq => cases x <;> cases h
  | iter => cases h
  | dropReadGuard | dropWriteGuard | asRef | write | insertNoGrow | remove =>
    cases stage <;> first | exact h | cases h
  | readTable | writeTable | tryWriteTable | tryReserve | findOrFindInsertSlot | insertInSlot
  | len | «foreign» => exact h

theorem busy_own (h : Kept g s) (ha : (discipline n).allows (g t) a)
    (hs : Sem (handles Val) t s a x s') {arc : Nat}
    (harc : ((g t).stage.next a x).arc = some arc) : s'.ext.Busy t arc := by
  by_cases huser : ∃ y, a = .user y
  · obtain ⟨y, rfl⟩ := huser
    cases y with
    | tryUpgrade weak =>
      rcases tryUpgrade_cases hs with ⟨rfl, -, -⟩ | ⟨rfl, -, -⟩ | ⟨rfl, -, c, hc, rfl⟩
      · rcases ha.2 with ⟨hash, eq, bucket, key, hstage⟩ | ⟨bucket, key, l, hstage⟩
        · rw [hstage] at harc
          cases harc
        · rw [hstage] at harc
          cases harc
      · rcases ha.2 with ⟨hash, eq, bucket, key, hstage⟩ | ⟨bucket, key, l, hstage⟩
        · rw [hstage] at harc
          cases harc
        · rw [hstage] at harc
          cases harc
      · have hbusy : (s.ext.setCell weak { c with busy := insert t c.busy }).Busy t weak :=
          ⟨_, Arcs.setCell_getElem?_self hc _, Finset.mem_insert_self t c.busy⟩
        rcases ha.2 with ⟨hash, eq, bucket, key, hstage⟩ | ⟨bucket, key, l, hstage⟩
        · rw [hstage] at harc
          cases harc
          exact hbusy
        · rw [hstage] at harc
          cases harc
          exact hbusy
    | dropUpgraded arc =>
      obtain ⟨l, hstage⟩ := ha.2
      rw [hstage] at harc
      cases harc
    | createNewArc v =>
      obtain ⟨ext, hsem, rfl⟩ := hs
      obtain ⟨-, hash, hstage⟩ := ha.2
      cases x with
      | error e =>
        rcases hstage with hstage | ⟨bucket, key, hstage⟩
        · rw [hstage] at harc
          cases harc
        · rw [hstage] at harc
          cases harc
      | ok new =>
        obtain ⟨rfl, rfl⟩ := hsem
        have hbusy : Arcs.Busy ⟨s.ext.cells ++ [⟨v, 0, {t}⟩], s.ext.calls⟩ t
            s.ext.cells.length := by
          refine ⟨⟨v, 0, {t}⟩, ?_, Finset.mem_singleton_self t⟩
          rw [List.getElem?_append_right (Nat.le_refl _), Nat.sub_self]
          rfl
        rcases hstage with hstage | ⟨bucket, key, hstage⟩
        · rw [hstage] at harc
          cases harc
          exact hbusy
        · rw [hstage] at harc
          cases harc
          exact hbusy
    | returnArc v arc => cases harc
    | cloneByCaller | dropByCaller | countCall =>
      rw [show (g t).stage = .rest from ha.2] at harc
      cases harc
  · have hno : ∀ y, a ≠ .user y := fun y hy => huser ⟨y, hy⟩
    rw [hs.ext_eq hno]
    exact h.busy t arc (arc_next hno harc)

theorem step (h : Kept g s) (ha : (discipline n).allows (g t) a)
    (hs : Sem (handles Val) t s a x s') :
    Kept (Function.update g t ((discipline n).next (g t) a x)) s' where
  locks := by
    have hlocks := h.locks.step ha.1 hs
    refine (congrArg (Locks · s') (funext fun u => ?_)).mpr hlocks
    by_cases hu : u = t
    · rw [hu, Function.update_self, Function.update_self]
      rfl
    · rw [Function.update_of_ne hu, Function.update_of_ne hu]
  allocated := h.allocated_step ha hs
  busy u arc harc := by
    by_cases hu : u = t
    · subst hu
      rw [Function.update_self] at harc
      exact h.busy_own ha hs harc
    · rw [Function.update_of_ne hu] at harc
      exact (h.evolves ha hs).busy u arc hu (h.busy u arc harc)

/-- The steps of another client are what client `t` reckons with. -/
theorem others {u : Nat} (h : Kept g s) (ha : (discipline n).allows (g u) a)
    (hs : Sem (handles Val) u s a x s') (hu : u ≠ t) : Others t s s' where
  locked i hi := by
    refine ⟨h.locks.writer_eq hu hi ha.1 hs, hs.table_eq fun htouch => ?_⟩
    rw [h.locks.writer u i (ha.1.write_of_touches htouch)] at hi
    exact hu (Option.some.inj hi)
  length_le := (h.evolves ha hs).length_le
  dead := (h.evolves ha hs).dead
  allocated _ := h.allocated_step ha hs

end Kept

theorem discipline_kept {R : Type} :
    (discipline n).Sound .idle (Ends (R := R)) (Sem (handles Val)) Kept where
  act h ha hs := h.step ha hs
  ret {g s t r} h hq := by
    rw [show Progress.idle = g t from hq.symm, Function.update_eq_self]
    exact h

omit [BEq Val] in
theorem Kept.init (hunlocked : s.Unlocked) (halloc : Allocated s) : Kept (fun _ => .idle) s where
  locks := .of_unlocked hunlocked
  allocated := halloc
  busy t arc harc := by cases harc

theorem others_step {g : Nat → Progress Val}
    {pool pool' : Pool (Shards Val) (Act (UInt64 × Nat) (Arcs Val) (ArcAct Val))
      (Act.Res (handles Val)) (Except TryToOwnedError (Option Nat))}
    {e : Nat × Event (Act (UInt64 × Nat) (Arcs Val) (ArcAct Val)) (Act.Res (handles Val))
      (Except TryToOwnedError (Option Nat))}
    (h : Follows (discipline n) .idle Ends Kept g pool)
    (hs : Step (Sem (handles Val)) (Call n) pool e pool') (he : e.1 ≠ t) :
    Others t pool.shared pool'.shared := by
  obtain ⟨u, ev⟩ := e
  cases ev with
  | did a x =>
    obtain ⟨ha, hsem⟩ := h.allows hs
    exact h.shared.others ha hsem he
  | call =>
    cases hs
    exact .refl t _
  | returned r =>
    cases hs
    exact .refl t _

/-- Of any run of any number of clients, from any tables and any counts, and any client `t`
that begins to prune in it: as long as the pruning goes on its next step is not blocked, and
when it has ended its steps were one pass over each shard, in order. -/
theorem prune_passes {s : Shards Val}
    {es es' : List (Nat × Event (Act (UInt64 × Nat) (Arcs Val) (ArcAct Val))
      (Act.Res (handles Val)) (Except TryToOwnedError (Option Nat)))}
    {pool pool' : Pool (Shards Val) (Act (UInt64 × Nat) (Arcs Val) (ArcAct Val))
      (Act.Res (handles Val)) (Except TryToOwnedError (Option Nat))} {log : List (OwnStep Val)}
    {k : Unit → InternMethod Val (Except TryToOwnedError (Option Nat))}
    (hunlocked : s.Unlocked) (halloc : Allocated s)
    (hrun : Run (Step (Sem (handles Val)) (Call n)) ⟨s, fun _ => none⟩ es pool)
    (hprune : pool.prog t = some (n.pruneUnlockedShards >>= k))
    (hrun' : Observed (Step (Sem (handles Val)) (Call n)) t pool es' log pool') :
    (∃ a k', pool'.prog t = some (.act a k' >>= k) ∧
      ∃ x s', Sem (handles Val) t pool'.shared a x s') ∨
    ∃ passes log', log = passes.flatten ++ log' ∧
      List.Forall₂ Pass (List.range n.map.shardCount) passes := by
  have hfollows := follows_of_run discipline_kept (fun _ hp => hp.proceeds)
    (Kept.init hunlocked halloc) hrun
  have hwp := @pruneShards_wp _ t _ (List.range n.map.shardCount) hfollows.shared.allocated
  have hends := hwp.observed
    (I := fun pool => ∃ g, Follows (discipline n) .idle Ends Kept g pool)
    (fun _ _ _ ⟨g, hg⟩ hs => ⟨_, hg.step discipline_kept (fun _ hp => hp.proceeds) hs⟩)
    (fun _ _ _ ⟨g, hg⟩ hs he => others_step hg hs he) hrun' ⟨_, hfollows⟩ hprune
  rcases hends with ⟨rest, hprog, hrest⟩ | ⟨log₁, log₂, _, _, rfl, -, passes, rfl, hpasses⟩
  · cases rest with
    | ret r =>
      obtain ⟨-, passes, hlog, hpasses⟩ := hrest _ .refl
      exact .inr ⟨passes, [], by simpa using hlog, hpasses⟩
    | act a k' => exact .inl ⟨a, k', hprog, (hrest _ .refl).1⟩
  · exact .inr ⟨passes, log₂, rfl, hpasses⟩

end

/-! ## A saturated count -/

/-- Shard 0 has one entry, of an allocation with a given number of handles. -/
def oneEntry (users : Nat) : Shards Nat :=
  sampleState ⟨[some (1, 1, 0)], 0, Nat.zero_le _⟩ [⟨1, users, ∅⟩] 0

theorem oneEntry_unlocked (users : Nat) : (oneEntry users).Unlocked :=
  ⟨fun _ => rfl, fun _ => rfl⟩

theorem oneEntry_allocated (users : Nat) : Allocated (oneEntry users) := by
  intro i e he
  by_cases hi : i = 0
  · subst hi
    rw [List.mem_singleton.mp he]
    exact Nat.one_pos
  · have htable : (oneEntry users).table i = freshTable := by simp [oneEntry, sampleState, hi]
    rw [htable] at he
    exact absurd he List.not_mem_nil

/-- Pruning alone, when the reference is not upgraded: the entry goes, the allocation stays. -/
theorem exec_prune_removes {users : Nat} {r : Except Unit (Option Nat)}
    (hr : r = .ok none ∧ users = 0 ∨ r = .error () ∧ maxRefcount ≤ users) :
    ∃ s', Prog.Exec (Sem (handles Nat) 0) (oneEntry users) sample.pruneUnlockedShards () s' ∧
      (s'.table 0).entries = [] ∧ s'.ext = (oneEntry users).ext := by
  have hlock : Sem (handles Nat) 0 (oneEntry users) (.tryWriteTable 0) true
      ((oneEntry users).setWriter 0 (some 0)) := tryWriteTable_free rfl rfl
  have hupgrade : Sem (handles Nat) 0 ((oneEntry users).setWriter 0 (some 0))
      (.user (.tryUpgrade 0)) r ((oneEntry users).setWriter 0 (some 0)) := by
    refine ⟨_, ⟨_, rfl, ?_⟩, rfl⟩
    change if users = 0 then _ else if maxRefcount ≤ users then _ else _
    rcases hr with ⟨rfl, rfl⟩ | ⟨rfl, hmax⟩
    · exact ⟨rfl, rfl⟩
    · have hpos : users ≠ 0 := by
        unfold maxRefcount at hmax
        omega
      rw [if_neg hpos, if_pos hmax]
      exact ⟨rfl, rfl⟩
  have hremove : Sem (handles Nat) 0 ((oneEntry users).setWriter 0 (some 0)) (.remove 0 0) (1, 0)
      (((oneEntry users).setWriter 0 (some 0)).setTable 0 ⟨[none], 0, Nat.zero_le _⟩) :=
    ⟨⟨[none], 0, Nat.zero_le _⟩, ⟨⟨1, rfl⟩, rfl, .inl rfl⟩, rfl⟩
  have hlock' : Sem (handles Nat) 0 ((((oneEntry users).setWriter 0 (some 0)).setTable 0
      ⟨[none], 0, Nat.zero_le _⟩).setWriter 0 none) (.tryWriteTable 1) true _ :=
    tryWriteTable_free rfl rfl
  have hdrop : ∀ (s : Shards Nat) (i : Nat),
      Sem (handles Nat) 0 s (.dropWriteGuard i) () (s.setWriter i none) := fun _ _ => rfl
  rcases hr with ⟨rfl, -⟩ | ⟨rfl, -⟩
  · exact ⟨_, .act hlock (.act ⟨rfl, rfl⟩ (.act hupgrade (.act hremove (.act (hdrop _ 0)
      (.act hlock' (.act ⟨rfl, rfl⟩ (.act (hdrop _ 1) (.ret _ _)))))))), rfl, rfl⟩
  · exact ⟨_, .act hlock (.act ⟨rfl, rfl⟩ (.act hupgrade (.act hremove (.act (hdrop _ 0)
      (.act hlock' (.act ⟨rfl, rfl⟩ (.act (hdrop _ 1) (.ret _ _)))))))), rfl, rfl⟩

/-- An `Arc` that is alive, with as many handles as there may be, loses its entry. -/
theorem prune_removes_saturated : ∃ s s' : Shards Nat, s.Unlocked ∧ Allocated s ∧
    Prog.Exec (Sem (handles Nat) 0) s sample.pruneUnlockedShards () s' ∧
    (s.table 0).entries = [(1, 1, 0)] ∧ (s'.table 0).entries = [] ∧ s'.ext.Live 0 1 := by
  obtain ⟨s', hexec, hentries, hext⟩ :=
    exec_prune_removes (r := .error ()) (.inr ⟨rfl, Nat.le_refl maxRefcount⟩)
  refine ⟨oneEntry maxRefcount, s', oneEntry_unlocked _, oneEntry_allocated _, hexec, rfl, hentries,
    ?_⟩
  rw [hext]
  exact ⟨_, rfl, rfl, Nat.succ_pos _⟩

/-- The same shards with an `Arc` that died are passed over once each. -/
theorem prune_passes_expired : ∃ (passes : List (List (OwnStep Nat))) (s' : Shards Nat),
    Prog.Exec (Sem (handles Nat) 0) (oneEntry 0) sample.pruneUnlockedShards () s' ∧
      (s'.table 0).entries = [] ∧ List.Forall₂ Pass (List.range 2) passes := by
  obtain ⟨s', hexec, hentries, -⟩ := exec_prune_removes (r := .ok none) (.inl ⟨rfl, rfl⟩)
  let prune : InternMethod Nat (Except TryToOwnedError (Option Nat)) :=
    sample.pruneUnlockedShards >>= fun _ => return .ok none
  have hcall : Step (Sem (handles Nat)) (Call sample) ⟨oneEntry 0, fun _ => none⟩ (0, .call)
      ⟨oneEntry 0, Function.update (fun _ => none) 0 (some prune)⟩ := .call rfl .prune
  have hprog : Function.update (fun _ : Nat => none) 0 (some prune) 0 = some prune :=
    Function.update_self ..
  obtain ⟨es, log, hrun⟩ := observed_of_exec (Sem (handles Nat)) (Call sample) hexec hprog
  rcases prune_passes (oneEntry_unlocked 0) (oneEntry_allocated 0) (.single hcall)
    hprog hrun with ⟨a, k', hprog, -⟩ | ⟨passes, log', -, hpasses⟩
  · simp only [Function.update_self] at hprog
    cases hprog
  · exact ⟨passes, s', hexec, hentries, hpasses⟩

end Rustyfill.Interner
