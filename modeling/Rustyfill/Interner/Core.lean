import Rustyfill.Interner.Basic

/-!
# Live allocations and the table

What the interner keeps between calls: no two live allocations hold equal values, and every
live allocation lies in the shard of its value, placed under the hash of its value. A value
is looked up under that hash, so what a lookup under it does not see is not live.
-/

namespace Rustyfill.Interner

open Maps RawHash

set_option autoImplicit false

section
variable {Val : Type}

namespace Arcs

/-- Allocation `a` was made for `v`. -/
def Holds (arcs : Arcs Val) (a : Nat) (v : Val) : Prop :=
  ∃ c, arcs.cells[a]? = some c ∧ c.val = v

/-- Somebody has a handle of it. -/
def Live (arcs : Arcs Val) (a : Nat) (v : Val) : Prop :=
  ∃ c, arcs.cells[a]? = some c ∧ c.val = v ∧ 0 < c.strong

def Dead (arcs : Arcs Val) (a : Nat) : Prop := ∃ c, arcs.cells[a]? = some c ∧ c.strong = 0

/-- A call of client `t` has a handle of it. -/
def Busy (arcs : Arcs Val) (t a : Nat) : Prop := ∃ c, arcs.cells[a]? = some c ∧ t ∈ c.busy

variable {arcs arcs' : Arcs Val} {a b t : Nat} {v w : Val} {c : Cell Val}

theorem Live.holds (h : arcs.Live a v) : arcs.Holds a v := by
  obtain ⟨c, hc, hv, -⟩ := h
  exact ⟨c, hc, hv⟩

theorem Holds.unique (hv : arcs.Holds a v) (hw : arcs.Holds a w) : v = w := by
  obtain ⟨c, hc, rfl⟩ := hv
  obtain ⟨d, hd, rfl⟩ := hw
  rw [hc] at hd
  cases hd
  rfl

theorem Dead.not_live (h : arcs.Dead a) : ¬arcs.Live a v := by
  rintro ⟨c, hc, -, hpos⟩
  obtain ⟨d, hd, hzero⟩ := h
  rw [hc] at hd
  cases hd
  omega

theorem Busy.strong_pos (h : t ∈ c.busy) : 0 < c.strong := by
  have hcard := Finset.card_pos.mpr ⟨t, h⟩
  unfold Cell.strong
  omega

theorem Busy.live (h : arcs.Busy t a) (hv : arcs.Holds a v) : arcs.Live a v := by
  obtain ⟨c, hc, hmem⟩ := h
  obtain ⟨d, hd, rfl⟩ := hv
  rw [hc] at hd
  cases hd
  exact ⟨c, hc, rfl, strong_pos hmem⟩

/-- What a step of client `u` may do to the allocations there are: their values stay, what is
dead stays dead, and the handles of other clients' calls stay. -/
structure Evolves (u : Nat) (arcs arcs' : Arcs Val) : Prop where
  holds : ∀ a v, arcs.Holds a v → arcs'.Holds a v
  dead : ∀ a, arcs.Dead a → arcs'.Dead a
  busy : ∀ t a, t ≠ u → arcs.Busy t a → arcs'.Busy t a

theorem Evolves.refl (u : Nat) (arcs : Arcs Val) : Evolves u arcs arcs where
  holds _ _ h := h
  dead _ h := h
  busy _ _ _ h := h

theorem Evolves.live (h : Evolves t arcs arcs') (hlen : arcs'.cells.length = arcs.cells.length)
    (hlive : arcs'.Live a v) : arcs.Live a v := by
  obtain ⟨c', hc', rfl, hpos⟩ := hlive
  obtain ⟨hlt, -⟩ := List.getElem?_eq_some_iff.mp hc'
  obtain ⟨c, hc⟩ : ∃ c, arcs.cells[a]? = some c :=
    ⟨_, List.getElem?_eq_getElem (hlen ▸ hlt)⟩
  obtain ⟨d, hd, hval⟩ := h.holds a c.val ⟨c, hc, rfl⟩
  rw [hc'] at hd
  cases hd
  refine ⟨c, hc, hval.symm, Nat.pos_of_ne_zero fun hzero => ?_⟩
  exact (h.dead a ⟨c, hc, hzero⟩).not_live ⟨c', hc', rfl, hpos⟩

theorem setCell_getElem?_self (hc : arcs.cells[a]? = some c) (c' : Cell Val) :
    (arcs.setCell a c').cells[a]? = some c' := by
  obtain ⟨hlt, -⟩ := List.getElem?_eq_some_iff.mp hc
  exact List.getElem?_set_self hlt

theorem setCell_getElem?_ne (h : b ≠ a) (c' : Cell Val) :
    (arcs.setCell a c').cells[b]? = arcs.cells[b]? :=
  List.getElem?_set_ne (Ne.symm h)

theorem evolves_setCell {c' : Cell Val} (hc : arcs.cells[a]? = some c) (hval : c'.val = c.val)
    (hdead : c.strong = 0 → c'.strong = 0) (hbusy : ∀ u, u ≠ t → u ∈ c.busy → u ∈ c'.busy) :
    Evolves t arcs (arcs.setCell a c') where
  holds b v := by
    rintro ⟨d, hd, rfl⟩
    by_cases hb : b = a
    · subst hb
      rw [hc] at hd
      cases hd
      exact ⟨c', setCell_getElem?_self hc c', hval⟩
    · exact ⟨d, by rwa [setCell_getElem?_ne hb], rfl⟩
  dead b := by
    rintro ⟨d, hd, hzero⟩
    by_cases hb : b = a
    · subst hb
      rw [hc] at hd
      cases hd
      exact ⟨c', setCell_getElem?_self hc c', hdead hzero⟩
    · exact ⟨d, by rwa [setCell_getElem?_ne hb], hzero⟩
  busy u b hu := by
    rintro ⟨d, hd, hmem⟩
    by_cases hb : b = a
    · subst hb
      rw [hc] at hd
      cases hd
      exact ⟨c', setCell_getElem?_self hc c', hbusy u hu hmem⟩
    · exact ⟨d, by rwa [setCell_getElem?_ne hb], hmem⟩

theorem evolves_append (cell : Cell Val) (calls : Nat) :
    Evolves t arcs ⟨arcs.cells ++ [cell], calls⟩ where
  holds b v := by
    rintro ⟨d, hd, rfl⟩
    exact ⟨d, List.getElem?_append_left (List.getElem?_eq_some_iff.mp hd).1 ▸ hd, rfl⟩
  dead b := by
    rintro ⟨d, hd, hzero⟩
    exact ⟨d, List.getElem?_append_left (List.getElem?_eq_some_iff.mp hd).1 ▸ hd, hzero⟩
  busy u b _ := by
    rintro ⟨d, hd, hmem⟩
    exact ⟨d, List.getElem?_append_left (List.getElem?_eq_some_iff.mp hd).1 ▸ hd, hmem⟩

theorem live_append {cell : Cell Val} {calls : Nat}
    (h : (⟨arcs.cells ++ [cell], calls⟩ : Arcs Val).Live a v) :
    arcs.Live a v ∨ a = arcs.cells.length ∧ v = cell.val := by
  obtain ⟨c, hc, hval, hpos⟩ := h
  rcases Nat.lt_or_ge a arcs.cells.length with hlt | hge
  · left
    rw [List.getElem?_append_left hlt] at hc
    exact ⟨c, hc, hval, hpos⟩
  · right
    rw [List.getElem?_append_right hge, List.getElem?_singleton] at hc
    split at hc
    · cases hc
      exact ⟨by omega, hval.symm⟩
    · cases hc

end Arcs

/-- A step of client `t` on the allocations; a call returns only a handle it has. -/
theorem ArcAct.evolves {t : Nat} {arcs arcs' : Arcs Val} {x : ArcAct Val} {r : x.Res}
    (h : ArcAct.sem t arcs x r arcs') (hret : ∀ v a, x = .returnArc v a → arcs.Busy t a) :
    Arcs.Evolves t arcs arcs' := by
  cases x with
  | tryUpgrade weak =>
    obtain ⟨c, hc, h⟩ := h
    split at h
    · rw [h.2]
      exact .refl t arcs
    · rename_i hpos
      split at h
      · rw [h.2]
        exact .refl t arcs
      · rw [h.2]
        exact Arcs.evolves_setCell hc rfl (fun hzero => absurd hzero hpos)
          fun u _ hmem => Finset.mem_insert_of_mem hmem
  | dropUpgraded arc =>
    obtain ⟨c, hc, rfl⟩ := h
    refine Arcs.evolves_setCell hc rfl (fun hzero => ?_)
      fun u hu hmem => Finset.mem_erase_of_ne_of_mem hu hmem
    have hle := Finset.card_erase_le (s := c.busy) (a := t)
    unfold Cell.strong at hzero ⊢
    simp only
    omega
  | createNewArc v =>
    cases r with
    | error e =>
      cases h
      exact .refl t arcs
    | ok arc =>
      obtain ⟨-, rfl⟩ := h
      exact Arcs.evolves_append _ _
  | returnArc v arc =>
    obtain ⟨c, hc, rfl⟩ := h
    refine Arcs.evolves_setCell hc rfl (fun hzero => ?_)
      fun u hu hmem => Finset.mem_erase_of_ne_of_mem hu hmem
    obtain ⟨d, hd, hmem⟩ := hret v arc rfl
    rw [hc] at hd
    cases hd
    exact absurd hzero (Nat.pos_iff_ne_zero.mp (Arcs.Busy.strong_pos hmem))
  | cloneByCaller arc =>
    obtain ⟨c, hc, hpos, rfl⟩ := h
    refine Arcs.evolves_setCell hc rfl (fun hzero => ?_) fun u _ hmem => hmem
    unfold Cell.strong at hzero
    omega
  | dropByCaller arc =>
    obtain ⟨c, hc, hpos, rfl⟩ := h
    refine Arcs.evolves_setCell hc rfl (fun hzero => ?_) fun u _ hmem => hmem
    unfold Cell.strong at hzero ⊢
    omega
  | countCall =>
    obtain ⟨-, rfl⟩ := h
    exact ⟨fun _ _ h => h, fun _ h => h, fun _ _ _ h => h⟩

theorem ArcAct.live {t a : Nat} {arcs arcs' : Arcs Val} {x : ArcAct Val} {r : x.Res} {v : Val}
    (h : ArcAct.sem t arcs x r arcs') (hret : ∀ v a, x = .returnArc v a → arcs.Busy t a)
    (hlive : arcs'.Live a v) : arcs.Live a v ∨ a = arcs.cells.length ∧ x = .createNewArc v := by
  by_cases hlen : arcs'.cells.length = arcs.cells.length
  · exact .inl ((ArcAct.evolves h hret).live hlen hlive)
  · cases x with
    | createNewArc w =>
      cases r with
      | error e =>
        cases h
        exact absurd rfl hlen
      | ok arc =>
        obtain ⟨-, rfl⟩ := h
        rcases Arcs.live_append hlive with hold | ⟨ha, hv⟩
        · exact .inl hold
        · exact .inr ⟨ha, by rw [hv]⟩
    | tryUpgrade weak =>
      obtain ⟨c, hc, h⟩ := h
      split at h
      · exact absurd (by rw [h.2]) hlen
      · split at h
        · exact absurd (by rw [h.2]) hlen
        · exact absurd (by rw [h.2]; exact List.length_set) hlen
    | dropUpgraded | returnArc =>
      obtain ⟨c, hc, rfl⟩ := h
      exact absurd List.length_set hlen
    | cloneByCaller | dropByCaller =>
      obtain ⟨c, hc, -, rfl⟩ := h
      exact absurd List.length_set hlen
    | countCall =>
      obtain ⟨-, rfl⟩ := h
      exact absurd rfl hlen

/-! ## What a lookup sees -/

section
variable [BEq Val]

theorem matches_eq_true {v : Val} {arcs : Arcs Val} {kv : UInt64 × Nat} :
    matches_ v arcs kv = true ↔ ∃ c, arcs.cells[kv.2]? = some c ∧ 0 < c.strong ∧
      c.strong < maxRefcount ∧ (c.val == v) = true := by
  unfold matches_
  cases hc : arcs.cells[kv.2]? with
  | none => simp
  | some c => simp [and_assoc]

theorem live_of_matches {v : Val} {arcs : Arcs Val} {kv : UInt64 × Nat}
    (h : matches_ v arcs kv = true) : ∃ w, arcs.Live kv.2 w ∧ w == v := by
  obtain ⟨c, hc, hpos, -, hval⟩ := matches_eq_true.mp h
  exact ⟨c.val, ⟨c, hc, rfl, hpos⟩, hval⟩

theorem not_live_of_matches_eq_false {v w : Val} {arcs : Arcs Val} {kv : UInt64 × Nat}
    (hlt : ∀ c, arcs.cells[kv.2]? = some c → c.strong < maxRefcount)
    (h : matches_ v arcs kv = false) (hlive : arcs.Live kv.2 w) : ¬(w == v) = true := by
  rintro hval
  obtain ⟨c, hc, rfl, hpos⟩ := hlive
  have htrue := matches_eq_true.mpr ⟨c, hc, hpos, hlt c hc, hval⟩
  rw [h] at htrue
  cases htrue

theorem matches_injective [EquivBEq Val] {v w : Val} (h : matches_ v = matches_ w) : v == w := by
  have hv : matches_ v ⟨[⟨v, 1, ∅⟩], 0⟩ (0, 0) = true :=
    matches_eq_true.mpr ⟨⟨v, 1, ∅⟩, rfl, by simp [Cell.strong], by simp [Cell.strong, maxRefcount],
      BEq.rfl⟩
  rw [h] at hv
  obtain ⟨w', hlive, hval⟩ := live_of_matches hv
  obtain ⟨c, hc, rfl, -⟩ := hlive
  cases hc
  exact hval

/-! ## The invariant -/

variable (n : Interner Val)

def shardOf (v : Val) : Nat := n.map.shardIndexInternal (n.hashBorrowed v)

theorem shardOf_eq {v w : Val} (h : v == w) : n.shardOf v = n.shardOf w := by
  unfold shardOf
  rw [n.hash_eq v w h]

/-- An entry of shard `i`: its key is the hash of the value its allocation was made for, and
while that is alive the entry is placed under it. -/
def EntryOk (arcs : Arcs Val) (i : Nat) (e : UInt64 × UInt64 × Nat) : Prop :=
  ∃ v, arcs.Holds e.2.2 v ∧ e.2.1 = n.hashBorrowed v ∧ i = n.shardOf v ∧
    (arcs.Live e.2.2 v → e.1 = e.2.1)

/-- `pending` are the allocations made but not yet stored. -/
structure Core (pending : Nat → Prop) (s : State (UInt64 × Nat) (Arcs Val)) : Prop where
  unique : ∀ a b v w, s.ext.Live a v → s.ext.Live b w → v == w → a = b
  entries : ∀ i, ∀ e ∈ (s.table i).entries, n.EntryOk s.ext i e
  stored : ∀ a v, s.ext.Live a v →
    pending a ∨ ∃ e ∈ (s.table (n.shardOf v)).entries, e.2.2 = a

variable {n}
variable {pending pending' : Nat → Prop} {s s' : State (UInt64 × Nat) (Arcs Val)} {t i : Nat}

theorem EntryOk.evolve {arcs arcs' : Arcs Val} {e : UInt64 × UInt64 × Nat}
    (h : n.EntryOk arcs i e) (hev : Arcs.Evolves t arcs arcs')
    (hlive : ∀ v, arcs.Holds e.2.2 v → arcs'.Live e.2.2 v → arcs.Live e.2.2 v) :
    n.EntryOk arcs' i e := by
  obtain ⟨v, hv, hkey, hi, hplaced⟩ := h
  exact ⟨v, hev.holds _ v hv, hkey, hi, fun hl => hplaced (hlive v hv hl)⟩

theorem Core.evolve (h : Core n pending s) (hev : Arcs.Evolves t s.ext s'.ext)
    (hlive : ∀ a v, s'.ext.Live a v → s.ext.Live a v) (htable : s'.table = s.table) :
    Core n pending s' where
  unique a b v w ha hb hvw := h.unique a b v w (hlive a v ha) (hlive b w hb) hvw
  entries i e he := by
    rw [htable] at he
    exact (h.entries i e he).evolve hev fun v _ hl => hlive _ v hl
  stored a v ha := by
    rw [htable]
    exact h.stored a v (hlive a v ha)

theorem Core.mono (h : Core n pending s) (hp : ∀ a, pending a → pending' a) :
    Core n pending' s where
  unique := h.unique
  entries := h.entries
  stored a v ha := (h.stored a v ha).imp_left (hp a)

/-- A table changes, and what was pending may have been stored in it. -/
theorem Core.setTable (h : Core n pending s) {table : Table (UInt64 × Nat)}
    (hnew : ∀ e ∈ table.entries, n.EntryOk s.ext i e)
    (hkeep : ∀ e ∈ (s.table i).entries, ∀ v, s.ext.Live e.2.2 v →
      ∃ e' ∈ table.entries, e'.2.2 = e.2.2)
    (hpend : ∀ a v, s.ext.Live a v → pending a →
      pending' a ∨ n.shardOf v = i ∧ ∃ e ∈ table.entries, e.2.2 = a) :
    Core n pending' (s.setTable i table) where
  unique := h.unique
  entries j e he := by
    by_cases hj : j = i
    · subst hj
      rw [State.setTable_table_self] at he
      exact hnew e he
    · rw [State.setTable_table_ne hj] at he
      exact h.entries j e he
  stored a v ha := by
    rcases h.stored a v ha with hp | ⟨e, he, rfl⟩
    · refine (hpend a v ha hp).imp_right ?_
      rintro ⟨rfl, e, he, rfl⟩
      exact ⟨e, by rwa [State.setTable_table_self], rfl⟩
    · right
      by_cases hj : n.shardOf v = i
      · obtain ⟨e', he', heq⟩ := hkeep e (hj ▸ he) v ha
        exact ⟨e', by rwa [hj, State.setTable_table_self], heq⟩
      · exact ⟨e, by rwa [State.setTable_table_ne hj], rfl⟩

/-- A reservation, when the rehash closure gives each live entry the hash it lies under. -/
theorem Core.reserve (h : Core n pending s) {table : Table (UInt64 × Nat)} {ok : Bool}
    {additional : Nat} (hres : (s.table i).TryReserve n.rehash additional ok table)
    (hsame : additional ≤ (s.table i).free ∨ ∀ e ∈ (s.table i).entries, ∀ v,
      s.ext.Live e.2.2 v → n.rehash e.2 = e.1) : Core n pending (s.setTable i table) := by
  cases hres with
  | roomy | refused => simpa using h
  | grown hfull hre hfree =>
    have hsame := hsame.resolve_left (Nat.not_le.mpr hfull)
    refine h.setTable (fun e he => ?_) (fun e he v hl => ?_) fun a v ha hp => .inl hp
    · obtain ⟨old, hold, hhash⟩ := hre.mem_entries.mp he
      obtain ⟨v, hv, hkey, hi, hplaced⟩ := h.entries i _ hold
      refine ⟨v, hv, hkey, hi, fun hl => ?_⟩
      rw [hhash, hsame _ hold v hl]
      exact hplaced hl
    · exact ⟨(n.rehash e.2, e.2), hre.mem_entries.mpr ⟨e.1, he, rfl⟩, rfl⟩

/-- An allocation is made for a value no live allocation is equal to. -/
theorem Core.create [EquivBEq Val] (h : Core n pending s) {v : Val} {calls : Nat}
    (hnone : ∀ a w, s.ext.Live a w → ¬(w == v) = true) {cell : Cell Val} (hval : cell.val = v) :
    Core n (fun a => pending a ∨ a = s.ext.cells.length)
      { s with ext := ⟨s.ext.cells ++ [cell], calls⟩ } where
  unique a b u w ha hb huw := by
    rcases Arcs.live_append ha with ha | ⟨rfl, rfl⟩
    · rcases Arcs.live_append hb with hb | ⟨rfl, rfl⟩
      · exact h.unique a b u w ha hb huw
      · exact absurd (hval ▸ huw) (hnone a u ha)
    · rcases Arcs.live_append hb with hb | ⟨rfl, rfl⟩
      · exact absurd (hval ▸ BEq.symm huw) (hnone b w hb)
      · rfl
  entries i e he := by
    refine (h.entries i e he).evolve (Arcs.evolves_append (t := 0) cell calls) fun w hw hl => ?_
    rcases Arcs.live_append hl with hl | ⟨ha, -⟩
    · exact hl
    · obtain ⟨c, hc, -⟩ := hw
      obtain ⟨hlt, -⟩ := List.getElem?_eq_some_iff.mp hc
      omega
  stored a w ha := by
    rcases Arcs.live_append ha with ha | ⟨rfl, rfl⟩
    · exact (h.stored a w ha).imp_left .inl
    · exact .inl (.inr rfl)

theorem Core.remove (h : Core n pending s) {bucket : Nat} {x : UInt64 × Nat}
    {table : Table (UInt64 × Nat)} (hrem : (s.table i).Removed bucket x table)
    (hdead : s.ext.Dead x.2) : Core n pending (s.setTable i table) := by
  obtain ⟨hash, hperm⟩ := hrem.entries_perm
  refine h.setTable (fun e he => ?_) (fun e he v hl => ?_) fun a v ha hp => .inl hp
  · exact h.entries i e (hperm.mem_iff.mpr (List.mem_cons_of_mem _ he))
  · rcases List.mem_cons.mp (hperm.mem_iff.mp he) with rfl | he
    · exact absurd hl hdead.not_live
    · exact ⟨e, he, rfl⟩

/-- The allocation that was pending is stored in a bucket of its own. -/
theorem Core.insert (h : Core n pending s) {slot a : Nat} {v : Val} {table : Table (UInt64 × Nat)}
    (hplaced : (s.table i).Placed slot (n.hashBorrowed v) (n.hashBorrowed v, a) table)
    (hv : s.ext.Holds a v) (hi : i = n.shardOf v) (hpend : ∀ b, pending b → b = a ∨ pending' b) :
    Core n pending' (s.setTable i table) := by
  refine h.setTable (fun e he => ?_) (fun e he v hl => ?_) fun b w hb hp => ?_
  · rcases List.mem_cons.mp (hplaced.entries_perm.mem_iff.mp he) with rfl | he
    · exact ⟨v, hv, rfl, hi, fun _ => rfl⟩
    · exact h.entries i e he
  · exact ⟨e, hplaced.entries_perm.mem_iff.mpr (List.mem_cons_of_mem _ he), rfl⟩
  · rcases hpend b hp with rfl | hp
    · obtain rfl := hv.unique hb.holds
      exact .inr ⟨hi.symm, _, hplaced.entries_perm.mem_iff.mpr List.mem_cons_self, rfl⟩
    · exact .inl hp

/-- The allocation that was pending takes the bucket of a dead one. -/
theorem Core.overwrite (h : Core n pending s) {bucket a w : Nat} {v : Val}
    {table : Table (UInt64 × Nat)}
    (hocc : (s.table i).buckets[bucket]? = some (some (n.hashBorrowed v, n.hashBorrowed v, w)))
    (hrep : (s.table i).Replaced bucket (n.hashBorrowed v, a) table) (hdead : s.ext.Dead w)
    (hv : s.ext.Holds a v) (hi : i = n.shardOf v) (hpend : ∀ b, pending b → b = a ∨ pending' b) :
    Core n pending' (s.setTable i table) := by
  obtain ⟨hash, old, rest, hocc', hold, hnew⟩ := hrep.entries_perm
  rw [hocc] at hocc'
  cases hocc'
  refine h.setTable (fun e he => ?_) (fun e he v hl => ?_) fun b u hb hp => ?_
  · rcases List.mem_cons.mp (hnew.mem_iff.mp he) with rfl | he
    · exact ⟨v, hv, rfl, hi, fun _ => rfl⟩
    · exact h.entries i e (hold.mem_iff.mpr (List.mem_cons_of_mem _ he))
  · rcases List.mem_cons.mp (hold.mem_iff.mp he) with rfl | he
    · exact absurd hl hdead.not_live
    · exact ⟨e, hnew.mem_iff.mpr (List.mem_cons_of_mem _ he), rfl⟩
  · rcases hpend b hp with rfl | hp
    · obtain rfl := hv.unique hb.holds
      exact .inr ⟨hi.symm, _, hnew.mem_iff.mpr List.mem_cons_self, rfl⟩
    · exact .inl hp

/-- No live allocation was made for a value equal to `v`. -/
def NoLive (arcs : Arcs Val) (v : Val) : Prop := ∀ a w, arcs.Live a w → ¬(w == v) = true

/-- What a lookup that finds nothing says, when nothing equal is pending. -/
theorem Core.noLive_of_found [EquivBEq Val] (h : Core n pending s) {v : Val}
    (hpend : ∀ a w, s.ext.Live a w → w == v → ¬pending a)
    (hlt : ∀ e ∈ (s.table (n.shardOf v)).entries, e.1 = n.hashBorrowed v →
      ∀ c, s.ext.cells[e.2.2]? = some c → c.strong < maxRefcount)
    (hfound : (s.table (n.shardOf v)).Found (n.hashBorrowed v) (matches_ v s.ext) none) :
    NoLive s.ext v := by
  intro a w ha hwv
  rcases h.stored a w ha with hp | ⟨e, he, rfl⟩
  · exact hpend a w ha hwv hp
  · rw [n.shardOf_eq hwv] at he
    obtain ⟨u, hu, hkey, -, hplaced⟩ := h.entries _ e he
    obtain rfl := hu.unique ha.holds
    have hhash : e.1 = n.hashBorrowed v := by rw [hplaced ha, hkey, n.hash_eq u v hwv]
    exact not_live_of_matches_eq_false (hlt e he hhash) (hfound e he hhash) ha hwv

theorem Core.of_found [EquivBEq Val] (h : Core n pending s) {v : Val} {hash : UInt64} {bucket : Nat}
    (hfound : (s.table i).Found hash (matches_ v s.ext) (some bucket)) :
    ∃ weak w, (s.table i).buckets[bucket]? =
        some (some (n.hashBorrowed v, n.hashBorrowed v, weak)) ∧
      s.ext.Live weak w ∧ w == v ∧ ∀ b u, s.ext.Live b u → u == v → b = weak := by
  obtain ⟨e, hocc, heq⟩ := hfound
  obtain ⟨w, hlive, hwv⟩ := live_of_matches heq
  obtain ⟨u, hu, hkey, -, hplaced⟩ := h.entries i e (Table.getElem?_mem_entries hocc)
  obtain rfl := hu.unique hlive.holds
  have hkey : e.2.1 = n.hashBorrowed v := by rw [hkey, n.hash_eq u v hwv]
  have he : e = (n.hashBorrowed v, n.hashBorrowed v, e.2.2) :=
    Prod.ext (by rw [hplaced hlive, hkey]) (Prod.ext hkey rfl)
  refine ⟨e.2.2, u, ?_, hlive, hwv, fun b x hb hx => ?_⟩
  · rw [hocc]
    exact congrArg (some ∘ some) he
  · exact h.unique b e.2.2 x u hb hlive (BEq.trans hx (BEq.symm hwv))

end

end

end Rustyfill.Interner
