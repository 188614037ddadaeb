import Rustyfill.Interner.Stages

/-!
# The invariant of the interner

Every step of a call that follows the discipline keeps the table and the live allocations
right, as long as it meets the condition of `Sound`: a reservation that grows a table gives
each live entry the hash it lies under, and no reference that is examined has the strong
count at which an upgrade is refused.
-/

namespace Rustyfill.Interner

open Maps RawHash Interleaving

set_option autoImplicit false

section
variable {Val : Type} [BEq Val] (n : Interner Val)

/-- The condition on a step and the state before it. -/
def Sound (s : State (UInt64 × Nat) (Arcs Val)) : Act (UInt64 × Nat) (Arcs Val) (ArcAct Val) → Prop
  | .tryReserve i additional rehash => additional ≤ (s.table i).free ∨
    ∀ e ∈ (s.table i).entries, ∀ v, s.ext.Live e.2.2 v → rehash e.2 = e.1
  | .find i hash _ => ∀ e ∈ (s.table i).entries, e.1 = hash →
    ∀ c, s.ext.cells[e.2.2]? = some c → c.strong < maxRefcount
  | .user (.tryUpgrade weak) => ∀ c, s.ext.cells[weak]? = some c → c.strong < maxRefcount
  | _ => True

/-- The steps of client `t` that meet a condition. -/
def Meets (P : State (UInt64 × Nat) (Arcs Val) → Act (UInt64 × Nat) (Arcs Val) (ArcAct Val) → Prop)
    (t : Nat) (s : State (UInt64 × Nat) (Arcs Val))
    (a : Act (UInt64 × Nat) (Arcs Val) (ArcAct Val)) (x : a.Res (handles Val))
    (s' : State (UInt64 × Nat) (Arcs Val)) : Prop :=
  P s a ∧ Sem (handles Val) t s a x s'

structure Inv (g : Nat → Progress Val) (s : State (UInt64 × Nat) (Arcs Val)) : Prop where
  locks : Locks (fun t => (g t).held) s
  core : n.Core (fun a => ∃ t, (g t).stage.pending = some a) s
  stages : ∀ t, n.StageOk t (g t) s

variable {n} {g : Nat → Progress Val} {s s' : State (UInt64 × Nat) (Arcs Val)} {t u : Nat}
  {a : Act (UInt64 × Nat) (Arcs Val) (ArcAct Val)} {x : a.Res (handles Val)}

namespace Inv

theorem eq_of_guards (h : n.Inv g s) {i : Nat} (ht : Guards (g t).held i)
    (hu : (g u).held = .write i) : u = t := by
  rcases ht with ht | ht
  · exact absurd ht (h.locks.not_read_of_write hu)
  · exact h.locks.eq_of_write ht hu

/-- Who makes an allocation for `v` has the write guard of its shard. -/
theorem write_of_create (h : n.Inv g s) {v : Val}
    (ha : (discipline n).allows (g u) (.user (.createNewArc v))) :
    (g u).held = .write (n.shardOf v) := by
  obtain ⟨-, ⟨i, hi⟩, hash, hstage⟩ := ha
  have hsought : n.Sought (g u).held hash v := by
    have hok := h.stages u
    rcases hstage with hstage | ⟨bucket, key, hstage⟩
    · rw [StageOk, hstage] at hok
      exact (hok v rfl).1
    · rw [StageOk, hstage] at hok
      exact (hok v rfl).1
  rcases hsought.guard with hg | hg
  · rw [hi] at hg
    cases hg
  · exact hg

theorem returns_own (h : n.Inv g s) {x : ArcAct Val} (ha : (discipline n).allows (g u) (.user x)) :
    ∀ v a, x = .returnArc v a → s.ext.Busy u a := by
  rintro v a rfl
  have hok := h.stages u
  rw [StageOk, show (g u).stage = .holding (matches_ v) a from ha.2] at hok
  exact hok.1

theorem evolves (h : n.Inv g s) (ha : (discipline n).allows (g u) a)
    (hs : Sem (handles Val) u s a x s') : Arcs.Evolves u s.ext s'.ext := by
  by_cases huser : ∃ y, a = .user y
  · obtain ⟨y, rfl⟩ := huser
    obtain ⟨ext, hsem, rfl⟩ := hs
    exact ArcAct.evolves hsem (h.returns_own ha)
  · rw [hs.ext_eq fun y hy => huser ⟨y, hy⟩]
    exact .refl u s.ext

theorem live_step (h : n.Inv g s) (ha : (discipline n).allows (g u) a)
    (hs : Sem (handles Val) u s a x s') {b : Nat} {w : Val} (hlive : s'.ext.Live b w) :
    s.ext.Live b w ∨ a = .user (.createNewArc w) := by
  by_cases huser : ∃ y, a = .user y
  · obtain ⟨y, rfl⟩ := huser
    obtain ⟨ext, hsem, rfl⟩ := hs
    exact (ArcAct.live hsem (h.returns_own ha) hlive).imp_right fun hy => by rw [hy.2]
  · rw [hs.ext_eq fun y hy => huser ⟨y, hy⟩] at hlive
    exact .inl hlive

theorem undisturbed (h : n.Inv g s) (ha : (discipline n).allows (g u) a)
    (hs : Sem (handles Val) u s a x s') (htu : t ≠ u) :
    n.Undisturbed t (g t).held s s' where
  table i hi := h.locks.table_eq (Ne.symm htu) hi ha.1 hs
  holds := (h.evolves ha hs).holds
  dead := (h.evolves ha hs).dead
  busy b hb := (h.evolves ha hs).busy t b htu hb
  live v hv b w hlive hwv := by
    rcases h.live_step ha hs hlive with hold | rfl
    · exact hold
    · rw [← n.shardOf_eq hwv] at hv
      exact absurd (h.eq_of_guards hv (h.write_of_create ha)).symm htu

omit [BEq Val] in
/-- The calls that have nothing pending before and after a step of another. -/
theorem pending_of_ne (h' : Progress Val) {b : Nat} (hnone : (g t).stage.pending = none)
    (hb : ∃ u, (g u).stage.pending = some b) :
    ∃ u, (Function.update g t h' u).stage.pending = some b := by
  obtain ⟨u, hu⟩ := hb
  refine ⟨u, ?_⟩
  have hut : u ≠ t := by
    rintro rfl
    rw [hnone] at hu
    cases hu
  rwa [Function.update_of_ne hut]

/-- Nothing equal to what a client looks up under a guard is pending. -/
theorem not_pending [EquivBEq Val] (h : n.Inv g s) {v : Val}
    (hguard : Guards (g t).held (n.shardOf v))
    (hnone : (g t).stage.pending = none) {b : Nat} {w : Val} (hlive : s.ext.Live b w)
    (hwv : w == v) : ¬∃ u, (g u).stage.pending = some b := by
  rintro ⟨u, hu⟩
  have hok := h.stages u
  unfold StageOk at hok
  split at hok <;> rename_i hstage
  all_goals rw [hstage] at hu
  all_goals cases hu
  obtain ⟨hheld, -, hholds, -⟩ := hok
  obtain rfl := hholds.unique hlive.holds
  rw [n.shardOf_eq hwv] at hheld
  obtain rfl := h.eq_of_guards hguard hheld
  rw [hstage] at hnone
  cases hnone

theorem pending_eq_none (ha : (discipline n).allows (g t) a)
    (hwrite : ∀ i bucket x, a ≠ .write i bucket x)
    (hinsert : ∀ i hash x, a ≠ .insertNoGrow i hash x) : (g t).stage.pending = none := by
  obtain ⟨-, ha⟩ := ha
  cases a with
  | readTable | writeTable | tryWriteTable => rw [show (g t).stage = .rest from ha]; rfl
  | iter => rw [ha.1]; rfl
  | dropReadGuard | dropWriteGuard => exact ha
  | tryReserve => rw [ha.1]; rfl
  | find => rw [ha.1]; rfl
  | asRef =>
    obtain ⟨hash, eq, hstage, -⟩ := ha
    rw [hstage]
    rfl
  | write i bucket x => exact absurd rfl (hwrite i bucket x)
  | insertNoGrow i hash x => exact absurd rfl (hinsert i hash x)
  | remove =>
    obtain ⟨kv, l, hstage⟩ := ha
    rw [hstage]
    rfl
  | user y =>
    cases y with
    | tryUpgrade =>
      rcases ha with ⟨hash, eq, bucket, key, hstage⟩ | ⟨bucket, key, l, hstage⟩
      · rw [hstage]; rfl
      · rw [hstage]; rfl
    | dropUpgraded =>
      obtain ⟨l, hstage⟩ := ha
      rw [hstage]
      rfl
    | createNewArc =>
      obtain ⟨-, hash, hstage | ⟨bucket, key, hstage⟩⟩ := ha
      · rw [hstage]; rfl
      · rw [hstage]; rfl
    | returnArc => rw [show (g t).stage = _ from ha]; rfl
    | cloneByCaller | dropByCaller | countCall => rw [show (g t).stage = .rest from ha]; rfl
  | findOrFindInsertSlot | insertInSlot | len | «foreign» => exact ha.elim

theorem core_frame (h : n.Inv g s) (ha : (discipline n).allows (g t) a)
    (hs : Sem (handles Val) t s a x s') (h' : Progress Val) (htable : s'.table = s.table)
    (hcreate : ∀ v, a ≠ .user (.createNewArc v)) (hnone : (g t).stage.pending = none) :
    n.Core (fun b => ∃ u, (Function.update g t h' u).stage.pending = some b) s' := by
  refine (h.core.evolve (h.evolves ha hs) (fun b v hlive => ?_) htable).mono
    fun b hb => pending_of_ne h' hnone hb
  exact (h.live_step ha hs hlive).resolve_right (hcreate v)

omit [BEq Val] in
/-- What was pending is what client `t` had pending, or is pending still. -/
theorem pending_split (h' : Progress Val) {arc : Nat} (harc : (g t).stage.pending = some arc)
    {b : Nat} (hb : ∃ u, (g u).stage.pending = some b) :
    b = arc ∨ ∃ u, (Function.update g t h' u).stage.pending = some b := by
  obtain ⟨u, hu⟩ := hb
  by_cases hut : u = t
  · subst hut
    rw [harc] at hu
    cases hu
    exact .inl rfl
  · exact .inr ⟨u, by rwa [Function.update_of_ne hut]⟩

theorem core_step [EquivBEq Val] (h : n.Inv g s) (ha : (discipline n).allows (g t) a)
    (hsound : Sound s a) (hs : Sem (handles Val) t s a x s') :
    n.Core (fun b => ∃ u, (Function.update g t ((discipline n).next (g t) a x) u).stage.pending =
      some b) s' := by
  cases a with
  | readTable | writeTable | tryWriteTable | dropReadGuard | dropWriteGuard | find | asRef | iter =>
    exact h.core_frame ha hs _ (hs.table_eq_of_touches_eq_none rfl) (by simp)
      (pending_eq_none ha (by simp) (by simp))
  | tryReserve i additional rehash =>
    have hnone := pending_eq_none ha (by simp) (by simp)
    obtain ⟨-, -, rfl⟩ := ha
    obtain ⟨table, hres, rfl⟩ := hs
    exact (h.core.reserve hres hsound).mono fun b hb => pending_of_ne _ hnone hb
  | write i bucket kv =>
    obtain ⟨-, v, hstage, rfl⟩ := ha
    have hok := h.stages t
    rw [StageOk, hstage] at hok
    obtain ⟨-, -, hholds, hinto⟩ := hok
    obtain ⟨hkey, weak, hocc, hdead⟩ := hinto bucket kv.1 rfl
    obtain ⟨table, hrep, rfl⟩ := hs
    rw [show kv = (n.hashBorrowed v, kv.2) from Prod.ext hkey rfl] at hrep
    exact h.core.overwrite hocc hrep hdead hholds rfl fun b hb =>
      pending_split _ (by rw [hstage]; rfl) hb
  | insertNoGrow i hash kv =>
    obtain ⟨-, v, hstage, hkey, rfl, rfl⟩ := ha
    have hok := h.stages t
    rw [StageOk, hstage] at hok
    obtain ⟨-, -, hholds, -⟩ := hok
    obtain ⟨table, hplaced, rfl⟩ := hs
    rw [show kv = (n.hashBorrowed v, kv.2) from Prod.ext hkey rfl] at hplaced
    exact h.core.insert hplaced hholds rfl fun b hb => pending_split _ (by rw [hstage]; rfl) hb
  | remove i bucket =>
    have hnone := pending_eq_none ha (by simp) (by simp)
    obtain ⟨hheld, kv, l, hstage⟩ := ha
    have hok := h.stages t
    rw [StageOk, hstage] at hok
    obtain ⟨⟨-, j, hj, hlisted⟩, hdead⟩ := hok
    rw [show (g t).held = .write i from hheld] at hj
    cases hj
    obtain ⟨hash, hocc⟩ := hlisted (bucket, kv) List.mem_cons_self
    obtain ⟨table, hrem, rfl⟩ := hs
    obtain ⟨hash', hocc'⟩ := hrem.occupied
    rw [hocc] at hocc'
    cases hocc'
    exact (h.core.remove hrem (hdead (bucket, kv) l rfl)).mono fun b hb => pending_of_ne _ hnone hb
  | user y =>
    have hnone := pending_eq_none ha (by simp) (by simp)
    by_cases hcreate : ∃ v, y = .createNewArc v
    · obtain ⟨v, rfl⟩ := hcreate
      cases x with
      | error e =>
        obtain ⟨ext, rfl, rfl⟩ := hs
        exact h.core.mono fun b hb => pending_of_ne _ hnone hb
      | ok arc =>
        obtain ⟨-, -, hash, hstage⟩ := ha
        have hok := h.stages t
        rw [StageOk] at hok
        obtain ⟨ext, ⟨rfl, rfl⟩, rfl⟩ := hs
        have hnew : ((discipline n).next (g t) (.user (.createNewArc v))
            (.ok s.ext.cells.length)).stage.pending = some s.ext.cells.length := by
          rcases hstage with hstage | ⟨bucket, key, hstage⟩
          · rw [next_of_stage hstage]
            rfl
          · rw [next_of_stage hstage]
            rfl
        have hlive : NoLive s.ext v := by
          rcases hstage with hstage | ⟨bucket, key, hstage⟩
          · rw [hstage] at hok
            exact (hok v rfl).2
          · rw [hstage] at hok
            exact (hok v rfl).2.2.2
        refine (h.core.create hlive rfl).mono fun b hb => ?_
        rcases hb with hb | rfl
        · exact pending_of_ne _ hnone hb
        · exact ⟨t, by rwa [Function.update_self]⟩
    · exact h.core_frame ha hs _ (hs.table_eq_of_touches_eq_none rfl)
        (fun v hv => hcreate ⟨v, by cases hv; rfl⟩) hnone
  | findOrFindInsertSlot | insertInSlot | len | «foreign» => exact ha.2.elim

/-! ### The stage of the client itself -/

theorem own_find [EquivBEq Val] (h : n.Inv g s) {i : Nat} {hash : UInt64}
    {eq : Arcs Val → UInt64 × Nat → Bool} {r : Option Nat}
    (ha : (discipline n).allows (g t) (.find i hash eq)) (hsound : Sound s (.find i hash eq))
    (hfound : (s.table i).Found hash (eq s.ext) r) :
    n.StageOk t ((discipline n).next (g t) (.find i hash eq) r) s := by
  have hnone := pending_eq_none ha (by simp) (by simp)
  obtain ⟨hguard, -, v₀, rfl, rfl, rfl⟩ := ha
  have hsought : ∀ v, matches_ v₀ = matches_ v → n.hashBorrowed v₀ = n.hashBorrowed v ∧
      n.shardOf v₀ = n.shardOf v := fun v hv =>
    ⟨n.hash_eq _ _ (matches_injective hv), n.shardOf_eq (matches_injective hv)⟩
  cases r with
  | some bucket =>
    intro v hv
    obtain ⟨hhash, hshard⟩ := hsought v hv
    rw [hv] at hfound
    obtain ⟨weak, w, hocc, hlive, hwv, honly⟩ := h.core.of_found hfound
    exact ⟨⟨hhash, hshard ▸ hguard⟩, weak, hshard ▸ hocc, ⟨w, hlive.holds, hwv⟩, honly⟩
  | none =>
    intro v hv
    obtain ⟨hhash, hshard⟩ := hsought v hv
    have hguard' : Guards (g t).held (n.shardOf v) := hshard ▸ hguard
    refine ⟨⟨hhash, hguard'⟩, h.core.noLive_of_found
      (fun b w hlive hwv => h.not_pending hguard' hnone hlive hwv) (hshard ▸ hhash ▸ hsound) ?_⟩
    rw [hv, hhash, hshard] at hfound
    exact hfound

theorem own_asRef (h : n.Inv g s) {i bucket : Nat} {kv : UInt64 × Nat}
    (ha : (discipline n).allows (g t) (.asRef i bucket))
    (hocc : ∃ hash, (s.table i).buckets[bucket]? = some (some (hash, kv))) :
    n.StageOk t ((discipline n).next (g t) (.asRef i bucket) kv) s := by
  obtain ⟨-, hash, eq, hstage, rfl⟩ := ha
  have hok := h.stages t
  rw [StageOk, hstage] at hok
  rw [next_of_stage hstage]
  intro v hv
  obtain ⟨hsought, weak, hf⟩ := hok v hv
  obtain ⟨hash', hocc⟩ := hocc
  rw [hsought.hash] at hocc
  have hentry := hf.entry
  rw [shardOf, hocc] at hentry
  cases hentry
  exact ⟨hsought, hsought.hash.symm, hf⟩

omit [BEq Val] in
/-- An upgrade finds the allocation dead, or gives the client a handle of it. -/
theorem upgrade_cases {weak : Nat} {r : Except Unit (Option Nat)} {ext : Arcs Val}
    (hsem : ArcAct.sem t s.ext (.tryUpgrade weak) r ext)
    (hsound : Sound s (.user (.tryUpgrade weak))) :
    (r = .ok none ∧ ext = s.ext ∧ s.ext.Dead weak) ∨
      (r = .ok (some weak) ∧ ext.Busy t weak) := by
  obtain ⟨c, hc, hsem⟩ := hsem
  split at hsem
  · rename_i hzero
    exact .inl ⟨hsem.1, hsem.2, c, hc, hzero⟩
  · split at hsem
    · rename_i hmax
      exact absurd (hsound c hc) (Nat.not_lt.mpr hmax)
    · refine .inr ⟨hsem.1, ?_⟩
      rw [hsem.2]
      exact ⟨_, Arcs.setCell_getElem?_self hc _, Finset.mem_insert_self t c.busy⟩

omit [BEq Val] in
theorem Listed.tail {held : Held} {b : Nat × UInt64 × Nat} {l : List (Nat × UInt64 × Nat)}
    (hl : Listed s held (b :: l)) : Listed s held l := by
  obtain ⟨hnodup, i, hheld, hentry⟩ := hl
  exact ⟨(List.nodup_cons.mp hnodup).2, i, hheld, fun b hb => hentry b (List.mem_cons_of_mem _ hb)⟩

theorem own_tryUpgrade (h : n.Inv g s) {weak : Nat} {r : Except Unit (Option Nat)} {ext : Arcs Val}
    (ha : (discipline n).allows (g t) (.user (.tryUpgrade weak)))
    (hsound : Sound s (.user (.tryUpgrade weak)))
    (hsem : ArcAct.sem t s.ext (.tryUpgrade weak) r ext) :
    n.StageOk t ((discipline n).next (g t) (.user (.tryUpgrade weak)) r) { s with ext := ext } := by
  have hev := ArcAct.evolves hsem (h.returns_own ha)
  have hok := h.stages t
  obtain ⟨-, ⟨hash, eq, bucket, key, hstage⟩ | ⟨bucket, key, l, hstage⟩⟩ := ha
  · rw [StageOk, hstage] at hok
    rcases upgrade_cases hsem hsound with ⟨rfl, rfl, hdead⟩ | ⟨rfl, hbusy⟩
    · rw [next_of_stage hstage]
      intro v hv
      obtain ⟨hsought, hkey, hf⟩ := hok v hv
      refine ⟨hsought, hkey, ⟨weak, hf.entry, hdead⟩, fun b w hlive hwv => ?_⟩
      obtain rfl := hf.only b w hlive hwv
      exact hdead.not_live hlive
    · rw [next_of_stage hstage]
      refine ⟨hbusy, fun v hv => ?_⟩
      obtain ⟨-, -, hf⟩ := hok v hv
      obtain ⟨w, hw, hwv⟩ := hf.equal
      exact ⟨w, hev.holds _ _ hw, hwv⟩
  · rw [StageOk, hstage] at hok
    rcases upgrade_cases hsem hsound with ⟨rfl, rfl, hdead⟩ | ⟨rfl, hbusy⟩
    · rw [next_of_stage hstage]
      refine ⟨hok, fun b rest hl => ?_⟩
      cases hl
      exact hdead
    · rw [next_of_stage hstage]
      exact ⟨hbusy, Listed.tail hok⟩

theorem own_createNewArc (h : n.Inv g s) {v : Val} {r : Except TryToOwnedError Nat} {ext : Arcs Val}
    (ha : (discipline n).allows (g t) (.user (.createNewArc v)))
    (hsem : ArcAct.sem t s.ext (.createNewArc v) r ext) :
    n.StageOk t ((discipline n).next (g t) (.user (.createNewArc v)) r) { s with ext := ext } := by
  have hheld := h.write_of_create ha
  have hok := h.stages t
  obtain ⟨-, -, hash, hstage⟩ := ha
  cases r with
  | error e =>
    rcases hstage with hstage | ⟨bucket, key, hstage⟩
    · rw [next_of_stage hstage]
      trivial
    · rw [next_of_stage hstage]
      trivial
  | ok arc =>
    obtain ⟨rfl, rfl⟩ := hsem
    have hcell : (s.ext.cells ++ [⟨v, 0, {t}⟩])[s.ext.cells.length]? = some ⟨v, 0, {t}⟩ := by simp
    have hbusy : (⟨s.ext.cells ++ [⟨v, 0, {t}⟩], s.ext.calls⟩ : Arcs Val).Busy t
        s.ext.cells.length := ⟨_, hcell, Finset.mem_singleton_self t⟩
    have hholds : (⟨s.ext.cells ++ [⟨v, 0, {t}⟩], s.ext.calls⟩ : Arcs Val).Holds
        s.ext.cells.length v := ⟨_, hcell, rfl⟩
    rcases hstage with hstage | ⟨bucket, key, hstage⟩
    · rw [next_of_stage hstage]
      exact ⟨hheld, hbusy, hholds, by simp⟩
    · rw [StageOk, hstage] at hok
      obtain ⟨hsought, hkey, ⟨weak, hocc, hdead⟩, -⟩ := hok v rfl
      rw [next_of_stage hstage]
      refine ⟨hheld, hbusy, hholds, fun b k hb => ?_⟩
      cases hb
      exact ⟨hkey.trans hsought.hash, weak, hocc, (Arcs.evolves_append (t := t) _ _).dead _ hdead⟩

theorem own_store [EquivBEq Val] {held : Held} {v : Val} {arc : Nat} {into : Option (Nat × UInt64)}
    (hok : n.StageOk t ⟨held, .created v arc into⟩ s) (hext : s'.ext = s.ext) :
    n.StageOk t ⟨held, .holding (matches_ v) arc⟩ s' := by
  obtain ⟨-, hbusy, hholds, -⟩ := hok
  refine ⟨hext ▸ hbusy, fun w hw => ⟨v, hext ▸ hholds, ?_⟩⟩
  exact matches_injective hw

omit [BEq Val] in
theorem own_remove {held : Held} {i bucket : Nat} {kv : UInt64 × Nat}
    {l : List (Nat × UInt64 × Nat)} {table : Table (UInt64 × Nat)}
    (hl : Listed s held ((bucket, kv) :: l)) (hheld : held = .write i)
    (hrem : (s.table i).Removed bucket kv table) : Listed (s.setTable i table) held l := by
  obtain ⟨hnodup, j, hj, hentry⟩ := hl
  obtain ⟨hnot, hnodup⟩ := List.nodup_cons.mp hnodup
  rw [hheld] at hj
  cases hj
  refine ⟨hnodup, i, hheld, fun b hb => ?_⟩
  have hne : bucket ≠ b.1 := by
    intro heq
    apply hnot
    rw [show (bucket, kv).1 = b.1 from heq]
    exact List.mem_map_of_mem hb
  rw [State.setTable_table_self, hrem.buckets, List.getElem?_set_ne hne]
  exact hentry b (List.mem_cons_of_mem _ hb)

omit [BEq Val] in
theorem own_iter {held : Held} {i : Nat} (hheld : held = .write i) :
    Listed s held (s.table i).full :=
  ⟨Table.full_nodup _, i, hheld, fun _ hb => Table.mem_full.mp hb⟩

theorem own_user [EquivBEq Val] (h : n.Inv g s) {y : ArcAct Val} {r : y.Res} {ext : Arcs Val}
    (ha : (discipline n).allows (g t) (.user y)) (hsound : Sound s (.user y))
    (hsem : ArcAct.sem t s.ext y r ext) :
    n.StageOk t ((discipline n).next (g t) (.user y) r) { s with ext := ext } := by
  cases y with
  | tryUpgrade weak => exact h.own_tryUpgrade ha hsound hsem
  | dropUpgraded arc =>
    have hok := h.stages t
    obtain ⟨-, l, hstage⟩ := ha
    rw [StageOk, hstage] at hok
    rw [next_of_stage hstage]
    exact hok.2
  | createNewArc v => exact h.own_createNewArc ha hsem
  | returnArc v arc => trivial
  | cloneByCaller | dropByCaller | countCall =>
    have hstage : (g t).stage = .rest := ha.2
    rw [next_of_stage hstage]
    trivial

theorem own_stage [EquivBEq Val] (h : n.Inv g s) (ha : (discipline n).allows (g t) a)
    (hsound : Sound s a) (hs : Sem (handles Val) t s a x s') :
    n.StageOk t ((discipline n).next (g t) a x) s' := by
  have hok := h.stages t
  cases a with
  | readTable | writeTable | tryWriteTable =>
    have hstage : (g t).stage = .rest := ha.2
    rw [next_of_stage hstage]
    trivial
  | dropReadGuard | dropWriteGuard =>
    have hext := hs.ext_eq (by simp)
    cases hstage : (g t).stage with
    | holding eq arc =>
      rw [StageOk, hstage] at hok
      rw [next_of_stage hstage, StageOk, hext]
      exact hok
    | _ =>
      rw [next_of_stage hstage]
      trivial
  | tryReserve =>
    have hstage : (g t).stage = .rest := ha.2.1
    rw [next_of_stage hstage]
    trivial
  | find =>
    obtain ⟨hfound, rfl⟩ := hs
    exact h.own_find ha hsound hfound
  | asRef =>
    obtain ⟨hocc, rfl⟩ := hs
    exact h.own_asRef ha hocc
  | iter =>
    obtain ⟨rfl, rfl⟩ := hs
    exact own_iter ha.2.2
  | write =>
    have hext := hs.ext_eq (by simp)
    obtain ⟨-, v, hstage, -⟩ := ha
    rw [StageOk, hstage] at hok
    rw [next_of_stage hstage]
    exact own_store hok hext
  | insertNoGrow =>
    have hext := hs.ext_eq (by simp)
    obtain ⟨-, v, hstage, -⟩ := ha
    rw [StageOk, hstage] at hok
    rw [next_of_stage hstage]
    exact own_store hok hext
  | remove i bucket =>
    obtain ⟨hheld, kv, l, hstage⟩ := ha
    rw [StageOk, hstage] at hok
    obtain ⟨⟨hnodup, j, hj, hlisted⟩, -⟩ := hok
    rw [show (g t).held = .write i from hheld] at hj
    cases hj
    obtain ⟨hash, hocc⟩ := hlisted (bucket, kv) List.mem_cons_self
    obtain ⟨table, hrem, rfl⟩ := hs
    obtain ⟨hash', hocc'⟩ := hrem.occupied
    rw [hocc] at hocc'
    cases hocc'
    rw [next_of_stage hstage]
    exact own_remove ⟨hnodup, i, hheld, hlisted⟩ hheld hrem
  | user y =>
    obtain ⟨ext, hsem, rfl⟩ := hs
    exact h.own_user ha hsound hsem
  | findOrFindInsertSlot | insertInSlot | len | «foreign» => exact ha.2.elim

theorem step [EquivBEq Val] (h : n.Inv g s) (ha : (discipline n).allows (g t) a)
    (hs : Meets Sound t s a x s') :
    n.Inv (Function.update g t ((discipline n).next (g t) a x)) s' where
  locks := by
    have hlocks := h.locks.step ha.1 hs.2
    refine (congrArg (Locks · s') (funext fun u => ?_)).mpr hlocks
    by_cases hu : u = t
    · rw [hu, Function.update_self, Function.update_self]
      rfl
    · rw [Function.update_of_ne hu, Function.update_of_ne hu]
  core := h.core_step ha hs.1 hs.2
  stages u := by
    by_cases hu : u = t
    · rw [hu, Function.update_self]
      exact h.own_stage ha hs.1 hs.2
    · rw [Function.update_of_ne hu]
      exact (h.stages u).undisturbed (h.undisturbed ha hs.2 hu)

theorem empty (hunlocked : s.Unlocked) (hentries : ∀ i, (s.table i).entries = [])
    (hcells : s.ext.cells = []) : n.Inv (fun _ => .idle) s where
  locks := .of_unlocked hunlocked
  core :=
    { unique := by
        rintro a b v w ⟨c, hc, -⟩
        simp [hcells] at hc
      entries := by simp [hentries]
      stored := by
        rintro a v ⟨c, hc, -⟩
        simp [hcells] at hc }
  stages _ := trivial

end Inv

/-- The invariant of the discipline, for a call that ends with nothing in hand. -/
theorem discipline_sound [EquivBEq Val] {R : Type} :
    (discipline n).Sound .idle (Ends (R := R)) (Meets Sound) n.Inv where
  act h ha hs := h.step ha hs
  ret {g s t r} h hq := by
    rw [show Progress.idle = g t from hq.symm, Function.update_eq_self]
    exact h

end

end Rustyfill.Interner
