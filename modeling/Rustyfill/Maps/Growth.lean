import Rustyfill.Maps.Locks

/-!
# Growth only where it can fail

A discipline for the methods that insert: reserve under the write guard, look up and store
under the same guard, and after a failure, do nothing but drop the guard and report it.
Whatever mix of clients follows it, no table is ever asked to grow where it cannot report
that the memory was refused.
-/

namespace Rustyfill.Maps

open RawHash Interleaving Transition

set_option autoImplicit false

/-- How far a call is: `reserved` while it holds a guard under which it has reserved a
bucket, `changed` once it may have changed the contents. -/
inductive Phase where
  | fresh
  | reserved
  | changed
  | failed
deriving DecidableEq

structure Ghost where
  held : Held
  phase : Phase

@[simp] def Ghost.idle : Ghost := ⟨.none, .fresh⟩

/-- What a call reports. -/
inductive Outcome where
  | ok
  | err
  | panic
deriving DecidableEq

@[simp] def outcome {ε α : Type} : Except ε α → Outcome
  | .ok _ => .ok
  | .error _ => .err

variable {T E X : Type} {o : Outside E X}

@[simp] def Phase.allows (o : Outside E X) (p : Phase) : Act T E X → Prop
  | .dropReadGuard _ | .dropWriteGuard _ => True
  | .tryReserve _ additional _ => (p = .fresh ∨ p = .reserved) ∧ 0 < additional
  | .findOrFindInsertSlot .. | .insertInSlot .. | .insertNoGrow .. => p = .reserved
  | .user x => p ≠ .failed ∧ (p = .changed → ∀ r, o.fails x r = false)
  | _ => p ≠ .failed

@[simp] def Phase.next (o : Outside E X) (p : Phase) : (a : Act T E X) → a.Res o → Phase
  | .dropWriteGuard _, _ => if p = .reserved then .fresh else p
  | .tryReserve .., r => if r.isOk then .reserved else .failed
  | .insertInSlot .., _ | .insertNoGrow .., _ | .write .., _ | .remove .., _ | .foreign .., _ =>
    .changed
  | .user x, r => if o.fails x r then .failed else p
  | _, _ => p

def growthDiscipline (o : Outside E X) : Discipline (Act T E X) (Act.Res o) Ghost where
  allows h a := h.held.allows a ∧ h.phase.allows o a
  next h a x := ⟨h.held.next a x, h.phase.next o a x⟩

@[simp] theorem growthDiscipline_allows {h : Ghost} {a : Act T E X} :
    (growthDiscipline o).allows h a ↔ h.held.allows a ∧ h.phase.allows o a := Iff.rfl

@[simp] theorem growthDiscipline_next {h : Ghost} {a : Act T E X} {x : a.Res o} :
    (growthDiscipline o).next h a x = ⟨h.held.next a x, h.phase.next o a x⟩ := rfl

/-- A call ends without a guard, reports every failure, and returns after a change. -/
structure Reports (h : Ghost) (r : Outcome) : Prop where
  dropped : h.held = .none
  failed : h.phase = .failed → r = .err
  unchanged : r ≠ .ok → h.phase ≠ .changed

@[simp] theorem reports_ok {h : Ghost} : Reports h .ok ↔ h.held = .none ∧ h.phase ≠ .failed := by
  constructor
  · intro hr
    exact ⟨hr.dropped, fun hf => by cases hr.failed hf⟩
  · rintro ⟨hheld, hphase⟩
    exact ⟨hheld, fun hf => absurd hf hphase, fun hr => absurd rfl hr⟩

@[simp] theorem reports_err {h : Ghost} :
    Reports h .err ↔ h.held = .none ∧ h.phase ≠ .changed := by
  constructor
  · intro hr
    exact ⟨hr.dropped, hr.unchanged (by simp)⟩
  · rintro ⟨hheld, hphase⟩
    exact ⟨hheld, fun _ => rfl, fun _ => hphase⟩

/-- The shared state against what the clients have done so far. -/
structure Inv (g : Nat → Ghost) (s : State T E) : Prop where
  locks : Locks (fun t => (g t).held) s
  reserved : ∀ t, (g t).phase = .reserved →
    ∃ i, (g t).held = .write i ∧ 0 < (s.table i).free

namespace Inv

variable {g : Nat → Ghost} {s s' : State T E} {t : Nat} {a : Act T E X} {x : a.Res o}

theorem of_unlocked (h : s.Unlocked) : Inv (fun _ => .idle) s where
  locks := .of_unlocked h
  reserved := by simp [Ghost.idle]

theorem free_of_needsSlot (h : Inv g s) (ha : (growthDiscipline o).allows (g t) a) {i : Nat}
    (hi : a.needsSlot = some i) : s.writer i = some t ∧ 0 < (s.table i).free := by
  have hphase : (g t).phase = .reserved := by
    cases a <;> cases hi <;> exact ha.2
  have hheld : (g t).held = .write i := by
    cases a <;> cases hi <;> exact ha.1
  obtain ⟨j, hj, hfree⟩ := h.reserved t hphase
  rw [hheld] at hj
  cases hj
  exact ⟨h.locks.writer t i hheld, hfree⟩

theorem reserved_self (h : Inv g s) (ha : (growthDiscipline o).allows (g t) a)
    (hs : Sem o t s a x s') (hphase : (g t).phase.next o a x = .reserved) :
    ∃ i, (g t).held.next a x = .write i ∧ 0 < (s'.table i).free := by
  obtain ⟨hheld, hallow⟩ := ha
  cases a with
  | readTable | writeTable | tryWriteTable =>
    obtain ⟨i, hi, -⟩ := h.reserved t hphase
    rw [hi] at hheld
    cases hheld
  | dropReadGuard =>
    obtain ⟨i, hi, -⟩ := h.reserved t hphase
    rw [hi] at hheld
    cases hheld
  | dropWriteGuard =>
    simp only [Phase.next] at hphase
    split at hphase
    · cases hphase
    · contradiction
  | tryReserve i additional =>
    obtain ⟨table, hres, rfl⟩ := hs
    refine ⟨i, hheld, ?_⟩
    cases hok : x.isOk with
    | false => simp [Phase.next, hok] at hphase
    | true =>
      rw [hok] at hres
      rw [State.setTable_table_self]
      exact Nat.lt_of_lt_of_le hallow.2 hres.free_le
  | find | asRef | len | iter =>
    obtain ⟨-, rfl⟩ := hs
    exact h.reserved t hphase
  | findOrFindInsertSlot i =>
    obtain ⟨j, hj, hfree⟩ := h.reserved t hallow
    obtain rfl : j = i := by
      rw [show (g t).held = .write i from hheld] at hj
      cases hj
      rfl
    obtain ⟨table, hres, -, rfl⟩ := hs
    refine ⟨j, hj, ?_⟩
    rw [hres.eq_of_free hfree, State.setTable_table_self]
    exact hfree
  | insertInSlot | insertNoGrow | write | remove | «foreign» => cases hphase
  | user y =>
    simp only [Phase.next] at hphase
    split at hphase
    · cases hphase
    · obtain ⟨i, hi, hfree⟩ := h.reserved t hphase
      obtain ⟨ext, -, rfl⟩ := hs
      exact ⟨i, hi, hfree⟩

theorem step (h : Inv g s) (ha : (growthDiscipline o).allows (g t) a) (hs : Sem o t s a x s') :
    Inv (Function.update g t ((growthDiscipline o).next (g t) a x)) s' := by
  have hheld : (fun u => (Function.update g t ((growthDiscipline o).next (g t) a x) u).held) =
      Function.update (fun u => (g u).held) t ((g t).held.next a x) := by
    funext u
    by_cases hu : u = t
    · subst hu
      simp [growthDiscipline]
    · simp [Function.update_of_ne hu]
  refine ⟨?_, ?_⟩
  · rw [hheld]
    exact h.locks.step ha.1 hs
  · intro u hu
    by_cases hut : u = t
    · subst hut
      simp only [Function.update_self] at hu ⊢
      exact h.reserved_self ha hs hu
    · simp only [Function.update_of_ne hut] at hu ⊢
      obtain ⟨i, hi, hfree⟩ := h.reserved u hu
      refine ⟨i, hi, ?_⟩
      rw [h.locks.table_eq (Ne.symm hut) (.inr hi) ha.1 hs]
      exact hfree

theorem returned (h : Inv g s) {r : Outcome} (hr : Reports (g t) r) :
    Inv (Function.update g t .idle) s := by
  have hheld : (fun u => (Function.update g t .idle u).held) = fun u => (g u).held := by
    funext u
    by_cases hu : u = t
    · subst hu
      simpa [Ghost.idle] using hr.dropped.symm
    · simp [Function.update_of_ne hu]
  refine ⟨?_, ?_⟩
  · rw [hheld]
    exact h.locks
  · intro u hu
    by_cases hut : u = t
    · subst hut
      simp [Ghost.idle] at hu
    · simp only [Function.update_of_ne hut] at hu ⊢
      exact h.reserved u hu

end Inv

theorem growthDiscipline_sound :
    (growthDiscipline o).Sound Ghost.idle Reports (Sem (T := T) o) Inv where
  act h ha hs := h.step ha hs
  ret h hr := h.returned hr

/-! ## What a failed call and a changed table have to say -/

theorem failed_of_next (h : Ghost) (a : Act T E X) (x : a.Res o) (hf : h.phase = .failed)
    (ha : (growthDiscipline o).allows h a) : ((growthDiscipline o).next h a x).phase = .failed := by
  have hallow := ha.2
  cases a with
  | dropReadGuard | dropWriteGuard => simp [growthDiscipline, Phase.next, hf]
  | readTable | writeTable | tryWriteTable | find | asRef | len | iter | write | remove
  | «foreign» => exact absurd hf hallow
  | tryReserve => simp [Phase.allows, hf] at hallow
  | findOrFindInsertSlot | insertInSlot | insertNoGrow => simp [Phase.allows, hf] at hallow
  | user => exact absurd hf hallow.1

theorem changed_of_next (h : Ghost) (a : Act T E X) (x : a.Res o) (hf : h.phase = .changed)
    (ha : (growthDiscipline o).allows h a) :
    ((growthDiscipline o).next h a x).phase = .changed := by
  have hallow := ha.2
  cases a with
  | dropReadGuard | dropWriteGuard | readTable | writeTable | tryWriteTable | find | asRef | len
  | iter => simp [growthDiscipline, Phase.next, hf]
  | write | remove | «foreign» => rfl
  | tryReserve => simp [Phase.allows, hf] at hallow
  | findOrFindInsertSlot | insertInSlot | insertNoGrow => simp [Phase.allows, hf] at hallow
  | user y => simp [growthDiscipline, Phase.next, hallow.2 hf x, hf]

theorem failed_of_fails (h : Ghost) {a : Act T E X} {x : a.Res o} (hfails : a.fails o x = true) :
    ((growthDiscipline o).next h a x).phase = .failed := by
  cases a with
  | tryReserve =>
    simp only [Act.fails, Bool.not_eq_true'] at hfails
    simp [growthDiscipline, Phase.next, hfails]
  | user =>
    simp only [Act.fails] at hfails
    simp [growthDiscipline, Phase.next, hfails]
  | _ => cases hfails

theorem changed_of_changes (h : Ghost) {a : Act T E X} {x : a.Res o} (ha : a.changes = true) :
    ((growthDiscipline o).next h a x).phase = .changed := by
  cases a with
  | insertInSlot | insertNoGrow | write | remove | «foreign» => rfl
  | _ => cases ha

/-- In every run of calls of `api` by any number of clients, from any tables: whoever looks
for a slot or stores an element holds the write guard of the shard and has a free bucket
there; a call with a failed step reports an error, and all steps of a call that reports an
error, or panics, keep the contents. -/
def NoHiddenGrowth (o : Outside E X) (api : Method o T Outcome → Prop) : Prop :=
  ∀ (s₀ : State T E), s₀.Unlocked → ∀ es p, Run (Step (Sem o) api) ⟨s₀, fun _ => none⟩ es p →
    ∀ t a x p', Step (Sem o) api p (t, .did a x) p' →
      (∀ i, a.needsSlot = some i → p.shared.writer i = some t ∧ 0 < (p.shared.table i).free) ∧
      ∀ mid q r q', Run (Step (Sem o) api) p' mid q →
        (∀ e ∈ mid, e.1 = t → ∃ b y, e.2 = .did b y) → Step (Sem o) api q (t, .returned r) q' →
        (a.fails o x = true → r = .err) ∧ (r ≠ .ok → p.shared.SameContents p'.shared)

theorem noHiddenGrowth_of_follows {api : Method o T Outcome → Prop}
    (hapi : ∀ m, api m → m.Follows (growthDiscipline o) Reports .idle) : NoHiddenGrowth o api := by
  intro s₀ hs₀ es p hrun t a x p' hstep
  have hp := follows_of_run growthDiscipline_sound hapi (.of_unlocked hs₀) hrun
  have hp' := hp.step growthDiscipline_sound hapi hstep
  obtain ⟨hallow, hsem⟩ := hp.allows hstep
  have hfree := fun i hi => hp.shared.free_of_needsSlot hallow (i := i) hi
  refine ⟨hfree, fun mid q r q' hmid hdid hret => ?_⟩
  have hreports := (hp'.run growthDiscipline_sound hapi hmid).returns hret
  constructor
  · intro hfails
    refine hreports.failed (hp'.persists growthDiscipline_sound hapi (P := fun h =>
      h.phase = .failed)
      failed_of_next hmid hdid ?_)
    simpa only [ghostStep, Function.update_self] using failed_of_fails _ hfails
  · intro herr
    cases hchanges : a.changes with
    | false => exact hsem.sameContents hchanges fun i hi => (hfree i hi).2
    | true =>
      refine absurd (hp'.persists growthDiscipline_sound hapi (P := fun h => h.phase = .changed)
        changed_of_next hmid hdid ?_) (hreports.unchanged herr)
      simpa only [ghostStep, Function.update_self] using changed_of_changes _ hchanges

end Rustyfill.Maps
