import Rustyfill.Arc.Basic
import Rustyfill.Lib.Lists

/-!
# The counters count

The invariant of every interleaving: each counter is the number of live handles of its
kind, the weak one with one more while the strong side is there, and the sentinel while a
`get_mut` holds the lock. From it, what the fallible operations may return.
-/

namespace Rustyfill.Arc

open Transition ListUpdate

set_option autoImplicit false

/-- The strong side's own weak reference: it lasts until the last drop is through. -/
def State.StrongSide (s : State) : Prop := 0 < s.live .arc ∨ ∃ t, s.pc t = .dropSlow

def State.Unlocked (s : State) : Prop := ∀ t, ¬ (s.pc t).Locks

structure Inv (s : State) : Prop where
  strong : s.strong = s.live .arc
  weak : s.Unlocked → (s.StrongSide → s.weak = s.live .weak + 1) ∧
    (¬ s.StrongSide → s.weak = s.live .weak)
  locked : ∀ t, (s.pc t).Locks → s.weak = usizeMax ∧ s.live .weak = 0
  lockOnce : ∀ t u, (s.pc t).Locks → (s.pc u).Locks → t = u
  slow : ∀ t, s.pc t = .dropSlow → s.live .arc = 0
  slowOnce : ∀ t u, s.pc t = .dropSlow → s.pc u = .dropSlow → t = u
  loops : ∀ t op h prev, s.pc t = .looping op h prev → s.handles[h]? = some op.borrows
  holds : ∀ t h, (s.pc t).Locks → (s.pc t).handle = some h → s.handles[h]? = some .arc
  alone : ∀ t u h, (s.pc t).Locks → (s.pc t).handle = some h → (s.pc u).handle = some h → t = u
  arcs : s.live .arc ≤ maxRefcount
  weaks : s.live .weak < maxRefcount

section Arithmetic
variable {op : Op} {cur next : Nat}

theorem checkedNext_eq_some (h : checkedNext cur = some next) :
    next = cur + 1 ∧ cur + 1 < maxRefcount := by
  rw [checkedNext, Option.filter_eq_some_iff] at h
  obtain ⟨hadd, hlt⟩ := h
  unfold checkedAdd at hadd
  split at hadd
  · rw [Option.some.injEq] at hadd
    have := of_decide_eq_true hlt
    omega
  · cases hadd

theorem upgradeNext_eq_some (h : upgradeNext cur = some next) :
    next = cur + 1 ∧ cur ≠ 0 ∧ cur < maxRefcount := by
  unfold upgradeNext at h
  split at h
  · cases h
  · split at h
    · cases h
    · unfold checkedAdd at h
      split at h
      · rw [Option.some.injEq] at h
        omega
      · cases h

/-- An operation that goes ahead adds one, to a counter below the maximum. -/
theorem update_eq_some (h : op.update cur = some next) : next = cur + 1 ∧ cur < maxRefcount := by
  cases op with
  | tryUpgrade =>
    obtain ⟨h1, _, h3⟩ := upgradeNext_eq_some h
    exact ⟨h1, h3⟩
  | arcTryClone | tryDowngrade | weakTryClone =>
    obtain ⟨h1, h2⟩ := checkedNext_eq_some h
    exact ⟨h1, by omega⟩

theorem update_eq_none (h : op.update cur = none) :
    if op = .tryUpgrade then cur = 0 ∨ maxRefcount ≤ cur else maxRefcount ≤ cur + 1 := by
  cases op with
  | tryUpgrade =>
    simp only [Op.update, upgradeNext] at h
    split at h
    · exact .inl ‹_›
    · split at h
      · exact .inr ‹_›
      · rename_i hlt
        unfold checkedAdd at h
        split at h
        · cases h
        · unfold maxRefcount usizeMax at *
          omega
  | arcTryClone | tryDowngrade | weakTryClone =>
    simp only [Op.update, checkedNext, checkedAdd, Option.filter_eq_none_iff] at h
    simp only [reduceCtorEq, if_false]
    by_cases hroom : cur + 1 ≤ usizeMax
    · have hge := h (cur + 1) (if_pos hroom)
      simpa using hge
    · unfold maxRefcount usizeMax at *
      omega

@[simp] theorem fetchSub_succ : fetchSub (cur + 1) = cur := by simp [fetchSub]

end Arithmetic

section Handles
variable {s : State} {h : Nat} {k : Handle}

theorem State.live_pos (hs : s.handles[h]? = some k) : 0 < s.live k :=
  List.countP_pos_iff.mpr ⟨k, List.mem_of_getElem? hs, by simp⟩

theorem live_append (l : List Handle) (j k : Handle) :
    (l ++ [j]).countP (· = k) = l.countP (· = k) + if j = k then 1 else 0 := by
  rw [List.countP_append, List.countP_singleton]
  simp

theorem live_drop {l : List Handle} (hs : l[h]? = some k) (hk : k ≠ .dropped) :
    (l.set h .dropped).countP (· = k) + 1 = l.countP (· = k) := by
  have hcount := countP_set_getElem? (fun x => decide (x = k)) .dropped hs
  simpa [Ne.symm hk] using hcount

theorem live_drop_ne {l : List Handle} {j : Handle} (hs : l[h]? = some k) (hj : j ≠ k)
    (hd : j ≠ .dropped) : (l.set h .dropped).countP (· = j) = l.countP (· = j) := by
  have hcount := countP_set_getElem? (fun x => decide (x = j)) .dropped hs
  simpa [Ne.symm hj, Ne.symm hd] using hcount

end Handles

theorem set_pc (s : State) (t u : Nat) (pc : Pc) :
    (s.set t pc).pc u = if u = t then pc else s.pc u := Function.update_apply ..

theorem not_locks_idle : ¬ Pc.idle.Locks := id

theorem not_locks_looping {op : Op} {h prev : Nat} : ¬ (Pc.looping op h prev).Locks := id

theorem Inv.init : Inv State.init := by
  constructor <;> simp [State.init, State.live, State.StrongSide, Pc.Locks, Pc.handle, maxRefcount]

section Steps
variable {s : State} {t h : Nat} {pc : Pc}

theorem Inv.unlocked_of_weak (hi : Inv s) (hw : 0 < s.live .weak) : s.Unlocked := by
  intro u hu
  have := (hi.locked u hu).2
  omega

/-- A step that only moves a client between points at which it holds no lock and is in no
drop, and at which it borrows a handle that is there and that nobody has locked. -/
theorem Inv.move (pc : Pc) (hi : Inv s) (hlock : ¬ (s.pc t).Locks) (hlock' : ¬ pc.Locks)
    (hslow : s.pc t ≠ .dropSlow) (hslow' : pc ≠ .dropSlow)
    (hloop : ∀ op h prev, pc = .looping op h prev → s.Shared h op.borrows) :
    Inv (s.set t pc) := by
  have hlocks : ∀ u, ((s.set t pc).pc u).Locks → (s.pc u).Locks ∧ u ≠ t := by
    intro u hu
    rw [set_pc] at hu
    split at hu
    · exact absurd hu hlock'
    · exact ⟨hu, ‹_›⟩
  have hslows : ∀ u, (s.set t pc).pc u = .dropSlow ↔ s.pc u = .dropSlow := by
    intro u
    rw [set_pc]
    split
    · rename_i hu
      subst hu
      exact iff_of_false hslow' hslow
    · rfl
  have hunlocked : (s.set t pc).Unlocked → s.Unlocked := by
    intro hun u hu
    apply hun u
    rw [set_pc]
    split
    · rename_i hut
      exact absurd (hut ▸ hu) hlock
    · exact hu
  have hside : (s.set t pc).StrongSide ↔ s.StrongSide := by
    unfold State.StrongSide
    simp only [hslows]
    rfl
  constructor
  · exact hi.strong
  · intro hun
    rw [hside]
    exact hi.weak (hunlocked hun)
  · intro u hu
    exact hi.locked u (hlocks u hu).1
  · intro u v hu hv
    exact hi.lockOnce u v (hlocks u hu).1 (hlocks v hv).1
  · intro u hu
    exact hi.slow u ((hslows u).mp hu)
  · intro u v hu hv
    exact hi.slowOnce u v ((hslows u).mp hu) ((hslows v).mp hv)
  · intro u op h prev hu
    rw [set_pc] at hu
    split at hu
    · exact (hloop op h prev hu).1
    · exact hi.loops u op h prev hu
  · intro u h hu hh
    have hne := (hlocks u hu).2
    rw [set_pc, if_neg hne] at hh
    exact hi.holds u h (hlocks u hu).1 hh
  · intro u v h hu hh hv
    obtain ⟨hu', hne⟩ := hlocks u hu
    rw [set_pc, if_neg hne] at hh
    rw [set_pc] at hv
    split at hv
    · cases pc with
      | looping op h' prev =>
        simp only [Pc.handle, Option.some.injEq] at hv
        subst hv
        exact absurd hu' ((hloop op h' prev rfl).2 u hh)
      | getMutLocked | getMutLoaded => exact absurd trivial hlock'
      | idle | dropSlow => simp [Pc.handle] at hv
    · exact hi.alone u v h hu' hh hv
  · exact hi.arcs
  · exact hi.weaks

theorem getElem?_append_some {l : List Handle} {j k : Handle} (hs : l[h]? = some k) :
    (l ++ [j])[h]? = some k := by
  rw [List.getElem?_append_left (List.getElem?_eq_some_iff.mp hs).1]
  exact hs

theorem Inv.makeArc (hi : Inv s) (hpos : 0 < s.live .arc) (hlt : s.strong < maxRefcount) :
    Inv { s with strong := s.strong + 1, handles := s.handles ++ [.arc] } := by
  have harc : State.live { s with strong := s.strong + 1, handles := s.handles ++ [.arc] } .arc =
      s.live .arc + 1 := live_append s.handles .arc .arc
  have hweak : State.live { s with strong := s.strong + 1, handles := s.handles ++ [.arc] } .weak =
      s.live .weak := live_append s.handles .arc .weak
  have hstrong := hi.strong
  constructor
  · rw [harc, hi.strong]
  · intro hun
    rw [hweak]
    have hold := (hi.weak hun).1 (.inl hpos)
    exact ⟨fun _ => hold, fun hno => absurd (.inl (by rw [harc]; omega)) hno⟩
  · intro u hu
    rw [hweak]
    exact hi.locked u hu
  · exact hi.lockOnce
  · intro u hu
    have := hi.slow u hu
    omega
  · exact hi.slowOnce
  · intro u op h prev hu
    exact getElem?_append_some (hi.loops u op h prev hu)
  · intro u h hu hh
    exact getElem?_append_some (hi.holds u h hu hh)
  · exact hi.alone
  · rw [harc]
    omega
  · rw [hweak]
    exact hi.weaks

theorem Inv.makeWeak (hi : Inv s) (hun : s.Unlocked)
    (hlt : s.StrongSide ∧ s.weak < maxRefcount ∨ s.weak + 1 < maxRefcount) :
    Inv { s with weak := s.weak + 1, handles := s.handles ++ [.weak] } := by
  have harc : State.live { s with weak := s.weak + 1, handles := s.handles ++ [.weak] } .arc =
      s.live .arc := live_append s.handles .weak .arc
  have hweak : State.live { s with weak := s.weak + 1, handles := s.handles ++ [.weak] } .weak =
      s.live .weak + 1 := live_append s.handles .weak .weak
  have hold := hi.weak hun
  have hside : State.StrongSide { s with weak := s.weak + 1, handles := s.handles ++ [.weak] } ↔
      s.StrongSide := by
    unfold State.StrongSide
    rw [harc]
  constructor
  · rw [harc]
    exact hi.strong
  · intro _
    rw [hside, hweak]
    exact ⟨fun hs => congrArg (· + 1) (hold.1 hs), fun hs => congrArg (· + 1) (hold.2 hs)⟩
  · intro u hu
    exact absurd hu (hun u)
  · exact hi.lockOnce
  · intro u hu
    rw [harc]
    exact hi.slow u hu
  · exact hi.slowOnce
  · intro u op h prev hu
    exact getElem?_append_some (hi.loops u op h prev hu)
  · intro u h hu hh
    exact getElem?_append_some (hi.holds u h hu hh)
  · exact hi.alone
  · rw [harc]
    exact hi.arcs
  · rw [hweak]
    by_cases hs : s.StrongSide
    · have := hold.1 hs
      rcases hlt with ⟨_, hlt⟩ | hlt <;> omega
    · have := hold.2 hs
      rcases hlt with ⟨hyes, _⟩ | hlt
      · exact absurd hyes hs
      · omega

theorem getElem?_drop_some {h' : Nat} {k : Handle} (hs : s.handles[h']? = some k) (hne : h ≠ h') :
    (s.handles.set h .dropped)[h']? = some k := by
  rw [List.getElem?_set_ne hne]
  exact hs

theorem Inv.dropWeak (hi : Inv s) (hown : s.Owned h .weak) :
    Inv { s with weak := fetchSub s.weak, handles := s.handles.set h .dropped } := by
  obtain ⟨hs, hfree⟩ := hown
  have hun := hi.unlocked_of_weak (State.live_pos hs)
  have harc : State.live { s with weak := fetchSub s.weak, handles := s.handles.set h .dropped }
      .arc = s.live .arc := live_drop_ne hs (by decide) (by decide)
  have hweak : State.live { s with weak := fetchSub s.weak, handles := s.handles.set h .dropped }
      .weak + 1 = s.live .weak := live_drop hs (by decide)
  have hside : State.StrongSide
      { s with weak := fetchSub s.weak, handles := s.handles.set h .dropped } ↔ s.StrongSide := by
    unfold State.StrongSide
    rw [harc]
  have hbound := hi.weaks
  constructor
  · rw [harc]
    exact hi.strong
  · intro _
    rw [hside]
    constructor
    · intro hstrong
      have := (hi.weak hun).1 hstrong
      rw [hweak, this]
      exact fetchSub_succ
    · intro hstrong
      have := (hi.weak hun).2 hstrong
      simp only
      rw [this, ← hweak]
      exact fetchSub_succ
  · intro u hu
    exact absurd hu (hun u)
  · exact hi.lockOnce
  · intro u hu
    rw [harc]
    exact hi.slow u hu
  · exact hi.slowOnce
  · intro u op h' prev hu
    apply getElem?_drop_some (hi.loops u op h' prev hu)
    rintro rfl
    exact hfree u (by rw [hu]; rfl)
  · intro u h' hu hh
    apply getElem?_drop_some (hi.holds u h' hu hh)
    rintro rfl
    exact hfree u hh
  · exact hi.alone
  · rw [harc]
    exact hi.arcs
  · omega

theorem Inv.dropArc (hi : Inv s) (hidle : s.pc t = .idle) (hown : s.Owned h .arc) :
    Inv { s.set t (if s.strong = 1 then .dropSlow else .idle) with
      strong := fetchSub s.strong, handles := s.handles.set h .dropped } := by
  obtain ⟨hs, hfree⟩ := hown
  generalize hs' : { s.set t (if s.strong = 1 then .dropSlow else .idle) with
    strong := fetchSub s.strong, handles := s.handles.set h .dropped } = s'
  have hpos := State.live_pos hs
  have harc : s'.live .arc + 1 = s.live .arc := by
    subst hs'
    exact live_drop hs (by decide)
  have hweak : s'.live .weak = s.live .weak := by
    subst hs'
    exact live_drop_ne hs (by decide) (by decide)
  have hword : s'.weak = s.weak := by
    subst hs'
    rfl
  have hpc : ∀ u, u ≠ t → s'.pc u = s.pc u := by
    intro u hu
    subst hs'
    exact Function.update_of_ne hu _ _
  have hpct : s'.pc t = if s.strong = 1 then .dropSlow else .idle := by
    subst hs'
    exact Function.update_self ..
  have hhandles : ∀ {h' k}, s.handles[h']? = some k → (∃ u, (s.pc u).handle = some h') →
      s'.handles[h']? = some k := by
    rintro h' k hk ⟨u, hu⟩
    subst hs'
    apply getElem?_drop_some hk
    rintro rfl
    exact hfree u hu
  have hnoslow : ∀ u, s.pc u ≠ .dropSlow := by
    intro u hu
    have := hi.slow u hu
    omega
  have hlocks : ∀ u, (s'.pc u).Locks → (s.pc u).Locks ∧ u ≠ t := by
    intro u hu
    by_cases hut : u = t
    · rw [hut, hpct] at hu
      split at hu <;> exact hu.elim
    · exact ⟨hpc u hut ▸ hu, hut⟩
  have hstrong := hi.strong
  have hbound := hi.arcs
  -- The last `Arc` passes its weak reference on to the drop that is under way.
  have hside : s'.StrongSide := by
    by_cases hone : s.strong = 1
    · exact .inr ⟨t, by rw [hpct, if_pos hone]⟩
    · exact .inl (by omega)
  constructor
  · subst hs'
    simp only
    rw [hstrong, ← harc]
    exact fetchSub_succ
  · intro hun
    have hunlocked : s.Unlocked := by
      intro u hu
      by_cases hut : u = t
      · rw [hut, hidle] at hu
        exact hu
      · exact hun u (by rw [hpc u hut]; exact hu)
    rw [hword, hweak]
    exact ⟨fun _ => (hi.weak hunlocked).1 (.inl hpos), fun hno => absurd hside hno⟩
  · intro u hu
    rw [hword, hweak]
    exact hi.locked u (hlocks u hu).1
  · intro u v hu hv
    exact hi.lockOnce u v (hlocks u hu).1 (hlocks v hv).1
  · intro u hu
    by_cases hut : u = t
    · rw [hut, hpct] at hu
      split at hu
      · omega
      · cases hu
    · rw [hpc u hut] at hu
      exact absurd hu (hnoslow u)
  · have honly : ∀ u, s'.pc u = .dropSlow → u = t := by
      intro u hu
      by_cases hut : u = t
      · exact hut
      · rw [hpc u hut] at hu
        exact absurd hu (hnoslow u)
    intro u v hu hv
    rw [honly u hu, honly v hv]
  · intro u op h' prev hu
    have hut : u ≠ t := by
      rintro rfl
      rw [hpct] at hu
      split at hu <;> cases hu
    rw [hpc u hut] at hu
    exact hhandles (hi.loops u op h' prev hu) ⟨u, by rw [hu]; rfl⟩
  · intro u h' hu hh
    obtain ⟨hu, hut⟩ := hlocks u hu
    rw [hpc u hut] at hh
    exact hhandles (hi.holds u h' hu hh) ⟨u, hh⟩
  · intro u v h' hu hh hv
    obtain ⟨hu, hut⟩ := hlocks u hu
    have hvt : v ≠ t := by
      rintro rfl
      rw [hpct] at hv
      split at hv <;> cases hv
    rw [hpc u hut] at hh
    rw [hpc v hvt] at hv
    exact hi.alone u v h' hu hh hv
  · omega
  · rw [hweak]
    exact hi.weaks

theorem Inv.dropSlow (hi : Inv s) (hpc : s.pc t = .dropSlow) :
    Inv { s.set t .idle with weak := fetchSub s.weak } := by
  have hzero := hi.slow t hpc
  have hun : s.Unlocked := by
    intro u hu
    have hpos : 0 < s.live .arc := by
      cases hh : (s.pc u).handle with
      | none => cases hp : s.pc u <;> simp_all [Pc.Locks, Pc.handle]
      | some h' => exact State.live_pos (hi.holds u h' hu hh)
    omega
  have hweak := (hi.weak hun).1 (.inr ⟨t, hpc⟩)
  have hslows : ∀ u, (s.set t .idle).pc u ≠ .dropSlow := by
    intro u hu
    rw [set_pc] at hu
    split at hu
    · cases hu
    · rename_i hne
      exact hne (hi.slowOnce u t hu hpc)
  have hlocks : ∀ u, ¬ ((s.set t .idle).pc u).Locks := by
    intro u hu
    rw [set_pc] at hu
    split at hu
    · exact hu
    · exact hun u hu
  have hnoside : ¬ State.StrongSide { s.set t .idle with weak := fetchSub s.weak } := by
    rintro (hpos | ⟨u, hu⟩)
    · exact absurd hzero (Nat.ne_of_gt hpos)
    · exact hslows u hu
  constructor
  · exact hi.strong
  · intro _
    refine ⟨fun hyes => absurd hyes hnoside, fun _ => ?_⟩
    simp only
    rw [hweak]
    exact fetchSub_succ
  · intro u hu
    exact absurd hu (hlocks u)
  · intro u v hu
    exact absurd hu (hlocks u)
  · intro u hu
    exact absurd hu (hslows u)
  · intro u v hu
    exact absurd hu (hslows u)
  · intro u op h prev hu
    simp only [set_pc] at hu
    split at hu
    · cases hu
    · exact hi.loops u op h prev hu
  · intro u h hu
    exact absurd hu (hlocks u)
  · intro u v h hu
    exact absurd hu (hlocks u)
  · exact hi.arcs
  · exact hi.weaks

theorem Inv.hold (t : Nat) (pc : Pc) (hi : Inv s) (hpc : pc.Locks ∧ pc.handle = some h)
    (hs : s.handles[h]? = some .arc) (halone : ∀ u, (s.pc u).handle = some h → u = t)
    (hlocks : ∀ u, (s.pc u).Locks → u = t) (hzero : s.live .weak = 0) :
    Inv { s.set t pc with weak := usizeMax } := by
  have honly : ∀ u, ((s.set t pc).pc u).Locks → u = t := by
    intro u hu
    rw [set_pc] at hu
    split at hu
    · rename_i hut
      exact hut
    · exact hlocks u hu
  have hpos := State.live_pos hs
  have hnoslow : ∀ u, (s.set t pc).pc u ≠ .dropSlow := by
    intro u hu
    rw [set_pc] at hu
    split at hu
    · rw [hu] at hpc
      exact hpc.1
    · have := hi.slow u hu
      omega
  constructor
  · exact hi.strong
  · intro hun
    refine absurd ?_ (hun t)
    simp only [set_pc, if_true]
    exact hpc.1
  · intro u _
    exact ⟨rfl, hzero⟩
  · intro u v hu hv
    rw [honly u hu, honly v hv]
  · intro u hu
    exact absurd hu (hnoslow u)
  · intro u v hu
    exact absurd hu (hnoslow u)
  · intro u op h' prev hu
    simp only [set_pc] at hu
    split at hu
    · rw [hu] at hpc
      exact hpc.1.elim
    · exact hi.loops u op h' prev hu
  · intro u h' hu hh
    have hut := honly u hu
    simp only [set_pc, hut, if_true, hpc.2, Option.some.injEq] at hh
    rw [← hh]
    exact hs
  · intro u v h' hu hh hv
    have hut := honly u hu
    simp only [set_pc, hut, if_true, hpc.2, Option.some.injEq] at hh
    simp only [set_pc] at hv
    split at hv
    · rw [hut, ‹v = t›]
    · rw [hut, halone v (hh ▸ hv)]
  · exact hi.arcs
  · exact hi.weaks

theorem Inv.unlock (hi : Inv s) (hlock : (s.pc t).Locks) (hh : (s.pc t).handle = some h) :
    Inv { s.set t .idle with weak := 1 } := by
  have hzero := (hi.locked t hlock).2
  have hpos := State.live_pos (hi.holds t h hlock hh)
  have hlocks : ∀ u, ¬ ((s.set t .idle).pc u).Locks := by
    intro u hu
    rw [set_pc] at hu
    split at hu
    · exact hu
    · exact ‹u ≠ t› (hi.lockOnce u t hu hlock)
  have hslows : ∀ u, (s.set t .idle).pc u = .dropSlow → s.pc u = .dropSlow := by
    intro u hu
    rw [set_pc] at hu
    split at hu
    · cases hu
    · exact hu
  constructor
  · exact hi.strong
  · intro _
    refine ⟨fun _ => ?_, fun hno => absurd (.inl hpos) hno⟩
    exact congrArg (· + 1) hzero.symm
  · intro u hu
    exact absurd hu (hlocks u)
  · intro u v hu
    exact absurd hu (hlocks u)
  · intro u hu
    exact hi.slow u (hslows u hu)
  · intro u v hu hv
    exact hi.slowOnce u v (hslows u hu) (hslows v hv)
  · intro u op h' prev hu
    simp only [set_pc] at hu
    split at hu
    · cases hu
    · exact hi.loops u op h' prev hu
  · intro u h' hu
    exact absurd hu (hlocks u)
  · intro u v h' hu
    exact absurd hu (hlocks u)
  · exact hi.arcs
  · exact hi.weaks

theorem Inv.decide (hi : Inv s) (hlock : ¬ (s.pc t).Locks) (hslow : s.pc t ≠ .dropSlow) {op : Op}
    (hs : s.Shared h op.borrows) : Inv (s.decide t op h).2 := by
  unfold State.decide
  split
  · apply hi.move .idle hlock not_locks_idle hslow (fun hf => by cases hf)
    intro op' h' prev hf
    cases hf
  · apply hi.move (.looping op h _) hlock not_locks_looping hslow (fun hf => by cases hf)
    intro op' h' prev heq
    cases heq
    exact hs

theorem Inv.succeed (hi : Inv s) {op : Op} {prev next : Nat} (hpc : s.pc t = .looping op h prev)
    (hword : s.word op.makes = prev) (hnext : op.update prev = some next) :
    Inv { (s.setWord op.makes next).set t .idle with handles := s.handles ++ [op.makes] } := by
  have hborrow := hi.loops t op h prev hpc
  obtain ⟨hsucc, hlt⟩ := update_eq_some hnext
  have hmoved : Inv (s.set t .idle) := by
    apply hi.move .idle (by rw [hpc]; exact not_locks_looping) not_locks_idle
      (by rw [hpc]; exact fun hf => by cases hf) (fun hf => by cases hf)
    intro op' h' prev' hf
    cases hf
  -- The sentinel is above every value that a loop goes on with.
  have hunlocked : op.makes = .weak → (s.set t .idle).Unlocked := by
    intro hmakes u hu
    have hmax := (hmoved.locked u hu).1
    rw [hmakes] at hword
    rw [← hword] at hlt
    simp only [State.word] at hlt
    rw [show (s.set t .idle).weak = s.weak from rfl] at hmax
    unfold maxRefcount at hlt
    unfold usizeMax at hmax
    omega
  subst hsucc hword
  cases op with
  | arcTryClone =>
    exact hmoved.makeArc (State.live_pos hborrow) hlt
  | tryUpgrade =>
    have hne := (upgradeNext_eq_some hnext).2.1
    have hpos : 0 < s.live .arc := by
      rw [← hi.strong]
      exact Nat.pos_of_ne_zero hne
    exact hmoved.makeArc hpos hlt
  | tryDowngrade =>
    exact hmoved.makeWeak (hunlocked rfl) (.inl ⟨.inl (State.live_pos hborrow), hlt⟩)
  | weakTryClone =>
    exact hmoved.makeWeak (hunlocked rfl) (.inr (checkedNext_eq_some hnext).2)

end Steps

theorem Step.inv {s s' : State} {e : Nat × Act} (hi : Inv s) (hs : Step s e s') : Inv s' := by
  cases hs with
  | start hpc hshared =>
    exact hi.decide (by rw [hpc]; exact not_locks_idle) (by rw [hpc]; exact fun hf => by cases hf)
      hshared
  | @retry t h prev op hpc =>
    apply hi.decide (by rw [hpc]; exact not_locks_looping)
      (by rw [hpc]; exact fun hf => by cases hf)
    refine ⟨hi.loops t op h prev hpc, fun u hu hl => ?_⟩
    have hut := hi.alone u t h hl hu (by rw [hpc]; rfl)
    rw [hut, hpc] at hl
    exact hl
  | succeed hpc hword hnext => exact hi.succeed hpc hword hnext
  | dropArc hpc hown => exact hi.dropArc hpc hown
  | dropSlow hpc => exact hi.dropSlow hpc
  | dropWeak hpc hown => exact hi.dropWeak hown
  | @getMutLock t h hpc hown hone =>
    have hun : s.Unlocked := by
      intro u hu
      have hmax := (hi.locked u hu).1
      unfold usizeMax at hmax
      omega
    have hweak := (hi.weak hun).1 (.inl (State.live_pos hown.1))
    exact hi.hold t (.getMutLocked h) ⟨trivial, rfl⟩ hown.1 (fun u hu => absurd hu (hown.2 u))
      (fun u hu => absurd hu (hun u)) (by omega)
  | getMutBusy => exact hi
  | @getMutLoad t h hpc =>
    have hlock : (s.pc t).Locks := by rw [hpc]; trivial
    have hh : (s.pc t).handle = some h := by rw [hpc]; rfl
    have hheld := hi.hold t (.getMutLoaded h (s.strong = 1)) ⟨trivial, rfl⟩
      (hi.holds t h hlock hh) (fun u hu => (hi.alone t u h hlock hh hu).symm)
      (fun u hu => hi.lockOnce u t hu hlock) (hi.locked t hlock).2
    rw [← (hi.locked t hlock).1] at hheld
    exact hheld
  | @getMutUnlock t h unique hpc =>
    have hlock : (s.pc t).Locks := by rw [hpc]; trivial
    exact hi.unlock hlock (by rw [hpc]; rfl)

theorem inv_of_run {es : List (Nat × Act)} {s : State} (hr : Run Step State.init es s) : Inv s :=
  hr.invariant (fun _ _ _ hi hs => hs.inv hi) Inv.init

/-! ## Refusals -/

/-- A return of `TryCloneError`, `TryDowngradeError` or `TryUpgradeError`: a `try_upgrade` that
reads zero returns `Ok(None)`. -/
def Act.Refuses (a : Act) (cur : Nat) : Prop :=
  ∃ op, a = .reject op cur ∧ ¬ (op = .tryUpgrade ∧ cur = 0)

/-- The counter that `try_clone` or `try_downgrade` looks at is not one below the maximum. -/
def OffBoundary (s : State) (e : Nat × Act) : Prop :=
  ∀ op cur, e.2 = .read op cur ∨ e.2 = .reject op cur →
    op = .tryUpgrade ∨ s.word op.makes + 1 ≠ maxRefcount

theorem Step.reject_eq {s s' : State} {t : Nat} {op : Op} {cur : Nat}
    (hs : Step s (t, .reject op cur) s') : cur = s.word op.makes ∧ op.update cur = none := by
  generalize he : (t, Act.reject op cur) = e at hs
  have hdecide : ∀ op' h, .reject op cur = (s.decide t op' h).1 →
      cur = s.word op.makes ∧ op.update cur = none := by
    intro op' h heq
    unfold State.decide at heq
    split at heq
    · cases heq
      exact ⟨rfl, ‹_›⟩
    · cases heq
  cases hs with
  | @start t' h op' =>
    rw [Prod.mk.injEq] at he
    obtain ⟨rfl, he⟩ := he
    exact hdecide op' h he
  | @retry t' h prev op' =>
    rw [Prod.mk.injEq] at he
    obtain ⟨rfl, he⟩ := he
    exact hdecide op' h he
  | succeed | dropArc | dropSlow | dropWeak => cases he
  | getMutLock | getMutBusy | getMutLoad | getMutUnlock => cases he

/-- Off the boundary, an error is returned only at or above the maximum. -/
theorem refuses_of_step {s s' : State} {e : Nat × Act} (hs : Guarded Step OffBoundary s e s')
    {cur : Nat} (he : e.2.Refuses cur) : maxRefcount ≤ cur := by
  obtain ⟨t, a⟩ := e
  obtain ⟨op, ha, hnot⟩ := he
  simp only at ha
  subst ha
  obtain ⟨hcur, hnone⟩ := Step.reject_eq hs.2
  have hoff := hs.1 op cur (.inr rfl)
  have hwhen := update_eq_none hnone
  by_cases hop : op = .tryUpgrade
  · rw [if_pos hop] at hwhen
    rcases hwhen with hzero | hmax
    · exact absurd ⟨hop, hzero⟩ hnot
    · exact hmax
  · rw [if_neg hop] at hwhen
    rcases hoff with hyes | hne
    · exact absurd hyes hop
    · omega

theorem refuses_of_run {s s' : State} {es : List (Nat × Act)}
    (hr : Run (Guarded Step OffBoundary) s es s') :
    ∀ e ∈ es, ∀ cur, e.2.Refuses cur → maxRefcount ≤ cur := by
  induction hr with
  | nil => exact fun e he => absurd he List.not_mem_nil
  | cons hs _ ih =>
    intro e he cur hrefuse
    rcases List.mem_cons.mp he with rfl | he
    · exact refuses_of_step hs hrefuse
    · exact ih e he cur hrefuse

/-- Once the strong counter is zero it stays zero, and no upgrade makes an `Arc`. -/
theorem Step.stays_dead {s s' : State} {e : Nat × Act} (hi : Inv s) (hzero : s.strong = 0)
    (hs : Step s e s') : s'.strong = 0 ∧ ∀ cur, e.2 ≠ .succeed .tryUpgrade cur := by
  have hnone : s.live .arc = 0 := by rw [← hi.strong, hzero]
  have hdecide : ∀ t op h, (s.decide t op h).2.strong = 0 ∧
      ∀ cur, (s.decide t op h).1 ≠ .succeed .tryUpgrade cur := by
    intro t op h
    unfold State.decide
    split
    · exact ⟨hzero, fun cur hf => by cases hf⟩
    · exact ⟨hzero, fun cur hf => by cases hf⟩
  cases hs with
  | start => exact hdecide _ _ _
  | retry => exact hdecide _ _ _
  | @succeed t h prev next op hpc hword hnext =>
    cases op with
    | arcTryClone =>
      have := State.live_pos (hi.loops t _ h prev hpc)
      exact absurd hnone (Nat.ne_of_gt this)
    | tryUpgrade => exact absurd (hword.symm.trans hzero) (upgradeNext_eq_some hnext).2.1
    | tryDowngrade | weakTryClone => exact ⟨hzero, fun cur hf => by cases hf⟩
  | dropArc hpc hown => exact absurd hnone (Nat.ne_of_gt (State.live_pos hown.1))
  | dropSlow | dropWeak | getMutLock | getMutBusy | getMutLoad | getMutUnlock =>
    exact ⟨hzero, fun cur hf => by cases hf⟩

theorem stays_dead_of_run {s s' : State} {es : List (Nat × Act)} (hi : Inv s) (hzero : s.strong = 0)
    (hr : Run Step s es s') :
    s'.strong = 0 ∧ ∀ t cur, (t, .succeed .tryUpgrade cur) ∉ es := by
  induction hr with
  | nil => exact ⟨hzero, fun _ _ => List.not_mem_nil⟩
  | cons hs _ ih =>
    obtain ⟨hzero', hno⟩ := hs.stays_dead hi hzero
    obtain ⟨hend, hrest⟩ := ih (hs.inv hi) hzero'
    refine ⟨hend, fun t cur hmem => ?_⟩
    rcases List.mem_cons.mp hmem with rfl | hmem
    · exact hno cur rfl
    · exact hrest t cur hmem

/-- In every interleaving in which no `try_clone` and no `try_downgrade` meets its counter one
below the maximum, the counters count the live handles, stay within the maximum, the dead
stay dead, and an error is returned only at or above the maximum. -/
theorem counters_count {es : List (Nat × Act)} {s : State}
    (hr : Run (Guarded Step OffBoundary) State.init es s) :
    s.strong = s.live .arc ∧
    (s.Unlocked → (s.StrongSide → s.weak = s.live .weak + 1) ∧
      (¬ s.StrongSide → s.weak = s.live .weak)) ∧
    s.strong ≤ maxRefcount ∧ (s.Unlocked → s.weak ≤ maxRefcount) ∧
    (s.strong = 0 → ∀ es' s', Run Step s es' s' →
      s'.strong = 0 ∧ ∀ t cur, (t, .succeed .tryUpgrade cur) ∉ es') ∧
    ∀ e ∈ es, ∀ cur, e.2.Refuses cur → maxRefcount ≤ cur := by
  have hi := inv_of_run hr.unguard
  have hbound := hi.weaks
  refine ⟨hi.strong, hi.weak, hi.strong ▸ hi.arcs, fun hun => ?_,
    fun hzero es' s' hr' => stays_dead_of_run hi hzero hr', refuses_of_run hr⟩
  by_cases hs : s.StrongSide
  · rw [(hi.weak hun).1 hs]
    exact hbound
  · rw [(hi.weak hun).2 hs]
    exact Nat.le_of_lt hbound

/-! ## The boundary -/

theorem checkedNext_of_lt {cur : Nat} (h : cur + 1 < maxRefcount) :
    checkedNext cur = some (cur + 1) := by
  have hroom : cur + 1 ≤ usizeMax := by
    unfold maxRefcount at h
    unfold usizeMax
    omega
  simp [checkedNext, checkedAdd, hroom, h]

theorem run_clone {s : State} (hidle : s.pc 0 = .idle) (hs : s.Shared 0 .arc)
    (hlt : s.strong + 1 < maxRefcount) :
    ∃ s', Run (Guarded Step OffBoundary) s
        [(0, .read .arcTryClone s.strong), (0, .succeed .arcTryClone s.strong)] s' ∧
      s'.strong = s.strong + 1 ∧ s'.pc 0 = .idle ∧ s'.Shared 0 .arc := by
  have hnext := checkedNext_of_lt hlt
  have hdecide : s.decide 0 .arcTryClone 0 =
      (.read .arcTryClone s.strong, s.set 0 (.looping .arcTryClone 0 s.strong)) := by
    simp only [State.decide, Op.update, Op.makes, State.word, hnext]
  have hread : Guarded Step OffBoundary s (0, .read .arcTryClone s.strong)
      (s.set 0 (.looping .arcTryClone 0 s.strong)) := by
    constructor
    · rintro op cur (heq | heq)
      · cases heq
        exact .inr (Nat.ne_of_lt hlt)
      · cases heq
    · have hstart := @Step.start s 0 0 .arcTryClone hidle hs
      rw [hdecide] at hstart
      exact hstart
  have hpc : (s.set 0 (.looping .arcTryClone 0 s.strong)).pc 0 =
    .looping .arcTryClone 0 s.strong := by
    rw [set_pc, if_pos rfl]
  refine ⟨_, .cons hread (.cons ⟨?_, .succeed hpc rfl hnext⟩ (.nil _)), rfl, ?_,
    getElem?_append_some hs.1, ?_⟩
  · rintro op cur (heq | heq) <;> cases heq
  · simp only [set_pc, if_true]
  · intro u hu
    by_cases hzero : u = 0
    · simp only [set_pc, hzero, if_true]
      exact not_locks_idle
    · simp only [set_pc, State.setWord, Op.makes, hzero, if_false] at hu ⊢
      exact hs.2 u hu

/-- Two clones of the first handle. -/
theorem counters_count_clones :
    ∃ es s, Run (Guarded Step OffBoundary) State.init es s ∧ s.strong = 3 ∧
      s.strong = s.live .arc ∧ s.strong ≤ maxRefcount := by
  have hshared : State.init.Shared 0 .arc := ⟨rfl, fun u hu => by cases hu⟩
  obtain ⟨s₁, hr₁, hstrong₁, hidle₁, hshared₁⟩ := run_clone (s := State.init) rfl hshared
    (by decide)
  have hone : s₁.strong = 2 := hstrong₁
  obtain ⟨s₂, hr₂, hstrong₂, _⟩ := run_clone hidle₁ hshared₁ (by rw [hone]; decide)
  have hr := hr₁.append hr₂
  have hcounts := counters_count hr
  exact ⟨_, s₂, hr, by omega, hcounts.1, hcounts.2.2.1⟩

theorem exists_clones (n : Nat) (h : n + 1 < maxRefcount) :
    ∃ es s, Run Step State.init es s ∧ s.strong = n + 1 ∧ s.pc 0 = .idle ∧ s.Shared 0 .arc := by
  induction n with
  | zero =>
    refine ⟨[], State.init, .nil _, rfl, rfl, rfl, fun u hu => ?_⟩
    cases hu
  | succ n ih =>
    obtain ⟨es, s, hr, hstrong, hidle, hshared⟩ := ih (by omega)
    obtain ⟨s', hr', hstrong', hrest⟩ := run_clone hidle hshared (by omega)
    exact ⟨_, s', hr.append hr'.unguard, by omega, hrest⟩

/-- With `2^63 - 2` handles, `Arc::try_clone` returns its error below the maximum. -/
theorem try_clone_refuses_below_max :
    ∃ es s, Run Step State.init (es ++ [(0, .reject .arcTryClone (maxRefcount - 1))]) s ∧
      (Act.reject .arcTryClone (maxRefcount - 1)).Refuses (maxRefcount - 1) ∧
      maxRefcount - 1 < maxRefcount := by
  obtain ⟨es, s, hr, hstrong, hidle, hshared⟩ :=
    exists_clones (maxRefcount - 2) (by simp [maxRefcount])
  have hword : s.strong = maxRefcount - 1 := by
    rw [hstrong]
    simp [maxRefcount]
  have hnone : checkedNext (maxRefcount - 1) = none := by decide
  have hdecide : s.decide 0 .arcTryClone 0 =
      (.reject .arcTryClone (maxRefcount - 1), s.set 0 .idle) := by
    simp only [State.decide, Op.update, Op.makes, State.word, hword, hnone]
  have hstart := @Step.start s 0 0 .arcTryClone hidle hshared
  rw [hdecide] at hstart
  exact ⟨es, _, hr.snoc hstart, ⟨.arcTryClone, rfl, fun hf => by cases hf.1⟩, by decide⟩

end Rustyfill.Arc
