import Mathlib.Logic.Function.Basic
import Rustyfill.Lib.Run
import Rustyfill.Runtime

/-!
# Arming a lazily allocated lock

`arm_once_box` of `std/sync/mutex_/heap_lock.rs`, run by any number of threads on one slot,
together with the standard library's own initialiser, which publishes with the same
compare-and-swap from null but aborts the process when its allocation is refused. A payload
is named by its allocation, so that an address that is used again is a new name.
-/

namespace Rustyfill.OnceBox

open Transition

set_option autoImplicit false

structure AllocError where
deriving DecidableEq

/-- Which routine a thread runs. -/
inductive Routine where
  | armOnceBox
  | getOrInit

/-- Where a thread is in its routine. -/
inductive Pc where
  | start
  | slow
  | allocated (p : Nat)
  | activated (p : Nat)
  | lost (p : Nat)
  | deactivated (p : Nat)
  | returned (r : Except AllocError Unit)

inductive Act where
  | load
  | allocate (p : Nat)
  | allocFail
  | activate (p : Nat)
  | publish (p : Nat)
  | lose (p : Nat)
  | deactivate (p : Nat)
  | free (p : Nat)
deriving DecidableEq

structure State where
  slot : Option Nat
  nextPayload : Nat
  pc : Nat → Pc

def State.set (s : State) (t : Nat) (pc : Pc) : State := { s with pc := Function.update s.pc t pc }

/-- One atomic step of thread `t`. -/
inductive Step (routine : Nat → Routine) : State → Nat × Act → State → Prop where
  | loadFast {s : State} {t p : Nat} : s.pc t = .start → s.slot = some p →
      Step routine s (t, .load) (s.set t (.returned (.ok ())))
  | loadSlow {s : State} {t : Nat} : s.pc t = .start → s.slot = none →
      Step routine s (t, .load) (s.set t .slow)
  | allocate {s : State} {t : Nat} : s.pc t = .slow →
      Step routine s (t, .allocate s.nextPayload)
        { s.set t (.allocated s.nextPayload) with nextPayload := s.nextPayload + 1 }
  | allocFail {s : State} {t : Nat} : routine t = .armOnceBox → s.pc t = .slow →
      Step routine s (t, .allocFail) (s.set t (.returned (.error {})))
  | activate {s : State} {t p : Nat} : s.pc t = .allocated p →
      Step routine s (t, .activate p) (s.set t (.activated p))
  | publish {s : State} {t p : Nat} : s.pc t = .activated p → s.slot = none →
      Step routine s (t, .publish p) { s.set t (.returned (.ok ())) with slot := some p }
  | lose {s : State} {t p winner : Nat} : s.pc t = .activated p → s.slot = some winner →
      Step routine s (t, .lose p) (s.set t (.lost p))
  | deactivate {s : State} {t p : Nat} : s.pc t = .lost p →
      Step routine s (t, .deactivate p) (s.set t (.deactivated p))
  | free {s : State} {t p : Nat} : s.pc t = .deactivated p →
      Step routine s (t, .free p) (s.set t (.returned (.ok ())))

/-- A mutex that was never locked, before any thread has started. -/
def State.init : State := ⟨none, 0, fun _ => .start⟩

/-! ## The life of a payload -/

inductive Event where
  | allocate
  | activate
  | publish
  | deactivate
  | free
deriving DecidableEq

/-- What an action does to payload `p`. -/
def Act.event (p : Nat) : Act → Option Event
  | .allocate q => if q = p then some .allocate else none
  | .activate q => if q = p then some .activate else none
  | .publish q => if q = p then some .publish else none
  | .deactivate q => if q = p then some .deactivate else none
  | .free q => if q = p then some .free else none
  | .load | .allocFail | .lose _ => none

def eventsOf (p : Nat) (es : List (Nat × Act)) : List Event := es.filterMap fun e => e.2.event p

def actsOf (t : Nat) (es : List (Nat × Act)) : List Act :=
  (es.filter fun e => e.1 = t).map Prod.snd

/-- How often the slot was written. -/
def publications (es : List (Nat × Act)) : Nat :=
  es.countP fun e => match e.2 with
    | .publish _ => true
    | _ => false

/-- The payload a thread owns, with what has happened to it. -/
def Pc.owned : Pc → Option (Nat × List Event)
  | .allocated p => some (p, [.allocate])
  | .activated p => some (p, [.allocate, .activate])
  | .lost p => some (p, [.allocate, .activate])
  | .deactivated p => some (p, [.allocate, .activate, .deactivate])
  | .start | .slow | .returned _ => none

/-- A thread past this point has seen a pointer in the slot. -/
def Pc.sawPointer : Pc → Prop
  | .lost _ | .deactivated _ | .returned (.ok ()) => True
  | _ => False

/-- What a thread that may still return an error has done. -/
def Pc.History (acts : List Act) : Pc → Prop
  | .start => acts = []
  | .slow => acts = [.load]
  | .returned (.error _) => acts = [.load, .allocFail]
  | _ => True

structure Inv (es : List (Nat × Act)) (s : State) : Prop where
  unborn : ∀ p, s.nextPayload ≤ p → eventsOf p es = []
  owned : ∀ t p l, (s.pc t).owned = some (p, l) → eventsOf p es = l ∧ s.slot ≠ some p
  owner : ∀ t u p l m, (s.pc t).owned = some (p, l) → (s.pc u).owned = some (p, m) → t = u
  published : ∀ p, s.slot = some p → eventsOf p es = [.allocate, .activate, .publish]
  freed : ∀ p, p < s.nextPayload → s.slot ≠ some p → (∀ t l, (s.pc t).owned ≠ some (p, l)) →
    eventsOf p es = [.allocate, .activate, .deactivate, .free]
  once : publications es = if s.slot.isSome then 1 else 0
  saw : ∀ t, (s.pc t).sawPointer → s.slot ≠ none
  history : ∀ t, (s.pc t).History (actsOf t es)

theorem eventsOf_snoc (p : Nat) (es : List (Nat × Act)) (t : Nat) (a : Act) :
    eventsOf p (es ++ [(t, a)]) = eventsOf p es ++ (a.event p).toList := by
  cases h : a.event p <;> simp [eventsOf, h]

theorem actsOf_snoc_self (t : Nat) (es : List (Nat × Act)) (a : Act) :
    actsOf t (es ++ [(t, a)]) = actsOf t es ++ [a] := by
  simp [actsOf]

theorem actsOf_snoc_ne {t u : Nat} (es : List (Nat × Act)) (a : Act) (h : t ≠ u) :
    actsOf u (es ++ [(t, a)]) = actsOf u es := by
  simp [actsOf, h]

theorem publications_snoc (es : List (Nat × Act)) (e : Nat × Act) :
    publications (es ++ [e]) = publications es + publications [e] := List.countP_append

section Steps
variable {es : List (Nat × Act)} {s : State} {t : Nat} {pc : Pc} {a : Act}

theorem set_pc_self : (s.set t pc).pc t = pc := Function.update_self ..

theorem set_pc_ne {u : Nat} (h : u ≠ t) : (s.set t pc).pc u = s.pc u := Function.update_of_ne h ..

theorem Inv.owned_lt (h : Inv es s) {u p : Nat} {l : List Event}
    (hu : (s.pc u).owned = some (p, l)) : p < s.nextPayload := by
  apply Nat.lt_of_not_le
  intro hle
  have hnil := h.unborn p hle
  rw [(h.owned u p l hu).1] at hnil
  subst hnil
  cases hpc : s.pc u <;> simp [hpc, Pc.owned] at hu

/-- A step that touches no payload: the thread owns nothing before it nor after it. -/
theorem Inv.idle (h : Inv es s) (ha : ∀ p, a.event p = none) (hpub : publications [(t, a)] = 0)
    (hold : (s.pc t).owned = none) (hnew : pc.owned = none)
    (hsaw : pc.sawPointer → s.slot ≠ none) (hhist : pc.History (actsOf t es ++ [a])) :
    Inv (es ++ [(t, a)]) (s.set t pc) := by
  have hevents : ∀ p, eventsOf p (es ++ [(t, a)]) = eventsOf p es := fun p => by
    rw [eventsOf_snoc, ha, Option.toList_none, List.append_nil]
  have howned : ∀ u, ((s.set t pc).pc u).owned = (s.pc u).owned := fun u => by
    by_cases hu : u = t
    · rw [hu, set_pc_self, hnew, hold]
    · rw [set_pc_ne hu]
  constructor
  · intro p hp
    rw [hevents]
    exact h.unborn p hp
  · intro u p l hu
    rw [howned] at hu
    rw [hevents]
    exact h.owned u p l hu
  · intro u v p l m hu hv
    rw [howned] at hu hv
    exact h.owner u v p l m hu hv
  · intro p hp
    rw [hevents]
    exact h.published p hp
  · intro p hp hslot hno
    rw [hevents]
    exact h.freed p hp hslot fun u l => howned u ▸ hno u l
  · rw [publications_snoc, hpub]
    exact h.once
  · intro u hu
    by_cases hut : u = t
    · rw [hut, set_pc_self] at hu
      exact hsaw hu
    · rw [set_pc_ne hut] at hu
      exact h.saw u hu
  · intro u
    by_cases hut : u = t
    · rw [hut, set_pc_self, actsOf_snoc_self]
      exact hhist
    · rw [set_pc_ne hut, actsOf_snoc_ne es a (Ne.symm hut)]
      exact h.history u

theorem Inv.advance (h : Inv es s) {p : Nat} {l l' : List Event}
    (hold : (s.pc t).owned = some (p, l))
    (ha : ∀ q, q ≠ p → a.event q = none) (hpub : publications [(t, a)] = 0)
    (hnew : pc.owned = some (p, l')) (hl : l ++ (a.event p).toList = l')
    (hsaw : pc.sawPointer → s.slot ≠ none) (hhist : ∀ acts, pc.History acts) :
    Inv (es ++ [(t, a)]) (s.set t pc) := by
  have hself : eventsOf p (es ++ [(t, a)]) = l' := by
    rw [eventsOf_snoc, (h.owned t p l hold).1, hl]
  have hother : ∀ q, q ≠ p → eventsOf q (es ++ [(t, a)]) = eventsOf q es := fun q hq => by
    rw [eventsOf_snoc, ha q hq, Option.toList_none, List.append_nil]
  have hlt := h.owned_lt hold
  have hslot := (h.owned t p l hold).2
  constructor
  · intro q hq
    rw [hother q (by rintro rfl; exact absurd hq (Nat.not_le_of_lt hlt))]
    exact h.unborn q hq
  · intro u q m hu
    by_cases hut : u = t
    · rw [hut, set_pc_self, hnew, Option.some.injEq, Prod.mk.injEq] at hu
      obtain ⟨rfl, rfl⟩ := hu
      exact ⟨hself, hslot⟩
    · rw [set_pc_ne hut] at hu
      have hq : q ≠ p := by
        rintro rfl
        exact hut (h.owner u t q m l hu hold)
      rw [hother q hq]
      exact h.owned u q m hu
  · have hown : ∀ u q m, ((s.set t pc).pc u).owned = some (q, m) →
        ∃ m', (s.pc u).owned = some (q, m') := by
      intro u q m hu
      by_cases hut : u = t
      · rw [hut, set_pc_self, hnew, Option.some.injEq, Prod.mk.injEq] at hu
        exact ⟨l, by rw [hut, hold, hu.1]⟩
      · rw [set_pc_ne hut] at hu
        exact ⟨m, hu⟩
    intro u v q m n hu hv
    obtain ⟨m', hu⟩ := hown u q m hu
    obtain ⟨n', hv⟩ := hown v q n hv
    exact h.owner u v q m' n' hu hv
  · intro q hq
    rw [hother q (by rintro rfl; exact hslot hq)]
    exact h.published q hq
  · intro q hq hqs hno
    have hqp : q ≠ p := by
      rintro rfl
      exact hno t l' (by rw [set_pc_self, hnew])
    rw [hother q hqp]
    apply h.freed q hq hqs
    intro u m hu
    by_cases hut : u = t
    · rw [hut, hold, Option.some.injEq, Prod.mk.injEq] at hu
      exact hqp hu.1.symm
    · exact hno u m (by rw [set_pc_ne hut]; exact hu)
  · rw [publications_snoc, hpub]
    exact h.once
  · intro u hu
    by_cases hut : u = t
    · rw [hut, set_pc_self] at hu
      exact hsaw hu
    · rw [set_pc_ne hut] at hu
      exact h.saw u hu
  · intro u
    by_cases hut : u = t
    · rw [hut, set_pc_self]
      exact hhist _
    · rw [set_pc_ne hut, actsOf_snoc_ne es a (Ne.symm hut)]
      exact h.history u

/-- A thread gives up its payload: to the slot, or to the allocator. -/
theorem Inv.giveUp (h : Inv es s) {p : Nat} {l : List Event} {slot : Option Nat}
    (hold : (s.pc t).owned = some (p, l)) (ha : ∀ q, q ≠ p → a.event q = none)
    (hslot : slot = s.slot ∨ (s.slot = none ∧ slot = some p))
    (hpublished : slot = some p → l ++ (a.event p).toList = [.allocate, .activate, .publish])
    (hfreed : slot ≠ some p →
      l ++ (a.event p).toList = [.allocate, .activate, .deactivate, .free])
    (hpub : publications es + publications [(t, a)] = if slot.isSome then 1 else 0)
    (hsome : slot ≠ none) :
    Inv (es ++ [(t, a)]) { s.set t (.returned (.ok ())) with slot } := by
  have hself : eventsOf p (es ++ [(t, a)]) = l ++ (a.event p).toList := by
    rw [eventsOf_snoc, (h.owned t p l hold).1]
  have hother : ∀ q, q ≠ p → eventsOf q (es ++ [(t, a)]) = eventsOf q es := fun q hq => by
    rw [eventsOf_snoc, ha q hq, Option.toList_none, List.append_nil]
  have hlt := h.owned_lt hold
  have hnot := (h.owned t p l hold).2
  have hslotq : ∀ q, q ≠ p → (slot = some q ↔ s.slot = some q) := by
    intro q hq
    rcases hslot with rfl | ⟨hnone, rfl⟩
    · rfl
    · simp [hnone, Ne.symm hq]
  have hown : ∀ u q m, ((s.set t (.returned (.ok ()))).pc u).owned = some (q, m) →
      u ≠ t ∧ q ≠ p ∧ (s.pc u).owned = some (q, m) := by
    intro u q m hu
    by_cases hut : u = t
    · rw [hut, set_pc_self] at hu
      simp [Pc.owned] at hu
    · rw [set_pc_ne hut] at hu
      refine ⟨hut, ?_, hu⟩
      rintro rfl
      exact hut (h.owner u t q m l hu hold)
  constructor
  · intro q hq
    rw [hother q (by rintro rfl; exact absurd hq (Nat.not_le_of_lt hlt))]
    exact h.unborn q hq
  · intro u q m hu
    obtain ⟨_, hqp, hu⟩ := hown u q m hu
    rw [hother q hqp]
    exact ⟨(h.owned u q m hu).1, mt (hslotq q hqp).mp (h.owned u q m hu).2⟩
  · intro u v q m n hu hv
    exact h.owner u v q m n (hown u q m hu).2.2 (hown v q n hv).2.2
  · intro q hq
    by_cases hqp : q = p
    · rw [hqp, hself]
      exact hpublished (hqp ▸ hq)
    · rw [hother q hqp]
      exact h.published q ((hslotq q hqp).mp hq)
  · intro q hq hqs hno
    by_cases hqp : q = p
    · rw [hqp, hself]
      exact hfreed (hqp ▸ hqs)
    · rw [hother q hqp]
      apply h.freed q hq (mt (hslotq q hqp).mpr hqs)
      intro u m hu
      by_cases hut : u = t
      · rw [hut, hold, Option.some.injEq, Prod.mk.injEq] at hu
        exact hqp hu.1.symm
      · exact hno u m (by simp only [set_pc_ne hut]; exact hu)
  · rw [publications_snoc]
    exact hpub
  · intro u _
    exact hsome
  · intro u
    by_cases hut : u = t
    · simp only [hut, set_pc_self]
      trivial
    · simp only [set_pc_ne hut]
      rw [actsOf_snoc_ne es a (Ne.symm hut)]
      exact h.history u

theorem Inv.allocate (h : Inv es s) (hpc : s.pc t = .slow) :
    Inv (es ++ [(t, .allocate s.nextPayload)])
      { s.set t (.allocated s.nextPayload) with nextPayload := s.nextPayload + 1 } := by
  have hself : eventsOf s.nextPayload (es ++ [(t, .allocate s.nextPayload)]) = [.allocate] := by
    rw [eventsOf_snoc, h.unborn _ (Nat.le_refl _)]
    simp [Act.event]
  have hother : ∀ q, q ≠ s.nextPayload →
      eventsOf q (es ++ [(t, .allocate s.nextPayload)]) = eventsOf q es := fun q hq => by
    rw [eventsOf_snoc]
    simp [Act.event, Ne.symm hq]
  have hslot : s.slot ≠ some s.nextPayload := by
    intro hs
    have := h.published _ hs
    rw [h.unborn _ (Nat.le_refl _)] at this
    simp at this
  have hown : ∀ u q m, ((s.set t (.allocated s.nextPayload)).pc u).owned = some (q, m) →
      (u = t ∧ q = s.nextPayload ∧ m = [.allocate]) ∨
        (u ≠ t ∧ q ≠ s.nextPayload ∧ (s.pc u).owned = some (q, m)) := by
    intro u q m hu
    by_cases hut : u = t
    · rw [hut, set_pc_self] at hu
      simp only [Pc.owned, Option.some.injEq, Prod.mk.injEq] at hu
      exact .inl ⟨hut, hu.1.symm, hu.2.symm⟩
    · rw [set_pc_ne hut] at hu
      exact .inr ⟨hut, Nat.ne_of_lt (h.owned_lt hu), hu⟩
  constructor
  · intro q hq
    rw [hother q (Nat.ne_of_gt hq)]
    exact h.unborn q (Nat.le_of_succ_le hq)
  · intro u q m hu
    rcases hown u q m hu with ⟨_, rfl, rfl⟩ | ⟨_, hq, hu⟩
    · exact ⟨hself, hslot⟩
    · rw [hother q hq]
      exact h.owned u q m hu
  · intro u v q m n hu hv
    rcases hown u q m hu with ⟨rfl, hq, _⟩ | ⟨_, hq, hu⟩ <;>
      rcases hown v q n hv with ⟨rfl, hq', _⟩ | ⟨_, hq', hv⟩
    · rfl
    · exact absurd hq hq'
    · exact absurd hq' hq
    · exact h.owner u v q m n hu hv
  · intro q hq
    rw [hother q (by rintro rfl; exact hslot hq)]
    exact h.published q hq
  · intro q hq hqs hno
    have hne : q ≠ s.nextPayload := by
      rintro rfl
      exact hno t [.allocate] (by simp only [set_pc_self]; rfl)
    rw [hother q hne]
    apply h.freed q (by simp only at hq; omega) hqs
    intro u m hu
    by_cases hut : u = t
    · rw [hut, hpc] at hu
      simp [Pc.owned] at hu
    · exact hno u m (by simp only [set_pc_ne hut]; exact hu)
  · rw [publications_snoc]
    exact h.once
  · intro u hu
    by_cases hut : u = t
    · simp only [hut, set_pc_self] at hu
      exact hu.elim
    · simp only [set_pc_ne hut] at hu
      exact h.saw u hu
  · intro u
    by_cases hut : u = t
    · simp only [hut, set_pc_self]
      trivial
    · simp only [set_pc_ne hut]
      rw [actsOf_snoc_ne es _ (Ne.symm hut)]
      exact h.history u

end Steps

theorem Inv.init : Inv [] State.init := by
  constructor
  · exact fun _ _ => rfl
  · intro t p l ht
    simp [State.init, Pc.owned] at ht
  · intro t u p l m ht
    simp [State.init, Pc.owned] at ht
  · intro p hp
    simp [State.init] at hp
  · intro p hp
    exact absurd hp (Nat.not_lt_zero p)
  · rfl
  · exact fun _ ht => ht.elim
  · exact fun _ => rfl

theorem Step.inv {routine : Nat → Routine} {es : List (Nat × Act)} {s s' : State} {e : Nat × Act}
    (h : Inv es s) (hs : Step routine s e s') : Inv (es ++ [e]) s' := by
  cases hs with
  | @loadFast t p hpc hslot =>
    apply h.idle (fun _ => rfl) rfl (by rw [hpc]; rfl) rfl
    · intro _
      simp [hslot]
    · trivial
  | @loadSlow t hpc hslot =>
    apply h.idle (fun _ => rfl) rfl (by rw [hpc]; rfl) rfl False.elim
    have hacts := h.history t
    rw [hpc] at hacts
    rw [show actsOf t es = [] from hacts]
    rfl
  | allocate hpc => exact h.allocate hpc
  | @allocFail t hroutine hpc =>
    apply h.idle (fun _ => rfl) rfl (by rw [hpc]; rfl) rfl False.elim
    have hacts := h.history t
    rw [hpc] at hacts
    rw [show actsOf t es = [.load] from hacts]
    rfl
  | @activate t p hpc =>
    refine h.advance (p := p) (l := [.allocate]) (by rw [hpc]; rfl) ?_ rfl rfl ?_ False.elim
      (fun _ => trivial)
    · intro q hq
      simp [Act.event, Ne.symm hq]
    · simp [Act.event]
  | @publish t p hpc hslot =>
    refine h.giveUp (p := p) (l := [.allocate, .activate]) (by rw [hpc]; rfl) ?_ (.inr ⟨hslot, rfl⟩)
      ?_ (fun hne => absurd rfl hne) ?_ (by simp)
    · intro q hq
      simp [Act.event, Ne.symm hq]
    · simp [Act.event]
    · rw [h.once, hslot]
      rfl
  | @lose t p winner hpc hslot =>
    refine h.advance (p := p) (l := [.allocate, .activate]) (by rw [hpc]; rfl) (fun _ _ => rfl) rfl
      rfl rfl (fun _ => ?_) (fun _ => trivial)
    simp [hslot]
  | @deactivate t p hpc =>
    have hsaw := h.saw t (by rw [hpc]; trivial)
    refine h.advance (p := p) (l := [.allocate, .activate]) (by rw [hpc]; rfl) ?_ rfl rfl ?_
      (fun _ => hsaw) (fun _ => trivial)
    · intro q hq
      simp [Act.event, Ne.symm hq]
    · simp [Act.event]
  | @free t p hpc =>
    have hsaw := h.saw t (by rw [hpc]; trivial)
    have hown : (s.pc t).owned = some (p, [.allocate, .activate, .deactivate]) := by rw [hpc]; rfl
    refine h.giveUp hown ?_ (.inl rfl) ?_ (fun _ => ?_) h.once hsaw
    · intro q hq
      simp [Act.event, Ne.symm hq]
    · intro hs
      exact absurd hs (h.owned t p _ hown).2
    · simp [Act.event]

theorem inv_of_run {routine : Nat → Routine} {es : List (Nat × Act)} {s : State}
    (hr : Run (Step routine) State.init es s) : Inv es s :=
  hr.trace_invariant (fun _ _ _ _ h hs => hs.inv h) Inv.init

/-! ## What the protocol guarantees -/

section Guarantees
variable {routine : Nat → Routine} {es es' : List (Nat × Act)} {s s' : State}

/-- A published pointer stays, and nothing more happens to its payload. -/
theorem Step.keeps_slot {e : Nat × Act} {p : Nat} (h : Inv es s) (hs : Step routine s e s')
    (hp : s.slot = some p) : s'.slot = some p ∧ e.2.event p = none := by
  have hnot : ∀ t q l, (s.pc t).owned = some (q, l) → q ≠ p := by
    rintro t q l hq rfl
    exact (h.owned t q l hq).2 hp
  cases hs with
  | loadFast | loadSlow | allocFail => exact ⟨hp, rfl⟩
  | lose => exact ⟨hp, rfl⟩
  | publish hpc hslot =>
    rw [hslot] at hp
    cases hp
  | allocate hpc =>
    have hne : s.nextPayload ≠ p := by
      rintro rfl
      have hevents := h.published _ hp
      rw [h.unborn _ (Nat.le_refl _)] at hevents
      cases hevents
    exact ⟨hp, by simp [Act.event, hne]⟩
  | @activate t q hpc =>
    have hne := hnot t q [.allocate] (by rw [hpc]; rfl)
    exact ⟨hp, by simp [Act.event, hne]⟩
  | @deactivate t q hpc =>
    have hne := hnot t q [.allocate, .activate] (by rw [hpc]; rfl)
    exact ⟨hp, by simp [Act.event, hne]⟩
  | @free t q hpc =>
    have hne := hnot t q [.allocate, .activate, .deactivate] (by rw [hpc]; rfl)
    exact ⟨hp, by simp [Act.event, hne]⟩

theorem keeps_slot_of_run {p : Nat} (hr : Run (Step routine) s es' s') (h : Inv es s)
    (hp : s.slot = some p) : s'.slot = some p ∧ eventsOf p es' = [] := by
  induction hr generalizing es with
  | nil => exact ⟨hp, rfl⟩
  | cons hs _ ih =>
    obtain ⟨hp', hevent⟩ := hs.keeps_slot h hp
    obtain ⟨hslot, hnil⟩ := ih (hs.inv h) hp'
    refine ⟨hslot, ?_⟩
    simpa [eventsOf, hevent] using hnil

/-- How many steps a thread needs at most to return. -/
def Pc.rank : Pc → Nat
  | .start => 6
  | .slow => 5
  | .allocated _ => 4
  | .activated _ => 3
  | .lost _ => 2
  | .deactivated _ => 1
  | .returned _ => 0

theorem Inv.unpublished (h : Inv es s) {p : Nat} (hp : s.slot ≠ some p) :
    eventsOf p es <+: [.allocate, .activate, .deactivate, .free] := by
  by_cases hlt : p < s.nextPayload
  · by_cases hown : ∃ t l, (s.pc t).owned = some (p, l)
    · obtain ⟨t, l, ht⟩ := hown
      rw [(h.owned t p l ht).1]
      cases hpc : s.pc t with
      | start | slow | returned => simp [hpc, Pc.owned] at ht
      | allocated | activated | lost | deactivated =>
        simp only [hpc, Pc.owned, Option.some.injEq, Prod.mk.injEq] at ht
        simp [← ht.2]
    · have hfreed := h.freed p hlt hp fun t l ht => hown ⟨t, l, ht⟩
      exact hfreed ▸ List.prefix_refl _
  · rw [h.unborn p (Nat.le_of_not_lt hlt)]
    exact List.nil_prefix

/-- When no thread is inside its routine, every payload but the published one is gone. -/
theorem Inv.quiescent (h : Inv es s) (hq : ∀ t, s.pc t = .start ∨ (s.pc t).rank = 0) {p t : Nat}
    (hp : (t, .allocate p) ∈ es) (hslot : s.slot ≠ some p) :
    eventsOf p es = [.allocate, .activate, .deactivate, .free] := by
  refine h.freed p ?_ hslot fun u l hu => ?_
  · apply Nat.lt_of_not_le
    intro hle
    have hnil := h.unborn p hle
    rw [eventsOf, List.filterMap_eq_nil_iff] at hnil
    have hnone := hnil _ hp
    simp [Act.event] at hnone
  · rcases hq u with hpc | hrank
    · simp [hpc, Pc.owned] at hu
    · cases hpc : s.pc u <;> simp [hpc, Pc.owned, Pc.rank] at hu hrank

/-- Every interleaving: one publication at most, of a payload that was activated once and is
never torn down; every other payload on its way to being torn down once, and there when no
thread is inside its routine; `Ok` only with a pointer in the slot, `Err` only after a refused
allocation and nothing else done to the slot or to a payload. -/
theorem arm_once_box_protocol (hr : Run (Step routine) State.init es s) :
    publications es ≤ 1 ∧
    (∀ p, s.slot = some p → eventsOf p es = [.allocate, .activate, .publish] ∧
      ∀ es' s', Run (Step routine) s es' s' → s'.slot = some p ∧ eventsOf p es' = []) ∧
    (∀ p, s.slot ≠ some p → eventsOf p es <+: [.allocate, .activate, .deactivate, .free]) ∧
    ((∀ t, s.pc t = .start ∨ (s.pc t).rank = 0) → ∀ p t, (t, .allocate p) ∈ es →
      s.slot ≠ some p → eventsOf p es = [.allocate, .activate, .deactivate, .free]) ∧
    (∀ t, s.pc t = .returned (.ok ()) → s.slot ≠ none) ∧
    ∀ t e, s.pc t = .returned (.error e) → actsOf t es = [.load, .allocFail] := by
  have h := inv_of_run hr
  refine ⟨?_, fun p hp => ⟨h.published p hp, fun es' s' hr' => keeps_slot_of_run hr' h hp⟩,
    fun p hp => h.unpublished hp, fun hq p t hp hslot => h.quiescent hq hp hslot, ?_, ?_⟩
  · rw [h.once]
    split <;> omega
  · intro t ht
    exact h.saw t (by rw [ht]; trivial)
  · intro t e ht
    have hacts := h.history t
    rw [ht] at hacts
    exact hacts

/-- Two threads race for the slot, and the loser frees its payload. -/
theorem arm_once_box_protocol_race :
    ∃ s, Run (Step fun _ => .armOnceBox) State.init
        [(0, .load), (1, .load), (0, .allocate 0), (1, .allocate 1), (0, .activate 0),
          (1, .activate 1), (1, .publish 1), (0, .lose 0), (0, .deactivate 0), (0, .free 0)] s ∧
      s.slot = some 1 ∧ ∀ es' s', Run (Step fun _ => .armOnceBox) s es' s' → s'.slot = some 1 := by
  have hr : Run (Step fun _ => .armOnceBox) State.init
      [(0, .load), (1, .load), (0, .allocate 0), (1, .allocate 1), (0, .activate 0),
        (1, .activate 1), (1, .publish 1), (0, .lose 0), (0, .deactivate 0), (0, .free 0)] _ :=
    .cons (.loadSlow rfl rfl) <| .cons (.loadSlow rfl rfl) <| .cons (.allocate rfl) <|
      .cons (.allocate rfl) <| .cons (.activate rfl) <| .cons (.activate rfl) <|
      .cons (.publish rfl rfl) <| .cons (.lose rfl rfl) <| .cons (.deactivate rfl) <|
      .cons (.free rfl) (.nil _)
  exact ⟨_, hr, rfl, fun es' s' hr' =>
    (((arm_once_box_protocol hr).2.1 1 rfl).2 es' s' hr').1⟩

end Guarantees

end Rustyfill.OnceBox
