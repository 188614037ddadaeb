import Mathlib.Logic.Function.Basic
import Rustyfill.Lib.Run

/-!
# Programs of atomic actions, alone and interleaved

A program is a tree of atomic actions, each answered by a result. A discipline says, from a
ghost state, which action may come next and what the ghost state is after its result; a
program follows it or does not, whatever it runs with. When the actions a discipline allows
keep an invariant of the shared state and of all ghost states, a pool of clients that run
programs of the discipline, in any interleaving, keeps it too.
-/

namespace Interleaving

open Transition

set_option autoImplicit false

universe u

/-- `act a k` performs `a` and goes on as `k` says for its result. -/
inductive Prog (A : Type) (Res : A → Type) (R : Type) where
  | ret (r : R) : Prog A Res R
  | act (a : A) (k : Res a → Prog A Res R) : Prog A Res R

variable {A : Type} {Res : A → Type} {R S : Type} {H : Type} {σ : Type u}

namespace Prog

def bind (p : Prog A Res R) (f : R → Prog A Res S) : Prog A Res S :=
  match p with
  | .ret r => f r
  | .act a k => .act a fun x => (k x).bind f

instance : Monad (Prog A Res) where
  pure := .ret
  bind := Prog.bind

def perform (a : A) : Prog A Res (Res a) := .act a .ret

@[simp] theorem pure_def (r : R) : (pure r : Prog A Res R) = .ret r := rfl

@[simp] theorem ret_bind (r : R) (f : R → Prog A Res S) : (Prog.ret r >>= f) = f r := rfl

@[simp] theorem act_bind (a : A) (k : Res a → Prog A Res R) (f : R → Prog A Res S) :
    (Prog.act a k >>= f) = .act a fun x => k x >>= f := rfl

@[simp] theorem perform_def (a : A) : (perform a : Prog A Res (Res a)) = .act a .ret := rfl

theorem bind_ret (p : Prog A Res R) : p >>= Prog.ret = p := by
  induction p with
  | ret r => rfl
  | act a k ih =>
    rw [act_bind]
    exact congrArg (Prog.act a) (funext ih)

/-! ## A program alone -/

/-- The runs of a program to its end. -/
inductive Exec (sem : σ → (a : A) → Res a → σ → Prop) : σ → Prog A Res R → R → σ → Prop where
  | ret (s : σ) (r : R) : Exec sem s (.ret r) r s
  | act {s t u : σ} {a : A} {x : Res a} {k : Res a → Prog A Res R} {r : R} :
      sem s a x t → Exec sem t (k x) r u → Exec sem s (.act a k) r u

section Exec
variable {sem : σ → (a : A) → Res a → σ → Prop} {s t : σ}

theorem exec_ret {r r' : R} : Exec sem s (.ret r) r' t ↔ r' = r ∧ t = s := by
  constructor
  · intro h
    cases h
    exact ⟨rfl, rfl⟩
  · rintro ⟨rfl, rfl⟩
    exact .ret t r'

theorem exec_act {a : A} {k : Res a → Prog A Res R} {r : R} :
    Exec sem s (.act a k) r t ↔ ∃ x u, sem s a x u ∧ Exec sem u (k x) r t := by
  constructor
  · intro h
    cases h with
    | act hs hk => exact ⟨_, _, hs, hk⟩
  · rintro ⟨x, u, hs, hk⟩
    exact .act hs hk

theorem Exec.perform {a : A} {x : Res a} {u : σ} {f : Res a → Prog A Res R} {r : R}
    (hs : sem s a x u) (h : Exec sem u (f x) r t) : Exec sem s (Prog.perform a >>= f) r t :=
  .act hs h

theorem exec_bind {p : Prog A Res R} {f : R → Prog A Res S} {r : S} :
    Exec sem s (p >>= f) r t ↔ ∃ x u, Exec sem s p x u ∧ Exec sem u (f x) r t := by
  induction p generalizing s with
  | ret x =>
    rw [ret_bind]
    constructor
    · intro h
      exact ⟨x, s, .ret s x, h⟩
    · rintro ⟨y, u, hy, h⟩
      obtain ⟨rfl, rfl⟩ := exec_ret.mp hy
      exact h
  | act a k ih =>
    rw [act_bind, exec_act]
    constructor
    · rintro ⟨x, u, hs, hk⟩
      obtain ⟨y, v, hy, h⟩ := (ih x).mp hk
      exact ⟨y, v, .act hs hy, h⟩
    · rintro ⟨y, v, hy, h⟩
      obtain ⟨x, u, hs, hk⟩ := exec_act.mp hy
      exact ⟨x, u, hs, (ih x).mpr ⟨y, v, hk, h⟩⟩

end Exec

end Prog

/-! ## Disciplines -/

structure Discipline (A : Type) (Res : A → Type) (H : Type) where
  allows : H → A → Prop
  next : H → (a : A) → Res a → H

/-- Every action the program may perform is allowed, and what it returns meets `Q`. -/
def Prog.Follows (D : Discipline A Res H) (Q : H → R → Prop) : H → Prog A Res R → Prop
  | h, .ret r => Q h r
  | h, .act a k => D.allows h a ∧ ∀ x, (k x).Follows D Q (D.next h a x)

section Follows
variable {D : Discipline A Res H} {h : H}

@[simp] theorem Prog.follows_ret {Q : H → R → Prop} {r : R} :
    (Prog.ret r : Prog A Res R).Follows D Q h ↔ Q h r := Iff.rfl

@[simp] theorem Prog.follows_act {Q : H → R → Prop} {a : A} {k : Res a → Prog A Res R} :
    (Prog.act a k).Follows D Q h ↔ D.allows h a ∧ ∀ x, (k x).Follows D Q (D.next h a x) := Iff.rfl

theorem Prog.follows_bind {p : Prog A Res R} {f : R → Prog A Res S} {Q : H → S → Prop} :
    (p >>= f).Follows D Q h ↔ p.Follows D (fun h' r => (f r).Follows D Q h') h := by
  induction p generalizing h with
  | ret r => rfl
  | act a k ih =>
    rw [Prog.act_bind, Prog.follows_act, Prog.follows_act]
    constructor
    · rintro ⟨ha, hk⟩
      exact ⟨ha, fun x => (ih x).mp (hk x)⟩
    · rintro ⟨ha, hk⟩
      exact ⟨ha, fun x => (ih x).mpr (hk x)⟩

theorem Prog.Follows.mono {p : Prog A Res R} {Q Q' : H → R → Prop} (hQ : ∀ h r, Q h r → Q' h r)
    (hp : p.Follows D Q h) : p.Follows D Q' h := by
  induction p generalizing h with
  | ret r => exact hQ h r hp
  | act a k ih => exact ⟨hp.1, fun x => ih x (hp.2 x)⟩

end Follows

/-! ## A pool of clients -/

structure Pool (σ : Type u) (A : Type) (Res : A → Type) (R : Type) where
  shared : σ
  prog : Nat → Option (Prog A Res R)

/-- What a client does in one step. -/
inductive Event (A : Type) (Res : A → Type) (R : Type) where
  | call
  | did (a : A) (x : Res a)
  | returned (r : R)

/-- One step of client `t`: a call of one of the programs of `api`, an action, or a return. -/
inductive Step (sem : Nat → σ → (a : A) → Res a → σ → Prop) (api : Prog A Res R → Prop) :
    Pool σ A Res R → Nat × Event A Res R → Pool σ A Res R → Prop where
  | call {pool : Pool σ A Res R} {t : Nat} {p : Prog A Res R} : pool.prog t = none → api p →
      Step sem api pool (t, .call) { pool with prog := Function.update pool.prog t (some p) }
  | act {pool : Pool σ A Res R} {t : Nat} {a : A} {k : Res a → Prog A Res R} {x : Res a} {s : σ} :
      pool.prog t = some (.act a k) → sem t pool.shared a x s →
      Step sem api pool (t, .did a x) ⟨s, Function.update pool.prog t (some (k x))⟩
  | ret {pool : Pool σ A Res R} {t : Nat} {r : R} : pool.prog t = some (.ret r) →
      Step sem api pool (t, .returned r) { pool with prog := Function.update pool.prog t none }

theorem Step.mono {sem sem' : Nat → σ → (a : A) → Res a → σ → Prop} {api : Prog A Res R → Prop}
    {pool pool' : Pool σ A Res R} {e : Nat × Event A Res R}
    (h : ∀ t s a x s', sem t s a x s' → sem' t s a x s') (hs : Step sem api pool e pool') :
    Step sem' api pool e pool' := by
  cases hs with
  | call hprog hp => exact .call hprog hp
  | act hprog hsem => exact .act hprog (h _ _ _ _ _ hsem)
  | ret hprog => exact .ret hprog

section Alone
variable {sem : Nat → σ → (a : A) → Res a → σ → Prop} {api : Prog A Res R → Prop} {s s' : σ}
  {t : Nat} {prog : Nat → Option (Prog A Res R)} {p : Prog A Res R} {r : R}

theorem run_of_exec_bind {q : Prog A Res S} {f : S → Prog A Res R} {x : S}
    (h : Prog.Exec (sem t) s q x s') (hprog : prog t = some (q >>= f)) :
    ∃ es, Run (Step sem api) ⟨s, prog⟩ es ⟨s', Function.update prog t (some (f x))⟩ := by
  induction h generalizing prog with
  | ret s x =>
    rw [Prog.ret_bind] at hprog
    exact ⟨[], by rw [← hprog, Function.update_eq_self]; exact .nil _⟩
  | @act s s₁ s' a y k x hs _ ih =>
    obtain ⟨es, hrun⟩ := ih (Function.update_self t (some (k y >>= f)) prog)
    rw [Function.update_idem] at hrun
    exact ⟨(t, .did a y) :: es, .cons (.act hprog hs) hrun⟩

theorem run_of_exec (h : Prog.Exec (sem t) s p r s') (hprog : prog t = some p) :
    ∃ es, Run (Step sem api) ⟨s, prog⟩ es ⟨s', Function.update prog t (some (.ret r))⟩ :=
  run_of_exec_bind h (by rw [hprog, Prog.bind_ret])

/-- Client `u` may run to its end between two parts of what client `t` runs. -/
theorem run_between {u : Nat} {q : Prog A Res S} {f : S → Prog A Res R} {x : S} {r' : R}
    {s₁ s₂ : σ} (hq : Prog.Exec (sem t) s q x s₁) (hp : Prog.Exec (sem u) s₁ p r s₂)
    (hf : Prog.Exec (sem t) s₂ (f x) r' s') (htu : t ≠ u) (ht : prog t = some (q >>= f))
    (hu : prog u = some p) : ∃ es, Run (Step sem api) ⟨s, prog⟩ es ⟨s', Function.update
      (Function.update (Function.update prog t (some (f x))) u (some (.ret r))) t
      (some (.ret r'))⟩ := by
  have hupdate : Function.update prog t (some (f x)) u = some p := by
    rw [Function.update_of_ne htu.symm, hu]
  have hback : Function.update (Function.update prog t (some (f x))) u (some (.ret r)) t =
      some (f x) := by
    rw [Function.update_of_ne htu, Function.update_self]
  obtain ⟨es₁, hrun₁⟩ : ∃ es, Run (Step sem api) ⟨s, prog⟩ es _ := run_of_exec_bind hq ht
  obtain ⟨es₂, hrun₂⟩ : ∃ es, Run (Step sem api) ⟨s₁, _⟩ es _ := run_of_exec hp hupdate
  obtain ⟨es₃, hrun₃⟩ : ∃ es, Run (Step sem api) ⟨s₂, _⟩ es _ := run_of_exec hf hback
  exact ⟨_, (hrun₁.append hrun₂).append hrun₃⟩

theorem run_of_call (hp : api p) (h : Prog.Exec (sem t) s p r s') (hprog : prog t = none) :
    ∃ es, Run (Step sem api) ⟨s, prog⟩ es ⟨s', prog⟩ := by
  obtain ⟨es, hrun⟩ := run_of_exec h (Function.update_self t (some p) prog)
  refine ⟨(t, .call) :: (es ++ [(t, .returned r)]), .cons (.call hprog hp) (hrun.snoc ?_)⟩
  rw [Function.update_idem]
  have hret : Step sem api ⟨s', Function.update prog t (some (.ret r))⟩ (t, .returned r)
      ⟨s', Function.update (Function.update prog t (some (.ret r))) t none⟩ :=
    .ret (Function.update_self ..)
  rwa [Function.update_idem, ← hprog, Function.update_eq_self] at hret

end Alone

/-- The ghost state of each client after the events of a run. -/
def ghostStep (D : Discipline A Res H) (idle : H) (g : Nat → H) (e : Nat × Event A Res R) :
    Nat → H :=
  match e with
  | (t, .call) => Function.update g t idle
  | (t, .did a x) => Function.update g t (D.next (g t) a x)
  | (t, .returned _) => Function.update g t idle

def ghosts (D : Discipline A Res H) (idle : H) (g : Nat → H) (es : List (Nat × Event A Res R)) :
    Nat → H :=
  es.foldl (ghostStep D idle) g

/-- The actions a discipline allows keep an invariant, and so does the return of a client. -/
structure Discipline.Sound (D : Discipline A Res H) (idle : H) (Q : H → R → Prop)
    (sem : Nat → σ → (a : A) → Res a → σ → Prop) (I : (Nat → H) → σ → Prop) : Prop where
  act : ∀ {g s t a x s'}, I g s → D.allows (g t) a → sem t s a x s' →
    I (Function.update g t (D.next (g t) a x)) s'
  ret : ∀ {g s t r}, I g s → Q (g t) r → I (Function.update g t idle) s

section Invariant
variable {D : Discipline A Res H} {idle : H} {Q : H → R → Prop}
  {sem : Nat → σ → (a : A) → Res a → σ → Prop} {I : (Nat → H) → σ → Prop}
  {api : Prog A Res R → Prop} {es : List (Nat × Event A Res R)} {s₀ : σ}
  {pool pool' : Pool σ A Res R}

/-- The shared state, and what each client has still to do, against the ghost states. -/
structure Follows (D : Discipline A Res H) (idle : H) (Q : H → R → Prop)
    (I : (Nat → H) → σ → Prop) (g : Nat → H) (pool : Pool σ A Res R) : Prop where
  shared : I g pool.shared
  running : ∀ t p, pool.prog t = some p → p.Follows D Q (g t)
  resting : ∀ t, pool.prog t = none → g t = idle

theorem Follows.step (hsound : D.Sound idle Q sem I) (hapi : ∀ p, api p → p.Follows D Q idle)
    {g : Nat → H} {e : Nat × Event A Res R} (h : Follows D idle Q I g pool)
    (hs : Step sem api pool e pool') : Follows D idle Q I (ghostStep D idle g e) pool' := by
  cases hs with
  | @call t p hnone hp =>
    have hg : Function.update g t idle = g := by
      rw [← h.resting t hnone, Function.update_eq_self]
    simp only [ghostStep, hg]
    refine ⟨h.shared, fun u q hu => ?_, fun u hu => ?_⟩
    · simp only [Function.update_apply] at hu
      split at hu
      · rename_i hut
        cases hu
        rw [hut, h.resting t hnone]
        exact hapi p hp
      · exact h.running u q hu
    · simp only [Function.update_apply] at hu
      split at hu
      · cases hu
      · exact h.resting u hu
  | @act t a k x s hprog hsem =>
    obtain ⟨hallow, hnext⟩ := h.running t _ hprog
    refine ⟨hsound.act h.shared hallow hsem, fun u q hu => ?_, fun u hu => ?_⟩
    · simp only [Function.update_apply] at hu
      split at hu
      · rename_i hut
        cases hu
        simp only [ghostStep, hut, Function.update_self]
        exact hnext x
      · rename_i hut
        simp only [ghostStep, Function.update_of_ne hut]
        exact h.running u q hu
    · simp only [Function.update_apply] at hu
      split at hu
      · cases hu
      · rename_i hut
        simp only [ghostStep, Function.update_of_ne hut]
        exact h.resting u hu
  | @ret t r hprog =>
    refine ⟨hsound.ret h.shared (h.running t _ hprog), fun u q hu => ?_, fun u hu => ?_⟩
    · simp only [Function.update_apply] at hu
      split at hu
      · cases hu
      · rename_i hut
        simp only [ghostStep, Function.update_of_ne hut]
        exact h.running u q hu
    · simp only [Function.update_apply] at hu
      split at hu
      · rename_i hut
        simp only [ghostStep, hut, Function.update_self]
      · rename_i hut
        simp only [ghostStep, Function.update_of_ne hut]
        exact h.resting u hu

theorem Follows.run (hsound : D.Sound idle Q sem I) (hapi : ∀ p, api p → p.Follows D Q idle)
    {g : Nat → H} (h : Follows D idle Q I g pool) (hr : Run (Step sem api) pool es pool') :
    Follows D idle Q I (ghosts D idle g es) pool' := by
  induction hr generalizing g with
  | nil => exact h
  | cons hs _ ih => exact ih (h.step hsound hapi hs)

/-- Any interleaving of programs that follow the discipline follows it. -/
theorem follows_of_run (hsound : D.Sound idle Q sem I) (hapi : ∀ p, api p → p.Follows D Q idle)
    (hinit : I (fun _ => idle) s₀) (hr : Run (Step sem api) ⟨s₀, fun _ => none⟩ es pool) :
    Follows D idle Q I (ghosts D idle (fun _ => idle) es) pool := by
  refine Follows.run hsound hapi ?_ hr
  constructor
  · exact hinit
  · intro t p hp
    cases hp
  · intro t _
    rfl

theorem Follows.allows {g : Nat → H} (h : Follows D idle Q I g pool) {t : Nat} {a : A} {x : Res a}
    (hs : Step sem api pool (t, .did a x) pool') :
    D.allows (g t) a ∧ sem t pool.shared a x pool'.shared := by
  cases hs with
  | act hprog hsem => exact ⟨(h.running t _ hprog).1, hsem⟩

/-- What the actions of a client keep of its ghost state stays until it returns. -/
theorem Follows.persists (hsound : D.Sound idle Q sem I) (hapi : ∀ p, api p → p.Follows D Q idle)
    {P : H → Prop} (hP : ∀ h a x, P h → D.allows h a → P (D.next h a x)) {g : Nat → H}
    (h : Follows D idle Q I g pool) (hr : Run (Step sem api) pool es pool') {t : Nat}
    (hes : ∀ e ∈ es, e.1 = t → ∃ a x, e.2 = .did a x) (hg : P (g t)) :
    P (ghosts D idle g es t) := by
  induction hr generalizing g with
  | nil => exact hg
  | @cons p q _ e _ hs _ ih =>
    refine ih (h.step hsound hapi hs) (fun e' he' => hes e' (List.mem_cons_of_mem _ he')) ?_
    obtain ⟨u, ev⟩ := e
    by_cases hu : u = t
    · obtain ⟨a, x, rfl⟩ := hes (u, ev) List.mem_cons_self hu
      subst hu
      simpa only [ghostStep, Function.update_self] using hP _ a x hg (h.allows hs).1
    · have hkeep : ghostStep D idle g (u, ev) t = g t := by
        cases ev <;> exact Function.update_of_ne (Ne.symm hu) ..
      rw [hkeep]
      exact hg

theorem Follows.returns {g : Nat → H} (h : Follows D idle Q I g pool) {t : Nat} {r : R}
    (hs : Step sem api pool (t, .returned r) pool') : Q (g t) r := by
  cases hs with
  | ret hprog => exact h.running t _ hprog

end Invariant

end Interleaving
