import Mathlib.Logic.Relation
import Rustyfill.Lib.Program

/-!
# A program among others

What a program does while others act between its steps, when all that is known of the
others is a relation between the state before and after one of their steps. `Wp` says that
the program is never blocked and that the log of its own steps, what it returns and the
state it ends in meet a condition, whatever the others do.
-/

namespace Interleaving

open Transition Relation

set_option autoImplicit false

universe u

variable {A : Type} {Res : A → Type} {R S : Type} {σ : Type u}

/-- One step of the program itself. -/
structure Own (σ : Type u) (A : Type) (Res : A → Type) where
  before : σ
  act : A
  res : Res act
  after : σ

namespace Prog

def Wp (sem : σ → (a : A) → Res a → σ → Prop) (env : σ → σ → Prop)
    (Q : List (Own σ A Res) → R → σ → Prop) :
    Prog A Res R → List (Own σ A Res) → σ → Prop
  | .ret r, log, s => ∀ s', ReflTransGen env s s' → Q log r s'
  | .act a k, log, s => ∀ s', ReflTransGen env s s' → (∃ x u, sem s' a x u) ∧
      ∀ x u, sem s' a x u → (k x).Wp sem env Q (log ++ [⟨s', a, x, u⟩]) u

variable {sem : σ → (a : A) → Res a → σ → Prop} {env : σ → σ → Prop} {s s' : σ}
  {log : List (Own σ A Res)}

theorem wp_ret {Q : List (Own σ A Res) → R → σ → Prop} {P : σ → Prop} {r : R}
    (hstable : ∀ s s', P s → env s s' → P s') (hQ : ∀ s, P s → Q log r s) (hP : P s) :
    (Prog.ret r).Wp sem env Q log s := by
  intro s' henv
  apply hQ
  induction henv with
  | refl => exact hP
  | tail _ hstep ih => exact hstable _ _ ih hstep

/-- What is known before an action has to survive the steps of the others. -/
theorem wp_act {Q : List (Own σ A Res) → R → σ → Prop} {P : σ → Prop} {a : A}
    {k : Res a → Prog A Res R} (hstable : ∀ s s', P s → env s s' → P s')
    (hcan : ∀ s, P s → ∃ x u, sem s a x u)
    (hdoes : ∀ s x u, P s → sem s a x u → (k x).Wp sem env Q (log ++ [⟨s, a, x, u⟩]) u) (hP : P s) :
    (Prog.act a k).Wp sem env Q log s := by
  intro s' henv
  have hP' : P s' := by
    induction henv with
    | refl => exact hP
    | tail _ hstep ih => exact hstable _ _ ih hstep
  exact ⟨hcan s' hP', fun x u hs => hdoes s' x u hP' hs⟩

theorem Wp.mono {p : Prog A Res R} {Q Q' : List (Own σ A Res) → R → σ → Prop}
    (hp : p.Wp sem env Q log s) (hQ : ∀ log r s, Q log r s → Q' log r s) :
    p.Wp sem env Q' log s := by
  induction p generalizing log s with
  | ret r =>
    intro s' henv
    exact hQ log r s' (hp s' henv)
  | act a k ih =>
    intro s' henv
    obtain ⟨hcan, hdoes⟩ := hp s' henv
    exact ⟨hcan, fun x u hs => ih x (hdoes x u hs)⟩

theorem Wp.frame {p : Prog A Res R} {Q : List (Own σ A Res) → R → σ → Prop}
    {pre : List (Own σ A Res)} (hp : p.Wp sem env (fun log => Q (pre ++ log)) log s) :
    p.Wp sem env Q (pre ++ log) s := by
  induction p generalizing log s with
  | ret r => exact hp
  | act a k ih =>
    intro s' henv
    obtain ⟨hcan, hdoes⟩ := hp s' henv
    refine ⟨hcan, fun x u hs => ?_⟩
    rw [List.append_assoc]
    exact ih x (hdoes x u hs)

theorem Wp.bind {p : Prog A Res R} {f : R → Prog A Res S}
    {Q : List (Own σ A Res) → S → σ → Prop}
    (hp : p.Wp sem env (fun log r s => (f r).Wp sem env Q log s) log s) :
    (p >>= f).Wp sem env Q log s := by
  induction p generalizing log s with
  | ret r => exact hp s .refl
  | act a k ih =>
    intro s' henv
    obtain ⟨hcan, hdoes⟩ := hp s' henv
    exact ⟨hcan, fun x u hs => ih x (hdoes x u hs)⟩

theorem Wp.other {p : Prog A Res R} {Q : List (Own σ A Res) → R → σ → Prop}
    (hp : p.Wp sem env Q log s) (henv : env s s') : p.Wp sem env Q log s' := by
  cases p with
  | ret r => exact fun s'' h => hp s'' (.head henv h)
  | act a k => exact fun s'' h => hp s'' (.head henv h)

theorem Wp.exec {p : Prog A Res R} {Q : List (Own σ A Res) → R → σ → Prop}
    (hp : p.Wp sem env Q log s) : ∃ log' r s', Exec sem s p r s' ∧ Q log' r s' := by
  induction p generalizing log s with
  | ret r => exact ⟨log, r, s, .ret s r, hp s .refl⟩
  | act a k ih =>
    obtain ⟨⟨x, u, hs⟩, hdoes⟩ := hp s .refl
    obtain ⟨log', r, s', hrun, hQ⟩ := ih x (hdoes x u hs)
    exact ⟨log', r, s', .act hs hrun, hQ⟩

theorem Wp.of_exec {p : Prog A Res R} {Q : List (Own σ A Res) → R → σ → Prop} {r : R}
    (hp : p.Wp sem env Q log s) (h : Exec sem s p r s') : ∃ log', Q log' r s' := by
  induction h generalizing log with
  | ret s r => exact ⟨log, hp s .refl⟩
  | act hs _ ih => exact ih ((hp _ .refl).2 _ _ hs)

/-! ### Nobody interferes -/

/-- The steps of the others where there are none. -/
def Nobody (_ _ : σ) : Prop := False

theorem wp_ret_alone {Q : List (Own σ A Res) → R → σ → Prop} {r : R} (hQ : Q log r s) :
    (Prog.ret r).Wp sem Nobody Q log s :=
  wp_ret (fun _ _ _ h => h.elim) (fun s' (h : s' = s) => h ▸ hQ) rfl

theorem wp_act_alone {Q : List (Own σ A Res) → R → σ → Prop} {a : A} {k : Res a → Prog A Res R}
    (hcan : ∃ x u, sem s a x u)
    (hdoes : ∀ x u, sem s a x u → (k x).Wp sem Nobody Q (log ++ [⟨s, a, x, u⟩]) u) :
    (Prog.act a k).Wp sem Nobody Q log s :=
  wp_act (fun _ _ _ h => h.elim) (fun s' (h : s' = s) => h ▸ hcan)
    (fun s' x u (h : s' = s) => by subst h; exact hdoes x u) rfl

end Prog

/-! ## One client of a pool -/

/-- A run of a pool in which client `t` neither calls nor returns, with the log of its steps. -/
inductive Observed (step : Pool σ A Res R → Nat × Event A Res R → Pool σ A Res R → Prop) (t : Nat) :
    Pool σ A Res R → List (Nat × Event A Res R) → List (Own σ A Res) → Pool σ A Res R → Prop where
  | nil (pool : Pool σ A Res R) : Observed step t pool [] [] pool
  | own {pool pool' pool'' : Pool σ A Res R} {a : A} {x : Res a} {es : List (Nat × Event A Res R)}
      {log : List (Own σ A Res)} : step pool (t, .did a x) pool' →
      Observed step t pool' es log pool'' →
      Observed step t pool ((t, .did a x) :: es) (⟨pool.shared, a, x, pool'.shared⟩ :: log) pool''
  | other {pool pool' pool'' : Pool σ A Res R} {e : Nat × Event A Res R}
      {es : List (Nat × Event A Res R)} {log : List (Own σ A Res)} : e.1 ≠ t →
      step pool e pool' → Observed step t pool' es log pool'' →
      Observed step t pool (e :: es) log pool''

section Observed
variable {step : Pool σ A Res R → Nat × Event A Res R → Pool σ A Res R → Prop} {t : Nat}
  {sem : Nat → σ → (a : A) → Res a → σ → Prop} {api : Prog A Res R → Prop}
  {pool pool' : Pool σ A Res R} {es : List (Nat × Event A Res R)} {log : List (Own σ A Res)}

theorem Observed.run (h : Observed step t pool es log pool') : Run step pool es pool' := by
  induction h with
  | nil pool => exact .nil pool
  | own hs _ ih => exact .cons hs ih
  | other _ hs _ ih => exact .cons hs ih

theorem Step.prog_of_ne {e : Nat × Event A Res R} (h : Step sem api pool e pool') (he : e.1 ≠ t) :
    pool'.prog t = pool.prog t := by
  cases h with
  | call => exact Function.update_of_ne (Ne.symm he) ..
  | act => exact Function.update_of_ne (Ne.symm he) ..
  | ret => exact Function.update_of_ne (Ne.symm he) ..

/-- What client `t` runs first either still runs, or has ended and met its condition. -/
theorem Prog.Wp.observed {env : σ → σ → Prop} {I : Pool σ A Res R → Prop}
    {p : Prog A Res S} {f : S → Prog A Res R} {Q : List (Own σ A Res) → S → σ → Prop}
    {pre : List (Own σ A Res)}
    (hstep : ∀ pool e pool', I pool → Step sem api pool e pool' → I pool')
    (hothers : ∀ pool e pool', I pool → Step sem api pool e pool' → e.1 ≠ t →
      env pool.shared pool'.shared)
    (h : Observed (Step sem api) t pool es log pool') (hI : I pool)
    (hprog : pool.prog t = some (p >>= f)) (hwp : p.Wp (sem t) env Q pre pool.shared) :
    (∃ p', pool'.prog t = some (p' >>= f) ∧ p'.Wp (sem t) env Q (pre ++ log) pool'.shared) ∨
      ∃ log₁ log₂ r s, log = log₁ ++ log₂ ∧ Q (pre ++ log₁) r s := by
  induction h generalizing p pre with
  | nil pool => exact .inl ⟨p, hprog, by rwa [List.append_nil]⟩
  | @own pool pool₁ pool₂ a x es log hs _ ih =>
    cases p with
    | ret r => exact .inr ⟨[], _, r, pool.shared, rfl, by simpa using hwp _ .refl⟩
    | act b k =>
      rw [Prog.act_bind] at hprog
      have hI' := hstep _ _ _ hI hs
      cases hs with
      | act hprog' hsem =>
        rw [hprog, Option.some.injEq, Prog.act.injEq] at hprog'
        obtain ⟨rfl, hk⟩ := hprog'
        obtain rfl := eq_of_heq hk
        have hnext := ih hI' (Function.update_self ..) ((hwp _ .refl).2 x _ hsem)
        rcases hnext with ⟨p', hprog', hwp'⟩ | ⟨log₁, log₂, r, s', rfl, hQ⟩
        · exact .inl ⟨p', hprog', by simpa using hwp'⟩
        · exact .inr ⟨_ :: log₁, log₂, r, s', rfl, by simpa using hQ⟩
  | other he hs _ ih =>
    exact ih (hstep _ _ _ hI hs) (by rw [hs.prog_of_ne he, hprog])
      (hwp.other (hothers _ _ _ hI hs he))

variable (sem api) in
/-- A client that runs first `p` to its end while the others wait. -/
theorem observed_of_exec {s s' : σ} {p : Prog A Res S} {f : S → Prog A Res R} {r : S}
    {prog : Nat → Option (Prog A Res R)} (h : Prog.Exec (sem t) s p r s')
    (hprog : prog t = some (p >>= f)) : ∃ es log, Observed (Step sem api) t ⟨s, prog⟩ es log
      ⟨s', Function.update prog t (some (f r))⟩ := by
  induction h generalizing prog with
  | ret s r =>
    rw [Prog.ret_bind] at hprog
    exact ⟨[], [], by rw [← hprog, Function.update_eq_self]; exact .nil _⟩
  | @act s s₁ s' a x k r hs _ ih =>
    obtain ⟨es, log, hrun⟩ := ih (Function.update_self t (some (k x >>= f)) prog)
    rw [Function.update_idem] at hrun
    exact ⟨_, _, .own (.act hprog hs) hrun⟩

end Observed

end Interleaving
