import Mathlib.Logic.Relation

/-!
# Finite runs of a labelled step relation

`Run step s es t` is a finite, possibly empty, sequence of steps from `s` to `t`
whose labels are `es`, in order. Invariants are packaged once: of states, of
states together with the labels seen so far, and of runs whose steps all meet a
side condition on the state before the step.

Nothing here knows what the states or the labels are.
-/

namespace Transition

set_option autoImplicit false

universe u v w

variable {σ : Type u} {ε : Type v} {τ : Type w}

/-- A run: the labels are listed in the order in which the steps happen. -/
inductive Run (step : σ → ε → σ → Prop) : σ → List ε → σ → Prop where
  | nil (s : σ) : Run step s [] s
  | cons {s t u : σ} {e : ε} {es : List ε} : step s e t → Run step t es u → Run step s (e :: es) u

/-- `step`, restricted to the states and labels that meet a side condition. -/
def Guarded (step : σ → ε → σ → Prop) (C : σ → ε → Prop) (s : σ) (e : ε) (t : σ) : Prop :=
  C s e ∧ step s e t

namespace Run

variable {step : σ → ε → σ → Prop} {s t u : σ} {e : ε} {es es' : List ε}

theorem single (h : step s e t) : Run step s [e] t := .cons h (.nil t)

theorem append (hst : Run step s es t) (htu : Run step t es' u) : Run step s (es ++ es') u := by
  induction hst with
  | nil => exact htu
  | cons h _ ih => exact .cons h (ih htu)

theorem snoc (hst : Run step s es t) (h : step t e u) : Run step s (es ++ [e]) u :=
  hst.append (.single h)

/-- A run over a concatenation of labels passes through an intermediate state. -/
theorem split (h : Run step s (es ++ es') u) : ∃ t, Run step s es t ∧ Run step t es' u := by
  induction es generalizing s with
  | nil => exact ⟨s, .nil s, h⟩
  | cons e es ih =>
    cases h with
    | cons hstep hrest =>
      obtain ⟨t, hleft, hright⟩ := ih hrest
      exact ⟨t, .cons hstep hleft, hright⟩

/-- `t` is the state at some moment of a run from `s` to `u`. -/
def Passes (step : σ → ε → σ → Prop) (s : σ) (es : List ε) (t u : σ) : Prop :=
  ∃ before after, es = before ++ after ∧ Run step s before t ∧ Run step t after u

theorem Passes.start (h : Run step s es u) : Passes step s es s u := ⟨[], es, rfl, .nil s, h⟩

theorem Passes.cons {m : σ} (h : step s e t) (hm : Passes step t es m u) :
    Passes step s (e :: es) m u := by
  obtain ⟨before, after, rfl, hbefore, hafter⟩ := hm
  exact ⟨e :: before, after, rfl, .cons h hbefore, hafter⟩

theorem mono {step' : σ → ε → σ → Prop} (h : ∀ s e t, step s e t → step' s e t)
    (hr : Run step s es t) : Run step' s es t := by
  induction hr with
  | nil s => exact .nil s
  | cons hs _ ih => exact .cons (h _ _ _ hs) ih

theorem guard {P : ε → Prop} (hr : Run step s es t) (h : ∀ e ∈ es, P e) :
    Run (Guarded step fun _ e => P e) s es t := by
  induction hr with
  | nil s => exact .nil s
  | cons hs _ ih =>
    obtain ⟨he, hes⟩ := List.forall_mem_cons.mp h
    exact .cons ⟨he, hs⟩ (ih hes)

/-- The side condition follows from an invariant. -/
theorem guard_of_invariant {C : σ → ε → Prop} {I : σ → Prop}
    (hstep : ∀ s e t, I s → step s e t → C s e ∧ I t) (hr : Run step s es t) (hs : I s) :
    Run (Guarded step C) s es t := by
  induction hr with
  | nil s => exact .nil s
  | cons h _ ih =>
    obtain ⟨hguard, hnext⟩ := hstep _ _ _ hs h
    exact .cons ⟨hguard, h⟩ (ih hnext)

theorem unguard {C : σ → ε → Prop} (hr : Run (Guarded step C) s es t) : Run step s es t :=
  hr.mono fun _ _ _ h => h.2

theorem invariant {I : σ → Prop} (hstep : ∀ s e t, I s → step s e t → I t)
    (hr : Run step s es t) (hs : I s) : I t := by
  induction hr with
  | nil => exact hs
  | cons h _ ih => exact ih (hstep _ _ _ hs h)

/-- An invariant that may speak of the labels seen since the start of the run. -/
theorem trace_invariant {I : List ε → σ → Prop}
    (hstep : ∀ es s e t, I es s → step s e t → I (es ++ [e]) t)
    (hr : Run step s es t) (hs : I [] s) : I es t := by
  suffices h : ∀ pre, I pre s → I (pre ++ es) t by simpa using h [] hs
  clear hs
  induction hr with
  | nil => intro pre hpre; simpa using hpre
  | cons h _ ih =>
    intro pre hpre
    simpa using ih _ (hstep pre _ _ _ hpre h)

end Run

/-- The states some run from an initial state reaches. -/
def Reachable (init : σ → Prop) (step : σ → ε → σ → Prop) (t : σ) : Prop :=
  ∃ s es, init s ∧ Run step s es t

theorem Reachable.invariant {init : σ → Prop} {step : σ → ε → σ → Prop} {I : σ → Prop}
    (hinit : ∀ s, init s → I s) (hstep : ∀ s e t, I s → step s e t → I t) {t : σ}
    (h : Reachable init step t) : I t := by
  obtain ⟨s, es, hs, hr⟩ := h
  exact hr.invariant hstep (hinit s hs)

end Transition
