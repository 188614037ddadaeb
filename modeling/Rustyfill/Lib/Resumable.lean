import Rustyfill.Lib.Run

/-!
# Iterators that can fail and be asked again

One call of `next` is a step: it answers with an item, with an error, or with nothing left.
An iterator that knows what it still has to yield, and that loses nothing when it fails, yields
all of it by the time it has nothing left, however the failures fall.
-/

namespace Resumable

set_option autoImplicit false

universe u v

open Transition

variable {σ : Type u} {ε β γ : Type v}

/-- What the answers yield, an item being worth a list of what one looks for. -/
def yielded (worth : β → List γ) (es : List (Option (Except ε β))) : List γ :=
  es.flatMap fun
    | some (.ok b) => worth b
    | _ => []

@[simp] theorem yielded_nil (worth : β → List γ) :
    yielded worth ([] : List (Option (Except ε β))) = [] := rfl

@[simp] theorem yielded_cons_ok (worth : β → List γ) (b : β) (es : List (Option (Except ε β))) :
    yielded worth (some (.ok b) :: es) = worth b ++ yielded worth es := rfl

@[simp] theorem yielded_cons_error (worth : β → List γ) (e : ε)
    (es : List (Option (Except ε β))) :
    yielded worth (some (.error e) :: es) = yielded worth es := rfl

@[simp] theorem yielded_cons_none (worth : β → List γ) (es : List (Option (Except ε β))) :
    yielded worth (none :: es) = yielded worth es := rfl

/-- `remaining` is what an iterator still has to yield, while `Inv` holds. -/
structure Accounts (step : σ → Option (Except ε β) → σ → Prop) (worth : β → List γ)
    (Inv : σ → Prop) (remaining : σ → List γ) : Prop where
  item : ∀ {s b t}, Inv s → step s (some (.ok b)) t → Inv t ∧ remaining s = worth b ++ remaining t
  failure : ∀ {s e t}, Inv s → step s (some (.error e)) t → Inv t ∧ remaining s = remaining t
  done : ∀ {s t}, Inv s → step s none t → Inv t ∧ remaining s = [] ∧ remaining t = []

namespace Accounts

variable {step : σ → Option (Except ε β) → σ → Prop} {worth : β → List γ} {Inv : σ → Prop}
  {remaining : σ → List γ} {s t : σ} {es : List (Option (Except ε β))}

theorem step_eq (h : Accounts step worth Inv remaining) (hs : Inv s)
    {e : Option (Except ε β)} (hstep : step s e t) :
    Inv t ∧ remaining s = yielded worth [e] ++ remaining t := by
  rcases e with _ | (e | b)
  · obtain ⟨ht, hrem, hrem'⟩ := h.done hs hstep
    exact ⟨ht, by rw [hrem, hrem']; rfl⟩
  · exact h.failure hs hstep
  · obtain ⟨ht, hrem⟩ := h.item hs hstep
    exact ⟨ht, by simpa using hrem⟩

theorem run_eq (h : Accounts step worth Inv remaining) (hr : Run step s es t) (hs : Inv s) :
    Inv t ∧ remaining s = yielded worth es ++ remaining t := by
  induction hr with
  | nil => exact ⟨hs, rfl⟩
  | @cons s t u e es hstep _ ih =>
    obtain ⟨ht, hrem⟩ := h.step_eq hs hstep
    obtain ⟨hu, hrem'⟩ := ih ht
    refine ⟨hu, ?_⟩
    rw [hrem, hrem', ← List.append_assoc]
    congr 1
    exact (@List.flatMap_append _ _ [e] _ _).symm

theorem remaining_of_none (h : Accounts step worth Inv remaining) (hr : Run step s es t)
    (hs : Inv s) (hnone : none ∈ es) : remaining t = [] := by
  induction hr with
  | nil => simp at hnone
  | @cons s t u e es hstep hrest ih =>
    have ht := (h.step_eq hs hstep).1
    rcases List.mem_cons.mp hnone with rfl | hlater
    · have hrem := (h.done hs hstep).2.2
      have hall := (h.run_eq hrest ht).2
      rw [hrem] at hall
      exact (List.append_eq_nil_iff.mp hall.symm).2
    · exact ih ht hlater

theorem yielded_of_none (h : Accounts step worth Inv remaining) (hr : Run step s es t)
    (hs : Inv s) (hnone : none ∈ es) : yielded worth es = remaining s := by
  rw [(h.run_eq hr hs).2, h.remaining_of_none hr hs hnone, List.append_nil]

/-- Where a call that answers brings the iterator forward, or else brings the end of a series
of failures closer, it comes to have nothing left. -/
theorem exists_none (h : Accounts step worth Inv remaining)
    (htotal : ∀ s, Inv s → ∃ e t, step s e t) (size wait : σ → Nat)
    (hless : ∀ s e t, Inv s → step s (some e) t →
      size t < size s ∨ size t = size s ∧ wait t < wait s) (hs : Inv s) :
    ∃ es t, Run step s es t ∧ none ∈ es := by
  obtain ⟨n, hn⟩ : ∃ n, n = size s := ⟨_, rfl⟩
  obtain ⟨m, hm⟩ : ∃ m, m = wait s := ⟨_, rfl⟩
  induction n using Nat.strongRecOn generalizing s m with
  | ind n ihn =>
    induction m using Nat.strongRecOn generalizing s with
    | ind m ihm =>
      obtain ⟨e, t, hstep⟩ := htotal s hs
      cases e with
      | none => exact ⟨[none], t, .single hstep, List.mem_singleton_self _⟩
      | some e =>
        have ht := (h.step_eq hs hstep).1
        obtain ⟨es, u, hr, hnone⟩ : ∃ es u, Run step t es u ∧ none ∈ es := by
          rcases hless s e t hs hstep with hsize | ⟨hsize, hwait⟩
          · exact ihn (size t) (hn ▸ hsize) ht rfl _ rfl
          · exact ihm (wait t) (hm ▸ hwait) ht (hn.trans hsize.symm) rfl
        exact ⟨some e :: es, u, .cons hstep hr, List.mem_cons_of_mem _ hnone⟩

end Accounts

end Resumable
