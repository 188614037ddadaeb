import Mathlib.Order.Basic
import Rustyfill.Lib.Guarded
import Rustyfill.Lib.Run

/-!
# Runs that refine runs

A relation between concrete and abstract states that every concrete step keeps, with an abstract
step of the same label, turns every concrete run into an abstract one. What a single body keeps is
shown part by part.
-/

namespace Transition

set_option autoImplicit false

universe u v w

variable {σ : Type u} {ε : Type v} {τ : Type w}

/-- Every step from a state that `rel` relates is a step of `astep` with the same label. -/
def Refines (step : σ → ε → σ → Prop) (astep : τ → ε → τ → Prop) (rel : σ → τ → Prop) : Prop :=
  ∀ s a e t, rel s a → step s e t → ∃ b, astep a e b ∧ rel t b

theorem Refines.run {step : σ → ε → σ → Prop} {astep : τ → ε → τ → Prop} {rel : σ → τ → Prop}
    (h : Refines step astep rel) {s t : σ} {a : τ} {es : List ε} (hrun : Run step s es t)
    (hrel : rel s a) : ∃ b, Run astep a es b ∧ rel t b := by
  induction hrun generalizing a with
  | nil s => exact ⟨a, .nil a, hrel⟩
  | cons hstep _ ih =>
    obtain ⟨b, hastep, hb⟩ := h _ _ _ _ hrel hstep
    obtain ⟨c, hrest, hc⟩ := ih hb
    exact ⟨c, .cons hastep hrest, hc⟩

end Transition

namespace Guarded.Body

set_option autoImplicit false

variable {σ ε R S ι β : Type} [Preorder β] {f : σ → β} {p : Body σ ε R}

/-- However the body ends, `f` is not lower than before. -/
def Grows (f : σ → β) (p : Body σ ε R) : Prop := ∀ s, f s ≤ f (p s).2

theorem grows_pure {r : R} : Grows f (Pure.pure r : Body σ ε R) := fun s => le_refl (f s)

theorem grows_exit {e : ε} : Grows f (exit e : Body σ ε R) := fun s => le_refl (f s)

theorem Grows.bind {g : R → Body σ ε S} (hp : Grows f p) (hg : ∀ r, Grows f (g r)) :
    Grows f (p >>= g) := by
  intro s
  have hfirst := hp s
  change f s ≤ f (Body.bind p g s).2
  rw [Body.bind]
  revert hfirst
  rcases p s with ⟨e | r, s'⟩
  · exact id
  · exact fun hfirst => hfirst.trans (hg r s')

theorem Grows.forEach {g : ι → Body σ ε Unit} (hg : ∀ i, Grows f (g i)) (l : List ι) :
    Grows f (forEach g l) := by
  induction l with
  | nil => exact grows_pure
  | cons i l ih => exact (hg i).bind fun _ => ih

end Guarded.Body
