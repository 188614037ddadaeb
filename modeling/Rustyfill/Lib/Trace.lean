import Mathlib.Data.List.Basic

/-!
# Properties of a trace that look back

A condition on an event and the events before it, and the traces in which every event meets it.
-/

namespace Trace

set_option autoImplicit false

variable {ε : Type} {R : List ε → ε → Prop} {es : List ε} {e : ε}

/-- Every event is as the events before it allow. -/
def Each (R : List ε → ε → Prop) (es : List ε) : Prop :=
  ∀ before e after, es = before ++ e :: after → R before e

@[simp] theorem each_nil : Each R [] := by
  intro before e after h
  cases before <;> cases h

@[simp] theorem each_snoc : Each R (es ++ [e]) ↔ Each R es ∧ R es e := by
  constructor
  · intro h
    refine ⟨fun before x after hes => ?_, h es e [] rfl⟩
    apply h before x (after ++ [e])
    rw [hes, List.append_assoc, List.cons_append]
  · rintro ⟨h, he⟩ before x after hes
    rcases List.eq_nil_or_concat after with rfl | ⟨after, last, rfl⟩
    · obtain ⟨rfl, hx⟩ := List.append_inj' hes rfl
      cases hx
      exact he
    · rw [List.concat_eq_append, ← List.cons_append, ← List.append_assoc] at hes
      obtain ⟨rfl, -⟩ := List.append_inj' hes rfl
      exact h before x after rfl

end Trace
