import Mathlib.Data.List.Basic

/-!
# Bodies that may exit early

A body acts on a state and returns or exits early, and the state it exits in is kept. A guard
around a body tidies the state up when the body exits, and is forgotten when it returns.
-/

namespace Guarded

set_option autoImplicit false

def Body (σ ε R : Type) := σ → Except ε R × σ

variable {σ ε R S ι : Type}

namespace Body

def pure (r : R) : Body σ ε R := fun s => (.ok r, s)

def bind (p : Body σ ε R) (f : R → Body σ ε S) : Body σ ε S := fun s =>
  match p s with
  | (.ok r, s') => f r s'
  | (.error e, s') => (.error e, s')

instance : Monad (Body σ ε) where
  pure := Body.pure
  bind := Body.bind

def exit (e : ε) : Body σ ε R := fun s => (.error e, s)

/-- A guard over `p`: what it does with the state before `p` and the state in which `p` exits.
Exits that `skips` holds of leave no time for it. -/
def guarded (skips : ε → Bool) (tidy : σ → σ → σ) (p : Body σ ε R) : Body σ ε R := fun s =>
  match p s with
  | (.ok r, s') => (.ok r, s')
  | (.error e, s') => (.error e, if skips e then s' else tidy s s')

def forEach (f : ι → Body σ ε Unit) : List ι → Body σ ε Unit
  | [] => Body.pure ()
  | i :: is => (f i).bind fun _ => forEach f is

/-! ## What a body meets -/

/-- `Q` holds where the body returns, `E` where it exits. -/
def Meets (p : Body σ ε R) (s : σ) (Q : R → σ → Prop) (E : ε → σ → Prop) : Prop :=
  match p s with
  | (.ok r, s') => Q r s'
  | (.error e, s') => E e s'

variable {s : σ} {p : Body σ ε R} {Q : R → σ → Prop} {E : ε → σ → Prop}

@[simp] theorem meets_pure {r : R} : (Pure.pure r : Body σ ε R).Meets s Q E ↔ Q r s := Iff.rfl

@[simp] theorem meets_exit {e : ε} : (exit e : Body σ ε R).Meets s Q E ↔ E e s := Iff.rfl

@[simp] theorem meets_bind {f : R → Body σ ε S} {Q : S → σ → Prop} :
    (p >>= f).Meets s Q E ↔ p.Meets s (fun r s' => (f r).Meets s' Q E) E := by
  have hbind : (p >>= f) s = match p s with
      | (.ok r, s') => f r s'
      | (.error e, s') => (.error e, s') := rfl
  simp only [Meets, hbind]
  rcases p s with ⟨r | r, s'⟩
  · rfl
  · rfl

theorem Meets.mono {Q' : R → σ → Prop} {E' : ε → σ → Prop} (h : p.Meets s Q E)
    (hQ : ∀ r s', Q r s' → Q' r s') (hE : ∀ e s', E e s' → E' e s') : p.Meets s Q' E' := by
  revert h
  simp only [Meets]
  rcases p s with ⟨r | r, s'⟩
  · exact hE r s'
  · exact hQ r s'

theorem meets_guarded {skips : ε → Bool} {tidy : σ → σ → σ} :
    (guarded skips tidy p).Meets s Q E ↔
      p.Meets s Q fun e s' => E e (if skips e then s' else tidy s s') := by
  simp only [Meets, guarded]
  rcases p s with ⟨r | r, s'⟩
  · rfl
  · rfl

/-- The rule of the loop: `I done` holds when the elements `done` have been passed. -/
theorem forEach_meets {f : ι → Body σ ε Unit} {I : List ι → σ → Prop} (l : List ι)
    (hstep : ∀ done i rest s, l = done ++ i :: rest → I done s →
      (f i).Meets s (fun _ s' => I (done ++ [i]) s') E) (hI : I [] s) :
    (forEach f l).Meets s (fun _ s' => I l s') E := by
  suffices h : ∀ rest done s, l = done ++ rest → I done s →
      (forEach f rest).Meets s (fun _ s' => I (done ++ rest) s') E from h l [] s rfl hI
  intro rest
  induction rest with
  | nil =>
    intro done s _ hdone
    rw [List.append_nil]
    exact hdone
  | cons i rest ih =>
    intro done s hl hdone
    have hi := hstep done i rest s hl hdone
    change Meets (f i >>= fun _ => forEach f rest) s _ E
    rw [meets_bind]
    apply hi.mono
    · intro _ s' hs'
      rw [← List.singleton_append, ← List.append_assoc] at hl ⊢
      exact ih (done ++ [i]) s' hl hs'
    · intro e s' he
      exact he

theorem Meets.and {Q' : R → σ → Prop} {E' : ε → σ → Prop} (h : p.Meets s Q E)
    (h' : p.Meets s Q' E') :
    p.Meets s (fun r s' => Q r s' ∧ Q' r s') (fun e s' => E e s' ∧ E' e s') := by
  revert h h'
  simp only [Meets]
  rcases p s with ⟨r | r, s'⟩
  · exact And.intro
  · exact And.intro

theorem Meets.ok {r : R} (h : p.Meets s Q E) (hp : (p s).1 = .ok r) : Q r (p s).2 := by
  rw [Meets] at h
  generalize p s = out at h hp
  obtain ⟨r', s'⟩ := out
  subst hp
  exact h

theorem eq_of_meets {r : R} {s' : σ}
    (h : p.Meets s (fun r' t => r' = r ∧ t = s') fun _ _ => False) : p s = (.ok r, s') := by
  revert h
  simp only [Meets]
  rcases p s with ⟨e | r', t⟩
  · exact False.elim
  · rintro ⟨rfl, rfl⟩
    rfl

theorem not_meets_false : ¬ p.Meets s (fun _ _ => False) (fun _ _ => False) := by
  simp only [Meets]
  rcases p s with ⟨r | r, s'⟩
  · exact id
  · exact id

/-! ## What a body may exit with -/

def ExitsOnly (G : ε → Prop) (p : Body σ ε R) : Prop :=
  ∀ s, p.Meets s (fun _ _ => True) (fun e _ => G e)

variable {G : ε → Prop}

theorem ExitsOnly.bind {f : R → Body σ ε S} (hp : ExitsOnly G p) (hf : ∀ r, ExitsOnly G (f r)) :
    ExitsOnly G (p >>= f) := by
  intro s
  rw [meets_bind]
  apply (hp s).mono
  · intro r s' _
    exact hf r s'
  · intro e _ he
    exact he

theorem ExitsOnly.guarded {skips : ε → Bool} {tidy : σ → σ → σ} (hp : ExitsOnly G p) :
    ExitsOnly G (guarded skips tidy p) :=
  fun s => meets_guarded.mpr (hp s)

theorem ExitsOnly.forEach {f : ι → Body σ ε Unit} (hf : ∀ i, ExitsOnly G (f i)) (l : List ι) :
    ExitsOnly G (forEach f l) := by
  intro s
  exact @forEach_meets _ _ _ s _ f (fun _ _ => True) l (fun _ i _ s _ _ => hf i s) trivial

end Body

end Guarded
