import Rustyfill.Lib.Guarded
import Rustyfill.Lib.Run

/-!
# Offering items one by one

A body offers the items of a source to a state, one after another, and exits at the first that is
refused, with what is left of the source. When an exit leaves what was not taken, and what was taken
is taken for good, a caller that goes on with what was left, as often as it takes, loses nothing.
-/

namespace Offering

open Guarded Transition

set_option autoImplicit false

variable {σ ε V T S : Type}

/-- Offer the items; `offer x xs` offers `x`, with `xs` behind it. -/
def each (offer : T → List T → Body σ ε Unit) : List T → Body σ ε Unit
  | [] => pure ()
  | x :: xs => do
    offer x xs
    each offer xs

/-- How a body may exit that had `items` to offer: some were taken, and the exit has the others. -/
def Left (take : V → T → V → Prop) (has : ε → List T → Prop) (v : V) (items : List T) (e : ε)
    (v' : V) : Prop :=
  ∃ done rest, items = done ++ rest ∧ has e rest ∧ Run take v done v'

section
variable {take : V → T → V → Prop} {has : ε → List T → Prop} {v v' : V} {items : List T} {e : ε}

theorem Left.nothing (h : has e items) : Left take has v items e v :=
  ⟨[], items, rfl, h, .nil v⟩

theorem Left.behind {done : List T} {v₀ : V} (hdone : Run take v₀ done v)
    (h : Left take has v items e v') : Left take has v₀ (done ++ items) e v' := by
  obtain ⟨more, rest, rfl, hhas, hrun⟩ := h
  exact ⟨done ++ more, rest, (List.append_assoc ..).symm, hhas, hdone.append hrun⟩

end

def Offers (view : σ → V) (take : V → T → V → Prop) (has : ε → List T → Prop) (items : List T)
    (p : Body σ ε Unit) (s : σ) : Prop :=
  p.Meets s (fun _ s' => Run take (view s) items (view s'))
    (fun e s' => Left take has (view s) items e (view s'))

section
variable {view : σ → V} {take : V → T → V → Prop} {has : ε → List T → Prop}
  {p q : Body σ ε Unit} {s : σ} {more : List T}

theorem offers_pure : Offers view take has [] (pure () : Body σ ε Unit) s := .nil (view s)

theorem Offers.bind (items : List T)
    (hp : p.Meets s (fun _ s' => Run take (view s) items (view s') ∧
        Offers view take has more q s')
      (fun e s' => Left take has (view s) (items ++ more) e (view s'))) :
    Offers view take has (items ++ more) (p >>= fun _ => q) s := by
  rw [Offers, Body.meets_bind]
  refine hp.mono ?_ fun e s' he => he
  rintro ⟨⟩ s' ⟨hrun, hq⟩
  refine hq.mono (fun _ s'' h => hrun.append h) fun e s'' h => ?_
  exact h.behind hrun

/-- The rule of the loop: `I n` holds of the state while `n` items are still to be offered. -/
theorem each_offers {offer : T → List T → Body σ ε Unit} {I : Nat → σ → Prop}
    (hoffer : ∀ x xs s, I (xs.length + 1) s → (offer x xs).Meets s
      (fun _ s' => take (view s) x (view s') ∧ I xs.length s')
      (fun e s' => Left take has (view s) (x :: xs) e (view s')))
    (xs : List T) (hs : I xs.length s) : Offers view take has xs (each offer xs) s := by
  induction xs generalizing s with
  | nil => exact offers_pure
  | cons x xs ih =>
    refine Offers.bind [x] ((hoffer x xs s hs).mono ?_ fun e s' he => he)
    rintro ⟨⟩ s' ⟨htake, hs'⟩
    exact ⟨.single htake, ih hs'⟩

end

/-! ## Trying again -/

/-- Attempts that exit, each with what the one before left. Between two of them the state may become
one that `vary` allows. -/
inductive Attempts (attempt : S → Body σ ε Unit) (left : ε → Option S) (vary : σ → σ → Prop) :
    σ → S → σ → S → Prop where
  | nil (s : σ) (src : S) : Attempts attempt left vary s src s src
  | cons {s s₁ s₂ s' : σ} {src src₁ src' : S} {e : ε} : vary s s₁ →
      attempt src s₁ = (.error e, s₂) → left e = some src₁ →
      Attempts attempt left vary s₂ src₁ s' src' → Attempts attempt left vary s src s' src'

section
variable {view : σ → V} {take : V → T → V → Prop} {has : ε → List T → Prop} {items : S → List T}
  {attempt : S → Body σ ε Unit} {left : ε → Option S} {vary : σ → σ → Prop} {s s' : σ}
  {src src' : S}

/-- What was taken, and what is left, are the items of the first source. -/
theorem Attempts.split
    (hattempt : ∀ src s, Offers view take has (items src) (attempt src) s)
    (hleft : ∀ e src rest, left e = some src → has e rest → items src = rest)
    (hvary : ∀ s s', vary s s' → view s' = view s)
    (h : Attempts attempt left vary s src s' src') :
    ∃ done, items src = done ++ items src' ∧ Run take (view s) done (view s') := by
  induction h with
  | nil s src => exact ⟨[], rfl, .nil _⟩
  | @cons s s₁ s₂ s' src src₁ src' e hv hstep hsrc _ ih =>
    obtain ⟨done, hitems, hrun⟩ := ih
    have hoffer := hattempt src s₁
    rw [Offers, Body.Meets, hstep, hvary s s₁ hv] at hoffer
    obtain ⟨first, rest, hfirst, hrest, hrun'⟩ := hoffer
    refine ⟨first ++ done, ?_, hrun'.append hrun⟩
    rw [hfirst, ← hleft e src₁ rest hsrc hrest, hitems, List.append_assoc]

end

/-! ## Items that are put -/

section
variable {put : V → T → V} {v v' : V} {items : List T}

/-- What a state becomes does not depend on how the items were taken. -/
theorem run_put_iff : Run (fun v x v' => v' = put v x) v items v' ↔ v' = items.foldl put v := by
  constructor
  · intro h
    induction h with
    | nil => rfl
    | cons hput _ ih => rw [ih, hput, List.foldl_cons]
  · rintro rfl
    induction items generalizing v with
    | nil => exact .nil v
    | cons x items ih => exact .cons rfl ih

/-- The last value that pairs give for a key. -/
def lastGiven {K W : Type} [BEq K] (pairs : List (K × W)) (key : K) : Option W :=
  (pairs.reverse.find? fun kv => kv.1 == key).map Prod.snd

theorem lastGiven_cons {K W : Type} [BEq K] (kv : K × W) (pairs : List (K × W)) (key : K) :
    lastGiven (kv :: pairs) key =
      (lastGiven pairs key).or (if kv.1 == key then some kv.2 else none) := by
  rw [lastGiven, List.reverse_cons, List.find?_append, Option.map_or, List.find?_singleton]
  congr 1
  split <;> rfl

/-- Of pairs that are put one after another, the last one of a key is to be seen. -/
theorem foldl_put_lastGiven {K W : Type} [BEq K] {put : V → K × W → V} (value : V → K → Option W)
    (hput : ∀ v kv key, value (put v kv) key = if kv.1 == key then some kv.2 else value v key)
    (pairs : List (K × W)) (v : V) (key : K) :
    value (pairs.foldl put v) key = (lastGiven pairs key).or (value v key) := by
  induction pairs generalizing v with
  | nil => rfl
  | cons kv pairs ih =>
    rw [List.foldl_cons, ih, hput, lastGiven_cons, Option.or_assoc]
    congr 1
    split <;> rfl

end

/-! ## Extensions -/

/-- How a collection is extended, whatever its calls are made of. A call that is given a source
comes back with one, with nothing, or not at all. -/
structure Extension (σ S V T : Type) where
  holds : σ → V → Prop
  put : V → T → V
  items : S → List T
  returns : σ → S → Option S → σ → Prop
  stops : σ → S → Prop
  /-- What may become of the state between two calls. -/
  vary : σ → σ → Prop

namespace Extension

variable {x : Extension σ S V T} {s s' s'' t s₀ t₀ : σ} {src src' : S} {v : V}

/-- Calls that come back with a source, each given the one before. -/
inductive Retried (x : Extension σ S V T) : σ → S → σ → S → Prop where
  | nil (s : σ) (src : S) : Retried x s src s src
  | cons {s s₁ s₂ s' : σ} {src src₁ src' : S} : x.vary s s₁ → x.returns s₁ src (some src₁) s₂ →
      Retried x s₂ src₁ s' src' → Retried x s src s' src'

/-- However many calls come back with a source, what was put and what is left are the items, in
order. The call that comes back with nothing leaves what a single call would have left. -/
structure LosesNothing (x : Extension σ S V T) : Prop where
  split : ∀ {s s' src src' v}, x.holds s v → x.Retried s src s' src' →
    ∃ done, x.items src = done ++ x.items src' ∧ x.holds s' (done.foldl x.put v)
  finish : ∀ {s s' s'' t src src' v}, x.holds s v → x.Retried s src s' src' → x.vary s' s'' →
    x.returns s'' src' none t → x.holds t ((x.items src).foldl x.put v)
  single : ∀ {s s' s'' t s₀ t₀ src src' v}, x.holds s v → x.Retried s src s' src' →
    x.vary s' s'' → x.returns s'' src' none t → x.holds s₀ v → x.returns s₀ src none t₀ →
    ∃ v', x.holds t v' ∧ x.holds t₀ v'
  ends : ∀ {s s' s'' src src' v}, x.holds s v → x.Retried s src s' src' → x.vary s' s'' →
    (∃ r t, x.returns s'' src' r t) ∨ x.stops s'' src'

/-- What is asked of one call. -/
structure Accounts (x : Extension σ S V T) : Prop where
  vary : ∀ {s s' v}, x.holds s v → x.vary s s' → x.holds s' v
  left : ∀ {s s' src src' v}, x.holds s v → x.returns s src (some src') s' →
    ∃ done, x.items src = done ++ x.items src' ∧ x.holds s' (done.foldl x.put v)
  done : ∀ {s s' src v}, x.holds s v → x.returns s src none s' →
    x.holds s' ((x.items src).foldl x.put v)
  ends : ∀ {s v} src, x.holds s v → (∃ r s', x.returns s src r s') ∨ x.stops s src

theorem Accounts.split (hx : x.Accounts) (hs : x.holds s v) (h : x.Retried s src s' src') :
    ∃ done, x.items src = done ++ x.items src' ∧ x.holds s' (done.foldl x.put v) := by
  induction h generalizing v with
  | nil s src => exact ⟨[], rfl, hs⟩
  | cons hvary hcall _ ih =>
    obtain ⟨first, hfirst, hs₂⟩ := hx.left (hx.vary hs hvary) hcall
    obtain ⟨more, hmore, hs'⟩ := ih hs₂
    refine ⟨first ++ more, ?_, ?_⟩
    · rw [hfirst, hmore, List.append_assoc]
    · rwa [List.foldl_append]

theorem Accounts.finish (hx : x.Accounts) (hs : x.holds s v) (h : x.Retried s src s' src')
    (hvary : x.vary s' s'') (hcall : x.returns s'' src' none t) :
    x.holds t ((x.items src).foldl x.put v) := by
  obtain ⟨done, hitems, hs'⟩ := hx.split hs h
  have ht := hx.done (hx.vary hs' hvary) hcall
  rwa [hitems, List.foldl_append]

/-- The rule of resumption: calls that account for their items one by one lose nothing. -/
theorem Accounts.losesNothing (hx : x.Accounts) : x.LosesNothing where
  split := hx.split
  finish := hx.finish
  single hs h hvary hcall hs₀ hcall₀ := ⟨_, hx.finish hs h hvary hcall, hx.done hs₀ hcall₀⟩
  ends {s s' s'' src src' v} hs h hvary := by
    obtain ⟨done, -, hs'⟩ := hx.split hs h
    exact hx.ends src' (hx.vary hs' hvary)

end Extension

end Offering
