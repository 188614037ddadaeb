import Mathlib.Logic.Relation
import Rustyfill.Lib.Program

/-!
# Calls that take effect at once

A client of an object is a program whose actions are calls. Expanding each call into the
method that serves it gives a program of atomic actions, and the actions of the methods of
several clients interleave. `Serves` is what one method owes, whatever the other clients do in
between: somewhere on its way it takes effect, in one step of an abstract state, and it returns
what that step answered. A pool of expanded clients is then a pool of the clients themselves,
with calls that are one step each.
-/

namespace Interleaving

open Transition Relation

set_option autoImplicit false

universe u v

variable {A C : Type} {Res : A → Type} {CRes : C → Type} {R X : Type} {σ : Type u} {α : Type v}

/-- The program in which every call is the method that serves it. -/
def Prog.expand (method : (c : C) → Prog A Res (CRes c)) : Prog C CRes R → Prog A Res R
  | .ret r => .ret r
  | .act c k => (method c).bind fun x => (k x).expand method

/-- No client starts anything new. -/
def NoCalls (_ : Prog A Res R) : Prop := False

@[simp] theorem Prog.expand_ret (method : (c : C) → Prog A Res (CRes c)) (r : R) :
    (Prog.ret r : Prog C CRes R).expand method = .ret r := rfl

@[simp] theorem Prog.expand_act (method : (c : C) → Prog A Res (CRes c)) (c : C)
    (k : CRes c → Prog C CRes R) :
    (Prog.act c k).expand method = (method c >>= fun x => (k x).expand method) := rfl

/-- What the clients promise each other: an invariant of the shared and the abstract state, what
a client between two calls has, and what a client may rely on while others take a step. -/
structure Protocol (σ : Type u) (α : Type v) where
  inv : σ → α → Prop
  idle : Nat → σ → Prop
  rely : Nat → σ × α → σ × α → Prop

namespace Protocol

/-- Steps of the clients other than `t`. -/
def Later (P : Protocol σ α) (t : Nat) : σ × α → σ × α → Prop :=
  ReflTransGen fun τ τ' => P.rely t τ τ' ∧ P.inv τ'.1 τ'.2

/-- A step of client `t` that keeps what the clients promise. -/
structure Grants (P : Protocol σ α) (t : Nat) (τ τ' : σ × α) : Prop where
  inv : P.inv τ'.1 τ'.2
  others : ∀ u, u ≠ t → P.rely u τ τ'

/-- A client between two calls stays one. -/
def Rests (P : Protocol σ α) : Prop := ∀ t τ τ', P.rely t τ τ' → P.idle t τ.1 → P.idle t τ'.1

end Protocol

/-- A step of a method takes effect or does not; it does so once. -/
inductive Takes (spec : α → X → α → Prop) : Option X → α → Option X → α → Prop where
  | nothing {served : Option X} {m : α} : Takes spec served m served m
  | effect {x : X} {m m' : α} : spec m x m' → Takes spec none m (some x) m'

/-- What a method of client `t` owes from here on. A method that took no effect by its end
answers what would change nothing. -/
def Serves (P : Protocol σ α) (sem : σ → (a : A) → Res a → σ → Prop) (spec : α → X → α → Prop)
    (t : Nat) : Option X → Prog A Res X → σ × α → Prop
  | served, .ret r, τ => ∀ τ', P.Later t τ τ' → P.idle t τ'.1 ∧
      (served = some r ∨ served = none ∧ spec τ'.2 r τ'.2)
  | served, .act a k, τ => ∀ τ', P.Later t τ τ' → ∀ x u, sem τ'.1 a x u →
      ∃ served' m, Takes spec served τ'.2 served' m ∧ P.Grants t τ' (u, m) ∧
        Serves P sem spec t served' (k x) (u, m)

section Serves
variable {P : Protocol σ α} {sem : σ → (a : A) → Res a → σ → Prop} {spec : α → X → α → Prop}
  {t : Nat} {served : Option X} {τ τ' : σ × α}

theorem Serves.later {p : Prog A Res X} (h : Serves P sem spec t served p τ)
    (hlater : P.Later t τ τ') : Serves P sem spec t served p τ' := by
  cases p with
  | ret r => exact fun τ'' h' => h τ'' (hlater.trans h')
  | act a k => exact fun τ'' h' => h τ'' (hlater.trans h')

theorem Protocol.Later.stable {Q : σ × α → Prop}
    (hstable : ∀ τ τ', Q τ → P.rely t τ τ' → P.inv τ'.1 τ'.2 → Q τ') (hQ : Q τ)
    (hlater : P.Later t τ τ') : Q τ' := by
  induction hlater with
  | refl => exact hQ
  | tail _ hstep ih => exact hstable _ _ ih hstep.1 hstep.2

theorem serves_ret {Q : σ × α → Prop} {r : X}
    (hstable : ∀ τ τ', Q τ → P.rely t τ τ' → P.inv τ'.1 τ'.2 → Q τ') (hQ : Q τ)
    (hends : ∀ τ, Q τ → P.idle t τ.1 ∧ (served = some r ∨ served = none ∧ spec τ.2 r τ.2)) :
    Serves P sem spec t served (.ret r) τ :=
  fun _ hlater => hends _ (hlater.stable hstable hQ)

/-- What is known before an action has to survive the steps of the others. -/
theorem serves_act {Q : σ × α → Prop} {a : A} {k : Res a → Prog A Res X}
    (hstable : ∀ τ τ', Q τ → P.rely t τ τ' → P.inv τ'.1 τ'.2 → Q τ') (hQ : Q τ)
    (hdoes : ∀ τ x u, Q τ → sem τ.1 a x u → ∃ served' m, Takes spec served τ.2 served' m ∧
      P.Grants t τ (u, m) ∧ Serves P sem spec t served' (k x) (u, m)) :
    Serves P sem spec t served (.act a k) τ :=
  fun _ hlater x u hs => hdoes _ x u (hlater.stable hstable hQ) hs

end Serves

/-! ## Pools of clients -/

/-- The calls of client `t` that a step of it lets take effect. -/
def CallsOf (t : Nat) (chunk : List (Nat × Event C CRes R)) : Prop :=
  ∀ e ∈ chunk, e.1 = t ∧ ∃ c x, e.2 = .did c x

/-- The calls take effect in steps of their clients, and the clients return in the same order
and with the same results. -/
inductive Traced : List (Nat × Event A Res R) → List (Nat × Event C CRes R) → Prop where
  | nil : Traced [] []
  | did {t : Nat} {a : A} {x : Res a} {es : List (Nat × Event A Res R)}
      {chunk ces : List (Nat × Event C CRes R)} : CallsOf t chunk → Traced es ces →
      Traced ((t, .did a x) :: es) (chunk ++ ces)
  | returned {t : Nat} {r : R} {es : List (Nat × Event A Res R)}
      {chunk ces : List (Nat × Event C CRes R)} : CallsOf t chunk → Traced es ces →
      Traced ((t, .returned r) :: es) (chunk ++ (t, .returned r) :: ces)

section Pools
variable (P : Protocol σ α) (sem : Nat → σ → (a : A) → Res a → σ → Prop)
  (spec : Nat → α → (c : C) → CRes c → α → Prop) (method : (c : C) → Prog A Res (CRes c))

/-- The calls a client still has to make, from inside one of them. -/
def pending {c : C} (k : CRes c → Prog C CRes R) : Option (CRes c) → Prog C CRes R
  | none => .act c k
  | some x => k x

/-- What client `t` runs, against the calls it still has to make. -/
inductive Serving (τ : σ × α) (t : Nat) :
    Option (Prog A Res R) → Option (Prog C CRes R) → Prop where
  | gone : P.idle t τ.1 → Serving τ t none none
  | between (q : Prog C CRes R) : P.idle t τ.1 → Serving τ t (some (q.expand method)) (some q)
  | inside {c : C} (k : CRes c → Prog C CRes R) {p : Prog A Res (CRes c)}
      {served : Option (CRes c)} :
      Serves P (sem t) (fun m x m' => spec t m c x m') t served p τ →
      Serving τ t (some (p >>= fun x => (k x).expand method)) (some (pending k served))

structure Simulates (pool : Pool σ A Res R) (cpool : Pool α C CRes R) : Prop where
  inv : P.inv pool.shared cpool.shared
  clients : ∀ t, Serving P sem spec method (pool.shared, cpool.shared) t (pool.prog t)
    (cpool.prog t)

/-- What a client is about to do: return, or take a step inside a method. -/
inductive Ready (τ : σ × α) (t : Nat) : Prog A Res R → Prog C CRes R → Prop where
  | ret (r : R) : P.idle t τ.1 → Ready τ t (.ret r) (.ret r)
  | act {c : C} (k : CRes c → Prog C CRes R) {a : A} {pk : Res a → Prog A Res (CRes c)}
      {served : Option (CRes c)} :
      Serves P (sem t) (fun m x m' => spec t m c x m') t served (.act a pk) τ →
      Ready τ t (.act a fun x => pk x >>= fun y => (k y).expand method) (pending k served)

/-- The methods that need no step take effect first. -/
def Settles (τ : σ × α) (t : Nat) (p : Prog A Res R) (q : Prog C CRes R) : Prop :=
  ∃ chunk q', CallsOf t chunk ∧ Ready P sem spec method τ t p q' ∧
    ∀ prog : Nat → Option (Prog C CRes R), prog t = some q →
      Run (Step spec NoCalls) ⟨τ.2, prog⟩ chunk ⟨τ.2, Function.update prog t (some q')⟩

variable {P sem spec method} {τ τ' : σ × α} {t : Nat}

theorem Serving.step {p : Option (Prog A Res R)} {q : Option (Prog C CRes R)}
    (hrests : P.Rests) (h : Serving P sem spec method τ t p q) (hrely : P.rely t τ τ')
    (hinv : P.inv τ'.1 τ'.2) : Serving P sem spec method τ' t p q := by
  cases h with
  | gone hidle => exact .gone (hrests _ _ _ hrely hidle)
  | between q hidle => exact .between q (hrests _ _ _ hrely hidle)
  | inside k hserves => exact .inside k (hserves.later (.single ⟨hrely, hinv⟩))

theorem Settles.ready {p : Prog A Res R} {q : Prog C CRes R}
    (h : Ready P sem spec method τ t p q) : Settles P sem spec method τ t p q := by
  refine ⟨[], q, ?_, h, fun prog hprog => ?_⟩
  · intro e he
    cases he
  · rw [← hprog, Function.update_eq_self]
    exact .nil _

theorem Settles.call {c : C} {k : CRes c → Prog C CRes R} {x : CRes c} {p : Prog A Res R}
    (hspec : spec t τ.2 c x τ.2) (h : Settles P sem spec method τ t p (k x)) :
    Settles P sem spec method τ t p (.act c k) := by
  obtain ⟨chunk, q', hchunk, hready, hrun⟩ := h
  refine ⟨(t, .did c x) :: chunk, q', ?_, hready, fun prog hprog => ?_⟩
  · intro e he
    rcases List.mem_cons.mp he with rfl | he
    · exact ⟨rfl, c, x, rfl⟩
    · exact hchunk e he
  · have hrest := hrun (Function.update prog t (some (k x))) (Function.update_self ..)
    rw [Function.update_idem] at hrest
    exact .cons (.act hprog hspec) hrest

variable (hserves : ∀ t c τ, P.inv τ.1 τ.2 → P.idle t τ.1 →
  Serves P (sem t) (fun m x m' => spec t m c x m') t none (method c) τ)

include hserves

theorem settles_expand (hinv : P.inv τ.1 τ.2) (hidle : P.idle t τ.1) (q : Prog C CRes R) :
    Settles P sem spec method τ t (q.expand method) q := by
  induction q with
  | ret r => exact .ready (.ret r hidle)
  | act c k ih =>
    have hmethod := hserves t c τ hinv hidle
    rw [Prog.expand_act]
    cases hp : method c with
    | ret x =>
      rw [hp] at hmethod
      obtain ⟨-, hnone | ⟨-, hspec⟩⟩ := hmethod τ .refl
      · cases hnone
      · exact (ih x).call hspec
    | act a pk =>
      rw [hp] at hmethod
      exact .ready (.act k hmethod)

theorem Serving.settles (hinv : P.inv τ.1 τ.2) {p : Prog A Res R} {q : Option (Prog C CRes R)}
    (h : Serving P sem spec method τ t (some p) q) :
    ∃ q', q = some q' ∧ Settles P sem spec method τ t p q' := by
  cases h with
  | between q hidle => exact ⟨q, rfl, settles_expand hserves hinv hidle q⟩
  | @inside c k p served hp =>
    refine ⟨_, rfl, ?_⟩
    cases p with
    | ret x =>
      obtain ⟨hidle, hsome | ⟨hnone, hspec⟩⟩ := hp τ .refl
      · rw [hsome]
        exact settles_expand hserves hinv hidle (k x)
      · rw [hnone]
        exact (settles_expand hserves hinv hidle (k x)).call hspec
    | act a pk => exact .ready (.act k hp)

theorem Simulates.step (hrests : P.Rests) {pool pool' : Pool σ A Res R} {cpool : Pool α C CRes R}
    {e : Nat × Event A Res R} (h : Simulates P sem spec method pool cpool)
    (hs : Step sem NoCalls pool e pool') :
    ∃ chunk cpool', Run (Step spec NoCalls) cpool chunk cpool' ∧
      Simulates P sem spec method pool' cpool' ∧
      ∀ es ces, Traced es ces → Traced (e :: es) (chunk ++ ces) := by
  obtain ⟨m, cprog⟩ := cpool
  cases hs with
  | call _ hnone => exact hnone.elim
  | @act t a k x s hprog hsem =>
    have hclient := h.clients t
    rw [hprog] at hclient
    obtain ⟨q, hq, chunk, q', hchunk, hready, hrun⟩ := hclient.settles hserves h.inv
    cases hready with
    | @act c k a pk served hp =>
      obtain ⟨served', m', htakes, hgrants, hnext⟩ := hp _ .refl x s hsem
      have hothers : ∀ (cprog' : Nat → Option (Prog C CRes R)) u, u ≠ t → cprog' u = cprog u →
          Serving P sem spec method (s, m') u (Function.update pool.prog t
            (some (pk x >>= fun y => (k y).expand method)) u) (cprog' u) := by
        intro cprog' u hu hkeep
        rw [Function.update_of_ne hu, hkeep]
        exact (h.clients u).step hrests (hgrants.others u hu) hgrants.inv
      have hself : Serving P sem spec method (s, m') t
          (some (pk x >>= fun y => (k y).expand method)) (some (pending k served')) :=
        .inside k hnext
      have hsim : Simulates P sem spec method
          ⟨s, Function.update pool.prog t (some (pk x >>= fun y => (k y).expand method))⟩
          ⟨m', Function.update cprog t (some (pending k served'))⟩ := by
        refine ⟨hgrants.inv, fun u => ?_⟩
        by_cases hu : u = t
        · subst hu
          simpa only [Function.update_self] using hself
        · exact hothers _ u hu (Function.update_of_ne hu ..)
      cases htakes with
      | nothing => exact ⟨chunk, _, hrun cprog hq, hsim, fun es ces htr => .did hchunk htr⟩
      | @effect y _ _ hspec =>
        refine ⟨chunk ++ [(t, .did c y)], _, (hrun cprog hq).snoc ?_, hsim, fun es ces htr => ?_⟩
        · have hcall : Step spec NoCalls ⟨m, Function.update cprog t (some (.act c k))⟩
              (t, .did c y) ⟨m', Function.update (Function.update cprog t (some (.act c k))) t
                (some (k y))⟩ := .act (Function.update_self ..) hspec
          rwa [Function.update_idem] at hcall
        · refine .did ?_ htr
          intro e he
          rcases List.mem_append.mp he with he | he
          · exact hchunk e he
          · obtain rfl := List.mem_singleton.mp he
            exact ⟨rfl, c, y, rfl⟩
  | @ret t r hprog =>
    have hclient := h.clients t
    rw [hprog] at hclient
    obtain ⟨q, hq, chunk, q', hchunk, hready, hrun⟩ := hclient.settles hserves h.inv
    cases hready with
    | ret r hidle =>
      refine ⟨chunk ++ [(t, .returned r)], ⟨m, Function.update cprog t none⟩,
        (hrun cprog hq).snoc ?_, ⟨h.inv, fun u => ?_⟩, fun es ces htr => ?_⟩
      · have hret : Step spec NoCalls ⟨m, Function.update cprog t (some (.ret r))⟩ (t, .returned r)
            ⟨m, Function.update (Function.update cprog t (some (.ret r))) t none⟩ :=
          .ret (Function.update_self ..)
        rwa [Function.update_idem] at hret
      · by_cases hu : u = t
        · subst hu
          simp only [Function.update_self]
          exact .gone hidle
        · simpa only [Function.update_of_ne hu] using h.clients u
      · rw [List.append_assoc]
        exact .returned hchunk htr

theorem Simulates.run (hrests : P.Rests) {pool pool' : Pool σ A Res R} {cpool : Pool α C CRes R}
    {es : List (Nat × Event A Res R)} (h : Simulates P sem spec method pool cpool)
    (hrun : Run (Step sem NoCalls) pool es pool') :
    ∃ ces cpool', Run (Step spec NoCalls) cpool ces cpool' ∧
      Simulates P sem spec method pool' cpool' ∧ Traced es ces := by
  induction hrun generalizing cpool with
  | nil pool => exact ⟨[], cpool, .nil _, h, .nil⟩
  | cons hs _ ih =>
    obtain ⟨chunk, cpool₁, hchunk, hsim, htraced⟩ := h.step hserves hrests hs
    obtain ⟨ces, cpool₂, hces, hsim', htr⟩ := ih hsim
    exact ⟨chunk ++ ces, cpool₂, hchunk.append hces, hsim', htraced _ _ htr⟩

/-- A pool of expanded clients is a pool of the clients, whose calls are one step each. -/
theorem refines_calls (hrests : P.Rests) {clients : Nat → Option (Prog C CRes R)} {s : σ} {m : α}
    (hinv : P.inv s m) (hidle : ∀ t, P.idle t s) {es : List (Nat × Event A Res R)}
    {pool : Pool σ A Res R}
    (hrun : Run (Step sem NoCalls) ⟨s, fun t => (clients t).map (·.expand method)⟩ es pool) :
    ∃ ces cpool, Run (Step spec NoCalls) ⟨m, clients⟩ ces cpool ∧ Traced es ces ∧
      P.inv pool.shared cpool.shared ∧
      ∀ t, pool.prog t = none → P.idle t pool.shared ∧ cpool.prog t = none := by
  have hstart : Simulates P sem spec method ⟨s, fun t => (clients t).map (·.expand method)⟩
      ⟨m, clients⟩ := by
    refine ⟨hinv, fun t => ?_⟩
    dsimp only
    cases clients t with
    | none => exact .gone (hidle t)
    | some q => exact .between q (hidle t)
  obtain ⟨ces, cpool, hces, hsim, htr⟩ := hstart.run hserves hrests hrun
  refine ⟨ces, cpool, hces, htr, hsim.inv, fun t ht => ?_⟩
  have hclient := hsim.clients t
  rw [ht] at hclient
  generalize hq : cpool.prog t = q at hclient
  cases hclient with
  | gone hidle => exact ⟨hidle, rfl⟩

end Pools

/-! ## A client that calls in a loop -/

/-- One call for each of a list, from an accumulator, with a way to leave the loop early. -/
def Prog.loop {I S : Type} (call : I → C) (next : S → (i : I) → CRes (call i) → Except R S)
    (done : S → R) (acc : S) : List I → Prog C CRes R
  | [] => .ret (done acc)
  | i :: is => .act (call i) fun x =>
    match next acc i x with
    | .error r => .ret r
    | .ok acc => Prog.loop call next done acc is

/-- What such a loop returns when `answers` holds of each call and its answer. -/
inductive Loops {I S : Type} (call : I → C) (next : S → (i : I) → CRes (call i) → Except R S)
    (done : S → R) (answers : (i : I) → CRes (call i) → Prop) : S → List I → R → Prop where
  | done (acc : S) : Loops call next done answers acc [] (done acc)
  | leave {acc : S} {i : I} {is : List I} {x : CRes (call i)} {r : R} : answers i x →
      next acc i x = .error r → Loops call next done answers acc (i :: is) r
  | next {acc acc' : S} {i : I} {is : List I} {x : CRes (call i)} {r : R} : answers i x →
      next acc i x = .ok acc' → Loops call next done answers acc' is r →
      Loops call next done answers acc (i :: is) r

section Loops
variable {I S : Type} {call : I → C} {next : S → (i : I) → CRes (call i) → Except R S}
  {done : S → R} {spec : Nat → α → (c : C) → CRes c → α → Prop} {t : Nat}
  {pool pool' : Pool α C CRes R} {es : List (Nat × Event C CRes R)}

theorem Loops.mono {answers answers' : (i : I) → CRes (call i) → Prop}
    (h : ∀ i x, answers i x → answers' i x) {acc : S} {is : List I} {r : R}
    (hl : Loops call next done answers acc is r) : Loops call next done answers' acc is r := by
  induction hl with
  | done acc => exact .done acc
  | leave hx hnext => exact .leave (h _ _ hx) hnext
  | next hx hnext _ ih => exact .next (h _ _ hx) hnext ih

/-- What a step answers to client `t` at some moment of a run. -/
def AnsweredIn (spec : Nat → α → (c : C) → CRes c → α → Prop) (t : Nat) (pool : Pool α C CRes R)
    (es : List (Nat × Event C CRes R)) (pool' : Pool α C CRes R) (c : C) (x : CRes c) : Prop :=
  ∃ mid m, Run.Passes (Step spec NoCalls) pool es mid pool' ∧ spec t mid.shared c x m

theorem gone_of_run (h : Run (Step spec NoCalls) pool es pool') (hgone : pool.prog t = none) :
    ∀ e ∈ es, e.1 ≠ t := by
  induction h with
  | nil => exact fun e he => (List.not_mem_nil he).elim
  | cons hs _ ih =>
    refine List.forall_mem_cons.mpr ?_
    cases hs with
    | call _ hnone => exact hnone.elim
    | @act u a k x s hprog _ =>
      have hu : u ≠ t := by
        rintro rfl
        rw [hgone] at hprog
        cases hprog
      exact ⟨hu, ih ((Function.update_of_ne hu.symm ..).trans hgone)⟩
    | @ret u r hprog =>
      have hu : u ≠ t := by
        rintro rfl
        rw [hgone] at hprog
        cases hprog
      exact ⟨hu, ih ((Function.update_of_ne hu.symm ..).trans hgone)⟩

/-- A client that is about to return returns that and nothing else. -/
theorem returns_of_run (h : Run (Step spec NoCalls) pool es pool') {r r' : R}
    (hprog : pool.prog t = some (.ret r')) (hr : (t, .returned r) ∈ es) : r = r' := by
  induction h with
  | nil => cases hr
  | cons hs hrest ih =>
    cases hs with
    | call _ hnone => exact hnone.elim
    | @act u a k x s hu _ =>
      have hne : u ≠ t := by
        rintro rfl
        rw [hprog] at hu
        cases hu
      rcases List.mem_cons.mp hr with heq | hr
      · cases heq
      · exact ih ((Function.update_of_ne hne.symm ..).trans hprog) hr
    | @ret u r'' hu =>
      by_cases hut : u = t
      · subst hut
        rw [hprog] at hu
        cases hu
        rcases List.mem_cons.mp hr with heq | hr
        · cases heq
          rfl
        · exact (gone_of_run hrest (Function.update_self ..) _ hr rfl).elim
      · rcases List.mem_cons.mp hr with heq | hr
        · cases heq
          exact (hut rfl).elim
        · exact ih ((Function.update_of_ne (Ne.symm hut) ..).trans hprog) hr

/-- Each call of a loop is answered at a moment of its own, whatever the other clients do. -/
theorem loops_of_run (h : Run (Step spec NoCalls) pool es pool') {acc : S} {is : List I} {r : R}
    (hprog : pool.prog t = some (Prog.loop call next done acc is))
    (hr : (t, .returned r) ∈ es) :
    Loops call next done (fun i => AnsweredIn spec t pool es pool' (call i)) acc is r := by
  induction h generalizing acc is with
  | nil => cases hr
  | @cons pool pool₁ pool' e es hs hrest ih =>
    have hlift : ∀ {acc' : S} {is' : List I},
        pool₁.prog t = some (Prog.loop call next done acc' is') → (t, .returned r) ∈ es →
        Loops call next done (fun i => AnsweredIn spec t pool (e :: es) pool' (call i)) acc' is'
          r := by
      intro acc' is' hprog' hr'
      refine (ih hprog' hr').mono fun i x => ?_
      rintro ⟨mid, m, hmid, hspec⟩
      exact ⟨mid, m, hmid.cons hs, hspec⟩
    by_cases het : e.1 = t
    · cases is with
      | nil =>
        rw [returns_of_run (.cons hs hrest) hprog hr]
        exact .done acc
      | cons i is =>
        have hstart := Run.Passes.start (.cons hs hrest)
        cases hs with
        | call _ hnone => exact hnone.elim
        | @act u a k x s hu hspec =>
          obtain rfl : u = t := het
          rw [hprog] at hu
          cases hu
          have hanswer : AnsweredIn spec u pool ((u, .did (call i) x) :: es) pool' (call i) x :=
            ⟨pool, s, hstart, hspec⟩
          have hr' : (u, Event.returned r) ∈ es := by
            rcases List.mem_cons.mp hr with heq | hr'
            · cases heq
            · exact hr'
          cases hnext : next acc i x with
          | error r' =>
            have hret : Function.update pool.prog u (some (match next acc i x with
                | .error r => .ret r
                | .ok acc => Prog.loop call next done acc is)) u = some (.ret r') := by
              rw [Function.update_self, hnext]
            obtain rfl := returns_of_run hrest hret hr'
            exact .leave hanswer hnext
          | ok acc' =>
            refine .next hanswer hnext (hlift ?_ hr')
            simp only [hnext, Function.update_self]
        | @ret u r' hu =>
          obtain rfl : u = t := het
          rw [hprog] at hu
          cases hu
    · have hr' : (t, Event.returned r) ∈ es := by
        rcases List.mem_cons.mp hr with rfl | hr'
        · exact (het rfl).elim
        · exact hr'
      refine hlift ?_ hr'
      cases hs with
      | call _ hnone => exact hnone.elim
      | act hu hspec => exact (Function.update_of_ne (Ne.symm het) ..).trans hprog
      | ret hu => exact (Function.update_of_ne (Ne.symm het) ..).trans hprog

end Loops

/-! ## Alone -/

section Exec
variable {I S : Type} {call : I → C} {next : S → (i : I) → CRes (call i) → Except R S}
  {done : S → R} {sem : σ → (a : A) → Res a → σ → Prop} {method : (c : C) → Prog A Res (CRes c)}
  {s s' : σ} {acc : S} {is : List I}

/-- A loop whose calls keep `Inv` where nobody else takes a step. -/
theorem loops_of_exec (Inv : σ → Prop) {answers : (i : I) → CRes (call i) → Prop}
    (hcall : ∀ i x s s', Inv s → Prog.Exec sem s (method (call i)) x s' → Inv s' ∧ answers i x)
    (hs : Inv s) {r : R}
    (h : Prog.Exec sem s ((Prog.loop call next done acc is).expand method) r s') :
    Loops call next done answers acc is r := by
  induction is generalizing acc s with
  | nil =>
    obtain ⟨rfl, -⟩ := Prog.exec_ret.mp h
    exact .done acc
  | cons i is ih =>
    rw [Prog.loop, Prog.expand_act, Prog.exec_bind] at h
    obtain ⟨x, u, hx, hrest⟩ := h
    obtain ⟨hu, hanswer⟩ := hcall i x s u hs hx
    cases hnext : next acc i x with
    | error r' =>
      rw [hnext] at hrest
      obtain ⟨rfl, -⟩ := Prog.exec_ret.mp hrest
      exact .leave hanswer hnext
    | ok acc' =>
      rw [hnext] at hrest
      exact .next hanswer hnext (ih hu hrest)

theorem exists_exec_loop (Inv : σ → Prop)
    (hcall : ∀ i s, Inv s → ∃ x s', Prog.Exec sem s (method (call i)) x s' ∧ Inv s') (hs : Inv s) :
    ∃ r s', Prog.Exec sem s ((Prog.loop call next done acc is).expand method) r s' := by
  induction is generalizing acc s with
  | nil => exact ⟨_, _, .ret s (done acc)⟩
  | cons i is ih =>
    obtain ⟨x, u, hx, hu⟩ := hcall i s hs
    rw [Prog.loop, Prog.expand_act]
    cases hnext : next acc i x with
    | error r => exact ⟨r, u, Prog.exec_bind.mpr ⟨x, u, hx, by rw [hnext]; exact .ret u r⟩⟩
    | ok acc' =>
      obtain ⟨r, s', hrest⟩ := @ih u acc' hu
      exact ⟨r, s', Prog.exec_bind.mpr ⟨x, u, hx, by rwa [hnext]⟩⟩

end Exec

theorem Traced.mem_returned {es : List (Nat × Event A Res R)} {ces : List (Nat × Event C CRes R)}
    (h : Traced es ces) {t : Nat} {r : R} (hr : (t, .returned r) ∈ es) :
    (t, .returned r) ∈ ces := by
  induction h with
  | nil => cases hr
  | did _ _ ih =>
    rcases List.mem_cons.mp hr with heq | hr
    · cases heq
    · exact List.mem_append_right _ (ih hr)
  | returned _ _ ih =>
    rcases List.mem_cons.mp hr with heq | hr
    · cases heq
      exact List.mem_append_right _ (List.mem_cons_self ..)
    · exact List.mem_append_right _ (List.mem_cons_of_mem _ (ih hr))

end Interleaving
