import Rustyfill.Collections.Rollback

/-!
# Extensions are complete or undone

What the loops push, what the guards leave, and from the two that each extension and each
resizing is complete or leaves the elements as they were.
-/

namespace Rustyfill.Collections

open Guarded

set_option autoImplicit false

section
variable {C T E ε ι R : Type}

/-- The values `make` answers to calls from number `n` on, one for each element of a list. -/
def Made (make : Nat → ι → Answer T ε) : Nat → List ι → List T → Prop
  | _, [], xs => xs = []
  | n, i :: is, xs => ∃ x rest, xs = x :: rest ∧ make n i = .ok x ∧ Made make (n + 1) is rest

theorem Made.snoc {make : Nat → ι → Answer T ε} {n : Nat} {is : List ι} {xs : List T} {i : ι}
    {x : T} (h : Made make n is xs) (hx : make (n + is.length) i = .ok x) :
    Made make n (is ++ [i]) (xs ++ [x]) := by
  induction is generalizing n xs with
  | nil =>
    obtain rfl := h
    exact ⟨x, [], rfl, hx, rfl⟩
  | cons j is ih =>
    obtain ⟨y, rest, rfl, hy, hrest⟩ := h
    refine ⟨y, rest ++ [x], rfl, hy, ih hrest ?_⟩
    rwa [Nat.add_assoc, Nat.add_comm 1, ← List.length_cons]

theorem Made.length_eq {make : Nat → ι → Answer T ε} {n : Nat} {is : List ι} {xs : List T}
    (h : Made make n is xs) : xs.length = is.length := by
  induction is generalizing n xs with
  | nil =>
    obtain rfl := h
    rfl
  | cons j is ih =>
    obtain ⟨y, rest, rfl, -, hrest⟩ := h
    rw [List.length_cons, List.length_cons, ih hrest]

theorem Made.congr {κ : Type} {make : Nat → ι → Answer T ε} {make' : Nat → κ → Answer T ε}
    {n : Nat} {is : List ι} {js : List κ} {xs : List T} (h : Made make n is xs)
    (hall : List.Forall₂ (fun i j => ∀ n, make n i = make' n j) is js) : Made make' n js xs := by
  induction hall generalizing n xs with
  | nil => exact h
  | cons hij _ ih =>
    obtain ⟨x, rest, rfl, hx, hrest⟩ := h
    exact ⟨x, rest, rfl, (hij n).symm.trans hx, ih hrest⟩

/-- A body that exits otherwise than by an abort, with the elements `P` says. -/
def Exits (elems : C → List T) (P : List T → Prop) (e : Exit E) (w : World C) : Prop :=
  e ≠ .abort ∧ P (elems w.store)

/-- After `done`: its values stand behind the elements there were before. -/
structure Pushed (elems : C → List T) (make : Nat → ι → Answer T ε) (w₀ : World C)
    (done : List ι) (w : World C) : Prop where
  calls : w.calls = w₀.calls + done.length
  elems : ∃ xs, Made make w₀.calls done xs ∧ elems w.store = elems w₀.store ++ xs

variable {elems : C → List T} {w₀ w : World C} {make : Nat → ι → Answer T ε}

theorem call_meets {f : Nat → Answer T ε} {mapErr : ε → E} :
    (call f mapErr : Method C E T).Meets w
      (fun x w' => w' = { w with calls := w.calls + 1 } ∧ f w.calls = .ok x)
      (fun e w' => e ≠ .abort ∧ w'.store = w.store) := by
  simp only [Body.Meets, call]
  cases f w.calls with
  | ok x => exact ⟨rfl, rfl⟩
  | error e => exact ⟨Exit.error_ne_abort _, rfl⟩
  | panic => exact ⟨Exit.panic_ne_abort, rfl⟩

/-- The loop of an extension. `K n` is what the collection has to offer for `n` more pushes. -/
theorem pushEach_meets {push : T → Method C E Unit} {body : ι → Method C E T} {is : List ι}
    (K : Nat → C → Prop) (hK : K is.length w₀.store)
    (hpush : ∀ n x w, K (n + 1) w.store → (push x).Meets w
      (fun _ w' => w'.calls = w.calls ∧ elems w'.store = elems w.store ++ [x] ∧ K n w'.store)
      (Exits elems (· = elems w.store)))
    (hbody : ∀ done i rest w, is = done ++ i :: rest → Pushed elems make w₀ done w →
      (body i).Meets w
        (fun x w' => w' = { w with calls := w.calls + 1 } ∧ make w.calls i = .ok x)
        (fun e w' => e ≠ .abort ∧ w'.store = w.store)) :
    (pushEach push body is).Meets w₀ (fun _ w => Pushed elems make w₀ is w)
      (Exits elems (elems w₀.store <+: ·)) := by
  have hloop : (pushEach push body is).Meets w₀
      (fun _ w => Pushed elems make w₀ is w ∧ K (is.length - is.length) w.store)
      (Exits elems (elems w₀.store <+: ·)) := by
    apply Body.forEach_meets (I := fun done w =>
      Pushed elems make w₀ done w ∧ K (is.length - done.length) w.store)
    · intro done i rest w his ⟨hpushed, hroom⟩
      obtain ⟨xs, hxs, helems⟩ := hpushed.elems
      rw [Body.meets_bind]
      apply (hbody done i rest w his hpushed).mono
      · rintro x w' ⟨rfl, hx⟩
        have hleft : is.length - done.length = is.length - (done ++ [i]).length + 1 := by
          rw [his]
          simp only [List.length_append, List.length_cons, List.length_nil]
          omega
        rw [hleft] at hroom
        apply (hpush _ x { w with calls := w.calls + 1 } hroom).mono
        · rintro _ w'' ⟨hcalls, hw'', hroom'⟩
          refine ⟨⟨?_, xs ++ [x], ?_, ?_⟩, hroom'⟩
          · rw [hcalls, hpushed.calls, List.length_append, List.length_singleton, Nat.add_assoc]
          · exact hxs.snoc (hpushed.calls ▸ hx)
          · rw [hw'', helems, List.append_assoc]
        · rintro e w'' ⟨he, hw''⟩
          exact ⟨he, by rw [hw'', helems]; exact List.prefix_append ..⟩
      · rintro e w' ⟨he, hstore⟩
        exact ⟨he, by rw [hstore, helems]; exact List.prefix_append ..⟩
    · exact ⟨⟨rfl, [], rfl, (List.append_nil _).symm⟩, hK⟩
  exact hloop.mono (fun _ w h => h.1) (fun _ _ h => h)

theorem truncateGuard_meets {len : C → Nat} {truncate : C → Nat → C} {p : Method C E R}
    {Q : R → World C → Prop}
    (htruncate : ∀ c c' : C, elems c <+: elems c' → elems (truncate c' (len c)) = elems c)
    (hp : p.Meets w₀ Q (Exits elems (elems w₀.store <+: ·))) :
    (truncateGuard len truncate p).Meets w₀ Q (Exits elems (· = elems w₀.store)) := by
  rw [truncateGuard, Body.meets_guarded]
  apply hp.mono
  · intro _ _ h
    exact h
  · rintro e w ⟨he, hprefix⟩
    refine ⟨he, ?_⟩
    cases e with
    | abort => exact absurd rfl he
    | error e => exact htruncate _ _ hprefix
    | panic => exact htruncate _ _ hprefix

end

namespace Buffer

section
variable {T E ε ι R : Type} {l : Layout} {w w₀ : World (Buffer T)}
  {mapReserve : TryReserveError → E}

theorem reserve_meets {n : Nat} : (reserve l n mapReserve : Method (Buffer T) E Unit).Meets w
    (fun _ w' => w'.calls = w.calls ∧ w'.store.elems = w.store.elems ∧
      w'.store.len + n ≤ w'.store.capacity)
    (Exits Buffer.elems (· = w.store.elems)) := by
  simp only [Body.Meets, reserve]
  rcases h : w.store.tryReserve l n w.memory with ⟨e | b, m⟩
  · exact ⟨Exit.error_ne_abort _, rfl⟩
  · obtain ⟨helems, hle⟩ := tryReserve_ok h
    refine ⟨rfl, helems, ?_⟩
    rwa [len, helems]

theorem push_meets {x : T} {n : Nat} (h : w.store.len + (n + 1) ≤ w.store.capacity) :
    (push l x : Method (Buffer T) E Unit).Meets w
      (fun _ w' => w'.calls = w.calls ∧ w'.store.elems = w.store.elems ++ [x] ∧
        w'.store.len + n ≤ w'.store.capacity)
      (Exits Buffer.elems (· = w.store.elems)) := by
  have hlt : w.store.len < w.store.capacity := by omega
  have hlen : w.store.len + 1 + n ≤ w.store.capacity := by omega
  have hpush : push l x w = ((.ok (), { w with store := w.store.append x hlt }) :
      Except (Exit E) Unit × World (Buffer T)) := dif_pos hlt
  rw [Body.Meets, hpush]
  refine ⟨rfl, rfl, ?_⟩
  rwa [len, append, List.length_append, List.length_singleton]

theorem truncate_of_prefix (b b' : Buffer T) (h : b.elems <+: b'.elems) :
    (b'.truncate b.len).elems = b.elems := by
  rw [truncate_elems, len, ← List.prefix_iff_eq_take.mp h]

theorem guarded_pushEach_meets {make : Nat → ι → Answer T ε} {body : ι → Method (Buffer T) E T}
    {is : List ι} (hroom : w₀.store.len + is.length ≤ w₀.store.capacity)
    (hbody : ∀ done i rest w, is = done ++ i :: rest → Pushed Buffer.elems make w₀ done w →
      (body i).Meets w
        (fun x w' => w' = { w with calls := w.calls + 1 } ∧ make w.calls i = .ok x)
        (fun e w' => e ≠ .abort ∧ w'.store = w.store)) :
    (guarded (pushEach (push l) body is)).Meets w₀
      (fun _ w => ∃ xs, Made make w₀.calls is xs ∧ w.store.elems = w₀.store.elems ++ xs)
      (Exits Buffer.elems (· = w₀.store.elems)) := by
  apply truncateGuard_meets truncate_of_prefix
  apply (pushEach_meets (fun n b => b.len + n ≤ b.capacity) hroom ?_ hbody).mono
  · intro _ w h
    exact h.elems
  · intro _ _ h
    exact h
  · intro n x w h
    exact push_meets h

end

end Buffer

namespace LinkedList

variable {T E ε : Type} {w : World (LinkedList T)}

theorem truncate_elems (list : LinkedList T) (lenBefore : Nat) :
    (list.truncate lenBefore).elems = list.elems.take lenBefore := by
  fun_induction truncate list lenBefore with
  | case1 list hlt ih =>
    rw [ih, popBack, List.dropLast_eq_take, List.take_take]
    congr 1
    simp only [len] at hlt
    omega
  | case2 list hle => exact (List.take_of_length_le (Nat.not_lt.mp hle)).symm

end LinkedList

/-! ## All of them -/

end Rustyfill.Collections
