import Rustyfill.Collections.Atomic
import Rustyfill.Collections.Collected
import Rustyfill.Collections.Extend

/-!
# Extensions lose nothing

Every collection takes the items of a source one by one, and an exit has those it did not take. From
this follows, for any number of attempts, that the items taken and the items left are the items of
the source, and that the last attempt ends where a single one would have ended.
-/

namespace Rustyfill.Collections

open Guarded Offering Transition

set_option autoImplicit false

section
variable {T C V E ε : Type}

/-! ## What comes back -/

/-- The source that a failed attempt hands back. -/
def leftOf {S : Type} : Exit (S × E) → Option S
  | .error (src, _) => some src
  | _ => none

/-- The exit is an error, with a source of `rest`. -/
def HandsBack (e : Exit (Resumable T × E)) (rest : List T) : Prop :=
  ∃ src err, e = .error (src, err) ∧ src.items = rest

/-- The exit is an error, with the slice `rest`, or the panic of a clone of an item of it. -/
def HandsBackSlice (Panics : T → Prop) (e : Exit (List T × E)) (rest : List T) : Prop :=
  (e = .panic ∧ ∃ x ∈ rest, Panics x) ∨ ∃ err, e = .error (rest, err)

/-- Between two attempts the collection stays as it is, whatever becomes of the allocator. -/
def SameStore (w w' : World C) : Prop := w'.store = w.store

def putting (put : V → T → V) (v : V) (x : T) (v' : V) : Prop := v' = put v x

def puttingClone (Cloned : T → T → Prop) (put : V → T → V) (v : V) (x : T) (v' : V) : Prop :=
  ∃ y, Cloned x y ∧ v' = put v y

theorem run_puttingClone {Cloned : T → T → Prop} {put : V → T → V} {v v' : V} {items : List T}
    (h : Run (puttingClone Cloned put) v items v') :
    ∃ clones, List.Forall₂ Cloned items clones ∧ v' = clones.foldl put v := by
  induction h with
  | nil v => exact ⟨[], .nil, rfl⟩
  | cons hput _ ih =>
    obtain ⟨y, hy, rfl⟩ := hput
    obtain ⟨clones, hclones, rfl⟩ := ih
    exact ⟨y :: clones, .cons hy hclones, rfl⟩

/-! ## What it is to resume -/

/-- Attempts to insert the items of a source, of which each goes on with what the one before handed
back. However many fail, what was inserted and what is left are the items, in order; an attempt
ends with all of them inserted, or hands back a source. -/
structure Resumes (view : C → V) (put : V → T → V)
    (attempt : Resumable T → Method C (Resumable T × E) Unit) : Prop where
  split : ∀ {w w' src src'}, Attempts attempt leftOf SameStore w src w' src' →
    ∃ done, src.items = done ++ src'.items ∧ view w'.store = done.foldl put (view w.store)
  finish : ∀ {w w' w'' src src'}, Attempts attempt leftOf SameStore w src w' src' →
    SameStore w' w'' →
    (attempt src').Meets w'' (fun _ u => view u.store = src.items.foldl put (view w.store))
      (fun e _ => (leftOf e).isSome)

/-- The same of clones of the items of a slice; an attempt may also end in a panic, of the code that
clones one of the items that are left. -/
structure ResumesSlice (view : C → V) (put : V → T → V) (Cloned : T → T → Prop)
    (Panics : T → Prop) (attempt : List T → Method C (List T × E) Unit) : Prop where
  split : ∀ {w w' other other'}, Attempts attempt leftOf SameStore w other w' other' →
    ∃ done clones, other = done ++ other' ∧ List.Forall₂ Cloned done clones ∧
      view w'.store = clones.foldl put (view w.store)
  finish : ∀ {w w' w'' other other'}, Attempts attempt leftOf SameStore w other w' other' →
    SameStore w' w'' →
    (attempt other').Meets w''
      (fun _ u => ∃ clones, List.Forall₂ Cloned other clones ∧
        view u.store = clones.foldl put (view w.store))
      (fun e _ => (leftOf e).isSome ∨ e = .panic ∧ ∃ x ∈ other', Panics x)

variable {view : C → V} {put : V → T → V} {Cloned : T → T → Prop} {Panics : T → Prop}

theorem attempts_split {attempt : Resumable T → Method C (Resumable T × E) Unit}
    (h : ∀ src w, Offers (fun w => view w.store) (putting put) HandsBack src.items (attempt src) w)
    {w w' : World C} {src src' : Resumable T}
    (hattempts : Attempts attempt leftOf SameStore w src w' src') :
    ∃ done, src.items = done ++ src'.items ∧
      Run (putting put) (view w.store) done (view w'.store) := by
  have hleft : ∀ (e : Exit (Resumable T × E)) src rest, leftOf e = some src → HandsBack e rest →
      src.items = rest := by
    rintro e src rest hsrc ⟨src', err, rfl, rfl⟩
    cases hsrc
    rfl
  have hvary : ∀ w w' : World C, SameStore w w' → view w'.store = view w.store :=
    fun w w' hsame => congrArg view hsame
  have hsplit := Attempts.split h hleft hvary hattempts
  exact hsplit

theorem Resumes.of_offers {attempt : Resumable T → Method C (Resumable T × E) Unit}
    (h : ∀ src w,
      Offers (fun w => view w.store) (putting put) HandsBack src.items (attempt src) w) :
    Resumes view put attempt where
  split hattempts := by
    obtain ⟨done, hitems, hrun⟩ := attempts_split h hattempts
    exact ⟨done, hitems, run_put_iff.mp hrun⟩
  finish {w w' w'' src src'} hattempts hsame := by
    obtain ⟨done, hitems, hrun⟩ := attempts_split h hattempts
    refine (h src' w'').mono ?_ ?_
    · intro _ u hu
      have hrest : Run (putting put) (view w'.store) src'.items (view u.store) := hsame ▸ hu
      rw [hitems]
      exact run_put_iff.mp (hrun.append hrest)
    · rintro e u ⟨-, -, -, ⟨src₁, err, rfl, -⟩, -⟩
      rfl

theorem slices_split {attempt : List T → Method C (List T × E) Unit}
    (h : ∀ other w, Offers (fun w => view w.store) (puttingClone Cloned put)
      (HandsBackSlice Panics) other (attempt other) w)
    {w w' : World C} {other other' : List T}
    (hattempts : Attempts attempt leftOf SameStore w other w' other') :
    ∃ done, other = done ++ other' ∧
      Run (puttingClone Cloned put) (view w.store) done (view w'.store) := by
  have hleft : ∀ (e : Exit (List T × E)) other rest, leftOf e = some other →
      HandsBackSlice Panics e rest → other = rest := by
    rintro e other rest hother (⟨rfl, -⟩ | ⟨err, rfl⟩)
    · cases hother
    · cases hother
      rfl
  have hvary : ∀ w w' : World C, SameStore w w' → view w'.store = view w.store :=
    fun w w' hsame => congrArg view hsame
  have hsplit := Attempts.split h hleft hvary hattempts
  exact hsplit

theorem ResumesSlice.of_offers {attempt : List T → Method C (List T × E) Unit}
    (h : ∀ other w, Offers (fun w => view w.store) (puttingClone Cloned put)
      (HandsBackSlice Panics) other (attempt other) w) :
    ResumesSlice view put Cloned Panics attempt where
  split hattempts := by
    obtain ⟨done, hother, hrun⟩ := slices_split h hattempts
    obtain ⟨clones, hclones, hview⟩ := run_puttingClone hrun
    exact ⟨done, clones, hother, hclones, hview⟩
  finish {w w' w'' other other'} hattempts hsame := by
    obtain ⟨done, hother, hrun⟩ := slices_split h hattempts
    refine (h other' w'').mono ?_ ?_
    · intro _ u hu
      have hrest : Run (puttingClone Cloned put) (view w'.store) other' (view u.store) := hsame ▸ hu
      rw [hother]
      exact run_puttingClone (hrun.append hrest)
    · rintro e u ⟨done', rest, hrest, ⟨rfl, x, hx, hpanic⟩ | ⟨err, rfl⟩, -⟩
      · exact .inr ⟨rfl, x, hrest ▸ List.mem_append_right done' hx, hpanic⟩
      · exact .inl rfl

/-! ## Clones -/

/-- A call of the caller's code makes one of the clones of an item, hands back what it is told, or
panics. The collection is not touched. -/
def ClonesOne (Cloned : T → T → Prop) (Panics : T → Prop)
    (cloneItem : (ε → List T × E) → Method C (List T × E) T) (x : T) : Prop :=
  ∀ fail rest w, (∀ e, (fail e).1 = rest) → (cloneItem fail).Meets w
    (fun y w' => Cloned x y ∧ w'.store = w.store)
    (fun e w' => ((e = .panic ∧ Panics x) ∨ ∃ err, e = .error (rest, err)) ∧ w'.store = w.store)

/-- The item whose clone panics is the next of those that are left. -/
theorem HandsBackSlice.of_next {e : Exit (List T × E)} {x : T} {xs : List T}
    (h : (e = .panic ∧ Panics x) ∨ ∃ err, e = .error (x :: xs, err)) :
    HandsBackSlice Panics e (x :: xs) := by
  rcases h with ⟨rfl, hpanic⟩ | herr
  · exact .inl ⟨rfl, x, List.mem_cons_self, hpanic⟩
  · exact .inr herr

theorem clonesOne_tryClone (clone : Nat → T → Answer T ε) (x : T) :
    ClonesOne (C := C) (E := E) (fun x y => ∃ n, clone n x = .ok y)
      (fun x => ∃ n, clone n x = .panic) (tryClone clone x) x := by
  intro fail rest w hfail
  simp only [Body.Meets, tryClone, call]
  cases hclone : clone w.calls x with
  | ok y => exact ⟨⟨w.calls, hclone⟩, rfl⟩
  | error e => exact ⟨.inr ⟨(fail e).2, by rw [← hfail e]⟩, rfl⟩
  | panic => exact ⟨.inl ⟨rfl, w.calls, hclone⟩, rfl⟩

theorem clonesOne_tryClonePair {K V : Type} (cloneKey : Nat → K → Answer K ε)
    (cloneValue : Nat → V → Answer V ε) (kv : K × V) :
    ClonesOne (C := C) (E := E)
      (fun kv kv' : K × V => ∃ n, cloneKey n kv.1 = .ok kv'.1 ∧ cloneValue (n + 1) kv.2 = .ok kv'.2)
      (fun kv : K × V => ∃ n, cloneKey n kv.1 = .panic ∨ cloneValue n kv.2 = .panic)
      (tryClonePair cloneKey cloneValue kv) kv := by
  intro fail rest w hfail
  simp only [Body.Meets, tryClonePair]
  cases hkey : cloneKey w.calls kv.1 with
  | panic => exact ⟨.inl ⟨rfl, w.calls, .inl hkey⟩, rfl⟩
  | ok k =>
    cases hvalue : cloneValue (w.calls + 1) kv.2 with
    | panic => exact ⟨.inl ⟨rfl, w.calls + 1, .inr hvalue⟩, rfl⟩
    | ok v => exact ⟨⟨w.calls, hkey, hvalue⟩, rfl⟩
    | error e => exact ⟨.inr ⟨(fail e).2, by rw [← hfail e]⟩, rfl⟩
  | error e =>
    cases hvalue : cloneValue (w.calls + 1) kv.2 with
    | panic => exact ⟨.inl ⟨rfl, w.calls + 1, .inr hvalue⟩, rfl⟩
    | ok v => exact ⟨.inr ⟨(fail e).2, by rw [← hfail e]⟩, rfl⟩
    | error e' => exact ⟨.inr ⟨(fail e).2, by rw [← hfail e]⟩, rfl⟩

end

/-! ## Collections that reserve -/

namespace Growing

variable {T C V E ε : Type}

/-- A reservation is not to be seen, and a push into room puts the item. -/
structure Lawful (g : Growing T C V) : Prop where
  len_le : ∀ c, g.len c ≤ g.capacity c
  reserve_meets : ∀ {E : Type} (n : Nat) (mapErr : TryReserveError → E) (w : World C),
    (g.reserve n mapErr).Meets w
      (fun _ w' => g.view w'.store = g.view w.store ∧ g.len w'.store + n ≤ g.capacity w'.store)
      (fun e w' => g.view w'.store = g.view w.store ∧ ∃ err, e = .error (mapErr err))
  push_meets : ∀ {E : Type} (x : T) (w : World C), g.len w.store < g.capacity w.store →
    (g.push x : Method C E Unit).Meets w
      (fun _ w' => g.view w'.store = g.put (g.view w.store) x ∧
        g.len w'.store ≤ g.len w.store + 1 ∧ g.capacity w'.store = g.capacity w.store)
      (fun _ _ => False)

variable {g : Growing T C V} {w : World C}

/-- A view that shows less. -/
theorem Lawful.coarser {V' : Type} {f : V → V'} {put : V' → T → V'} (hg : g.Lawful)
    (hput : ∀ v x, f (g.put v x) = put (f v) x) :
    ({ g with view := fun c => f (g.view c), put := put } : Growing T C V').Lawful where
  len_le := hg.len_le
  reserve_meets n mapErr w := by
    refine (hg.reserve_meets n mapErr w).mono ?_ ?_
    · rintro _ w' ⟨hview, hroom⟩
      exact ⟨congrArg f hview, hroom⟩
    · rintro e w' ⟨hview, herr⟩
      exact ⟨congrArg f hview, herr⟩
  push_meets x w hroom := by
    refine (hg.push_meets x w hroom).mono ?_ fun _ _ h => h
    rintro _ w' ⟨hview, hlen⟩
    exact ⟨(congrArg f hview).trans (hput _ x), hlen⟩

theorem Lawful.pushItem_meets (hg : g.Lawful) (x : T) (back : Resumable T) :
    (g.pushItem x back).Meets w
      (fun _ w' => g.view w'.store = g.put (g.view w.store) x)
      (fun e w' => g.view w'.store = g.view w.store ∧ HandsBack e back.items) := by
  change Body.Meets (if g.len w.store = g.capacity w.store then
    (g.reserve 1 fun e => (back, e)) >>= fun _ => g.push x else g.push x) _ _ _
  split
  · rw [Body.meets_bind]
    refine (hg.reserve_meets 1 _ w).mono ?_ ?_
    · rintro _ w' ⟨hview, hroom⟩
      refine (hg.push_meets x w' (by omega)).mono ?_ fun _ _ h => h.elim
      rintro _ w'' ⟨hput, -, -⟩
      rw [hput, hview]
    · rintro _ w' ⟨hview, err, rfl⟩
      exact ⟨hview, back, err, rfl, rfl⟩
  · rename_i hne
    have hlt := Nat.lt_of_le_of_ne (hg.len_le w.store) hne
    exact (hg.push_meets x w hlt).mono (fun _ _ h => h.1) fun _ _ h => h.elim

theorem Lawful.extendRemainder_offers (hg : g.Lawful) (iter : Remainder T) (w : World C) :
    Offers (fun w => g.view w.store) (putting g.put) HandsBack iter.items
      (g.extendRemainder iter) w := by
  have hloop : ∀ w, Offers (fun w => g.view w.store) (putting g.put) HandsBack iter.items
      (each (fun item rest => g.pushItem item (.new item ⟨rest, iter.lower⟩)) iter.items) w := by
    intro w
    refine each_offers (I := fun _ _ => True) (fun x xs w _ => ?_) iter.items trivial
    refine (hg.pushItem_meets x _).mono (fun _ _ h => ⟨h, trivial⟩) ?_
    rintro e w' ⟨hview, hback⟩
    exact hview ▸ .nothing hback
  rw [extendRemainder]
  split
  · refine Offers.bind [] ((hg.reserve_meets _ _ w).mono ?_ ?_)
    · rintro _ w' ⟨hview, -⟩
      exact ⟨hview ▸ .nil _, hloop w'⟩
    · rintro _ w' ⟨hview, err, rfl⟩
      exact hview ▸ .nothing ⟨_, err, rfl, rfl⟩
  · exact hloop w

theorem Lawful.tryExtend_offers (hg : g.Lawful) (src : Resumable T) (w : World C) :
    Offers (fun w => g.view w.store) (putting g.put) HandsBack src.items (g.tryExtend src) w := by
  obtain ⟨head, remainder⟩ := src
  cases head with
  | none => exact hg.extendRemainder_offers remainder w
  | some head =>
    refine Offers.bind [head] ((hg.pushItem_meets head _).mono ?_ ?_)
    · intro _ w' hput
      exact ⟨.single hput, hg.extendRemainder_offers remainder w'⟩
    · rintro e w' ⟨hview, hback⟩
      exact hview ▸ .nothing hback

theorem Lawful.tryExtendFromSlice_offers (hg : g.Lawful) {Cloned : T → T → Prop}
    {Panics : T → Prop} {cloneItem : {E : Type} → T → (ε → E) → Method C E T}
    (hclone : ∀ {E : Type} x, ClonesOne (C := C) (E := E) Cloned Panics (cloneItem x) x)
    {mapReserve : TryReserveError → E} {mapClone : ε → E} (other : List T) (w : World C) :
    Offers (fun w => g.view w.store) (puttingClone Cloned g.put) (HandsBackSlice Panics) other
      (g.tryExtendFromSlice cloneItem mapReserve mapClone other) w := by
  rw [tryExtendFromSlice]
  split
  · rename_i hempty
    rw [List.isEmpty_iff.mp hempty]
    exact offers_pure
  · refine Offers.bind [] ((hg.reserve_meets _ _ w).mono ?_ ?_)
    · rintro _ w' ⟨hview, hroom⟩
      refine ⟨hview ▸ .nil _, each_offers (I := fun n w => g.len w.store + n ≤ g.capacity w.store)
        (fun x xs w hw => ?_) other hroom⟩
      rw [Body.meets_bind]
      refine (hclone x _ (x :: xs) w fun e => rfl).mono ?_ ?_
      · rintro y w' ⟨hy, hsame⟩
        rw [← hsame] at hw
        refine (hg.push_meets y w' (by omega)).mono ?_ fun _ _ h => h.elim
        rintro _ w'' ⟨hput, hlen, hcapacity⟩
        refine ⟨⟨y, hy, hsame ▸ hput⟩, ?_⟩
        rw [hcapacity]
        omega
      · rintro e w' ⟨hback, hsame⟩
        exact congrArg g.view hsame ▸ .nothing (.of_next hback)
    · rintro _ w' ⟨hview, err, rfl⟩
      exact hview ▸ .nothing (.inr ⟨mapReserve err, rfl⟩)

theorem Lawful.resumes (hg : g.Lawful) : Resumes g.view g.put g.tryExtend :=
  .of_offers hg.tryExtend_offers

theorem Lawful.resumesSlice (hg : g.Lawful) {Cloned : T → T → Prop} {Panics : T → Prop}
    (cloneItem : {E : Type} → T → (ε → E) → Method C E T)
    (hclone : ∀ {E : Type} x, ClonesOne (C := C) (E := E) Cloned Panics (cloneItem x) x)
    (mapReserve : TryReserveError → E) (mapClone : ε → E) :
    ResumesSlice g.view g.put Cloned Panics
      (g.tryExtendFromSlice cloneItem mapReserve mapClone) :=
  .of_offers fun other w => hg.tryExtendFromSlice_offers hclone other w

end Growing

/-! ### Those there are -/

theorem Buffer.growing_lawful {T : Type} (l : Layout) :
    (Buffer.growing l : Growing T (Buffer T) (List T)).Lawful where
  len_le b := b.room
  reserve_meets n mapErr w := by
    simp only [Body.Meets, growing, reserve]
    rcases h : w.store.tryReserve l n w.memory with ⟨e | b, m⟩
    · exact ⟨rfl, e, rfl⟩
    · obtain ⟨helems, hle⟩ := tryReserve_ok h
      refine ⟨helems, ?_⟩
      rwa [len, helems]
  push_meets {E} x w h := by
    have hpush : (push l x : Method (Buffer T) E Unit) w =
        (.ok (), { w with store := w.store.append x h }) := dif_pos h
    change (push l x).Meets w _ _
    rw [Body.Meets, hpush]
    refine ⟨rfl, ?_, rfl⟩
    simp [growing, len, append]

section
variable {T : Type} [LE T] [DecidableLE T] [Std.IsLinearPreorder T] (l : Layout)

/-- A heap by the order of the elements in its buffer. -/
def BinaryHeap.arranged : Growing T (BinaryHeap T) (List T) :=
  { growing l with view := elems, put := MaxHeap.push }

theorem BinaryHeap.arranged_lawful : (arranged (T := T) l).Lawful where
  len_le a := a.data.room
  reserve_meets n mapErr w := by
    change (reserveOwn l n mapErr).Meets w _ _
    rcases h : w.store.data.tryReserve l n w.memory with ⟨e | b, m⟩
    · rw [Body.Meets, reserveOwn_error h]
      exact ⟨rfl, e, rfl⟩
    · obtain ⟨helems, hle⟩ := Buffer.tryReserve_ok h
      rw [Body.Meets, reserveOwn_eq h helems]
      refine ⟨helems, ?_⟩
      change b.elems.length + n ≤ b.capacity
      rwa [helems]
  push_meets {E} x w h := by
    have hpush : (push l x : Method (BinaryHeap T) E Unit) w =
        (.ok (), { w with store := w.store.inserted x w.store.data ⟨rfl, h⟩ }) := dif_pos h
    have hperm := (MaxHeap.push_perm w.store.elems x).trans List.perm_append_comm
    change (push l x).Meets w _ _
    rw [Body.Meets, hpush]
    exact ⟨rfl, hperm.length_eq.le, rfl⟩

theorem BinaryHeap.growing_lawful : (growing (T := T) l).Lawful := by
  have hput : ∀ (elems : List T) (x : T),
      ((MaxHeap.push elems x : List T) : Multiset T) = x ::ₘ (elems : Multiset T) := by
    intro elems x
    exact Multiset.coe_eq_coe.mpr ((MaxHeap.push_perm elems x).trans List.perm_append_comm)
  exact Growing.Lawful.coarser (g := arranged l) (arranged_lawful l) hput

end

section
variable {K V : Type} [BEq K]

theorem PairTable.growing_lawful (g : Growth) :
    (PairTable.growing g : Growing (K × V) (PairTable K V) (List (K × V))).Lawful where
  len_le t := t.room
  reserve_meets n mapErr w := by
    simp only [Body.Meets, growing, reserve]
    rcases h : w.store.tryReserve g n w.memory with ⟨e | t, m⟩
    · exact ⟨rfl, e, rfl⟩
    · obtain ⟨hpairs, hle⟩ := tryReserve_ok h
      refine ⟨hpairs, ?_⟩
      rwa [len, hpairs]
  push_meets {E} kv w h := by
    have hpush : (insert g kv : Method (PairTable K V) E Unit) w =
        (.ok (), { w with store := w.store.inserted kv h }) := dif_pos h
    change (insert g kv).Meets w _ _
    rw [Body.Meets, hpush]
    exact ⟨rfl, (length_insertPair w.store.pairs kv).2, rfl⟩

theorem HashSet.growing_lawful (g : Growth) :
    (HashSet.growing g : Growing K (PairTable K Unit) (List (K × Unit))).Lawful where
  len_le := (PairTable.growing_lawful g).len_le
  reserve_meets := (PairTable.growing_lawful g).reserve_meets
  push_meets x := (PairTable.growing_lawful g).push_meets (x, ())

end

/-! ## Collections that insert or hand back -/

section
variable {T C V E ε : Type} {view : C → V} {put : V → T → V} {Cloned : T → T → Prop}
  {Panics : T → Prop}

def InsertsOne (view : C → V) (put : V → T → V) (back : Exit E → Prop) (p : Method C E Unit)
    (x : T) : Prop :=
  ∀ w, p.Meets w (fun _ w' => view w'.store = put (view w.store) x)
    (fun e w' => view w'.store = view w.store ∧ back e)

theorem extendGivingBack_offers {insert : T → Resumable T → Method C (Resumable T × E) Unit}
    (hinsert : ∀ x back, InsertsOne view put (HandsBack · back.items) (insert x back) x)
    (src : Resumable T) (w : World C) :
    Offers (fun w => view w.store) (putting put) HandsBack src.items
      (extendGivingBack insert src) w := by
  obtain ⟨head, remainder⟩ := src
  have hloop : ∀ w, Offers (fun w => view w.store) (putting put) HandsBack remainder.items
      (each (fun item rest => insert item (.new item ⟨rest, remainder.lower⟩))
        remainder.items) w := by
    intro w
    refine each_offers (I := fun _ _ => True) (fun x xs w _ => ?_) remainder.items trivial
    refine (hinsert x _ w).mono (fun _ _ h => ⟨h, trivial⟩) ?_
    rintro e w' ⟨hview, hback⟩
    exact hview ▸ .nothing hback
  cases head with
  | none => exact hloop w
  | some head =>
    refine Offers.bind [head] ((hinsert head _ w).mono ?_ ?_)
    · intro _ w' hput
      exact ⟨.single hput, hloop w'⟩
    · rintro e w' ⟨hview, hback⟩
      exact hview ▸ .nothing hback

theorem extendFromSliceInserting_offers
    {cloneItem : T → (ε → List T × E) → Method C (List T × E) T}
    {insert : T → List T → Method C (List T × E) Unit} {mapClone : ε → E}
    (hclone : ∀ x, ClonesOne Cloned Panics (cloneItem x) x)
    (hinsert : ∀ y rest, InsertsOne view put (HandsBackSlice Panics · rest) (insert y rest) y)
    (other : List T) (w : World C) :
    Offers (fun w => view w.store) (puttingClone Cloned put) (HandsBackSlice Panics) other
      (extendFromSliceInserting cloneItem insert mapClone other) w := by
  refine each_offers (I := fun _ _ => True) (fun x xs w _ => ?_) other trivial
  rw [Body.meets_bind]
  refine (hclone x _ (x :: xs) w fun e => rfl).mono ?_ ?_
  · rintro y w' ⟨hy, hsame⟩
    refine (hinsert y (x :: xs) w').mono ?_ ?_
    · intro _ w'' hput
      exact ⟨⟨y, hy, hsame ▸ hput⟩, trivial⟩
    · rintro e w'' ⟨hview, hback⟩
      rw [hview, hsame]
      exact .nothing hback
  · rintro e w' ⟨hback, hsame⟩
    exact congrArg view hsame ▸ .nothing (.of_next hback)

end

/-! ### Those there are -/

theorem LinkedList.tryPushBack_inserts {T E : Type} {nodeSize : Nat} {mapErr : E} {x : T}
    {back : Exit E → Prop} (hback : back (.error mapErr)) :
    InsertsOne LinkedList.elems (fun elems x => elems ++ [x]) back
      (tryPushBack nodeSize mapErr x) x := by
  intro w
  simp only [Body.Meets, tryPushBack]
  rcases w.memory.request nodeSize with ⟨granted, m⟩
  cases granted with
  | false => exact ⟨rfl, hback⟩
  | true => rfl

theorem LinkedList.tryExtend_offers {T : Type} (nodeSize : Nat) (src : Resumable T)
    (w : World (LinkedList T)) :
    Offers (fun w => LinkedList.elems w.store) (putting fun elems x => elems ++ [x]) HandsBack
      src.items (tryExtend nodeSize src) w := by
  refine extendGivingBack_offers (fun x back => ?_) src w
  have hback : HandsBack (.error (back, (⟨⟩ : AllocError))) back.items := ⟨back, ⟨⟩, rfl, rfl⟩
  exact tryPushBack_inserts hback

namespace DashMap

variable {K V E : Type} {N : Nat} [BEq K]

def shards (tables : Fin N → PairTable K V) (i : Fin N) : List (K × V) := (tables i).pairs

def insertIn (shard : K → Fin N) (pairs : Fin N → List (K × V)) (kv : K × V) :
    Fin N → List (K × V) :=
  Function.update pairs (shard kv.1) (PairTable.insertPair (pairs (shard kv.1)) kv)

omit [BEq K] in
theorem shards_update (tables : Fin N → PairTable K V) (i : Fin N) (t : PairTable K V) :
    shards (Function.update tables i t) = Function.update (shards tables) i t.pairs := by
  funext j
  by_cases hj : j = i
  · subst hj
    simp [shards]
  · simp [shards, hj]

theorem tryInsertGiveBack_inserts {g : Growth} {shard : K → Fin N} {mapErr : TryReserveError → E}
    {kv : K × V} {back : Exit E → Prop} (hback : ∀ e, back (.error (mapErr e))) :
    InsertsOne shards (insertIn shard) back (tryInsertGiveBack g shard mapErr kv) kv := by
  have hlawful := PairTable.growing_lawful (K := K) (V := V) g
  intro w
  rw [tryInsertGiveBack, onShard_meets, Body.meets_bind]
  refine (hlawful.reserve_meets 1 mapErr _).mono ?_ ?_
  · rintro _ w' ⟨hview, hroom⟩
    refine (hlawful.push_meets kv w' hroom).mono ?_ fun _ _ h => h.elim
    rintro _ w'' ⟨hput, -, -⟩
    change w''.store.pairs = PairTable.insertPair w'.store.pairs kv at hput
    change w'.store.pairs = (w.store (shard kv.1)).pairs at hview
    rw [shards_update, hput, hview]
    rfl
  · rintro _ w' ⟨hview, err, rfl⟩
    change w'.store.pairs = (w.store (shard kv.1)).pairs at hview
    refine ⟨?_, hback err⟩
    rw [shards_update, hview]
    exact Function.update_eq_self (shard kv.1) (shards w.store)

end DashMap

/-! ## All of them -/

section
variable (T K V : Type) [LE T] [DecidableLE T] [Std.IsLinearPreorder T] [BEq K] (l : Layout)
  (nodeSize : Nat) (g : Growth) {N : Nat} (shard : K → Fin N)

/-- What `try_extend` could not insert comes back, behind the item it was about to insert. Whoever
goes on with it, whatever the allocator does in between, gets the collection that would have come of
a single attempt. No attempt panics or aborts. -/
theorem tryExtend_resumes :
    Resumes Buffer.elems (fun elems x => elems ++ [x]) (Vec.tryExtend (T := T) l) ∧
    Resumes Buffer.elems (fun elems x => elems ++ [x]) (VecDeque.tryExtend (T := T) l) ∧
    Resumes LinkedList.elems (fun elems x => elems ++ [x])
      (LinkedList.tryExtend (T := T) nodeSize) ∧
    Resumes (fun a : BinaryHeap T => (a.elems : Multiset T)) (fun elems x => x ::ₘ elems)
      (BinaryHeap.tryExtend l) ∧
    Resumes PairTable.pairs PairTable.insertPair (HashMap.tryExtend (K := K) (V := V) g) ∧
    Resumes PairTable.pairs (fun elems x => PairTable.insertPair elems (x, ()))
      (HashSet.tryExtend (T := K) g) ∧
    Resumes DashMap.shards (DashMap.insertIn shard) (DashMap.tryExtend (V := V) g shard) ∧
    Resumes DashMap.shards (fun elems x => DashMap.insertIn shard elems (x, ()))
      (DashSet.tryExtend g shard) := by
  refine ⟨(Buffer.growing_lawful l).resumes, (Buffer.growing_lawful l).resumes,
    .of_offers (LinkedList.tryExtend_offers nodeSize), (BinaryHeap.growing_lawful l).resumes,
    (PairTable.growing_lawful g).resumes, (HashSet.growing_lawful g).resumes,
    .of_offers fun src w => ?_, .of_offers fun src w => ?_⟩
  · refine extendGivingBack_offers (fun kv back => ?_) src w
    have hback : ∀ e : TryReserveError, HandsBack (.error (back, e)) back.items :=
      fun e => ⟨back, e, rfl, rfl⟩
    exact DashMap.tryInsertGiveBack_inserts hback
  · refine extendGivingBack_offers (fun x back => ?_) src w
    have hback : ∀ e : TryReserveError, HandsBack (.error (back, e)) back.items :=
      fun e => ⟨back, e, rfl, rfl⟩
    exact DashMap.tryInsertGiveBack_inserts hback

/-- Of a slice, the part of which no clone was inserted comes back. No attempt aborts, and none
panics unless a clone of an item that is left does. -/
theorem tryExtendFromSlice_resumes {ε : Type} (clone : Nat → T → Answer T ε)
    (cloneKey : Nat → K → Answer K ε) (cloneValue : Nat → V → Answer V ε) :
    ResumesSlice Buffer.elems (fun elems x => elems ++ [x]) (fun x y => ∃ n, clone n x = .ok y)
      (fun x => ∃ n, clone n x = .panic) (Vec.tryExtendFromSlice l clone) ∧
    ResumesSlice Buffer.elems (fun elems x => elems ++ [x]) (fun x y => ∃ n, clone n x = .ok y)
      (fun x => ∃ n, clone n x = .panic) (VecDeque.tryExtendFromSlice l clone) ∧
    ResumesSlice LinkedList.elems (fun elems x => elems ++ [x])
      (fun x y => ∃ n, clone n x = .ok y)
      (fun x => ∃ n, clone n x = .panic) (LinkedList.tryExtendFromSlice nodeSize clone) ∧
    ResumesSlice (fun a : BinaryHeap T => (a.elems : Multiset T)) (fun elems x => x ::ₘ elems)
      (fun x y => ∃ n, clone n x = .ok y)
      (fun x => ∃ n, clone n x = .panic) (BinaryHeap.tryExtendFromSlice l clone) ∧
    ResumesSlice PairTable.pairs PairTable.insertPair
      (fun kv kv' => ∃ n, cloneKey n kv.1 = .ok kv'.1 ∧ cloneValue (n + 1) kv.2 = .ok kv'.2)
      (fun kv => ∃ n, cloneKey n kv.1 = .panic ∨ cloneValue n kv.2 = .panic)
      (HashMap.tryExtendFromSlice g cloneKey cloneValue) ∧
    ResumesSlice PairTable.pairs (fun elems x => PairTable.insertPair elems (x, ()))
      (fun x y => ∃ n, cloneKey n x = .ok y)
      (fun x => ∃ n, cloneKey n x = .panic) (HashSet.tryExtendFromSlice g cloneKey) ∧
    ResumesSlice DashMap.shards (DashMap.insertIn shard)
      (fun kv kv' => ∃ n, cloneKey n kv.1 = .ok kv'.1 ∧ cloneValue (n + 1) kv.2 = .ok kv'.2)
      (fun kv => ∃ n, cloneKey n kv.1 = .panic ∨ cloneValue n kv.2 = .panic)
      (DashMap.tryExtendFromSlice g shard cloneKey cloneValue) ∧
    ResumesSlice DashMap.shards (fun elems x => DashMap.insertIn shard elems (x, ()))
      (fun x y => ∃ n, cloneKey n x = .ok y)
      (fun x => ∃ n, cloneKey n x = .panic) (DashSet.tryExtendFromSlice g shard cloneKey) := by
  refine ⟨?vec, ?vecDeque, ?linkedList, ?binaryHeap, ?hashMap, ?hashSet, ?dashMap, ?dashSet⟩
  case vec | vecDeque =>
    exact (Buffer.growing_lawful l).resumesSlice (tryClone clone) (clonesOne_tryClone clone) _ _
  case binaryHeap =>
    exact (BinaryHeap.growing_lawful l).resumesSlice (tryClone clone) (clonesOne_tryClone clone) _ _
  case hashMap =>
    exact (PairTable.growing_lawful g).resumesSlice (tryClonePair cloneKey cloneValue)
      (clonesOne_tryClonePair cloneKey cloneValue) _ _
  case hashSet =>
    exact (HashSet.growing_lawful g).resumesSlice (tryClone cloneKey) (clonesOne_tryClone cloneKey)
      _ _
  case linkedList =>
    refine .of_offers (extendFromSliceInserting_offers (clonesOne_tryClone clone) fun y rest => ?_)
    exact LinkedList.tryPushBack_inserts (.inr ⟨.alloc, rfl⟩)
  case dashMap =>
    refine .of_offers (extendFromSliceInserting_offers
      (clonesOne_tryClonePair cloneKey cloneValue) fun kv rest => ?_)
    exact DashMap.tryInsertGiveBack_inserts fun e => .inr ⟨.reserve e, rfl⟩
  case dashSet =>
    refine .of_offers
      (extendFromSliceInserting_offers (clonesOne_tryClone cloneKey) fun x rest => ?_)
    exact DashMap.tryInsertGiveBack_inserts fun e => .inr ⟨.reserve e, rfl⟩

end

theorem tryExtend_resumes_nat :
    Resumes (fun a : BinaryHeap Nat => (a.elems : Multiset Nat)) (fun elems x => x ::ₘ elems)
      (BinaryHeap.tryExtend ⟨8, 8⟩) :=
  (tryExtend_resumes Nat Nat Nat ⟨8, 8⟩ 24 (Layout.growth ⟨8, 8⟩) fun _ => (0 : Fin 1)).2.2.2.1

/-- Code that clones three times and panics from then on. -/
def cloneThrice (n x : Nat) : Answer Nat Empty := if n < 3 then .ok x else .panic

theorem tryExtendFromSlice_resumes_nat :
    ResumesSlice (fun a : BinaryHeap Nat => (a.elems : Multiset Nat)) (fun elems x => x ::ₘ elems)
      (fun x y => ∃ n, cloneThrice n x = .ok y) (fun x => ∃ n, cloneThrice n x = .panic)
      (BinaryHeap.tryExtendFromSlice ⟨8, 8⟩ cloneThrice) :=
  (tryExtendFromSlice_resumes Nat Nat Nat ⟨8, 8⟩ 24 (Layout.growth ⟨8, 8⟩) (fun _ => (0 : Fin 1))
    cloneThrice (fun _ k => .ok k) fun _ v => .ok v).2.2.2.1

end Rustyfill.Collections
