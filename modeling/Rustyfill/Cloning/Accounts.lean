import Rustyfill.Cloning.Slices

/-!
# Which clones account for their elements

The loops of the four functions are one loop over a store that the clones are written to. What
differs is what the store does with them when the loop stops.
-/

namespace Rustyfill.Cloning

open Guarded Collections

set_option autoImplicit false

section
variable {ι S T E ε : Type} {clone : Nat → T → Answer T ε} {mapClone : ε → E} {n : Nat}
  {elems before before' after after' xs xs' : List T} {x x' : T} {e e' : Exit E}

theorem made_append : Made clone n (before ++ after) xs ↔
    ∃ ys zs, xs = ys ++ zs ∧ Made clone n before ys ∧ Made clone (n + before.length) after zs := by
  induction before generalizing n xs with
  | nil => simp [Made]
  | cons b before ih =>
    simp only [List.cons_append, Made, ih, List.length_cons, Nat.add_assoc, Nat.add_comm 1]
    constructor
    · rintro ⟨y, _, rfl, hy, ys, zs, rfl, hys, hzs⟩
      exact ⟨y :: ys, zs, rfl, ⟨y, ys, rfl, hy, hys⟩, hzs⟩
    · rintro ⟨_, zs, rfl, ⟨y, ys, rfl, hy, hys⟩, hzs⟩
      exact ⟨y, ys ++ zs, rfl, hy, ys, zs, rfl, hys, hzs⟩

theorem made_unique (h : Made clone n elems xs) (h' : Made clone n elems xs') : xs = xs' := by
  induction elems generalizing n xs xs' with
  | nil => exact h.trans h'.symm
  | cons x elems ih =>
    obtain ⟨y, ys, rfl, hy, hys⟩ := h
    obtain ⟨y', ys', rfl, hy', hys'⟩ := h'
    rw [hy] at hy'
    cases hy'
    rw [ih hys hys']

/-- An element whose clone fails is not among those that were cloned. -/
theorem not_failure_of_made (h : Made clone n (before ++ x :: after) xs) :
    failure mapClone (clone (n + before.length) x) ≠ some e := by
  obtain ⟨_, _, -, -, y, _, -, hy, -⟩ := made_append.mp h
  rw [hy]
  exact nofun

theorem stop_unique (hsplit : before ++ x :: after = before' ++ x' :: after')
    (h : Made clone n before xs) (hx : failure mapClone (clone (n + before.length) x) = some e)
    (h' : Made clone n before' xs')
    (hx' : failure mapClone (clone (n + before'.length) x') = some e') :
    before = before' ∧ xs = xs' ∧ e = e' := by
  rcases List.append_eq_append_iff.mp hsplit with ⟨mid, hmid, hcons⟩ | ⟨mid, hmid, hcons⟩
  · cases mid with
    | nil =>
      rw [List.append_nil] at hmid
      subst hmid
      cases hcons
      rw [hx] at hx'
      cases hx'
      exact ⟨rfl, made_unique h h', rfl⟩
    | cons y mid =>
      cases hcons
      subst hmid
      exact (not_failure_of_made h' hx).elim
  · cases mid with
    | nil =>
      rw [List.append_nil] at hmid
      subst hmid
      cases hcons
      rw [hx] at hx'
      cases hx'
      exact ⟨rfl, made_unique h h', rfl⟩
    | cons y mid =>
      cases hcons
      subst hmid
      exact (not_failure_of_made h hx').elim

/-! ## The loop -/

theorem tryClone_meets {w : World S} : (tryClone clone x mapClone : Method S E T).Meets w
    (fun y w' => w' = { w with calls := w.calls + 1 } ∧ clone w.calls x = .ok y)
    (fun e w' => w' = { w with calls := w.calls + 1 } ∧
      failure mapClone (clone w.calls x) = some e) := by
  simp only [Body.Meets, tryClone, call]
  cases clone w.calls x with
  | ok y => exact ⟨rfl, rfl⟩
  | error e => exact ⟨rfl, rfl⟩
  | panic => exact ⟨rfl, rfl⟩

/-- A loop that ended at an element whose clone failed, with the clones made before in `K`. -/
def Stopped (clone : Nat → T → Answer T ε) (mapClone : ε → E) (n : Nat) (elems : List T)
    (K : List T → World S → Prop) (e : Exit E) (w : World S) : Prop :=
  ∃ before x after xs, elems = before ++ x :: after ∧ Made clone n before xs ∧
    failure mapClone (clone (n + before.length) x) = some e ∧
    w.calls = n + before.length + 1 ∧ K xs w

theorem cloneEach_meets {item : ι → T} {write : ι → T → Method S E Unit} {is : List ι}
    {K : List T → S → Prop} {w₀ : World S} (hK : K [] w₀.store)
    (hwrite : ∀ done i rest xs x w, is = done ++ i :: rest → xs.length = done.length →
      K xs w.store →
      (write i x).Meets w (fun _ w' => w'.calls = w.calls ∧ K (xs ++ [x]) w'.store)
        (fun _ _ => False)) :
    (Body.forEach (fun i => do
        let x ← tryClone clone (item i) mapClone
        write i x) is).Meets w₀
      (fun _ w => w.calls = w₀.calls + is.length ∧
        ∃ xs, Made clone w₀.calls (is.map item) xs ∧ K xs w.store)
      (Stopped clone mapClone w₀.calls (is.map item) fun xs w => K xs w.store) := by
  apply Body.forEach_meets (I := fun done (w : World S) => w.calls = w₀.calls + done.length ∧
    ∃ xs, Made clone w₀.calls (done.map item) xs ∧ K xs w.store)
  · rintro done i rest w rfl ⟨hcalls, xs, hxs, hKxs⟩
    have hlen : xs.length = done.length := by rw [hxs.length_eq, List.length_map]
    rw [Body.meets_bind]
    apply tryClone_meets.mono
    · rintro x w' ⟨rfl, hx⟩
      apply (hwrite done i rest xs x { w with calls := w.calls + 1 } rfl hlen hKxs).mono
      · rintro _ w'' ⟨hcalls', hKxs'⟩
        refine ⟨?_, xs ++ [x], ?_, hKxs'⟩
        · rw [hcalls', hcalls, List.length_append, List.length_singleton, Nat.add_assoc]
        · rw [List.map_append]
          apply hxs.snoc
          rwa [List.length_map, ← hcalls]
      · intro e w'' h
        exact h.elim
    · rintro e w' ⟨rfl, hfail⟩
      refine ⟨done.map item, item i, rest.map item, xs, ?_, hxs, ?_, ?_, hKxs⟩
      · rw [List.map_append, List.map_cons]
      · rwa [List.length_map, ← hcalls]
      · rw [List.length_map, hcalls]
  · exact ⟨rfl, [], rfl, hK⟩

/-! ## What a body owes -/

/-- The account, from what holds where the body returns and where it stops. -/
theorem accounts_of_meets {p : Method (Ledger T) E (Cells T)} {w : World (Ledger T)}
    (h : p.Meets w
      (fun slots w' => w'.calls = w.calls + elems.length ∧ w'.store.dropped = w.store.dropped ∧
        ∃ xs, Made clone w.calls elems xs ∧ slots = xs.map some)
      (Stopped clone mapClone w.calls elems fun xs w' =>
        w'.store = ⟨w.store.dropped ++ xs.map some, w.store.blocks⟩)) :
    Accounts clone mapClone True elems p w := by
  rw [Body.Meets] at h
  rcases hp : p w with ⟨e | slots, w'⟩
  · rw [hp] at h
    obtain ⟨before, x, after, xs, rfl, hxs, hx, hcalls, hstore⟩ := h
    constructor
    · rw [hp]
      constructor
      · rintro ⟨slots, h⟩
        cases h
      · rintro ⟨-, ys, hys⟩
        exact (not_failure_of_made hys hx).elim
    · intro slots h
      rw [hp] at h
      cases h
    · intro before' x' after' xs' e' _ hsplit hxs' hx'
      obtain ⟨rfl, rfl, rfl⟩ := stop_unique hsplit hxs hx hxs' hx'
      rw [hp]
      exact ⟨rfl, hcalls, hstore⟩
    · exact fun h => (h trivial).elim
  · rw [hp] at h
    obtain ⟨hcalls, hdropped, xs, hxs, rfl⟩ := h
    constructor
    · rw [hp]
      exact ⟨fun _ => ⟨trivial, xs, hxs⟩, fun _ => ⟨_, rfl⟩⟩
    · intro slots h
      rw [hp] at h
      cases h
      rw [hp]
      exact ⟨hcalls, hdropped, xs, hxs, rfl⟩
    · rintro before x after ys e _ rfl _ hx
      exact (not_failure_of_made hxs hx).elim
    · exact fun h => (h trivial).elim

theorem accounts_of_refused {granted : Prop} {p : Method (Ledger T) E (Cells T)}
    {w : World (Ledger T)} (hgranted : ¬ granted)
    (h : p.Meets w (fun _ _ => False) fun _ w' => w'.calls = w.calls ∧ w'.store = w.store) :
    Accounts clone mapClone granted elems p w := by
  rw [Body.Meets] at h
  rcases hp : p w with ⟨e | slots, w'⟩
  · rw [hp] at h
    constructor
    · rw [hp]
      constructor
      · rintro ⟨slots, h⟩
        cases h
      · exact fun h => (hgranted h.1).elim
    · intro slots h
      rw [hp] at h
      cases h
    · exact fun _ _ _ _ _ h => (hgranted h).elim
    · rw [hp]
      exact fun _ => h
  · rw [hp] at h
    exact h.elim

theorem Accounts.congr {granted granted' : Prop} {p : Method (Ledger T) E (Cells T)}
    {w : World (Ledger T)} (hiff : granted ↔ granted')
    (h : Accounts clone mapClone granted elems p w) :
    Accounts clone mapClone granted' elems p w := by
  rwa [← propext hiff]

/-! ## Slots -/

/-- The first slots hold the clones made so far, and they are counted. -/
def Initialised (len : Nat) (xs : List T) (s : Slots T) : Prop :=
  s.count = xs.length ∧ s.slots = xs.map some ++ List.replicate (len - xs.length) none

theorem initSlot_meets {len : Nat} {w : World (Slots T)} {y : T} (hlen : xs.length < len)
    (hbound : len ≤ usizeMax) (h : Initialised len xs w.store) :
    (initSlot xs.length y : Method (Slots T) E Unit).Meets w
      (fun _ w' => w'.calls = w.calls ∧ Initialised len (xs ++ [y]) w'.store)
      (fun _ _ => False) := by
  obtain ⟨hcount, hslots⟩ := h
  have hlt : xs.length < w.store.slots.length := by
    rw [hslots, List.length_append, List.length_map, List.length_replicate]
    omega
  have hadd : checkedAdd usizeMax w.store.count 1 = some (xs.length + 1) := by
    rw [checkedAdd, hcount, if_pos (by omega)]
  have hrest : List.replicate (len - xs.length) (none : Option T) =
      none :: List.replicate (len - (xs.length + 1)) none := by
    rw [← List.replicate_succ]
    congr 1
    omega
  have hset : (xs.map some ++ none :: List.replicate (len - (xs.length + 1)) none).set
      xs.length (some y) = (xs ++ [y]).map some ++
        List.replicate (len - (xs ++ [y]).length) none := by
    rw [List.set_append_right _ _ (by rw [List.length_map]), List.length_map, Nat.sub_self,
      List.set_cons_zero, List.map_append, List.append_assoc, List.length_append]
    rfl
  rw [initSlot, Body.meets_bind]
  simp only [Body.Meets, write, if_pos hlt, addCount, hadd]
  refine ⟨trivial, ?_, ?_⟩
  · rw [List.length_append, List.length_singleton]
  · rw [hslots, hrest, hset]

theorem initSlots_meets {clone : Nat → T → Answer T E} {slice : Slice T} {w : World (Slots T)}
    (h : Initialised slice.elems.length [] w.store) :
    (initSlots clone slice.elems).Meets w
      (fun _ w' => w'.calls = w.calls + slice.elems.length ∧
        ∃ xs, Made clone w.calls slice.elems xs ∧
          Initialised slice.elems.length xs w'.store)
      (Stopped clone id w.calls slice.elems
        fun xs w' => Initialised slice.elems.length xs w'.store) := by
  have hloop := @cloneEach_meets _ _ _ _ _ clone id Prod.fst (fun p => initSlot p.2)
    slice.elems.zipIdx _ _ h ?_
  · rw [List.length_zipIdx, List.zipIdx_map_fst] at hloop
    exact hloop
  · intro done p rest xs x w hsplit hlen hxs
    have hp : slice.elems.zipIdx[done.length]? = some p := by
      rw [hsplit, List.getElem?_append_right (Nat.le_refl _), Nat.sub_self]
      rfl
    have hidx : p.2 = xs.length := by
      rw [List.getElem?_zipIdx, Option.map_eq_some_iff] at hp
      obtain ⟨a, -, rfl⟩ := hp
      rw [hlen, Nat.zero_add]
    have hlt : xs.length < slice.elems.length := by
      have hlength := congrArg List.length hsplit
      rw [List.length_zipIdx, List.length_append, List.length_cons] at hlength
      omega
    rw [hidx]
    exact initSlot_meets hlt slice.bounded hxs

theorem failure_ne_abort {a : Answer T ε} (h : failure mapClone a = some e) :
    e.aborts = false := by
  cases a with
  | ok x => cases h
  | error err =>
    cases h
    rfl
  | panic =>
    cases h
    rfl

theorem initialised_nil (len : Nat) : Initialised len ([] : List T) ⟨List.replicate len none, 0⟩ :=
  ⟨rfl, rfl⟩

theorem Initialised.all {s : Slots T} (h : Initialised xs.length xs s) : s.slots = xs.map some := by
  rw [h.2, Nat.sub_self, List.replicate_zero, List.append_nil]

theorem Initialised.counted {len : Nat} {s : Slots T} (h : Initialised len xs s) :
    s.slots.take s.count = xs.map some := by
  rw [h.1, h.2, List.take_left' (List.length_map _)]

theorem withSlots_meets {clone : Nat → T → Answer T E} {slice : Slice T}
    {w : World (Ledger T)} :
    (withSlots slice.elems.length (initSlots clone slice.elems)).Meets w
      (fun slots w' => w'.calls = w.calls + slice.elems.length ∧ w'.store = w.store ∧
        ∃ xs, Made clone w.calls slice.elems xs ∧ slots = xs.map some)
      (fun e w' => e.aborts = false ∧ Stopped clone id w.calls slice.elems
        (fun xs w' => w'.store = ⟨w.store.dropped ++ xs.map some, w.store.blocks⟩) e w') := by
  have hloop := @initSlots_meets _ _ clone slice
    ⟨⟨List.replicate slice.elems.length none, 0⟩, w.memory, w.calls⟩ (initialised_nil _)
  revert hloop
  simp only [Body.Meets, withSlots]
  rcases initSlots clone slice.elems
    ⟨⟨List.replicate slice.elems.length none, 0⟩, w.memory, w.calls⟩ with ⟨e | r, w'⟩
  · rintro ⟨before, x, after, xs, hsplit, hxs, hx, hcalls, hinit⟩
    have habort := failure_ne_abort hx
    refine ⟨habort, before, x, after, xs, hsplit, hxs, hx, hcalls, ?_⟩
    simp only [habort, Bool.false_eq_true, if_false, hinit.counted]
  · rintro ⟨hcalls, xs, hxs, hinit⟩
    rw [← hxs.length_eq] at hinit
    exact ⟨hcalls, rfl, xs, hxs, hinit.all⟩

theorem arrayTryClone_accounts {clone : Nat → T → Answer T TryCloneError} (array : Slice T)
    (w : World (Ledger T)) :
    Accounts clone id True array.elems (arrayTryClone clone array) w := by
  apply accounts_of_meets
  apply withSlots_meets.mono
  · rintro slots w' ⟨hcalls, hstore, hslots⟩
    exact ⟨hcalls, by rw [hstore], hslots⟩
  · intro e w' h
    exact h.2

/-! ## Boxes -/

section Box
variable {clone : Nat → T → Answer T TryCloneError} {l : Layout} {boxed : Slice T}
  {w : World (Ledger T)}

theorem boxTryClone_trivial (h : boxed.elems.length = 0 ∨ l.size = 0) :
    boxTryClone l clone boxed w = (.ok (List.replicate boxed.elems.length none), w) := by
  rw [boxTryClone, if_pos h]
  rfl

/-- Nothing is cloned, so what comes back was not made by a clone. -/
theorem boxTryClone_sizeless (hsize : l.size = 0) (hlen : boxed.elems ≠ []) (granted : Prop) :
    ¬ Accounts clone id granted boxed.elems (boxTryClone l clone boxed) w := by
  intro h
  obtain ⟨-, -, xs, -, hxs⟩ := h.returned _ (by rw [boxTryClone_trivial (.inr hsize)])
  have hmem : none ∈ xs.map some := by
    rw [← hxs, List.mem_replicate]
    exact ⟨fun h => hlen (List.length_eq_zero_iff.mp h), rfl⟩
  obtain ⟨x, -, hx⟩ := List.mem_map.mp hmem
  cases hx

theorem boxTryClone_empty (h : boxed.elems = []) :
    Accounts clone id (BoxGranted l boxed.elems.length w.memory) boxed.elems
      (boxTryClone l clone boxed) w := by
  have hlen : boxed.elems.length = 0 := List.length_eq_zero_iff.mpr h
  have hgranted : BoxGranted l boxed.elems.length w.memory := .inl hlen
  apply Accounts.congr (iff_of_true trivial hgranted)
  apply accounts_of_meets
  rw [Body.Meets, boxTryClone_trivial (.inl hlen)]
  refine ⟨by rw [hlen]; rfl, rfl, [], by rw [h]; rfl, by rw [hlen]; rfl⟩

theorem boxTryClone_sized (hlen : boxed.elems.length ≠ 0) (hsize : l.size ≠ 0) :
    Accounts clone id (BoxGranted l boxed.elems.length w.memory) boxed.elems
      (boxTryClone l clone boxed) w := by
  have hneed : ¬ (boxed.elems.length = 0 ∨ l.size = 0) := by
    rintro (h | h)
    · exact hlen h
    · exact hsize h
  by_cases hfits : l.fits boxed.elems.length
  · rcases hreq : w.memory.request (boxed.elems.length * l.size) with ⟨granted, m⟩
    cases granted with
    | true =>
      have hgranted : BoxGranted l boxed.elems.length w.memory :=
        .inr (.inr ⟨hfits, by rw [hreq]⟩)
      apply Accounts.congr (iff_of_true trivial hgranted)
      apply accounts_of_meets
      rw [boxTryClone, if_neg hneed, if_neg (not_not.mpr hfits), Body.meets_bind]
      rw [Body.Meets, alloc, hreq]
      change Body.Meets (Body.guarded _ _ _) _ _ _
      rw [Body.meets_guarded]
      apply withSlots_meets.mono
      · rintro slots w' ⟨hcalls, hstore, hslots⟩
        exact ⟨hcalls, by rw [hstore]; rfl, hslots⟩
      · rintro e w' ⟨habort, before, x, after, xs, hsplit, hxs, hx, hcalls, hstore⟩
        rw [habort, if_neg Bool.false_ne_true]
        refine ⟨before, x, after, xs, hsplit, hxs, hx, hcalls, ?_⟩
        rw [changeBlocks, hstore]
        rfl
    | false =>
      apply accounts_of_refused
      · rintro (h | h | ⟨-, h⟩)
        · exact hlen h
        · exact hsize h
        · rw [hreq] at h
          cases h
      · rw [boxTryClone, if_neg hneed, if_neg (not_not.mpr hfits), Body.meets_bind]
        simp only [Body.Meets, alloc, hreq]
        exact ⟨rfl, rfl⟩
  · apply accounts_of_refused
    · rintro (h | h | ⟨h, -⟩)
      · exact hlen h
      · exact hsize h
      · exact hfits h
    · rw [boxTryClone, if_neg hneed, if_pos hfits]
      exact ⟨rfl, rfl⟩

end Box

/-! ## Vectors -/

section Vec
variable {clone : Nat → T → Answer T TryCloneError} {mapReserve : TryReserveError → E}
  {mapClone : TryCloneError → E} {l : Layout} {slice : Slice T}

theorem push_reserved {w : World (Buffer T)} (h : w.store.len < w.store.capacity) :
    (Buffer.push l x : Method (Buffer T) E Unit).Meets w
      (fun _ w' => w'.calls = w.calls ∧ w'.store.elems = w.store.elems ++ [x] ∧
        w'.store.capacity = w.store.capacity)
      (fun _ _ => False) := by
  have hpush : Buffer.push l x w = ((.ok (), { w with store := w.store.append x h }) :
      Except (Exit E) Unit × World (Buffer T)) := dif_pos h
  rw [Body.Meets, hpush]
  exact ⟨rfl, rfl, rfl⟩

theorem pushClones_meets {w : World (Buffer T)} (hempty : w.store.elems = [])
    (hroom : slice.elems.length ≤ w.store.capacity) :
    (pushEach (Buffer.push l) (fun elem => tryClone clone elem mapClone) slice.elems).Meets w
      (fun _ w' => w'.calls = w.calls + slice.elems.length ∧
        ∃ xs, Made clone w.calls slice.elems xs ∧ w'.store.elems = xs)
      (Stopped clone mapClone w.calls slice.elems fun xs w' => w'.store.elems = xs) := by
  have hloop := @cloneEach_meets _ _ _ _ _ clone mapClone id (fun _ => Buffer.push l) slice.elems
    (fun xs b => b.elems = xs ∧ b.capacity = w.store.capacity) w ⟨hempty, rfl⟩ ?_
  · rw [List.map_id] at hloop
    apply hloop.mono
    · rintro _ w' ⟨hcalls, xs, hxs, helems, -⟩
      exact ⟨hcalls, xs, hxs, helems⟩
    · rintro e w' ⟨before, y, after, xs, hsplit, hxs, hy, hcalls, helems, -⟩
      exact ⟨before, y, after, xs, hsplit, hxs, hy, hcalls, helems⟩
  · rintro done i rest xs y w' hsplit hlen ⟨helems, hcapacity⟩
    have hlt : w'.store.len < w'.store.capacity := by
      have hlength := congrArg List.length hsplit
      rw [List.length_append, List.length_cons] at hlength
      rw [Buffer.len, helems, hcapacity]
      omega
    apply (push_reserved hlt).mono
    · rintro _ w'' ⟨hcalls, helems', hcapacity'⟩
      exact ⟨hcalls, by rw [helems', helems], by rw [hcapacity', hcapacity]⟩
    · intro e w'' h
      exact h

theorem withVec_meets {p : Method (Buffer T) E Unit} {w : World (Ledger T)}
    (h : p.Meets ⟨Buffer.new l, w.memory, w.calls⟩
      (fun _ w' => w'.calls = w.calls + slice.elems.length ∧
        ∃ xs, Made clone w.calls slice.elems xs ∧ w'.store.elems = xs)
      (Stopped clone mapClone w.calls slice.elems fun xs w' => w'.store.elems = xs)) :
    Accounts clone mapClone True slice.elems (withVec l p) w := by
  apply accounts_of_meets
  revert h
  simp only [Body.Meets, withVec]
  rcases p ⟨Buffer.new l, w.memory, w.calls⟩ with ⟨e | r, w'⟩
  · rintro ⟨before, x, after, xs, hsplit, hxs, hx, hcalls, helems⟩
    refine ⟨before, x, after, xs, hsplit, hxs, hx, hcalls, ?_⟩
    simp only [failure_ne_abort hx, Bool.false_eq_true, if_false, helems]
  · rintro ⟨hcalls, xs, hxs, helems⟩
    exact ⟨hcalls, rfl, xs, hxs, by rw [helems]⟩

/-- A vector that exits early and still empty leaves nothing behind. -/
theorem withVec_refused {granted : Prop} {p : Method (Buffer T) E Unit} {w : World (Ledger T)}
    (hgranted : ¬ granted)
    (h : p.Meets ⟨Buffer.new l, w.memory, w.calls⟩ (fun _ _ => False)
      fun _ w' => w'.calls = w.calls ∧ w'.store.elems = []) :
    Accounts clone mapClone granted slice.elems (withVec l p) w := by
  apply accounts_of_refused hgranted
  revert h
  simp only [Body.Meets, withVec]
  rcases p ⟨Buffer.new l, w.memory, w.calls⟩ with ⟨e | r, w'⟩
  · rintro ⟨hcalls, helems⟩
    refine ⟨hcalls, ?_⟩
    rw [helems, List.map_nil, ite_self, List.append_nil]
  · exact id

theorem cloneToVec_accounts (w : World (Ledger T)) :
    Accounts clone mapClone (VecGranted T l slice.elems.length w.memory) slice.elems
      (cloneToVec l clone mapReserve mapClone slice) w := by
  rcases hreserve : (Buffer.new l : Buffer T).tryReserve l slice.elems.length w.memory
    with ⟨e | b, m⟩
  · have hne : slice.elems ≠ [] := by
      intro h
      rw [h, List.length_nil, Buffer.tryReserve, if_pos (Nat.zero_le _)] at hreserve
      cases hreserve
    apply withVec_refused
    · rw [VecGranted, hreserve]
      exact Bool.false_ne_true
    · rw [if_pos hne, Body.meets_bind, Body.Meets, Buffer.reserve, hreserve]
      exact ⟨rfl, rfl⟩
  · have hgranted : VecGranted T l slice.elems.length w.memory := by
      rw [VecGranted, hreserve]
      rfl
    obtain ⟨helems, hroom⟩ := Buffer.tryReserve_ok hreserve
    apply Accounts.congr (iff_of_true trivial hgranted)
    apply withVec_meets
    by_cases hne : slice.elems = []
    · rw [if_neg (not_not.mpr hne)]
      exact pushClones_meets rfl (by rw [hne]; exact Nat.zero_le _)
    · rw [if_pos hne, Body.meets_bind, Body.Meets, Buffer.reserve, hreserve]
      exact pushClones_meets helems (Nat.le_trans (Nat.le_add_left _ _) hroom)

end Vec

/-! ## The four functions -/

/-- A boxed slice is cloned element by element unless its elements have no size; an array and a
slice always are. -/
theorem clones_account_iff (l : Layout) (clone : Nat → T → Answer T TryCloneError)
    (slice : Slice T) (w : World (Ledger T)) :
    (Accounts clone id (BoxGranted l slice.elems.length w.memory) slice.elems
        (boxTryClone l clone slice) w ↔ l.size ≠ 0 ∨ slice.elems = []) ∧
      Accounts clone id True slice.elems (arrayTryClone clone slice) w ∧
      Accounts clone .clone (VecGranted T l slice.elems.length w.memory) slice.elems
        (tryToVec l clone slice) w ∧
      Accounts clone .ofClone (VecGranted T l slice.elems.length w.memory) slice.elems
        (tryToOwned l clone slice) w := by
  refine ⟨⟨fun h => ?_, fun h => ?_⟩, arrayTryClone_accounts slice w, cloneToVec_accounts w,
    cloneToVec_accounts w⟩
  · by_contra hnot
    obtain ⟨hsize, hne⟩ := not_or.mp hnot
    exact boxTryClone_sizeless (not_not.mp hsize) hne _ h
  · by_cases hne : slice.elems = []
    · exact boxTryClone_empty hne
    · have hsize := h.resolve_right hne
      exact boxTryClone_sized (fun hlen => hne (List.length_eq_zero_iff.mp hlen)) hsize

/-- One element without a size whose clone fails: the box is cloned all the same. -/
theorem sizeless_box_is_not_cloned : ¬ ∀ (l : Layout)
    (clone : Nat → Unit → Answer Unit TryCloneError)
    (slice : Slice Unit) (w : World (Ledger Unit)),
    Accounts clone id (BoxGranted l slice.elems.length w.memory) slice.elems
      (boxTryClone l clone slice) w := by
  intro h
  exact boxTryClone_sizeless rfl (List.cons_ne_nil () []) _
    (h ⟨0, 1⟩ (fun _ _ => .error (.other "no clone")) ⟨[()], by decide⟩
      ⟨⟨[], 0⟩, ⟨fun _ _ => true, 0⟩, 0⟩)

end

end Rustyfill.Cloning
