import Rustyfill.BTree.Commit

/-!
# Probe and reserve

The probe reads the path, and what it records is what the commit needs. Until the commit only
nodes that nobody else knows of are written, and on a refusal all of them are freed.
-/

namespace Rustyfill.BTree

open RawSlots Guarded

set_option autoImplicit false

variable {K V R : Type} {w₀ w : World K V} {h p fuel : Nat} {link : Option (Nat × Nat)}
  {es : List (K × V)} {edges : Option (List Nat)} {fs : List (Frame K V)}

/-! ## Probe -/

theorem ascend_parent {q i : Nat} {Q : AscendResult → World K V → Prop}
    {E : Exit K V → World K V → Prop} (hshown : Shown w.heap p ⟨some (q, i), es, edges⟩) :
    (ascend ⟨h, p⟩).Meets w Q E ↔ Q (.parent ⟨⟨h + 1, q⟩, i⟩) w := by
  obtain ⟨n, hn, hshows⟩ := hshown
  have hparent : n.parent = some q := hshows.parent
  have hidx : n.parentIdx = some i := hshows.parentIdx _ rfl
  rw [ascend, Body.meets_bind, deref_meets hn, hparent, hidx]
  rfl

theorem ascend_root {Q : AscendResult → World K V → Prop} {E : Exit K V → World K V → Prop}
    (hshown : Shown w.heap p ⟨none, es, edges⟩) :
    (ascend ⟨h, p⟩).Meets w Q E ↔ Q (.root ⟨h, p⟩) w := by
  obtain ⟨n, hn, hshows⟩ := hshown
  have hparent : n.parent = none := hshows.parent
  rw [ascend, Body.meets_bind, deref_meets hn, hparent]
  rfl

theorem countInternals_meets {count : Nat} {Q : Nat → World K V → Prop}
    {E : Exit K V → World K V → Prop} (hshown : Shown w.heap p ⟨link, es, edges⟩)
    (hfs : Path.Holds w.heap h link p fs) (hfuel : fs.length < fuel) :
    (countInternals fuel ⟨h, p⟩ count).Meets w Q E ↔ Q (count + (planOf fs).length) w := by
  induction fs generalizing h link p es edges fuel count with
  | nil =>
    obtain ⟨fuel, rfl⟩ := Nat.exists_eq_succ_of_ne_zero (Nat.ne_of_gt hfuel)
    have hlink : link = none := hfs
    subst hlink
    rw [countInternals, Body.meets_bind, ascend_root hshown]
    rfl
  | cons f fs ih =>
    obtain ⟨fuel, rfl⟩ := Nat.exists_eq_succ_of_ne_zero (Nat.ne_of_gt (Nat.zero_lt_of_lt hfuel))
    obtain ⟨rfl, link', hframe, -, -, hrest⟩ := hfs
    obtain ⟨n, hn, hshows⟩ := hframe
    rw [countInternals, Body.meets_bind, ascend_parent hshown, Body.meets_bind, deref_meets hn,
      hshows.len]
    by_cases hroom : f.entries.length < capacity
    · rw [if_pos hroom, planOf, if_pos hroom]
      rfl
    · rw [if_neg hroom, planOf, if_neg hroom, ih ⟨n, hn, hshows⟩ hrest
      (Nat.lt_of_succ_lt_succ hfuel),
        List.length_cons, Nat.add_right_comm, Nat.add_assoc]

theorem push_meets {α : Type} {buf : Buf α} {x : α} {Q : Buf α → World K V → Prop}
    {E : Exit K V → World K V → Prop} (hroom : buf.items.length < buf.capacity) :
    (buf.push x).Meets w Q E ↔ Q { buf with items := buf.items ++ [x] } w := by
  rw [Buf.push, if_pos hroom]
  rfl

theorem recordInternals_meets {buf : Buf CommitInternal}
    {Q : Buf CommitInternal × Bool → World K V → Prop} {E : Exit K V → World K V → Prop}
    (hshown : Shown w.heap p ⟨link, es, edges⟩) (hfs : Path.Holds w.heap h link p fs)
    (hfuel : fs.length < fuel) (hroom : buf.items.length + (planOf fs).length ≤ buf.capacity) :
    (recordInternals fuel ⟨h, p⟩ buf).Meets w Q E ↔
      Q ({ buf with items := buf.items ++ planOf fs }, grows fs) w := by
  induction fs generalizing h link p es edges fuel buf with
  | nil =>
    obtain ⟨fuel, rfl⟩ := Nat.exists_eq_succ_of_ne_zero (Nat.ne_of_gt hfuel)
    have hlink : link = none := hfs
    subst hlink
    rw [recordInternals, Body.meets_bind, ascend_root hshown, planOf, List.append_nil]
    rfl
  | cons f fs ih =>
    obtain ⟨fuel, rfl⟩ := Nat.exists_eq_succ_of_ne_zero (Nat.ne_of_gt (Nat.zero_lt_of_lt hfuel))
    obtain ⟨rfl, link', hframe, -, -, hrest⟩ := hfs
    obtain ⟨n, hn, hshows⟩ := hframe
    rw [recordInternals, Body.meets_bind, ascend_parent hshown, Body.meets_bind, deref_meets hn,
      hshows.len]
    by_cases hlt : f.entries.length < capacity
    · have hsplits : decide (capacity ≤ f.entries.length) = false :=
        decide_eq_false (Nat.not_le_of_lt hlt)
      rw [planOf, if_pos hlt, List.length_singleton] at hroom
      simp only [hsplits, Bool.false_eq_true, if_false]
      rw [Body.meets_bind, push_meets (Nat.lt_of_succ_le hroom), planOf, if_pos hlt, grows,
        if_pos hlt]
      rfl
    · have hsplits : decide (capacity ≤ f.entries.length) = true :=
        decide_eq_true (Nat.le_of_not_lt hlt)
      rw [planOf, if_neg hlt, List.length_cons] at hroom
      simp only [hsplits, if_true]
      rw [Body.meets_bind, push_meets (by omega),
        ih ⟨n, hn, hshows⟩ hrest (Nat.lt_of_succ_lt_succ hfuel)
          (by simp only [List.length_append, List.length_singleton]; omega),
        planOf, if_neg hlt, grows, if_neg hlt, List.append_assoc, List.singleton_append]

theorem planOf_splits (fs : List (Frame K V)) :
    ((planOf fs).filter (·.willSplit)).length + (if grows fs then 1 else 0) = needed fs := by
  induction fs with
  | nil => rfl
  | cons f fs ih =>
    by_cases hroom : f.entries.length < capacity
    · simp [planOf, grows, needed, hroom]
    · simp only [planOf, grows, needed, if_neg hroom, List.filter_cons_of_pos, List.length_cons]
      omega

/-! ## Reserve -/

/-- Since `w₀`, requests were answered with `gs`, and `leaves` and `internals` were allocated and
are known to nobody. -/
structure Planned (w₀ w : World K V) (gs : List Bool) (leaves internals : List Nat) : Prop where
  heap : ∀ p, p ∉ leaves ++ internals → w.heap p = w₀.heap p
  next : w₀.next ≤ w.next
  beyond : ∀ p, w.next ≤ p → w.heap p = none
  new : ∀ p ∈ leaves ++ internals, w₀.next ≤ p ∧ p < w.next
  nodup : (leaves ++ internals).Nodup
  leaf : ∀ p ∈ leaves, Shown w.heap p ⟨none, [], none⟩
  internal : ∀ p ∈ internals, Fresh w.heap p
  map : w.map = w₀.map
  allocator : w.allocator = ⟨w₀.allocator.grants, w₀.allocator.requests + gs.length⟩
  grants : ∀ i g, gs[i]? = some g → w₀.allocator.grants (w₀.allocator.requests + i) = g
  events : w.events = w₀.events ++ gs.map Event.request

theorem placed_of_ne {n : Node K V} (hne : p ≠ w.next) : (w.placed n).heap p = w.heap p :=
  Function.update_of_ne hne ..

theorem freed_of_ne {q : Nat} (hne : p ≠ q) : (w.freed q).heap p = w.heap p :=
  Function.update_of_ne hne ..

namespace Planned

variable {gs : List Bool} {leaves internals : List Nat}

theorem refl (hbeyond : ∀ p, w.next ≤ p → w.heap p = none) : Planned w w [] [] [] where
  heap _ _ := rfl
  next := Nat.le_refl _
  beyond := hbeyond
  new := by simp
  nodup := .nil
  leaf := by simp
  internal := by simp
  map := rfl
  allocator := rfl
  grants := by simp
  events := by simp

theorem cache {b : Scratch} {c : Option Nat} (hp : Planned w₀ w gs leaves internals) :
    Planned w₀ (w.cache b c) gs leaves internals :=
  { hp with }

theorem asked (hp : Planned w₀ w gs leaves internals) :
    Planned w₀ w.asked (gs ++ [w.allocator.request.1]) leaves internals where
  heap := hp.heap
  next := hp.next
  beyond := hp.beyond
  new := hp.new
  nodup := hp.nodup
  leaf := hp.leaf
  internal := hp.internal
  map := hp.map
  allocator := by
    rw [List.length_append, List.length_singleton, ← Nat.add_assoc]
    simp only [World.asked, hp.allocator, Allocator.request]
  grants i g hi := by
    rcases Nat.lt_trichotomy i gs.length with hlt | rfl | hgt
    · rw [List.getElem?_append_left hlt] at hi
      exact hp.grants i g hi
    · rw [List.getElem?_append_right (Nat.le_refl _), Nat.sub_self] at hi
      cases hi
      rw [Allocator.request_fst, hp.allocator]
    · rw [List.getElem?_eq_none (by rw [List.length_append, List.length_singleton]; omega)] at hi
      cases hi
  events := by
    simp only [World.asked, hp.events, List.map_append, List.map_singleton, List.append_assoc]

theorem placed_apart (hp : Planned w₀ w gs leaves internals) : w.next ∉ leaves ++ internals :=
  fun hmem => Nat.lt_irrefl _ (hp.new _ hmem).2

theorem shown_placed {n : Node K V} {v : View K V} {p : Nat}
    (hp : Planned w₀ w gs leaves internals) (hmem : p ∈ leaves ++ internals)
    (hshown : Shown w.heap p v) : Shown (w.placed n).heap p v := by
  have hne : p ≠ w.next := fun heq => hp.placed_apart (heq ▸ hmem)
  rw [Shown, placed_of_ne hne]
  exact hshown

theorem placed_beyond {n : Node K V} (hp : Planned w₀ w gs leaves internals) {q : Nat}
    (hq : w.next + 1 ≤ q) : (w.placed n).heap q = none := by
  rw [placed_of_ne (Nat.ne_of_gt hq)]
  exact hp.beyond q (Nat.le_of_succ_le hq)

theorem placed_new (hp : Planned w₀ w gs leaves internals) {q : Nat}
    (hq : q = w.next ∨ q ∈ leaves ++ internals) : w₀.next ≤ q ∧ q < w.next + 1 := by
  rcases hq with rfl | hq
  · exact ⟨hp.next, Nat.lt_succ_self _⟩
  · exact ⟨(hp.new q hq).1, Nat.lt_succ_of_lt (hp.new q hq).2⟩

theorem placed_heap {n : Node K V} (hp : Planned w₀ w gs leaves internals) {q : Nat}
    (hne : q ≠ w.next) (hq : q ∉ leaves ++ internals) : (w.placed n).heap q = w₀.heap q := by
  rw [placed_of_ne hne]
  exact hp.heap q hq

theorem placedLeaf (hp : Planned w₀ w gs [] []) :
    Planned w₀ (w.placed Node.newLeaf) gs [w.next] [] where
  heap q hq := hp.placed_heap (by simpa using hq) (by simp)
  next := Nat.le_succ_of_le hp.next
  beyond _ hq := hp.placed_beyond hq
  new q hq := hp.placed_new (.inl (by simpa using hq))
  nodup := List.nodup_singleton _
  leaf q hq := by
    obtain rfl := List.mem_singleton.mp hq
    exact ⟨_, Function.update_self .., Node.shows_newLeaf⟩
  internal := by simp
  map := hp.map
  allocator := hp.allocator
  grants := hp.grants
  events := hp.events

theorem placedInternal (hp : Planned w₀ w gs leaves internals) :
    Planned w₀ (w.placed Node.newInternal) gs leaves (internals ++ [w.next]) where
  heap q hq := by
    rw [← List.append_assoc] at hq
    apply hp.placed_heap
    · exact fun heq => hq (heq ▸ List.mem_append_right _ (List.mem_singleton_self _))
    · exact fun hmem => hq (List.mem_append_left _ hmem)
  next := Nat.le_succ_of_le hp.next
  beyond _ hq := hp.placed_beyond hq
  new q hq := by
    rw [← List.append_assoc, List.mem_append, List.mem_singleton] at hq
    exact hp.placed_new hq.symm
  nodup := by
    rw [← List.append_assoc]
    exact (List.perm_append_singleton _ _).nodup_iff.mpr
      (List.nodup_cons.mpr ⟨hp.placed_apart, hp.nodup⟩)
  leaf q hq := hp.shown_placed (List.mem_append_left _ hq) (hp.leaf q hq)
  internal q hq := by
    rcases List.mem_append.mp hq with hq | hq
    · exact hp.shown_placed (List.mem_append_right _ hq) (hp.internal q hq)
    · obtain rfl := List.mem_singleton.mp hq
      exact ⟨_, Function.update_self .., Node.shows_newInternal⟩
  map := hp.map
  allocator := hp.allocator
  grants := hp.grants
  events := hp.events

variable (hbeyond : ∀ p, w₀.next ≤ p → w₀.heap p = none)

include hbeyond

theorem freed {q : Nat} {leaves' internals' : List Nat} (hp : Planned w₀ w gs leaves internals)
    (hperm : (leaves ++ internals).Perm (q :: (leaves' ++ internals')))
    (hleaves : ∀ r ∈ leaves', r ∈ leaves) (hinternals : ∀ r ∈ internals', r ∈ internals) :
    Planned w₀ (w.freed q) gs leaves' internals' := by
  obtain ⟨hq, hnodup⟩ := List.nodup_cons.mp (hperm.nodup_iff.mp hp.nodup)
  have hnone : (w.freed q).heap q = none := Function.update_self ..
  have hsame : ∀ r ∈ leaves' ++ internals', (w.freed q).heap r = w.heap r := fun r hr =>
    freed_of_ne fun (heq : r = q) => hq (heq ▸ hr)
  refine { hp with
    heap := ?_
    beyond := ?_
    new := ?_
    nodup := hnodup
    leaf := ?_
    internal := ?_ }
  · intro r hr
    by_cases heq : r = q
    · subst heq
      rw [hnone]
      exact (hbeyond r (hp.new r (hperm.mem_iff.mpr List.mem_cons_self)).1).symm
    · rw [freed_of_ne heq]
      apply hp.heap
      intro hmem
      rcases List.mem_cons.mp (hperm.mem_iff.mp hmem) with rfl | hmem
      · exact heq rfl
      · exact hr hmem
  · intro r hr
    by_cases heq : r = q
    · rw [heq, hnone]
    · rw [freed_of_ne heq]
      exact hp.beyond r hr
  · intro r hr
    exact hp.new r (hperm.mem_iff.mpr (List.mem_cons_of_mem _ hr))
  · intro r hr
    rw [Shown, hsame r (List.mem_append_left _ hr)]
    exact hp.leaf r (hleaves r hr)
  · intro r hr
    rw [Fresh, Shown, hsame r (List.mem_append_right _ hr)]
    exact hp.internal r (hinternals r hr)

theorem dropReserved_meets {buf : Buf Nat} {leaves : List Nat}
    (hp : Planned w₀ w gs leaves buf.items) :
    (dropReserved buf).Meets w (fun _ w' => Planned w₀ w' gs leaves []) (fun _ _ => False) := by
  rw [dropReserved, Body.meets_bind]
  have hloop : ∀ items : List Nat, ∀ w : World K V, Planned w₀ w gs leaves items →
      (Body.forEach free items).Meets w (fun _ w' => Planned w₀ w' gs leaves [])
        (fun _ _ => False) := by
    intro items
    induction items with
    | nil => exact fun _ hp => hp
    | cons q items ih =>
      intro w hp
      exact ih _ (hp.freed hbeyond List.perm_middle (fun _ h => h)
        fun _ => List.mem_cons_of_mem _)
  apply (hloop _ _ hp).mono
  · intro _ _ hp
    exact hp.cache
  · intro _ _ h
    exact h

end Planned

/-- How many requests a buffer for `n` elements takes. -/
def asksFor (cached : Option Nat) (n : Nat) : Nat :=
  if cached.filter (n ≤ ·) = none ∧ 0 < n then 1 else 0

section
variable {gs : List Bool} {leaves internals : List Nat}

theorem request_meets {Q : Bool → World K V → Prop} {E : Exit K V → World K V → Prop} :
    (request : Routine K V Bool).Meets w Q E ↔ Q w.allocator.request.1 w.asked := Iff.rfl

theorem tryNew_spec {α : Type} {b : Scratch} {n : Nat} (hp : Planned w₀ w gs leaves internals) :
    (Buf.tryNew b n : Routine K V (Except AllocError (Buf α))).Meets w
      (fun r w' => w'.heap = w.heap ∧ (∀ b', b' ≠ b → w'.cached b' = w.cached b') ∧ match r with
        | .ok buf => n ≤ buf.capacity ∧ buf.items = [] ∧
          Planned w₀ w' (gs ++ List.replicate (asksFor (w.cached b) n) true) leaves internals
        | .error _ => asksFor (w.cached b) n = 1 ∧ Planned w₀ w' (gs ++ [false]) leaves internals)
      (fun _ _ => False) := by
  have hother : ∀ b', b' ≠ b → (w.cache b none).cached b' = w.cached b' := fun b' hne =>
    Function.update_of_ne hne ..
  have htaken : (takeCached b).Meets w (fun c w' => c = w.cached b ∧ w' = w.cache b none)
      (fun (_ : Exit K V) _ => False) := ⟨rfl, rfl⟩
  rw [Buf.tryNew, Body.meets_bind]
  apply htaken.mono
  · rintro c w' ⟨rfl, rfl⟩
    generalize hkept : (w.cached b).filter (n ≤ ·) = kept
    cases kept with
    | some enough =>
      have hle : n ≤ enough := by
        obtain ⟨-, hle⟩ := Option.filter_eq_some_iff.mp hkept
        exact of_decide_eq_true hle
      have hasks : asksFor (w.cached b) n = 0 := if_neg (by simp [hkept])
      refine ⟨rfl, hother, hle, rfl, ?_⟩
      rw [hasks, List.replicate_zero, List.append_nil]
      exact hp.cache
    | none =>
      by_cases hpos : 0 < n
      · have hasks : asksFor (w.cached b) n = 1 := if_pos ⟨hkept, hpos⟩
        have hasked := hp.cache (b := b) (c := none)
        simp only [if_pos hpos]
        rw [Body.meets_bind, request_meets, hasks]
        generalize hg : (w.cache b none).allocator.request.1 = g
        have hw := hasked.asked
        rw [hg] at hw
        cases g with
        | true => exact ⟨rfl, hother, Nat.le_max_right _ _, rfl, hw⟩
        | false => exact ⟨rfl, hother, rfl, hw⟩
      · have hasks : asksFor (w.cached b) n = 0 := if_neg fun h => hpos h.2
        simp only [if_neg hpos]
        refine ⟨rfl, hother, Nat.le_of_not_lt hpos, rfl, ?_⟩
        rw [hasks, List.replicate_zero, List.append_nil]
        exact hp.cache
  · intro _ _ h
    exact h

theorem tryNewLeafBox_spec (hp : Planned w₀ w gs [] []) :
    (tryNewLeafBox : Routine K V (Except AllocError Nat)).Meets w
      (fun r w' => w'.cached = w.cached ∧ match r with
        | .ok leaf => Planned w₀ w' (gs ++ [true]) [leaf] []
        | .error _ => Planned w₀ w' (gs ++ [false]) [] [])
      (fun _ _ => False) := by
  rw [tryNewLeafBox, tryNew, Body.meets_bind, request_meets]
  have hw := hp.asked
  generalize hg : w.allocator.request.1 = g
  rw [hg] at hw
  cases g with
  | true => exact ⟨rfl, hw.placedLeaf⟩
  | false => exact ⟨rfl, hw⟩

/-- The loop takes as many internal nodes as it is asked for, or those that it got are still in
the buffer. -/
theorem reserveInternals_spec {n : Nat} {buf : Buf Nat}
    (hroom : buf.items.length + n ≤ buf.capacity) (hp : Planned w₀ w gs leaves buf.items) :
    (reserveInternals n buf).Meets w
      (fun r w' => match r.1 with
        | .ok () => r.2.items.length = buf.items.length + n ∧
          Planned w₀ w' (gs ++ List.replicate n true) leaves r.2.items
        | .error _ => ∃ k < n,
          Planned w₀ w' (gs ++ List.replicate k true ++ [false]) leaves r.2.items)
      (fun _ _ => False) := by
  induction n generalizing w gs buf with
  | zero =>
    refine ⟨rfl, ?_⟩
    rw [List.replicate_zero, List.append_nil]
    exact hp
  | succ n ih =>
    rw [reserveInternals, Body.meets_bind, tryNewInternalBox, tryNew, Body.meets_bind,
      request_meets]
    have hw := hp.asked
    generalize hg : w.allocator.request.1 = g
    rw [hg] at hw
    cases g with
    | true =>
      have hpush : ({ buf with items := buf.items ++ [w.asked.next] } : Buf Nat).items.length + n ≤
          buf.capacity := by
        rw [List.length_append, List.length_singleton]
        omega
      have hrest := ih hpush hw.placedInternal
      have hstep : (do
          let buf ← buf.push w.asked.next
          reserveInternals n buf).Meets (w.asked.placed Node.newInternal)
          (fun r w' => match r.1 with
            | .ok () => r.2.items.length = buf.items.length + (n + 1) ∧
              Planned w₀ w' (gs ++ List.replicate (n + 1) true) leaves r.2.items
            | .error _ => ∃ k < n + 1,
              Planned w₀ w' (gs ++ List.replicate k true ++ [false]) leaves r.2.items)
          (fun _ _ => False) := by
        rw [Body.meets_bind, push_meets (by omega)]
        apply hrest.mono
        · rintro ⟨_ | _, buf'⟩ w' hloop
          · obtain ⟨k, hk, hloop⟩ := hloop
            refine ⟨k + 1, Nat.succ_lt_succ hk, ?_⟩
            rwa [List.append_assoc gs, List.singleton_append] at hloop
          · obtain ⟨hlen, hloop⟩ := hloop
            refine ⟨?_, ?_⟩
            · rw [List.length_append, List.length_singleton] at hlen
              omega
            · rwa [List.append_assoc, List.singleton_append] at hloop
        · intro _ _ h
          exact h
      exact hstep
    | false =>
      refine ⟨0, Nat.succ_pos n, ?_⟩
      rw [List.replicate_zero, List.append_nil]
      exact hw

theorem build_spec {i : Nat} (hp : Planned w₀ w gs leaves internals)
    (hshown : Shown w.heap p ⟨link, es, edges⟩) (hfs : Path.Holds w.heap 0 link p fs)
    (hroot : ∃ q, w.map.root = some ⟨fs.length, q⟩) :
    (CommitPlan.build ⟨⟨0, p⟩, i⟩).Meets w
      (fun r w' => w'.cached .reserved = w.cached .reserved ∧ match r with
        | .ok plan => (∃ c, plan = ⟨p, (splitpoint i).1, (splitpoint i).2.isRight,
            (splitpoint i).2.idx, ⟨c, planOf fs⟩, grows fs⟩) ∧
          Planned w₀ w' (gs ++ List.replicate (asksFor (w.cached .probe) (planOf fs).length) true)
            leaves internals
        | .error _ => asksFor (w.cached .probe) (planOf fs).length = 1 ∧
          Planned w₀ w' (gs ++ [false]) leaves internals)
      (fun _ _ => False) := by
  obtain ⟨q, hroot⟩ := hroot
  have hlevels : levels.Meets w (fun fuel w' => fuel = fs.length + 1 ∧ w' = w)
      (fun (_ : Exit K V) _ => False) := by
    rw [levels, Body.meets_bind, world_meets, hroot]
    exact ⟨rfl, rfl⟩
  rw [CommitPlan.build, Body.meets_bind]
  apply hlevels.mono
  · rintro fuel w' ⟨rfl, rfl⟩
    rw [Body.meets_bind, countInternals_meets hshown hfs (Nat.lt_succ_self _), Nat.zero_add,
      Body.meets_bind]
    apply (tryNew_spec hp).mono
    · rintro (e | buf) w₁ ⟨hheap, hcached, hbuf⟩
      · exact ⟨hcached _ (by simp), hbuf⟩
      · obtain ⟨hroom, hempty, hplanned⟩ := hbuf
        rw [← hheap] at hshown hfs
        have hfits : buf.items.length + (planOf fs).length ≤ buf.capacity := by
          rwa [hempty, List.length_nil, Nat.zero_add]
        rw [Body.meets_bind, recordInternals_meets hshown hfs (Nat.lt_succ_self _) hfits, hempty]
        exact ⟨hcached _ (by simp), ⟨buf.capacity, rfl⟩, hplanned⟩
    · intro _ _ h
      exact h
  · intro _ _ h
    exact h

end

end Rustyfill.BTree
