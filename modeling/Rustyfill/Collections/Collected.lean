import Rustyfill.Collections.Collect

/-!
# What `try_collect` collects

Under an allocator that refuses the requests above a limit, a call succeeds exactly when the
hint can be reserved and the capacity the items need is reached from there. A collection of
the items may fit where one of the hint does not.
-/

namespace Rustyfill.Collections

open Guarded

set_option autoImplicit false

namespace Growth

variable {g : Growth} {limit capacity n : Nat}

theorem reaches_full (h : capacity < n) : g.Reaches limit n capacity ↔
    g.Grants limit capacity (capacity + 1) ∧
      g.Reaches limit n (g.next capacity (capacity + 1)) := by
  constructor
  · intro hreach
    cases hreach with
    | enough hle => omega
    | grow hgrants hreach => exact ⟨hgrants, hreach⟩
  · rintro ⟨hgrants, hreach⟩
    exact .grow hgrants hreach

theorem le_after : n ≤ g.after capacity 0 n := by
  have hnext := g.le_next capacity (0 + n)
  rw [after]
  split <;> omega

/-- Room for the upper bound can be had. Without an upper bound it is room for the lower one, and
what is needed is reached from there. -/
def Hinted {T : Type} (g : Growth) (limit capacity : Nat) (iter : Iter T) (needed : Nat) : Prop :=
  match iter.upper with
  | some upper => g.Allows limit capacity 0 upper
  | none => g.Collects limit capacity iter.lower needed

/-- An upper bound leaves room for all items, once it is reserved. -/
theorem collects_iff_hinted {T : Type} {iter : Iter T} (hneeded : n ≤ iter.items.length) :
    g.Collects limit capacity iter.capacity n ↔ g.Hinted limit capacity iter n := by
  rw [Hinted, Iter.capacity]
  cases hupper : iter.upper with
  | none => rfl
  | some upper =>
    have hle := iter.le_upper upper hupper
    have hafter : upper ≤ g.after capacity 0 upper := g.le_after
    exact ⟨fun h => h.1, fun h => ⟨h, .enough (Nat.le_trans hneeded (Nat.le_trans hle hafter))⟩⟩

end Growth

namespace Collector

variable {T C V E : Type} (c : Collector T C V E)

/-- The capacity the loop needs: one place more than the items before the last one take. -/
def needed (v : V) (items : List T) : Nat :=
  if items = [] then 0 else c.size (items.dropLast.foldl c.add v) + 1

@[simp] theorem needed_nil (v : V) : c.needed v [] = 0 := rfl

theorem needed_singleton (v : V) (x : T) : c.needed v [x] = c.size v + 1 := rfl

theorem needed_cons_cons (v : V) (x y : T) (items : List T) :
    c.needed v (x :: y :: items) = c.needed (c.add v x) (y :: items) := rfl

theorem size_le_foldl (v : V) (items : List T) : c.size v ≤ c.size (items.foldl c.add v) := by
  induction items generalizing v with
  | nil => exact Nat.le_refl _
  | cons x items ih => exact Nat.le_trans (c.size_add v x) (ih (c.add v x))

/-- One item takes a place where there is one, and otherwise the collection grows first. -/
theorem reaches_cons {v : V} {x : T} {items : List T} {limit capacity : Nat}
    (hle : c.size v ≤ capacity) : c.growth.Reaches limit (c.needed v (x :: items)) capacity ↔
      c.growth.Allows limit capacity (c.size v) 1 ∧
        c.growth.Reaches limit (c.needed (c.add v x) items)
          (c.growth.after capacity (c.size v) 1) := by
  by_cases hroom : 1 ≤ capacity - c.size v
  · rw [Growth.after, if_pos hroom]
    cases items with
    | nil =>
      rw [needed_singleton, needed_nil]
      exact ⟨fun _ => ⟨.inl hroom, .enough (Nat.zero_le _)⟩, fun _ => .enough (by omega)⟩
    | cons y items =>
      rw [needed_cons_cons]
      exact ⟨fun h => ⟨.inl hroom, h⟩, fun h => h.2⟩
  · have hfull : c.size v = capacity := by omega
    have hallows : c.growth.Allows limit capacity (c.size v) 1 ↔
        c.growth.Grants limit capacity (capacity + 1) := by
      rw [Growth.Allows, hfull]
      exact ⟨fun h => h.resolve_left (by omega), .inr⟩
    have hneeded : capacity < c.needed v (x :: items) := by
      cases items with
      | nil =>
        rw [needed_singleton]
        omega
      | cons y items =>
        have hmono := c.size_le_foldl v (x :: y :: items).dropLast
        simp only [needed, reduceCtorEq, if_false]
        omega
    have hnext := c.growth.le_next capacity (capacity + 1)
    rw [Growth.after, if_neg hroom, hallows, hfull, Growth.reaches_full hneeded]
    refine and_congr_right fun _ => ?_
    cases items with
    | nil =>
      rw [needed_singleton, needed_nil]
      exact ⟨fun _ => .enough (Nat.zero_le _), fun _ => .enough (by omega)⟩
    | cons y items => rw [needed_cons_cons]

/-! ### Runs -/

variable {c} {limit requests calls n : Nat} {s : C} {x : T}

theorem reserve_push_allowed (hn : 0 < n)
    (h : c.growth.Allows limit (c.capacity s) (c.size (c.view s)) n) :
    (c.reserve n >>= fun _ => c.push x).Meets ⟨s, .limited limit requests, calls⟩
      (fun _ w => c.view w.store = c.add (c.view s) x ∧
        c.capacity w.store = c.growth.after (c.capacity s) (c.size (c.view s)) n ∧
        ∃ requests, w.memory = .limited limit requests)
      (fun _ _ => False) := by
  rw [Body.meets_bind]
  apply (c.reserve_allowed n limit requests calls s h).mono
  · rintro _ w ⟨hview, hcapacity, hmemory⟩
    have hroom : c.size (c.view w.store) < c.capacity w.store := by
      have hle := c.size_le s
      have hnext := c.growth.le_next (c.capacity s) (c.size (c.view s) + n)
      rw [hview, hcapacity, Growth.after]
      split <;> omega
    apply (c.push_roomy x w hroom).mono
    · rintro _ w' ⟨hview', hcapacity', hmemory'⟩
      rw [hview', hcapacity', hmemory', hview]
      exact ⟨rfl, hcapacity, hmemory⟩
    · intro _ _ h
      exact h
  · intro _ _ h
    exact h

theorem reserve_push_refused (h : ¬ c.growth.Allows limit (c.capacity s) (c.size (c.view s)) n) :
    (c.reserve n >>= fun _ => c.push x).Meets ⟨s, .limited limit requests, calls⟩
      (fun _ _ => False) (fun _ _ => True) := by
  rw [Body.meets_bind]
  apply (c.reserve_refused n limit requests calls s h).mono
  · intro _ _ h
    exact h.elim
  · intro _ _ h
    exact h

/-- Reserving only when the collection is full comes to the same as always reserving. -/
theorem pushItem_meets {Q : Unit → World C → Prop} {F : Exit E → World C → Prop} :
    (c.pushItem x).Meets ⟨s, .limited limit requests, calls⟩ Q F ↔
      if c.size (c.view s) = c.capacity s then
        (c.reserve 1 >>= fun _ => c.push x).Meets ⟨s, .limited limit requests, calls⟩ Q F
      else (c.push x).Meets ⟨s, .limited limit requests, calls⟩ Q F := by
  change Body.Meets (if c.size (c.view s) = c.capacity s then _ else _) _ Q F ↔ _
  split
  · rfl
  · rfl

theorem pushItem_allowed (h : c.growth.Allows limit (c.capacity s) (c.size (c.view s)) 1) :
    (c.pushItem x).Meets ⟨s, .limited limit requests, calls⟩
      (fun _ w => c.view w.store = c.add (c.view s) x ∧
        c.capacity w.store = c.growth.after (c.capacity s) (c.size (c.view s)) 1 ∧
        ∃ requests, w.memory = .limited limit requests)
      (fun _ _ => False) := by
  rw [pushItem_meets]
  split
  · exact reserve_push_allowed Nat.one_pos h
  · rename_i hne
    have hle := c.size_le s
    apply (c.push_roomy x _ (Nat.lt_of_le_of_ne hle hne)).mono
    · rintro _ w ⟨hview, hcapacity, hmemory⟩
      refine ⟨hview, ?_, requests, hmemory⟩
      rw [hcapacity, Growth.after, if_pos (by omega)]
    · intro _ _ h
      exact h

theorem pushItem_refused (h : ¬ c.growth.Allows limit (c.capacity s) (c.size (c.view s)) 1) :
    (c.pushItem x).Meets ⟨s, .limited limit requests, calls⟩ (fun _ _ => False)
      (fun _ _ => True) := by
  have hle := c.size_le s
  have hfull : c.size (c.view s) = c.capacity s := by
    by_contra hne
    exact h (.inl (by omega))
  rw [pushItem_meets, if_pos hfull]
  exact reserve_push_refused h

/-- The loop ends with all items in the collection, or on a reservation that is refused. -/
theorem forEach_pushItem_meets (items : List T) :
    (c.growth.Reaches limit (c.needed (c.view s) items) (c.capacity s) →
      (Body.forEach c.pushItem items).Meets ⟨s, .limited limit requests, calls⟩
        (fun _ w => c.view w.store = items.foldl c.add (c.view s)) (fun _ _ => False)) ∧
    (¬ c.growth.Reaches limit (c.needed (c.view s) items) (c.capacity s) →
      (Body.forEach c.pushItem items).Meets ⟨s, .limited limit requests, calls⟩
        (fun _ _ => False) (fun _ _ => True)) := by
  induction items generalizing s requests calls with
  | nil => exact ⟨fun _ => rfl, fun h => absurd (.enough (Nat.zero_le _)) h⟩
  | cons x items ih =>
    rw [c.reaches_cons (c.size_le s)]
    change (_ → Body.Meets (c.pushItem x >>= fun _ => Body.forEach c.pushItem items) _ _ _) ∧
      (_ → Body.Meets (c.pushItem x >>= fun _ => Body.forEach c.pushItem items) _ _ _)
    rw [Body.meets_bind, Body.meets_bind]
    by_cases hallows : c.growth.Allows limit (c.capacity s) (c.size (c.view s)) 1
    · constructor
      · rintro ⟨-, hreach⟩
        apply (pushItem_allowed hallows).mono
        · rintro _ w ⟨hview, hcapacity, requests', hmemory⟩
          obtain ⟨s', m', calls'⟩ := w
          obtain rfl := hmemory
          rw [← hview, ← hcapacity] at hreach
          rw [List.foldl_cons, ← hview]
          exact ih.1 hreach
        · intro _ _ h
          exact h
      · intro hnot
        apply (pushItem_allowed hallows).mono
        · rintro _ w ⟨hview, hcapacity, requests', hmemory⟩
          obtain ⟨s', m', calls'⟩ := w
          obtain rfl := hmemory
          apply ih.2
          rw [hview, hcapacity]
          exact fun hreach => hnot ⟨hallows, hreach⟩
        · intro _ _ h
          exact h.elim
    · constructor
      · rintro ⟨h, -⟩
        exact absurd h hallows
      · intro _
        apply (pushItem_refused hallows).mono
        · intro _ _ h
          exact h.elim
        · intro _ _ h
          exact h

theorem forEach_pushItem_iff {items : List T} :
    (Body.forEach c.pushItem items).Meets ⟨s, .limited limit requests, calls⟩
        (fun _ w => c.view w.store = items.foldl c.add (c.view s)) (fun _ _ => False) ↔
      c.growth.Reaches limit (c.needed (c.view s) items) (c.capacity s) := by
  refine ⟨fun h => ?_, (forEach_pushItem_meets items).1⟩
  by_contra hnot
  apply Body.not_meets_false
  apply (h.and ((forEach_pushItem_meets items).2 hnot)).mono
  · intro _ _ h
    exact h.2
  · intro _ _ h
    exact h.1

theorem tryCollect_meets {iter : Iter T} {Q : Unit → World C → Prop}
    {F : Exit E → World C → Prop} {w : World C} : (c.tryCollect iter).Meets w Q F ↔
      if 0 < iter.capacity then
        (c.reserve iter.capacity).Meets w
          (fun _ w' => (Body.forEach c.pushItem iter.items).Meets w' Q F) F
      else (Body.forEach c.pushItem iter.items).Meets w Q F := by
  rw [tryCollect]
  split
  · rw [Body.meets_bind]
  · rfl

theorem tryCollect_iff {iter : Iter T} (hempty : c.size (c.view s) = 0) :
    (c.tryCollect iter).Meets ⟨s, .limited limit requests, calls⟩
        (fun _ w => c.view w.store = iter.items.foldl c.add (c.view s)) (fun _ _ => False) ↔
      c.growth.Collects limit (c.capacity s) iter.capacity (c.needed (c.view s) iter.items) := by
  rw [tryCollect_meets, Growth.Collects]
  by_cases hpos : 0 < iter.capacity
  · rw [if_pos hpos]
    by_cases hallows : c.growth.Allows limit (c.capacity s) 0 iter.capacity
    · have hreserve := c.reserve_allowed iter.capacity limit requests calls s
        (by rwa [hempty])
      rw [hempty] at hreserve
      constructor
      · intro h
        refine ⟨hallows, ?_⟩
        by_contra hnot
        apply Body.not_meets_false
        apply (h.and hreserve).mono
        · rintro _ w ⟨hloop, hview, hcapacity, requests', hmemory⟩
          obtain ⟨s', m', calls'⟩ := w
          obtain rfl := hmemory
          rw [← hview] at hloop
          have hreach := forEach_pushItem_iff.mp hloop
          rw [hview, hcapacity] at hreach
          exact hnot hreach
        · intro _ _ h
          exact h.1
      · rintro ⟨-, hreach⟩
        apply hreserve.mono
        · rintro _ w ⟨hview, hcapacity, requests', hmemory⟩
          obtain ⟨s', m', calls'⟩ := w
          obtain rfl := hmemory
          rw [← hview, ← hcapacity] at hreach
          rw [← hview]
          exact forEach_pushItem_iff.mpr hreach
        · intro _ _ h
          exact h
    · constructor
      · intro h
        exfalso
        apply Body.not_meets_false
        apply (h.and (c.reserve_refused iter.capacity limit requests calls s
          (by rwa [hempty]))).mono
        · intro _ _ h
          exact h.2
        · intro _ _ h
          exact h.1
      · rintro ⟨h, -⟩
        exact absurd h hallows
  · have hzero : iter.capacity = 0 := by omega
    rw [if_neg hpos, forEach_pushItem_iff, hzero, Growth.after, if_pos (Nat.zero_le _)]
    exact ⟨fun h => ⟨.inl (Nat.zero_le _), h⟩, fun h => h.2⟩

end Collector

/-! ## Buffers and heaps -/

section
variable {T E : Type} {l : Layout} {limit requests calls : Nat} {iter : Iter T}

theorem Buffer.foldl_add (mapErr : TryReserveError → E) (elems items : List T) :
    items.foldl (Buffer.collector l mapErr).add elems = elems ++ items := by
  induction items generalizing elems with
  | nil => exact (List.append_nil _).symm
  | cons x items ih =>
    rw [List.foldl_cons, ih]
    exact (List.append_cons ..).symm

theorem length_dropLast_succ {items : List T} (h : items ≠ []) :
    items.dropLast.length + 1 = items.length := by
  have hpos := List.length_pos_iff.mpr h
  rw [List.length_dropLast]
  omega

theorem Buffer.needed_eq (mapErr : TryReserveError → E) (items : List T) :
    (Buffer.collector l mapErr).needed [] items = items.length := by
  rw [Collector.needed]
  split
  · rename_i hnil
    rw [hnil]
    rfl
  · rename_i hne
    rw [Buffer.foldl_add, List.nil_append]
    exact length_dropLast_succ hne

theorem Buffer.tryCollect_iff :
    ((Buffer.collector l id).tryCollect iter).Meets ⟨.new l, .limited limit requests, calls⟩
        (fun _ w => w.store.elems = iter.items) (fun _ _ => False) ↔
      l.growth.Hinted limit l.capacityNew iter iter.items.length := by
  rw [← Growth.collects_iff_hinted (Nat.le_refl _),
    ← Buffer.needed_eq (l := l) (id : TryReserveError → TryReserveError) iter.items]
  have hiff := @Collector.tryCollect_iff _ _ _ _ (Buffer.collector l id) limit requests calls
    (.new l) iter rfl
  rw [Buffer.foldl_add] at hiff
  exact hiff

namespace BinaryHeap

variable [LE T] [DecidableLE T] [Std.IsLinearPreorder T]

theorem foldl_add (mapErr : TryReserveError → E) (items : List T) (elems : Multiset T) :
    items.foldl (collector l mapErr).add elems = elems + items := by
  induction items generalizing elems with
  | nil => exact (add_zero _).symm
  | cons x items ih =>
    rw [List.foldl_cons, ih, ← Multiset.cons_coe, Multiset.add_cons, ← Multiset.cons_add]
    rfl

theorem needed_eq (mapErr : TryReserveError → E) (items : List T) :
    (collector l mapErr).needed 0 items = items.length := by
  rw [Collector.needed]
  split
  · rename_i hnil
    rw [hnil]
    rfl
  · rename_i hne
    rw [foldl_add, zero_add]
    exact length_dropLast_succ hne

theorem tryCollect_iff :
    (tryCollect l iter).Meets ⟨.new l, .limited limit requests, calls⟩
        (fun _ w => (w.store.elems : Multiset T) = iter.items) (fun _ _ => False) ↔
      l.growth.Hinted limit l.capacityNew iter iter.items.length := by
  rw [← Growth.collects_iff_hinted (Nat.le_refl _),
    ← needed_eq (l := l) (id : TryReserveError → TryReserveError) iter.items]
  have hiff := @Collector.tryCollect_iff _ _ _ _ (collector l id) limit requests calls
    (.new l) iter rfl
  rw [foldl_add] at hiff
  change (Collector.tryCollect _ iter).Meets _ (fun _ w => _ = (0 : Multiset T) + _) _ ↔ _ at hiff
  rw [zero_add] at hiff
  exact hiff

end BinaryHeap

end

/-! ## Tables -/

namespace PairTable

variable {K V E : Type} [BEq K]

/-- What a table has to have room for: the pairs of all items but the last, and one more. -/
def slotsNeeded (pairs items : List (K × V)) : Nat :=
  if items = [] then 0 else (items.dropLast.foldl insertPair pairs).length + 1

theorem needed_eq (g : Growth) (mapErr : TryReserveError → E) (pairs items : List (K × V)) :
    (collector g mapErr).needed pairs items = slotsNeeded pairs items := rfl

theorem length_foldl_insertPair (pairs items : List (K × V)) :
    (items.foldl insertPair pairs).length ≤ pairs.length + items.length := by
  induction items generalizing pairs with
  | nil => exact Nat.le_refl _
  | cons kv items ih =>
    have hitems := ih (insertPair pairs kv)
    have hpair := (length_insertPair pairs kv).2
    rw [List.foldl_cons, List.length_cons]
    omega

theorem slotsNeeded_le (items : List (K × V)) : slotsNeeded [] items ≤ items.length := by
  rw [slotsNeeded]
  split
  · exact Nat.zero_le _
  · rename_i hne
    rw [← length_dropLast_succ hne]
    have hle := length_foldl_insertPair [] items.dropLast
    rw [List.length_nil, Nat.zero_add] at hle
    exact Nat.succ_le_succ hle

theorem reaches_cons {g : Growth} {limit : Nat} {t : PairTable K V} {kv : K × V}
    {items : List (K × V)} :
    g.Reaches limit (slotsNeeded t.pairs (kv :: items)) t.capacity ↔
      g.Allows limit t.capacity t.len 1 ∧
        g.Reaches limit (slotsNeeded (insertPair t.pairs kv) items)
          (g.after t.capacity t.len 1) :=
  (collector g (id : TryReserveError → TryReserveError)).reaches_cons t.room

end PairTable

theorem HashMap.tryCollect_iff {K V ε : Type} [BEq K] {g : Growth} {limit requests calls : Nat}
    {hashOne : K → UInt64} {iter : Iter (K × V)} :
    (HashMap.tryCollect g (.ok hashOne : Except ε _) iter).Meets
        ⟨.new, .limited limit requests, calls⟩
        (fun _ w => w.store.pairs = iter.items.foldl PairTable.insertPair []) (fun _ _ => False) ↔
      g.Hinted limit 0 iter (PairTable.slotsNeeded [] iter.items) := by
  rw [← Growth.collects_iff_hinted (PairTable.slotsNeeded_le iter.items)]
  exact Collector.tryCollect_iff (c := PairTable.collector g HashMap.ConstructionError.reserve) rfl

/-! ## Shards -/

namespace DashMap

section
variable {K V C E R : Type} {N : Nat} {i : Fin N}

theorem onShard_meets {p : Method C E R} {w : World (Fin N → C)}
    {Q : R → World (Fin N → C) → Prop} {F : Exit E → World (Fin N → C) → Prop} :
    (onShard i p).Meets w Q F ↔ p.Meets { w with store := w.store i }
      (fun r w' => Q r { w' with store := Function.update w.store i w'.store })
      (fun e w' => F e { w' with store := Function.update w.store i w'.store }) := by
  simp only [Body.Meets, onShard]
  rcases p { w with store := w.store i } with ⟨r | r, w'⟩
  · rfl
  · rfl

variable {g : Growth} {limit requests calls n : Nat} {tables : Fin N → PairTable K V}

/-- The empty tables of the shards `done` have grown. -/
structure ReservedIn (g : Growth) (limit n : Nat) (done : List (Fin N))
    (w : World (Fin N → PairTable K V)) : Prop where
  empty : ∀ i, (w.store i).pairs = []
  capacity : ∀ i, (w.store i).capacity = if i ∈ done then g.after 0 0 n else 0
  memory : ∃ requests, w.memory = .limited limit requests

theorem tryReserveShards_allowed [BEq K] (hnew : ∀ i, tables i = .new)
    (h : g.Allows limit 0 0 n) :
    (tryReserveShards g n).Meets ⟨tables, .limited limit requests, calls⟩
      (fun _ w => ReservedIn g limit n (List.finRange N) w) (fun _ _ => False) := by
  apply Body.forEach_meets (I := ReservedIn g limit n)
  · rintro done j rest ⟨store, m, calls'⟩ hl ⟨hempty, hcapacity, requests', hmemory⟩
    obtain rfl := hmemory
    have hj : j ∉ done := by
      have hnodup := List.nodup_finRange N
      rw [hl] at hnodup
      exact fun hmem => (List.nodup_append.mp hnodup).2.2 j hmem j List.mem_cons_self rfl
    have hzero : (store j).capacity = 0 := (hcapacity j).trans (if_neg hj)
    have hlen : (store j).pairs.length = 0 := List.length_eq_zero_iff.mpr (hempty j)
    have hreserve := (PairTable.collector g id).reserve_allowed n limit requests' calls' (store j)
      (by simpa only [PairTable.collector, hzero, hlen] using h)
    simp only [PairTable.collector, hzero, hlen] at hreserve
    rw [onShard_meets]
    apply hreserve.mono
    · rintro _ w' ⟨hview, hafter, hmemory⟩
      refine ⟨fun i => ?_, fun i => ?_, hmemory⟩
      · by_cases hi : i = j
        · subst hi
          simp only [Function.update_self]
          exact hview.trans (hempty i)
        · simp only [Function.update_of_ne hi]
          exact hempty i
      · by_cases hi : i = j
        · subst hi
          simp only [Function.update_self]
          rw [hafter, if_pos (List.mem_append_right _ (List.mem_singleton.mpr rfl))]
        · simp only [Function.update_of_ne hi, List.mem_append, List.mem_singleton, hi, or_false]
          exact hcapacity i
    · intro _ _ h
      exact h
  · refine ⟨fun i => ?_, fun i => ?_, requests, rfl⟩
    · exact congrArg PairTable.pairs (hnew i)
    · simp only [hnew, List.not_mem_nil, if_false]
      rfl

theorem tryReserveShards_refused [BEq K] (i : Fin N) (hnew : ∀ i, tables i = .new)
    (h : ¬ g.Allows limit 0 0 n) :
    (tryReserveShards g n).Meets ⟨tables, .limited limit requests, calls⟩
      (fun _ _ => False) (fun _ _ => True) := by
  rw [tryReserveShards]
  cases hl : List.finRange N with
  | nil =>
    have hmem := List.mem_finRange i
    rw [hl] at hmem
    cases hmem
  | cons j rest =>
    have hreserve := (PairTable.collector g id).reserve_refused n limit requests calls
      (.new : PairTable K V) h
    change Body.Meets (onShard j (PairTable.reserve g n id) >>= fun _ => _) _ _ _
    rw [Body.meets_bind, onShard_meets]
    simp only [hnew]
    apply hreserve.mono
    · intro _ _ h
      exact h.elim
    · intro _ _ h
      exact h

variable [BEq K] {shard : K → Fin N} {kv : K × V}

def routed (shard : K → Fin N) (i : Fin N) (items : List (K × V)) : List (K × V) :=
  items.filter fun kv => shard kv.1 = i

omit [BEq K] in
theorem routed_cons_self (items : List (K × V)) :
    routed shard (shard kv.1) (kv :: items) = kv :: routed shard (shard kv.1) items := by
  simp [routed]

omit [BEq K] in
theorem routed_cons_ne {i : Fin N} (hne : i ≠ shard kv.1) (items : List (K × V)) :
    routed shard i (kv :: items) = routed shard i items := by
  simp [routed, hne.symm]

theorem tryInsert_allowed
    (h : g.Allows limit (tables (shard kv.1)).capacity (tables (shard kv.1)).len 1) :
    (tryInsert g shard kv).Meets ⟨tables, .limited limit requests, calls⟩
      (fun _ w => ∃ t : PairTable K V,
        t.pairs = PairTable.insertPair (tables (shard kv.1)).pairs kv ∧
        t.capacity = g.after (tables (shard kv.1)).capacity (tables (shard kv.1)).len 1 ∧
        ∃ requests, w = ⟨Function.update tables (shard kv.1) t, .limited limit requests, w.calls⟩)
      (fun _ _ => False) := by
  have hpush : Body.Meets _ (⟨tables (shard kv.1), .limited limit requests, calls⟩ : World _) _ _ :=
    Collector.reserve_push_allowed (c := PairTable.collector g id) (x := kv) Nat.one_pos h
  rw [tryInsert, tryInsertGiveBack, onShard_meets]
  apply hpush.mono
  · rintro _ w ⟨hview, hcapacity, requests', hmemory⟩
    exact ⟨w.store, hview, hcapacity, requests', by rw [← hmemory]⟩
  · intro _ _ h
    exact h

theorem tryInsert_refused
    (h : ¬ g.Allows limit (tables (shard kv.1)).capacity (tables (shard kv.1)).len 1) :
    (tryInsert g shard kv).Meets ⟨tables, .limited limit requests, calls⟩
      (fun _ _ => False) (fun _ _ => True) := by
  have hpush : Body.Meets _ (⟨tables (shard kv.1), .limited limit requests, calls⟩ : World _) _ _ :=
    Collector.reserve_push_refused (c := PairTable.collector g id) (x := kv) h
  rw [tryInsert, tryInsertGiveBack, onShard_meets]
  exact hpush

/-- An item takes a place in its own shard, and no other shard sees it. -/
theorem reaches_routed_cons {t : PairTable K V} {items : List (K × V)}
    (hpairs : t.pairs = PairTable.insertPair (tables (shard kv.1)).pairs kv)
    (hcapacity : t.capacity = g.after (tables (shard kv.1)).capacity (tables (shard kv.1)).len 1) :
    (∀ i, g.Reaches limit (PairTable.slotsNeeded (tables i).pairs (routed shard i (kv :: items)))
        (tables i).capacity) ↔
      g.Allows limit (tables (shard kv.1)).capacity (tables (shard kv.1)).len 1 ∧
        ∀ i, g.Reaches limit
          (PairTable.slotsNeeded (Function.update tables (shard kv.1) t i).pairs
            (routed shard i items)) (Function.update tables (shard kv.1) t i).capacity := by
  have hcons : g.Reaches limit (PairTable.slotsNeeded (tables (shard kv.1)).pairs
      (routed shard (shard kv.1) (kv :: items))) (tables (shard kv.1)).capacity ↔
        g.Allows limit (tables (shard kv.1)).capacity (tables (shard kv.1)).len 1 ∧
          g.Reaches limit (PairTable.slotsNeeded t.pairs (routed shard (shard kv.1) items))
            t.capacity := by
    rw [routed_cons_self, hpairs, hcapacity]
    exact PairTable.reaches_cons
  constructor
  · intro h
    obtain ⟨hallows, hreach⟩ := hcons.mp (h (shard kv.1))
    refine ⟨hallows, fun i => ?_⟩
    by_cases hi : i = shard kv.1
    · rw [hi, Function.update_self]
      exact hreach
    · rw [Function.update_of_ne hi, ← routed_cons_ne hi]
      exact h i
  · rintro ⟨hallows, hreach⟩ i
    have hi' := hreach i
    by_cases hi : i = shard kv.1
    · rw [hi, Function.update_self] at hi'
      rw [hi]
      exact hcons.mpr ⟨hallows, hi'⟩
    · rw [Function.update_of_ne hi] at hi'
      rw [routed_cons_ne hi]
      exact hi'

/-- The loop ends with every item in its shard, or on a reservation that is refused. -/
theorem forEach_tryInsert_meets (items : List (K × V)) :
    ((∀ i, g.Reaches limit (PairTable.slotsNeeded (tables i).pairs (routed shard i items))
        (tables i).capacity) →
      (Body.forEach (tryInsert g shard) items).Meets ⟨tables, .limited limit requests, calls⟩
        (fun _ w => ∀ i, (w.store i).pairs =
          (routed shard i items).foldl PairTable.insertPair (tables i).pairs)
        (fun _ _ => False)) ∧
    (¬ (∀ i, g.Reaches limit (PairTable.slotsNeeded (tables i).pairs (routed shard i items))
        (tables i).capacity) →
      (Body.forEach (tryInsert g shard) items).Meets ⟨tables, .limited limit requests, calls⟩
        (fun _ _ => False) (fun _ _ => True)) := by
  induction items generalizing tables requests calls with
  | nil => exact ⟨fun _ _ => rfl, fun h => absurd (fun _ => .enough (Nat.zero_le _)) h⟩
  | cons kv items ih =>
    change (_ → Body.Meets (tryInsert g shard kv >>= fun _ => Body.forEach _ items) _ _ _) ∧
      (_ → Body.Meets (tryInsert g shard kv >>= fun _ => Body.forEach _ items) _ _ _)
    rw [Body.meets_bind, Body.meets_bind]
    by_cases hallows : g.Allows limit (tables (shard kv.1)).capacity (tables (shard kv.1)).len 1
    · constructor
      · intro hreach
        apply (tryInsert_allowed hallows).mono
        · rintro _ w ⟨t, hpairs, hcapacity, requests', hw⟩
          rw [hw]
          apply (ih.1 ((reaches_routed_cons hpairs hcapacity).mp hreach).2).mono
          · intro _ w' hitems i
            rw [hitems i]
            by_cases hi : i = shard kv.1
            · rw [hi, Function.update_self, routed_cons_self, hpairs, List.foldl_cons]
            · rw [Function.update_of_ne hi, routed_cons_ne hi]
          · intro _ _ h
            exact h
        · intro _ _ h
          exact h
      · intro hnot
        apply (tryInsert_allowed hallows).mono
        · rintro _ w ⟨t, hpairs, hcapacity, requests', hw⟩
          rw [hw]
          apply ih.2
          exact fun hreach => hnot ((reaches_routed_cons hpairs hcapacity).mpr ⟨hallows, hreach⟩)
        · intro _ _ h
          exact h.elim
    · constructor
      · intro hreach
        have hhead := hreach (shard kv.1)
        rw [routed_cons_self] at hhead
        exact absurd (PairTable.reaches_cons.mp hhead).1 hallows
      · intro _
        apply (tryInsert_refused hallows).mono
        · intro _ _ h
          exact h.elim
        · intro _ _ h
          exact h

theorem forEach_tryInsert_iff {items : List (K × V)} :
    (Body.forEach (tryInsert g shard) items).Meets ⟨tables, .limited limit requests, calls⟩
        (fun _ w => ∀ i, (w.store i).pairs =
          (routed shard i items).foldl PairTable.insertPair (tables i).pairs)
        (fun _ _ => False) ↔
      ∀ i, g.Reaches limit (PairTable.slotsNeeded (tables i).pairs (routed shard i items))
        (tables i).capacity := by
  refine ⟨fun h => ?_, (forEach_tryInsert_meets items).1⟩
  by_contra hnot
  apply Body.not_meets_false
  apply (h.and ((forEach_tryInsert_meets items).2 hnot)).mono
  · intro _ _ h
    exact h.2
  · intro _ _ h
    exact h.1

theorem forEach_tryInsert_reserved {w : World (Fin N → PairTable K V)} {items : List (K × V)}
    (hreserved : ReservedIn g limit n (List.finRange N) w) :
    (Body.forEach (tryInsert g shard) items).Meets w
        (fun _ w' => ∀ i, (w'.store i).pairs =
          (routed shard i items).foldl PairTable.insertPair [])
        (fun _ _ => False) ↔
      ∀ i, g.Reaches limit (PairTable.slotsNeeded [] (routed shard i items)) (g.after 0 0 n) := by
  obtain ⟨store, m, calls'⟩ := w
  obtain ⟨(hempty : ∀ i, (store i).pairs = []), hcapacity, requests', hmemory⟩ := hreserved
  obtain rfl := hmemory
  have hloop := @forEach_tryInsert_iff _ _ _ g limit requests' calls' store _ shard items
  simp only [hempty] at hloop
  rw [hloop]
  refine forall_congr' fun i => ?_
  rw [hcapacity i, if_pos (List.mem_finRange i)]

/-- The shards grow for the hint, each of them for the whole of it, and then for what comes into
them. -/
theorem tryCollect_iff {ε : Type} {determineShard : UInt64 → Fin N} {hashOne : K → UInt64}
    {iter : Iter (K × V)} :
    (tryCollect g determineShard (.ok hashOne : Except ε _) iter).Meets
        ⟨fun _ => .new, .limited limit requests, calls⟩
        (fun _ w => ∀ i, (w.store i).pairs =
          (routed (fun k => determineShard (hashOne k)) i iter.items).foldl
            PairTable.insertPair [])
        (fun _ _ => False) ↔
      ∀ i, g.Collects limit 0 iter.capacity (PairTable.slotsNeeded []
        (routed (fun k => determineShard (hashOne k)) i iter.items)) := by
  have htry : ∀ Q F, (tryCollect g determineShard (.ok hashOne : Except ε _) iter).Meets
      ⟨fun _ => .new, .limited limit requests, calls⟩ Q F ↔
      if 0 < iter.capacity then
        (tryReserveShards g iter.capacity).Meets ⟨fun _ => .new, .limited limit requests, calls⟩
          (fun _ w => (Body.forEach (tryInsert g fun k => determineShard (hashOne k))
            iter.items).Meets w Q F) F
      else (Body.forEach (tryInsert g fun k => determineShard (hashOne k)) iter.items).Meets
        ⟨fun _ => .new, .limited limit requests, calls⟩ Q F := by
    intro Q F
    simp only [tryCollect]
    split
    · rw [Body.meets_bind]
    · rfl
  rw [htry]
  by_cases hpos : 0 < iter.capacity
  · rw [if_pos hpos]
    by_cases hallows : g.Allows limit 0 0 iter.capacity
    · have hreserve := @tryReserveShards_allowed K V N g limit requests calls iter.capacity
        (fun _ => .new) _ (fun _ => rfl) hallows
      constructor
      · intro h i
        refine ⟨hallows, ?_⟩
        by_contra hnot
        apply Body.not_meets_false
        apply (h.and hreserve).mono
        · rintro _ w ⟨hloop, hreserved⟩
          exact hnot ((forEach_tryInsert_reserved hreserved).mp hloop i)
        · intro _ _ h
          exact h.1
      · intro hcollects
        apply hreserve.mono
        · intro _ w hreserved
          exact (forEach_tryInsert_reserved hreserved).mpr fun i => (hcollects i).2
        · intro _ _ h
          exact h
    · have i : Fin N := determineShard 0
      constructor
      · intro h
        exfalso
        apply Body.not_meets_false
        apply (h.and (tryReserveShards_refused i (fun _ => rfl) hallows)).mono
        · intro _ _ h
          exact h.2
        · intro _ _ h
          exact h.1
      · intro hcollects
        exact absurd (hcollects i).1 hallows
  · have hzero : iter.capacity = 0 := by omega
    rw [if_neg hpos, hzero]
    have hreserved : ReservedIn g limit 0 (List.finRange N)
        (⟨fun _ => .new, .limited limit requests, calls⟩ : World (Fin N → PairTable K V)) :=
      ⟨fun _ => rfl, fun i => by simp [Growth.after, PairTable.new], requests, rfl⟩
    rw [forEach_tryInsert_reserved hreserved]
    exact forall_congr' fun i => ⟨fun h => ⟨.inl (Nat.zero_le _), h⟩, fun h => h.2⟩

theorem tryCollect_iff_hinted {ε : Type} {determineShard : UInt64 → Fin N} {hashOne : K → UInt64}
    {iter : Iter (K × V)} :
    (tryCollect g determineShard (.ok hashOne : Except ε _) iter).Meets
        ⟨fun _ => .new, .limited limit requests, calls⟩
        (fun _ w => ∀ i, (w.store i).pairs =
          (routed (fun k => determineShard (hashOne k)) i iter.items).foldl
            PairTable.insertPair [])
        (fun _ _ => False) ↔
      ∀ i, g.Hinted limit 0 iter (PairTable.slotsNeeded []
        (routed (fun k => determineShard (hashOne k)) i iter.items)) := by
  rw [tryCollect_iff]
  refine forall_congr' fun i => Growth.collects_iff_hinted ?_
  apply Nat.le_trans (PairTable.slotsNeeded_le _)
  exact List.length_filter_le ..

end

end DashMap

/-! ## All five -/

/-- A collection fits where room for its `n` elements can be had in one request. -/
def Growth.Fits (g : Growth) (limit capacity n : Nat) : Prop := g.Allows limit capacity 0 n

/-- When the items fit, they are collected exactly where the room that the hint asks for, and
in `DashMap` that room in every shard, can be had as well. -/
theorem collects_what_fits_iff {T K V ε : Type} [LE T] [DecidableLE T]
    [Std.IsLinearPreorder T] [BEq K] {N : Nat} (l : Layout) (g : Growth)
    (limit requests calls : Nat) (iter : Iter T)
    (hashOne : K → UInt64) (determineShard : UInt64 → Fin N) (pairs : Iter (K × V)) :
    ((l.growth.Fits limit l.capacityNew iter.items.length →
      (Vec.tryCollect l iter).Meets ⟨.new l, .limited limit requests, calls⟩
        (fun _ w => w.store.elems = iter.items) (fun _ _ => False)) ↔
      (l.growth.Fits limit l.capacityNew iter.items.length →
        l.growth.Hinted limit l.capacityNew iter iter.items.length)) ∧
    ((l.growth.Fits limit l.capacityNew iter.items.length →
      (VecDeque.tryCollect l iter).Meets ⟨.new l, .limited limit requests, calls⟩
        (fun _ w => w.store.elems = iter.items) (fun _ _ => False)) ↔
      (l.growth.Fits limit l.capacityNew iter.items.length →
        l.growth.Hinted limit l.capacityNew iter iter.items.length)) ∧
    ((l.growth.Fits limit l.capacityNew iter.items.length →
      (BinaryHeap.tryCollect l iter).Meets ⟨.new l, .limited limit requests, calls⟩
        (fun _ w => (w.store.elems : Multiset T) = iter.items) (fun _ _ => False)) ↔
      (l.growth.Fits limit l.capacityNew iter.items.length →
        l.growth.Hinted limit l.capacityNew iter iter.items.length)) ∧
    ((g.Fits limit 0 (pairs.items.foldl PairTable.insertPair []).length →
      (HashMap.tryCollect g (.ok hashOne : Except ε _) pairs).Meets
        ⟨.new, .limited limit requests, calls⟩
        (fun _ w => w.store.pairs = pairs.items.foldl PairTable.insertPair [])
        (fun _ _ => False)) ↔
      (g.Fits limit 0 (pairs.items.foldl PairTable.insertPair []).length →
        g.Hinted limit 0 pairs (PairTable.slotsNeeded [] pairs.items))) ∧
    (((∀ i, g.Fits limit 0 ((DashMap.routed (fun k => determineShard (hashOne k)) i
          pairs.items).foldl PairTable.insertPair []).length) →
      (DashMap.tryCollect g determineShard (.ok hashOne : Except ε _) pairs).Meets
        ⟨fun _ => .new, .limited limit requests, calls⟩
        (fun _ w => ∀ i, (w.store i).pairs =
          (DashMap.routed (fun k => determineShard (hashOne k)) i pairs.items).foldl
            PairTable.insertPair [])
        (fun _ _ => False)) ↔
      ((∀ i, g.Fits limit 0 ((DashMap.routed (fun k => determineShard (hashOne k)) i
          pairs.items).foldl PairTable.insertPair []).length) →
        ∀ i, g.Hinted limit 0 pairs (PairTable.slotsNeeded []
          (DashMap.routed (fun k => determineShard (hashOne k)) i pairs.items)))) :=
  ⟨imp_congr_right fun _ => Buffer.tryCollect_iff, imp_congr_right fun _ => Buffer.tryCollect_iff,
    imp_congr_right fun _ => BinaryHeap.tryCollect_iff,
    imp_congr_right fun _ => HashMap.tryCollect_iff,
    imp_congr_right fun _ => DashMap.tryCollect_iff_hinted⟩

/-- A filter over a million bytes, which lets one of them pass. -/
def looseHint : Iter UInt8 where
  items := [7]
  lower := 0
  upper := some 1000000
  lower_le := Nat.zero_le _
  le_upper := by decide
  bounded := by decide

/-- The one byte would fit. -/
theorem looseHint_refused : (⟨1, 1⟩ : Layout).growth.Fits 100 0 looseHint.items.length ∧
    (Vec.tryCollect ⟨1, 1⟩ looseHint).Meets ⟨.new ⟨1, 1⟩, .limited 100 0, 0⟩
      (fun _ _ => False) (fun e _ => e = .error .allocError) := by
  constructor
  · right
    rw [Layout.grants_iff]
    decide
  · rfl

/-- The same byte, from an iterator that gives no upper bound. -/
def openHint : Iter UInt8 :=
  { looseHint with upper := none, le_upper := by decide, bounded := by decide }

theorem openHint_collected :
    (Vec.tryCollect ⟨1, 1⟩ openHint).Meets ⟨.new ⟨1, 1⟩, .limited 100 0, 0⟩
      (fun _ w => w.store.elems = [7]) (fun _ _ => False) := by
  have hgrow : (⟨1, 1⟩ : Layout).growth.Grants 100 0 1 := by
    rw [Layout.grants_iff]
    decide
  have hcollect := (@collects_what_fits_iff UInt8 Nat Nat Unit _ _ _ _ 1 ⟨1, 1⟩
    (⟨1, 1⟩ : Layout).growth
    100 0 0 openHint Nat.toUInt64 (fun _ => 0) ⟨[], 0, none, by decide, by decide, by decide⟩).1
  exact hcollect.mpr (fun _ => ⟨.inl (Nat.zero_le _), .grow hgrow (.enough (by decide))⟩)
    (.inr hgrow)

end Rustyfill.Collections
