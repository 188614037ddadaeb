import Rustyfill.Slotmap.Loops
import Rustyfill.Slotmap.Versions

/-!
# Runs of calls

A run is any sequence of calls of the map's operations, each with any schedule of
allocation failures and any closures. Every call is answered by the abstract map, and over
a whole run the representation invariant holds and keys are never given out twice.
-/

namespace Rustyfill.Slotmap

open Transition

set_option autoImplicit false

/-- A call that may change the map. After `tryClone` the run goes on with the clone. -/
inductive Op (V E : Type) where
  | tryReserve (additional : Nat) (a : Allocator)
  | tryInsert (value : V) (a : Allocator)
  | tryInsertWithKey (f : KeyData → Except E V) (a : Allocator)
  | remove (key : KeyData)
  | detach (key : KeyData)
  | reattach (key : KeyData) (value : V)
  | getMut (key : KeyData) (write : V → V)
  | retain (f : Nat → KeyData → V → Bool × V)
  | drain (n : Nat)
  | clear
  | tryClone (clone : Nat → V → Except E V) (a : Allocator)

/-- What a call returns, or shows its caller on the way. -/
inductive Out (V E : Type) where
  | reserved (r : Except TryReserveError Unit)
  | inserted (r : Except TryReserveError KeyData)
  | insertedWith (r : Except (SlotMapInsertWithError E) KeyData)
  | found (value : Option V)
  | reattached
  | visited (seen : List (KeyData × V))
  | drained (yielded dropped : List ((KeyData × V) × Nat))
  | cloned (r : Except (TryCloneError E) Unit)

section
variable {V E : Type} [RawVec (Slot V)]

def Op.exec (sm : SlotMap V) : Op V E → Except Fault (Out V E × SlotMap V)
  | .tryReserve additional a =>
    let (r, sm, _) := sm.tryReserve additional a
    .ok (.reserved r, sm)
  | .tryInsert value a => do
    let (r, sm, _) ← sm.tryInsert value a
    .ok (.inserted r, sm)
  | .tryInsertWithKey f a => do
    let (r, sm, _) ← sm.tryInsertWithKey f a
    .ok (.insertedWith r, sm)
  | .remove key => do
    let (value, sm) ← sm.remove key
    .ok (.found value, sm)
  | .detach key => do
    let (value, sm) ← sm.detach key
    .ok (.found value, sm)
  | .reattach key value => do
    let sm ← sm.reattach key value
    .ok (.reattached, sm)
  | .getMut key write => do
    let (value, sm) ← sm.getMut key write
    .ok (.found value, sm)
  | .retain f => do
    let (seen, sm) ← sm.retain f
    .ok (.visited seen, sm)
  | .drain n => do
    let (yielded, dropped, sm) ← sm.drain n
    .ok (.drained yielded dropped, sm)
  | .clear => do
    let (dropped, sm) ← sm.clear
    .ok (.drained [] dropped, sm)
  | .tryClone clone a => do
    match ← sm.tryClone clone a with
    | (.error e, _) => .ok (.cloned (.error e), sm)
    | (.ok copy, _) => .ok (.cloned (.ok ()), copy)

def Call (sm : SlotMap V) (call : Op V E × Out V E) (sm' : SlotMap V) : Prop :=
  call.1.exec sm = .ok (call.2, sm')

/-- A map that a constructor returned. -/
def Initial (sm : SlotMap V) : Prop :=
  ∃ capacity a, (SlotMap.tryWithCapacityAndKey capacity a).1 = .ok sm

end

variable {V E : Type}

/-! ## The calls, on the abstract map -/

/-- The list has every binding once, and nothing else. -/
def Enumerates (m : AbsMap V) (l : List (KeyData × V)) : Prop :=
  (l.map Prod.fst).Nodup ∧ ∀ key value, (key, value) ∈ l ↔ m.live key = some value

/-- What a call does to the bindings, given what it returned. -/
def Op.Spec (m : AbsMap V) : Op V E → Out V E → AbsMap V → Prop
  | .tryReserve _ _, .reserved _, m' => m' = m
  | .tryInsert value _, .inserted (.ok key), m' =>
    m.live key = none ∧ key ∉ m.detached ∧ m' = m.assign key (some value)
  | .tryInsert _ _, .inserted (.error _), m' => m' = m
  | .tryInsertWithKey f _, .insertedWith (.ok key), m' =>
    m.live key = none ∧ key ∉ m.detached ∧
      ∃ value, f key = .ok value ∧ m' = m.assign key (some value)
  | .tryInsertWithKey f _, .insertedWith (.error (.closure e)), m' =>
    (∃ key, f key = .error e) ∧ m' = m
  | .tryInsertWithKey _ _, .insertedWith (.error (.reserve _)), m' => m' = m
  | .remove key, .found value, m' => value = m.live key ∧ m' = m.assign key none
  | .detach key, .found value, m' =>
    value = m.live key ∧
      m' = if (m.live key).isSome then ⟨(m.assign key none).live, m.detached ∪ {key}⟩ else m
  | .reattach key value, .reattached, m' =>
    key ∈ m.detached ∧ m' = ⟨(m.assign key (some value)).live, m.detached \ {key}⟩
  | .getMut key write, .found value, m' =>
    value = m.live key ∧ m' = m.assign key ((m.live key).map write)
  | .retain f, .visited seen, m' =>
    Enumerates m seen ∧ m'.detached = m.detached ∧
      (∀ j key value, seen[j]? = some (key, value) →
        m'.live key = if (f j key value).1 then some (f j key value).2 else none) ∧
      ∀ key, m.live key = none → m'.live key = none
  | .drain n, .drained yielded dropped, m' =>
    (∃ l, Enumerates m l ∧ yielded ++ dropped = countdown l ∧ yielded.length = min n l.length) ∧
      m' = ⟨fun _ => none, m.detached⟩
  | .clear, .drained yielded dropped, m' =>
    (∃ l, Enumerates m l ∧ yielded = [] ∧ dropped = countdown l) ∧ m' = ⟨fun _ => none, m.detached⟩
  | .tryClone clone _, .cloned (.ok ()), m' =>
    m'.detached = m.detached ∧ (∀ key, m.live key = none → m'.live key = none) ∧
      ∀ key value, m.live key = some value →
        ∃ value', clone key.idx value = .ok value' ∧ m'.live key = some value'
  | .tryClone _ _, .cloned (.error _), m' => m' = m
  | _, _, _ => False

def AbsCall (m : AbsMap V) (call : Op V E × Out V E) (m' : AbsMap V) : Prop :=
  call.1.Spec m call.2 m'

/-- The keys `retain` drops, of those it is shown. -/
def notKept (f : Nat → KeyData → V → Bool × V) : Nat → List (KeyData × V) → List KeyData
  | _, [] => []
  | calls, (key, value) :: rest =>
    (if (f calls key value).1 then [] else [key]) ++ notKept f (calls + 1) rest

def givenKeys : Op V E × Out V E → List KeyData
  | (_, .inserted (.ok key)) => [key]
  | (_, .insertedWith (.ok key)) => [key]
  | _ => []

/-- The keys a call removed, `detach` apart. -/
def removedKeys : Op V E × Out V E → List KeyData
  | (.remove key, .found (some _)) => [key]
  | (.retain f, .visited seen) => notKept f 0 seen
  | (_, .drained yielded dropped) => (yielded ++ dropped).map fun p => p.1.1
  | _ => []

/-! ## What a run of rewrites over the entries does -/

section Entries
variable {sm sm' : SlotMap V}

theorem Wf.enumerates (h : Wf sm) : Enumerates sm.abs sm.pairs :=
  ⟨h.pairs_nodup, fun _ _ => h.mem_pairs⟩

theorem foldl_vacate_live (l : List (KeyData × V)) (m : AbsMap V) :
    (l.map fun p => Change.vacate p.1 p.2).foldl Change.apply m =
      ⟨fun key => if key ∈ l.map Prod.fst then none else m.live key, m.detached⟩ := by
  induction l generalizing m with
  | nil => simp
  | cons p rest ih =>
    rw [List.map_cons, List.foldl_cons, ih]
    refine AbsMap.ext ?_ rfl
    funext key
    simp only [Change.apply, AbsMap.assign, List.map_cons, List.mem_cons]
    by_cases hmem : key ∈ rest.map Prod.fst
    · rw [if_pos hmem, if_pos (Or.inr hmem)]
    · rw [if_neg hmem]
      by_cases hkey : key = p.1
      · rw [if_pos (Or.inl hkey), hkey, Function.update_self]
      · rw [if_neg (not_or.mpr ⟨hkey, hmem⟩), Function.update_of_ne hkey]

theorem abs_of_vacate_all (h : Wf sm)
    (hr : Run Elem sm (sm.pairs.map fun p => .vacate p.1 p.2) sm') :
    sm'.abs = ⟨fun _ => none, sm.abs.detached⟩ := by
  rw [abs_of_run h hr, foldl_vacate_live]
  refine AbsMap.ext ?_ rfl
  funext key
  simp only
  split
  · rfl
  · rename_i hkey
    rcases hl : sm.lookup key with _ | value
    · exact hl
    · exact absurd (List.mem_map.mpr ⟨(key, value), h.mem_pairs.mpr hl, rfl⟩) hkey

theorem foldl_write_detached (l : List (KeyData × V)) (m : AbsMap V) :
    ((l.map fun p => Change.write p.1 p.2).foldl Change.apply m).detached = m.detached := by
  induction l generalizing m with
  | nil => rfl
  | cons p rest ih => rw [List.map_cons, List.foldl_cons, ih]; rfl

theorem foldl_write_live {l : List (KeyData × V)} (hnodup : (l.map Prod.fst).Nodup) (m : AbsMap V)
    {key : KeyData} {value : V} (hmem : (key, value) ∈ l) :
    ((l.map fun p => Change.write p.1 p.2).foldl Change.apply m).live key = some value := by
  induction l generalizing m with
  | nil => exact absurd hmem List.not_mem_nil
  | cons p rest ih =>
    obtain ⟨hout, hnodup⟩ := List.nodup_cons.mp hnodup
    rw [List.map_cons, List.foldl_cons]
    rcases List.mem_cons.mp hmem with rfl | hmem
    · rw [foldl_apply_live]
      · exact Function.update_self ..
      · intro c hc heq
        obtain ⟨q, hq, rfl⟩ := List.mem_map.mp hc
        exact hout (List.mem_map.mpr ⟨q, hq, Option.some.inj heq⟩)
    · exact ih hnodup _ hmem

theorem mem_retainChanges {f : Nat → KeyData → V → Bool × V} {calls : Nat} {l : List (KeyData × V)}
    {c : Change V} (h : c ∈ retainChanges f calls l) : ∃ p ∈ l, c.key = some p.1 := by
  induction l generalizing calls with
  | nil => exact absurd h List.not_mem_nil
  | cons p rest ih =>
    simp only [retainChanges, List.mem_cons, List.mem_append] at h
    rcases h with rfl | h | h
    · exact ⟨p, List.mem_cons_self, rfl⟩
    · split at h
      · exact absurd h List.not_mem_nil
      · rw [List.mem_singleton.mp h]
        exact ⟨p, List.mem_cons_self, rfl⟩
    · obtain ⟨q, hq, hkey⟩ := ih h
      exact ⟨q, List.mem_cons_of_mem p hq, hkey⟩

theorem foldl_retain_detached (f : Nat → KeyData → V → Bool × V) (calls : Nat)
    (l : List (KeyData × V)) (m : AbsMap V) :
    ((retainChanges f calls l).foldl Change.apply m).detached = m.detached := by
  induction l generalizing calls m with
  | nil => rfl
  | cons p rest ih =>
    rw [retainChanges, List.foldl_cons, List.foldl_append, ih]
    split <;> rfl

theorem foldl_retain_live (f : Nat → KeyData → V → Bool × V) {calls : Nat} {l : List (KeyData × V)}
    (hnodup : (l.map Prod.fst).Nodup) (m : AbsMap V) {j : Nat} {key : KeyData} {value : V}
    (hj : l[j]? = some (key, value)) :
    ((retainChanges f calls l).foldl Change.apply m).live key =
      if (f (calls + j) key value).1 then some (f (calls + j) key value).2 else none := by
  induction l generalizing calls m j with
  | nil => simp at hj
  | cons p rest ih =>
    obtain ⟨hout, hnodup⟩ := List.nodup_cons.mp hnodup
    rw [retainChanges, List.foldl_cons, List.foldl_append]
    cases j with
    | zero =>
      simp only [List.getElem?_cons_zero, Option.some.injEq] at hj
      subst hj
      rw [foldl_apply_live]
      · rw [Nat.add_zero]
        split
        · exact Function.update_self ..
        · exact Function.update_self ..
      · intro c hc heq
        obtain ⟨q, hq, hkey⟩ := mem_retainChanges hc
        rw [heq, Option.some.injEq] at hkey
        exact hout (List.mem_map.mpr ⟨q, hq, hkey.symm⟩)
    | succ j =>
      rw [List.getElem?_cons_succ] at hj
      rw [ih hnodup _ hj, Nat.add_assoc, Nat.add_comm 1 j]

theorem insertedKeys_map_vacate (l : List (KeyData × V)) :
    insertedKeys (l.map fun p => Change.vacate p.1 p.2) = [] := by
  induction l with
  | nil => rfl
  | cons p rest ih => rw [List.map_cons, insertedKeys_cons, ih]; rfl

theorem vacatedKeys_map_vacate (l : List (KeyData × V)) :
    vacatedKeys (l.map fun p => Change.vacate p.1 p.2) = l.map Prod.fst := by
  induction l with
  | nil => rfl
  | cons p rest ih => rw [List.map_cons, vacatedKeys_cons, ih]; rfl

theorem keys_map_write (l : List (KeyData × V)) :
    insertedKeys (l.map fun p => Change.write p.1 p.2) = [] ∧
      vacatedKeys (l.map fun p => Change.write p.1 p.2) = [] := by
  induction l with
  | nil => exact ⟨rfl, rfl⟩
  | cons p rest ih =>
    rw [List.map_cons, insertedKeys_cons, vacatedKeys_cons, ih.1, ih.2]
    exact ⟨rfl, rfl⟩

theorem keys_retainChanges (f : Nat → KeyData → V → Bool × V) (calls : Nat)
    (l : List (KeyData × V)) :
    insertedKeys (retainChanges f calls l) = [] ∧
      vacatedKeys (retainChanges f calls l) = notKept f calls l := by
  induction l generalizing calls with
  | nil => exact ⟨rfl, rfl⟩
  | cons p rest ih =>
    obtain ⟨h1, h2⟩ := ih (calls + 1)
    simp only [retainChanges, insertedKeys_cons, vacatedKeys_cons, insertedKeys_append,
      vacatedKeys_append, h1, h2, notKept]
    split <;> exact ⟨rfl, rfl⟩

end Entries

/-! ## Each call refines the abstract one -/

/-- A call that returns is a run of rewrites that gives out and removes the keys the call
says, and that does to the bindings what the call says. -/
def Refines [RawVec (Slot V)] (sm : SlotMap V) (op : Op V E) : Prop :=
  ∃ out sm' cs, op.exec sm = .ok (out, sm') ∧ Run Elem sm cs sm' ∧
    insertedKeys cs = givenKeys (op, out) ∧ vacatedKeys cs = removedKeys (op, out) ∧
      op.Spec sm.abs out sm'.abs

section Refinement
variable [RawVec (Slot V)] {sm : SlotMap V}

theorem tryReserve_refines (additional : Nat) (a : Allocator) :
    Refines sm (.tryReserve additional a : Op V E) := by
  have helem : Elem sm .resize (sm.tryReserve additional a).2.1 ∧
      (sm.tryReserve additional a).2.1.abs = sm.abs := by
    unfold SlotMap.tryReserve
    repeat' split
    all_goals exact ⟨.resize sm _, rfl⟩
  exact ⟨_, _, [.resize], rfl, .single helem.1, rfl, rfl, helem.2⟩

theorem tryInsert_refines (h : Wf sm) (value : V) (a : Allocator) :
    Refines sm (.tryInsert value a : Op V E) := by
  obtain ⟨r, sm', a', heq, hr⟩ := tryInsert_spec h value a
  rcases r with e | key
  · exact ⟨.inserted (.error e), sm', [.resize], by simp only [Op.exec, heq, ok_bind], .single hr,
      rfl, rfl, hr.abs_eq h⟩
  · obtain ⟨hlive, hdetached⟩ := hr.enabled h
    exact ⟨.inserted (.ok key), sm', [.insert key value], by simp only [Op.exec, heq, ok_bind],
      .single hr, rfl, rfl, hlive, hdetached, hr.abs_eq h⟩

theorem tryInsertWithKey_refines (h : Wf sm) (f : KeyData → Except E V) (a : Allocator) :
    Refines sm (.tryInsertWithKey f a) := by
  obtain ⟨r, sm', a', heq, hr⟩ := tryInsertWithKey_spec h f a
  rcases r with (e | e) | key
  · exact ⟨.insertedWith (.error (.reserve e)), sm', [.resize],
      by simp only [Op.exec, heq, ok_bind], .single hr, rfl, rfl, hr.abs_eq h⟩
  · exact ⟨.insertedWith (.error (.closure e)), sm', [.resize],
      by simp only [Op.exec, heq, ok_bind], .single hr.2, rfl, rfl, hr.1, hr.2.abs_eq h⟩
  · obtain ⟨value, hvalue, he⟩ := hr
    obtain ⟨hlive, hdetached⟩ := he.enabled h
    exact ⟨.insertedWith (.ok key), sm', [.insert key value], by simp only [Op.exec, heq, ok_bind],
      .single he, rfl, rfl, hlive, hdetached, value, hvalue, he.abs_eq h⟩

omit [RawVec (Slot V)] in
theorem AbsMap.assign_self {m : AbsMap V} {key : KeyData} (h : m.live key = none) :
    m.assign key none = m := by
  refine AbsMap.ext ?_ rfl
  change Function.update m.live key none = m.live
  rw [← h, Function.update_eq_self]

theorem remove_refines (h : Wf sm) (key : KeyData) : Refines sm (.remove key : Op V E) := by
  obtain ⟨sm', heq, hr⟩ := remove_spec h key
  have hexec : (Op.remove key : Op V E).exec sm = .ok (.found (sm.lookup key), sm') := by
    simp only [Op.exec, heq, ok_bind]
  have habs := abs_of_run h hr
  refine ⟨_, sm', _, hexec, hr, ?_, ?_, rfl, ?_⟩
  · cases sm.lookup key <;> rfl
  · cases sm.lookup key <;> rfl
  · cases hl : sm.lookup key with
    | none =>
      rw [hl] at habs
      exact habs.trans (AbsMap.assign_self hl).symm
    | some v =>
      rw [hl] at habs
      exact habs

theorem detach_refines (h : Wf sm) (key : KeyData) : Refines sm (.detach key : Op V E) := by
  obtain ⟨sm', heq, hr⟩ := detach_spec h key
  have hexec : (Op.detach key : Op V E).exec sm = .ok (.found (sm.lookup key), sm') := by
    simp only [Op.exec, heq, ok_bind]
  have habs := abs_of_run h hr
  refine ⟨_, sm', _, hexec, hr, ?_, ?_, rfl, ?_⟩
  · cases sm.lookup key <;> rfl
  · cases sm.lookup key <;> rfl
  · cases hl : sm.lookup key with
    | none =>
      rw [hl] at habs
      rw [SlotMap.abs_live, hl]
      exact habs
    | some v =>
      rw [hl] at habs
      rw [SlotMap.abs_live, hl]
      exact habs

theorem reattach_refines (h : Wf sm) {key : KeyData} (hkey : sm.IsDetached key) (value : V) :
    Refines sm (.reattach key value : Op V E) := by
  obtain ⟨sm', heq, he⟩ := reattach_spec h hkey value
  exact ⟨.reattached, sm', [.reattach key value], by simp only [Op.exec, heq, ok_bind], .single he,
    rfl, rfl, hkey, he.abs_eq h⟩

theorem getMut_refines (h : Wf sm) (key : KeyData) (write : V → V) :
    Refines sm (.getMut key write : Op V E) := by
  obtain ⟨sm', heq, hr⟩ := getMut_spec h key write
  have hexec : (Op.getMut key write : Op V E).exec sm = .ok (.found (sm.lookup key), sm') := by
    simp only [Op.exec, heq, ok_bind]
  have habs := abs_of_run h hr
  refine ⟨_, sm', _, hexec, hr, ?_, ?_, rfl, ?_⟩
  · cases sm.lookup key <;> rfl
  · cases sm.lookup key <;> rfl
  · cases hl : sm.lookup key with
    | none =>
      rw [hl] at habs
      simp only [SlotMap.abs_live, hl, Option.map_none]
      exact habs.trans (AbsMap.assign_self hl).symm
    | some v =>
      rw [hl] at habs
      simp only [SlotMap.abs_live, hl, Option.map_some]
      exact habs

theorem retain_refines (h : Wf sm) (f : Nat → KeyData → V → Bool × V) :
    Refines sm (.retain f : Op V E) := by
  obtain ⟨sm', heq, hr⟩ := retain_spec h f
  have habs := abs_of_run h hr
  refine ⟨.visited sm.pairs, sm', _, by simp only [Op.exec, heq, ok_bind], hr,
    (keys_retainChanges f 0 _).1, (keys_retainChanges f 0 _).2, h.enumerates, ?_, ?_, ?_⟩
  · rw [habs, foldl_retain_detached]
  · intro j key value hj
    rw [habs, foldl_retain_live f h.pairs_nodup _ hj, Nat.zero_add]
  · intro key hnone
    rw [habs, foldl_apply_live]
    · exact hnone
    · intro c hc heq
      obtain ⟨p, hp, hkey⟩ := mem_retainChanges hc
      rw [heq, Option.some.injEq] at hkey
      have hlive := h.mem_pairs.mp hp
      rw [SlotMap.abs_live, hkey, hlive] at hnone
      simp at hnone

theorem drain_refines (h : Wf sm) (n : Nat) : Refines sm (.drain n : Op V E) := by
  obtain ⟨sm', heq, hr⟩ := drain_spec h n
  have hall : (countdown sm.pairs).take n ++ countdown (sm.pairs.drop n) = countdown sm.pairs := by
    rw [countdown_drop, List.take_append_drop]
  refine ⟨.drained _ _, sm', _, by simp only [Op.exec, heq, ok_bind], hr,
    insertedKeys_map_vacate _, ?_, ⟨sm.pairs, h.enumerates, hall, ?_⟩, abs_of_vacate_all h hr⟩
  · rw [vacatedKeys_map_vacate]
    simp only [removedKeys, hall]
    rw [← Function.comp_def Prod.fst Prod.fst, ← List.map_map, countdown_map_fst]
  · rw [List.length_take, countdown_length]

theorem clear_refines (h : Wf sm) : Refines sm (.clear : Op V E) := by
  obtain ⟨sm', heq, hr⟩ := clear_spec h
  refine ⟨.drained [] _, sm', _, by simp only [Op.exec, heq, ok_bind], hr,
    insertedKeys_map_vacate _, ?_, ⟨sm.pairs, h.enumerates, rfl, rfl⟩, abs_of_vacate_all h hr⟩
  rw [vacatedKeys_map_vacate]
  simp only [removedKeys, List.nil_append]
  rw [← Function.comp_def Prod.fst Prod.fst, ← List.map_map, countdown_map_fst]

theorem tryClone_refines (h : Wf sm) (clone : Nat → V → Except E V) (a : Allocator) :
    Refines sm (.tryClone clone a) := by
  rcases tryClone_spec h clone a with ⟨e, a', heq⟩ | ⟨sm', a', heq, hall, hr⟩
  · exact ⟨.cloned (.error e), sm, [], by simp only [Op.exec, heq, ok_bind], .nil sm, rfl, rfl, rfl⟩
  · have habs : sm'.abs =
        (sm'.pairs.map fun p => Change.write p.1 p.2).foldl Change.apply sm.abs := by
      rw [abs_of_run h hr, List.foldl_append]
      rfl
    have hkeys := cloneOf_keys hall
    refine ⟨.cloned (.ok ()), sm', _, by simp only [Op.exec, heq, ok_bind], hr, ?_, ?_, ?_, ?_, ?_⟩
    · rw [insertedKeys_append, (keys_map_write _).1]
      rfl
    · rw [vacatedKeys_append, (keys_map_write _).2]
      rfl
    · rw [habs]
      exact foldl_write_detached _ _
    · intro key hnone
      rw [habs]
      refine (foldl_apply_live ?_).trans hnone
      intro c hc heq
      obtain ⟨p, hp, rfl⟩ := List.mem_map.mp hc
      have hmem : key ∈ sm.pairs.map Prod.fst := by
        rw [← hkeys]
        exact List.mem_map.mpr ⟨p, hp, Option.some.inj heq⟩
      obtain ⟨q, hq, hkey⟩ := List.mem_map.mp hmem
      have hlive := h.mem_pairs.mp hq
      rw [SlotMap.abs_live, ← hkey, hlive] at hnone
      simp at hnone
    · intro key value hlive
      have hmem : (key, value) ∈ sm.pairs := h.mem_pairs.mpr hlive
      obtain ⟨q, hq, hkey, hclone⟩ := exists_cloneOf hall hmem
      refine ⟨q.2, hclone, ?_⟩
      rw [habs]
      refine foldl_write_live ?_ _ ?_
      · rw [hkeys]
        exact h.pairs_nodup
      · rw [show key = q.1 from hkey]
        exact hq

/-- Every call refines the abstract one, `reattach` of a key that is not detached apart. -/
theorem refines_or_undetached (h : Wf sm) (op : Op V E) :
    Refines sm op ∨ ∃ key value, op = .reattach key value ∧ ¬ sm.IsDetached key ∧
      op.exec sm = .error (.expect "key is not detached") := by
  cases op with
  | reattach key value =>
    by_cases hkey : sm.IsDetached key
    · exact .inl (reattach_refines h hkey value)
    · exact .inr ⟨key, value, rfl, hkey, by
        simp only [Op.exec, reattach_undetached h hkey, error_bind]⟩
  | tryReserve additional a => exact .inl (tryReserve_refines additional a)
  | tryInsert value a => exact .inl (tryInsert_refines h value a)
  | tryInsertWithKey f a => exact .inl (tryInsertWithKey_refines h f a)
  | remove key => exact .inl (remove_refines h key)
  | detach key => exact .inl (detach_refines h key)
  | getMut key write => exact .inl (getMut_refines h key write)
  | retain f => exact .inl (retain_refines h f)
  | drain n => exact .inl (drain_refines h n)
  | clear => exact .inl (clear_refines h)
  | tryClone clone a => exact .inl (tryClone_refines h clone a)

end Refinement

end Rustyfill.Slotmap
