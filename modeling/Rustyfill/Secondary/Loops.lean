import Rustyfill.Secondary.Changes
import Rustyfill.Slotmap.Loops

/-!
# The operations that visit every slot

`iter`, `into_iter`, `drain`, `retain`, `iter_mut`, `try_clone` and `eq`. The iterators yield the
entries of the slots they visit and count them down; `drain` and `into_iter` do not visit the
sentinel slot.
-/

namespace Rustyfill.Secondary

open Slotmap (KeyData maxSlotsLen TryCloneError countdown countdown_length)
open Transition ListUpdate SecondaryMap

set_option autoImplicit false

variable {V E : Type} {sm sm' : SecondaryMap V}

/-- The occupied ones among the slots from an index on, with their keys. -/
def entries : Nat → List (Slot V) → List (KeyData × V)
  | _, [] => []
  | i, .occupied value version :: rest => (KeyData.new i version.val, value) :: entries (i + 1) rest
  | i, .vacant :: rest => entries (i + 1) rest

def SecondaryMap.pairs (sm : SecondaryMap V) : List (KeyData × V) := entries 0 sm.slots

theorem entries_length (i : Nat) (l : List (Slot V)) :
    (entries i l).length = l.countP Slot.isOccupied := by
  induction l generalizing i with
  | nil => rfl
  | cons s rest ih =>
    cases s with
    | occupied value version => rw [entries, List.length_cons, ih, List.countP_cons_of_pos rfl]
    | vacant => rw [entries, ih, List.countP_cons_of_neg (by simp [Slot.isOccupied])]

theorem Wf.pairs_length (h : Wf sm) : sm.pairs.length = sm.numElems := by
  rw [h.count, pairs, entries_length]

theorem new_versionOf {i : Nat} (hi : i ≤ u32Max) (version : Version) :
    (KeyData.new i version.val).idx = i ∧ versionOf (KeyData.new i version.val) = version := by
  refine ⟨KeyData.new_idx hi, Subtype.ext ?_⟩
  exact @KeyData.new_version i version.val version.2.2 version.2.1

theorem new_of_versionOf {key : KeyData} {version : Version} (h : versionOf key = version) :
    KeyData.new key.idx version.val = key := by
  rw [← h]
  exact key.new_self

theorem mem_entries {i : Nat} {l : List (Slot V)} (hlen : i + l.length ≤ u32Max) {key : KeyData}
    {value : V} : (key, value) ∈ entries i l ↔
      ∃ n, key.idx = i + n ∧ l[n]? = some (.occupied value (versionOf key)) := by
  induction l generalizing i with
  | nil => simp [entries]
  | cons s rest ih =>
    rw [List.length_cons] at hlen
    have hrest : (key, value) ∈ entries (i + 1) rest ↔
        ∃ n, key.idx = i + (n + 1) ∧ rest[n]? = some (.occupied value (versionOf key)) := by
      rw [ih (by omega)]
      simp only [Nat.add_right_comm i 1, Nat.add_assoc]
    have hsplit : (∃ n, key.idx = i + n ∧
          (s :: rest)[n]? = some (.occupied value (versionOf key))) ↔
        (key.idx = i ∧ s = .occupied value (versionOf key)) ∨ (key, value) ∈ entries (i + 1)
          rest := by
      rw [hrest]
      constructor
      · rintro ⟨_ | n, hidx, hs⟩
        · exact Or.inl ⟨hidx, by simpa using hs⟩
        · exact Or.inr ⟨n, hidx, by simpa using hs⟩
      · rintro (⟨hidx, hs⟩ | ⟨n, hidx, hs⟩)
        · exact ⟨0, hidx, by simp [hs]⟩
        · exact ⟨n + 1, hidx, by simpa using hs⟩
    rw [hsplit]
    cases s with
    | vacant => simp [entries]
    | occupied v version =>
      rw [entries, List.mem_cons]
      apply or_congr_left
      obtain ⟨hidx, hversion⟩ := new_versionOf (show i ≤ u32Max by omega) version
      constructor
      · intro h
        obtain ⟨rfl, rfl⟩ := Prod.mk.inj h
        exact ⟨hidx, by rw [hversion]⟩
      · rintro ⟨rfl, hs⟩
        obtain ⟨rfl, rfl⟩ := Slot.occupied.inj hs
        rw [new_of_versionOf rfl]

theorem idx_of_mem_entries {i : Nat} {l : List (Slot V)} (hlen : i + l.length ≤ u32Max)
    {p : KeyData × V} (hp : p ∈ entries i l) : i ≤ p.1.idx := by
  obtain ⟨n, hn, -⟩ := (mem_entries hlen).mp hp
  omega

theorem entries_nodup {i : Nat} {l : List (Slot V)} (hlen : i + l.length ≤ u32Max) :
    ((entries i l).map Prod.fst).Nodup := by
  induction l generalizing i with
  | nil => exact List.nodup_nil
  | cons s rest ih =>
    rw [List.length_cons] at hlen
    have hrest := ih (i := i + 1) (by omega)
    cases s with
    | vacant => exact hrest
    | occupied v version =>
      apply List.nodup_cons.mpr
      refine ⟨fun hmem => ?_, hrest⟩
      obtain ⟨p, hp, hkey⟩ := List.mem_map.mp hmem
      have hle := idx_of_mem_entries (by omega) hp
      rw [hkey, (new_versionOf (by omega) version).1] at hle
      omega

namespace Wf

theorem slots_le (h : Wf sm) : sm.slots.length ≤ u32Max := by
  have hlen := h.length_le
  simp only [maxSlotsLen, Slotmap.danglingSentinel, u32Max] at hlen
  unfold u32Max
  omega

theorem mem_pairs (h : Wf sm) {key : KeyData} {value : V} :
    (key, value) ∈ sm.pairs ↔ sm.lookup key = some value := by
  rw [pairs, mem_entries (by rw [Nat.zero_add]; exact h.slots_le), lookup_eq_some,
    slotAt_occupied]
  constructor
  · rintro ⟨n, hidx, hs⟩
    rwa [hidx, Nat.zero_add]
  · intro hs
    exact ⟨key.idx, (Nat.zero_add _).symm, hs⟩

theorem pairs_nodup (h : Wf sm) : (sm.pairs.map Prod.fst).Nodup :=
  entries_nodup (by rw [Nat.zero_add]; exact h.slots_le)

end Wf

theorem Seated.slots_eq (h : Seated sm) : sm.slots = .vacant :: sm.slots.drop 1 := by
  have hcons := drop_eq_cons h
  rwa [List.drop_zero] at hcons

theorem Seated.pairs_eq (h : Seated sm) : sm.pairs = entries 1 (sm.slots.drop 1) := by
  rw [pairs, h.slots_eq]
  rfl

/-! ## `Iter` and `IntoIter` -/

theorem iter_nextLoop_cases (i : Nat) (l : List (Slot V)) :
    (entries i l = [] ∧ Iter.nextLoop (entries i l).length (l.zipIdx i) = .ok (none, ⟨0, []⟩)) ∨
    ∃ p j l', entries i l = p :: entries j l' ∧
      Iter.nextLoop (entries i l).length (l.zipIdx i) =
        .ok (some p, ⟨(entries j l').length, l'.zipIdx j⟩) := by
  induction l generalizing i with
  | nil => exact Or.inl ⟨rfl, rfl⟩
  | cons s rest ih =>
    cases s with
    | vacant => exact ih (i + 1)
    | occupied v version =>
      refine Or.inr ⟨_, i + 1, rest, rfl, ?_⟩
      simp only [entries, List.zipIdx_cons, Iter.nextLoop, List.length_cons]
      rw [expect_checkedSub _ (Nat.le_add_left 1 _)]
      rfl

theorem iter_take_spec (n : Nat) (i : Nat) (l : List (Slot V)) :
    ∃ it, Iter.take n ⟨(entries i l).length, l.zipIdx i⟩ =
        .ok ((countdown (entries i l)).take n, it) ∧
      it.numLeft = (entries i l).length - n := by
  induction n generalizing i l with
  | zero => exact ⟨_, rfl, rfl⟩
  | succ n ih =>
    unfold Iter.take Iter.next
    rcases iter_nextLoop_cases i l with ⟨hnil, heq⟩ | ⟨p, j, l', hcons, heq⟩
    · rw [heq, hnil]
      exact ⟨⟨0, []⟩, rfl, by simp⟩
    · obtain ⟨it, htake, hleft⟩ := ih j l'
      rw [heq, hcons]
      simp only [ok_bind, htake]
      refine ⟨it, rfl, ?_⟩
      rw [hleft, List.length_cons]
      omega

/-- `iter` yields the pairs of the map, with an exact remaining count. -/
theorem iter_spec (h : Wf sm) (n : Nat) : ∃ it, sm.iter.take n =
    .ok ((countdown sm.pairs).take n, it) ∧ it.numLeft = sm.pairs.length - n := by
  rw [iter, ← h.pairs_length]
  exact iter_take_spec n 0 sm.slots

/-- So does `into_iter`, when the slot that it steps over is vacant. -/
theorem intoIter_spec (h : Wf sm) (hseat : Seated sm) (n : Nat) : ∃ it, sm.intoIter.take n =
    .ok ((countdown sm.pairs).take n, it) ∧ it.numLeft = sm.pairs.length - n := by
  have hiter : sm.intoIter = ⟨sm.pairs.length, (sm.slots.drop 1).zipIdx 1⟩ := by
    rw [intoIter, h.pairs_length, hseat.slots_eq]
    simp
  rw [hiter, hseat.pairs_eq]
  exact iter_take_spec n 1 _

/-! ## `Drain` -/

/-- A cursor with the entries it has still to yield, and how many elements it will not come to. -/
structure Remaining (sm : SecondaryMap V) (cur : Nat) (es : List (KeyData × V)) (missed : Nat) :
    Prop where
  wf : Wf sm
  cur_le : cur ≤ sm.slots.length
  entries_eq : entries cur (sm.slots.drop cur) = es
  count : sm.numElems = es.length + missed

theorem Remaining.skip {cur missed : Nat} {es : List (KeyData × V)}
    (h : Remaining sm cur es missed) (hs : sm.slots[cur]? = some .vacant) :
    Remaining sm (cur + 1) es missed := by
  have heq := h.entries_eq
  rw [drop_eq_cons hs] at heq
  exact ⟨h.wf, (List.getElem?_eq_some_iff.mp hs).1, heq, h.count⟩

theorem drainNextLoop_cases {n cur missed : Nat} {es : List (KeyData × V)}
    (h : Remaining sm cur es missed) (hn : sm.slots.length = cur + n) :
    (es = [] ∧ ∃ cur', drainNextLoop n cur sm = .ok (none, cur', sm) ∧
      Remaining sm cur' [] missed) ∨
    ∃ p rest cur' sm' idx, es = p :: rest ∧ drainNextLoop n cur sm = .ok (some p, cur', sm') ∧
      Elem sm (.vacate idx) sm' ∧ Remaining sm' cur' rest missed := by
  induction n generalizing cur with
  | zero =>
    have heq := h.entries_eq
    rw [List.drop_eq_nil_of_le (by omega)] at heq
    subst heq
    exact Or.inl ⟨rfl, cur, rfl, h⟩
  | succ n ih =>
    have hlt : cur < sm.slots.length := by omega
    have hs : sm.slots[cur]? = some sm.slots[cur] := List.getElem?_eq_getElem hlt
    have hcursor : expect "cursor below slot length" (checkedAdd usizeMax cur 1) =
        .ok (cur + 1) := by
      have hlen := h.wf.slots_le
      apply expect_checkedAdd
      simp only [u32Max] at hlen
      unfold usizeMax
      omega
    simp only [drainNextLoop, hs, hcursor, ok_bind]
    cases hslot : sm.slots[cur] with
    | vacant =>
      rw [hslot] at hs
      exact ih (h.skip hs) (by omega)
    | occupied value version =>
      rw [hslot] at hs
      have heq := h.entries_eq
      rw [drop_eq_cons hs] at heq
      obtain ⟨hvacate, helem⟩ := vacate_spec h.wf hs
      refine Or.inr ⟨_, _, cur + 1, _, cur, heq.symm, ?_, helem, h.wf.elem helem, ?_, ?_, ?_⟩
      · simp only [hvacate, ok_bind]
      · rw [List.length_set]
        exact hlt
      · rw [drop_set_succ]
      · have hcount := h.count
        rw [← heq, entries, List.length_cons] at hcount
        dsimp only
        omega

/-- What an iterator shows that will not come to some of the elements it counts. -/
def countdownWith (missed : Nat) (es : List (KeyData × V)) : List ((KeyData × V) × Nat) :=
  (countdown es).map fun p => (p.1, p.2 + missed)

theorem countdownWith_length (missed : Nat) (es : List (KeyData × V)) :
    (countdownWith missed es).length = es.length := by
  rw [countdownWith, List.length_map, countdown_length]

theorem countdownWith_zero (es : List (KeyData × V)) : countdownWith 0 es = countdown es :=
  List.map_id _

theorem drainTake_spec (n : Nat) {cur missed : Nat} {es : List (KeyData × V)}
    (h : Remaining sm cur es missed) : ∃ cur' sm' cs,
      drainTake n cur sm = .ok ((countdownWith missed es).take n, cur', sm') ∧
      Run Elem sm cs sm' ∧ (∀ c ∈ cs, c.Above) ∧ Remaining sm' cur' (es.drop n) missed := by
  induction n generalizing sm cur es with
  | zero => exact ⟨cur, sm, [], rfl, .nil sm, by simp, h⟩
  | succ n ih =>
    have hlen : sm.slots.length = cur + (sm.slots.length - cur) := by
      have := h.cur_le
      omega
    unfold drainTake drainNext
    rcases drainNextLoop_cases h hlen with
      ⟨rfl, cur', heq, hrem⟩ | ⟨p, rest, cur', sm₁, idx, rfl, heq, hvacate, hrem⟩
    · rw [heq]
      exact ⟨cur', sm, [], rfl, .nil sm, by simp, hrem⟩
    · obtain ⟨cur'', sm', cs, htake, hrun, habove, hrem'⟩ := ih hrem
      rw [heq]
      simp only [ok_bind, htake, hrem.count]
      exact ⟨cur'', sm', .vacate idx :: cs, rfl, .cons hvacate hrun,
        List.forall_mem_cons.mpr ⟨trivial, habove⟩, hrem'⟩

theorem Remaining.length_le {cur missed : Nat} {es : List (KeyData × V)}
    (h : Remaining sm cur es missed) : es.length ≤ sm.slots.length - cur := by
  rw [← h.entries_eq, entries_length, ← List.length_drop]
  exact List.countP_le_length

/-- The entries of the slots that `drain` visits, and how many it does not come to. -/
theorem Wf.remaining_start (h : Wf sm) :
    ∃ missed, Remaining sm 1 (entries 1 (sm.slots.drop 1)) missed := by
  refine ⟨sm.numElems - (entries 1 (sm.slots.drop 1)).length, h, h.length_pos, rfl, ?_⟩
  have hle : (entries 1 (sm.slots.drop 1)).length ≤ sm.numElems := by
    rw [h.count, entries_length]
    exact List.Sublist.countP_le (List.drop_sublist 1 sm.slots)
  omega

theorem Seated.remaining_start (hseat : Seated sm) (h : Wf sm) : Remaining sm 1 sm.pairs 0 :=
  ⟨h, h.length_pos, hseat.pairs_eq.symm, h.pairs_length.symm⟩

theorem drain_of_remaining {es : List (KeyData × V)} {missed : Nat}
    (h : Remaining sm 1 es missed) (n : Nat) : ∃ sm' cs,
      sm.drain n = .ok ((countdownWith missed es).take n, countdownWith missed (es.drop n), sm') ∧
      Run Elem sm cs sm' ∧ (∀ c ∈ cs, c.Above) ∧ sm'.numElems = missed := by
  obtain ⟨cur, sm₁, cs₁, htake, hrun, habove, hrem⟩ := drainTake_spec n h
  obtain ⟨cur', sm₂, cs₂, htake', hrun', habove', hrem'⟩ :=
    drainTake_spec (sm₁.slots.length + 1 - cur) hrem
  have hall : (es.drop n).length ≤ sm₁.slots.length + 1 - cur := by
    have := hrem.length_le
    omega
  rw [List.take_of_length_le (by rw [countdownWith_length]; exact hall)] at htake'
  refine ⟨sm₂, cs₁ ++ cs₂, ?_, hrun.append hrun', ?_, ?_⟩
  · simp only [drain, htake, htake', ok_bind]
  · exact List.forall_mem_append.mpr ⟨habove, habove'⟩
  · have hcount := hrem'.count
    rw [List.drop_eq_nil_of_le hall] at hcount
    simpa using hcount

theorem Wf.lookup_of_empty (h : Wf sm) (hempty : sm.numElems = 0) (key : KeyData) :
    sm.lookup key = none := by
  have hpairs : sm.pairs = [] := List.eq_nil_of_length_eq_zero (h.pairs_length.trans hempty)
  cases hlookup : sm.lookup key with
  | none => rfl
  | some value =>
    have hmem := h.mem_pairs.mpr hlookup
    rw [hpairs] at hmem
    exact absurd hmem List.not_mem_nil

/-! ## `retain` -/

theorem retainLoop_spec (f : Nat → KeyData → V → Bool × V) (n i calls : Nat) {sm : SecondaryMap V}
    (h : Wf sm) : ∃ sm' cs, retainLoop f n i calls sm = .ok sm' ∧ Run Elem sm cs sm' ∧
      ∀ c ∈ cs, c.Above := by
  induction n generalizing i calls sm with
  | zero => exact ⟨sm, [], rfl, .nil sm, by simp⟩
  | succ n ih =>
    rcases hs : sm.slots[i]? with _ | ⟨value, version⟩ | _
    · simpa only [retainLoop, hs] using ih (i + 1) calls h
    · have hwrite := Elem.write (f calls (KeyData.new i version.val) value).2 hs
      have hkept := h.elem hwrite
      have hlt := (List.getElem?_eq_some_iff.mp hs).1
      by_cases hkeep : (f calls (KeyData.new i version.val) value).1 = true
      · obtain ⟨sm', cs, heq, hrun, habove⟩ := ih (i + 1) (calls + 1) hkept
        refine ⟨sm', _ :: cs, ?_, .cons hwrite hrun, List.forall_mem_cons.mpr ⟨trivial, habove⟩⟩
        simpa only [retainLoop, hs, hkeep, if_true] using heq
      · have hself : (sm.slots.set i (.occupied (f calls (KeyData.new i version.val) value).2
            version))[i]? = some (.occupied _ version) := List.getElem?_set_self hlt
        obtain ⟨hvacate, helem⟩ := vacate_spec hkept hself
        obtain ⟨sm', cs, heq, hrun, habove⟩ := ih (i + 1) (calls + 1) (hkept.elem helem)
        refine ⟨sm', _ :: _ :: cs, ?_, .cons hwrite (.cons helem hrun), ?_⟩
        · simp only [retainLoop, hs, hkeep, Bool.false_eq_true, if_false, hvacate, ok_bind, heq]
        · exact List.forall_mem_cons.mpr ⟨trivial, List.forall_mem_cons.mpr ⟨trivial, habove⟩⟩
    · simpa only [retainLoop, hs] using ih (i + 1) calls h

/-! ## New values in the same slots -/

/-- Slot by slot, the same version. -/
inductive SameShape : Slot V → Slot V → Prop where
  | occupied (value value' : V) (version : Version) :
      SameShape (.occupied value version) (.occupied value' version)
  | vacant : SameShape .vacant .vacant

theorem rewrite_run {done rest rest' : List (Slot V)} (h : List.Forall₂ SameShape rest rest')
    (capacity numElems : Nat) : ∃ cs,
      Run Elem ⟨done ++ rest, capacity, numElems⟩ cs ⟨done ++ rest', capacity, numElems⟩ ∧
        ∀ c ∈ cs, c.Above := by
  induction h generalizing done with
  | nil => exact ⟨[], .nil _, by simp⟩
  | @cons s s' rest rest' hs _ ih =>
    cases hs with
    | vacant =>
      have := @ih (done ++ [.vacant])
      simpa using this
    | occupied value value' version =>
      have hget : (done ++ .occupied value version :: rest)[done.length]? =
          some (.occupied value version) := by simp
      have hwrite := @Elem.write V ⟨done ++ .occupied value version :: rest, capacity, numElems⟩
        done.length value version value' hget
      have hset : (done ++ .occupied value version :: rest).set done.length
          (.occupied value' version) = done ++ [.occupied value' version] ++ rest := by simp
      rw [hset] at hwrite
      obtain ⟨cs, hrun, habove⟩ := @ih (done ++ [.occupied value' version])
      refine ⟨_ :: cs, .cons hwrite ?_, List.forall_mem_cons.mpr ⟨trivial, habove⟩⟩
      simpa using hrun

theorem zipIdx_shape {f : Slot V × Nat → Slot V} (hf : ∀ s idx, SameShape s (f (s, idx)))
    (i : Nat) (l : List (Slot V)) : List.Forall₂ SameShape l ((l.zipIdx i).map f) := by
  induction l generalizing i with
  | nil => exact .nil
  | cons s rest ih => exact .cons (hf s i) (ih (i + 1))

theorem iterMut_spec (write : KeyData → V → V) (sm : SecondaryMap V) :
    ∃ cs, Run Elem sm cs (sm.iterMut write) ∧ ∀ c ∈ cs, c.Above := by
  apply @rewrite_run V [] _ _ (zipIdx_shape ?_ 0 sm.slots) sm.capacity sm.numElems
  intro s idx
  cases s with
  | occupied value version => exact .occupied _ _ _
  | vacant => exact .vacant

theorem tryCloneSlots_shape {clone : Nat → V → Except E V} {i : Nat} {l l' : List (Slot V)}
    (h : tryCloneSlots clone i l = .ok l') : List.Forall₂ SameShape l l' := by
  induction l generalizing i l' with
  | nil =>
    obtain rfl := Except.ok.inj h
    exact .nil
  | cons s rest ih =>
    obtain ⟨s', hs, h⟩ := bind_eq_ok.mp h
    obtain ⟨rest', hrest, h⟩ := bind_eq_ok.mp h
    obtain rfl := Except.ok.inj h
    refine .cons ?_ (ih hrest)
    cases s with
    | vacant =>
      obtain rfl := Except.ok.inj hs
      exact .vacant
    | occupied value version =>
      rw [Slot.tryClone] at hs
      cases hclone : clone i value with
      | error e =>
        rw [hclone] at hs
        simp [Except.map] at hs
      | ok value' =>
        rw [hclone] at hs
        obtain rfl := Except.ok.inj hs
        exact .occupied _ _ _

theorem tryClone_spec [RawVec (Slot V)] {clone : Nat → V → Except E V} {a a' : Allocator}
    (h : sm.tryClone clone a = (.ok sm', a')) :
    ∃ cs, Run Elem sm cs sm' ∧ ∀ c ∈ cs, c.Above := by
  rcases hreserve : vecTryReserve (Slot V) 0 0 sm.slots.length a with ⟨e | capacity, a₁⟩
  · simp [SecondaryMap.tryClone, hreserve] at h
  · rcases hslots : tryCloneSlots clone 0 sm.slots with e | slots
    · simp [SecondaryMap.tryClone, hreserve, hslots] at h
    · obtain rfl : ⟨slots, capacity, sm.numElems⟩ = sm' := by
        simpa [SecondaryMap.tryClone, hreserve, hslots] using congrArg Prod.fst h
      obtain ⟨cs, hrun, habove⟩ :=
        @rewrite_run V [] _ _ (tryCloneSlots_shape hslots) sm.capacity sm.numElems
      refine ⟨cs ++ [.resize], hrun.snoc (.resize _ capacity), ?_⟩
      exact List.forall_mem_append.mpr ⟨habove, by simp [Change.Above]⟩

/-! ## `eq` -/

/-- The same keys are bound, to values that are equal to their type's mind. -/
def SamePairs [BEq V] (sm other : SecondaryMap V) : Prop :=
  (∀ key value, sm.lookup key = some value →
    ∃ ov, other.lookup key = some ov ∧ (value == ov) = true) ∧
  ∀ key ov, other.lookup key = some ov →
    ∃ value, sm.lookup key = some value ∧ (value == ov) = true

def inOther [BEq V] (other : SecondaryMap V) (p : KeyData × V) : Bool :=
  match other.lookup p.1 with
  | some ov => p.2 == ov
  | none => false

theorem eqLoop_spec [BEq V] (other : SecondaryMap V) (fuel i : Nat) (l : List (Slot V))
    (hfuel : (entries i l).length < fuel) :
    eqLoop other fuel ⟨(entries i l).length, l.zipIdx i⟩ =
      .ok ((entries i l).all (inOther other)) := by
  induction fuel generalizing i l with
  | zero => omega
  | succ fuel ih =>
    unfold eqLoop Iter.next
    rcases iter_nextLoop_cases i l with ⟨hnil, heq⟩ | ⟨p, j, l', hcons, heq⟩
    · rw [heq, hnil]
      rfl
    · rw [heq, hcons]
      rw [hcons, List.length_cons] at hfuel
      simp only [ok_bind, get_eq, List.all_cons, inOther]
      rcases hlookup : other.lookup p.1 with _ | ov
      · rfl
      · dsimp only
        split
        · rename_i hsame
          rw [ih j l' (by omega), hsame]
          rfl
        · rename_i hdiff
          rw [Bool.not_eq_true] at hdiff
          rw [hdiff]
          rfl

theorem inOther_pairs [BEq V] {other : SecondaryMap V} (h : Wf sm) :
    sm.pairs.all (inOther other) = true ↔ ∀ key value, sm.lookup key = some value →
      ∃ ov, other.lookup key = some ov ∧ (value == ov) = true := by
  rw [List.all_eq_true]
  constructor
  · intro hall key value hlookup
    have hp := hall (key, value) (h.mem_pairs.mpr hlookup)
    rw [inOther] at hp
    split at hp
    · rename_i ov hov
      exact ⟨ov, hov, hp⟩
    · simp at hp
  · rintro hall ⟨key, value⟩ hp
    obtain ⟨ov, hov, hsame⟩ := hall key value (h.mem_pairs.mp hp)
    simp only [inOther, hov, hsame]

theorem mem_keys (h : Wf sm) {key : KeyData} :
    key ∈ sm.pairs.map Prod.fst ↔ ∃ value, sm.lookup key = some value := by
  constructor
  · intro hmem
    obtain ⟨⟨key', value⟩, hp, rfl⟩ := List.mem_map.mp hmem
    exact ⟨value, h.mem_pairs.mp hp⟩
  · rintro ⟨value, hlookup⟩
    exact List.mem_map.mpr ⟨(key, value), h.mem_pairs.mpr hlookup, rfl⟩

/-- Keys that are all bound by a map of the same size are all the keys of that map. -/
theorem keys_subset {other : SecondaryMap V} (h : Wf sm) (ho : Wf other)
    (hlen : sm.numElems = other.numElems)
    (hsub : ∀ key value, sm.lookup key = some value → ∃ ov, other.lookup key = some ov)
    {key : KeyData} {ov : V} (hov : other.lookup key = some ov) :
    ∃ value, sm.lookup key = some value := by
  have hkeys : sm.pairs.map Prod.fst ⊆ other.pairs.map Prod.fst := by
    intro k hk
    obtain ⟨value, hvalue⟩ := (mem_keys h).mp hk
    exact (mem_keys ho).mpr (hsub k value hvalue)
  have hsubperm := h.pairs_nodup.subperm hkeys
  have hperm := hsubperm.perm_of_length_le (by
    rw [List.length_map, List.length_map, h.pairs_length, ho.pairs_length, hlen])
  exact (mem_keys h).mp (hperm.mem_iff.mpr ((mem_keys ho).mpr ⟨ov, hov⟩))

theorem eq_iff [BEq V] {other : SecondaryMap V} (h : Wf sm) (ho : Wf other) :
    ∃ b, sm.eq other = .ok b ∧ (b = true ↔ SamePairs sm other) := by
  have hloop : eqLoop other (sm.slots.length + 1) sm.iter =
      .ok (sm.pairs.all (inOther other)) := by
    rw [iter, ← h.pairs_length]
    apply eqLoop_spec
    rw [entries_length]
    exact Nat.lt_succ_of_le List.countP_le_length
  by_cases hlen : sm.numElems = other.numElems
  · refine ⟨sm.pairs.all (inOther other), ?_, ?_⟩
    · simp [SecondaryMap.eq, hlen, hloop]
    · rw [inOther_pairs h]
      constructor
      · intro hfst
        refine ⟨hfst, fun key ov hov => ?_⟩
        have hbound : ∀ k v, sm.lookup k = some v → ∃ ov, other.lookup k = some ov := by
          intro k v hv
          obtain ⟨ov, hov, -⟩ := hfst k v hv
          exact ⟨ov, hov⟩
        obtain ⟨value, hvalue⟩ := keys_subset h ho hlen hbound hov
        obtain ⟨ov', hov', hsame⟩ := hfst key value hvalue
        rw [hov] at hov'
        obtain rfl := Option.some.inj hov'
        exact ⟨value, hvalue, hsame⟩
      · exact And.left
  · refine ⟨false, ?_, ?_⟩
    · simp [SecondaryMap.eq, hlen]
    · refine iff_of_false (by simp) fun hsame => hlen ?_
      have hperm : (sm.pairs.map Prod.fst).Perm (other.pairs.map Prod.fst) := by
        apply (List.perm_ext_iff_of_nodup h.pairs_nodup ho.pairs_nodup).mpr
        intro key
        rw [mem_keys h, mem_keys ho]
        constructor
        · rintro ⟨value, hvalue⟩
          obtain ⟨ov, hov, -⟩ := hsame.1 key value hvalue
          exact ⟨ov, hov⟩
        · rintro ⟨ov, hov⟩
          obtain ⟨value, hvalue, -⟩ := hsame.2 key ov hov
          exact ⟨value, hvalue⟩
      have := hperm.length_eq
      rwa [List.length_map, List.length_map, h.pairs_length, ho.pairs_length] at this

end Rustyfill.Secondary
