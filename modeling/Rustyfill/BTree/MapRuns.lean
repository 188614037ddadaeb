import Rustyfill.BTree.Addresses
import Rustyfill.BTree.Occupied

/-!
# Runs of a map

A map is a partial function on keys. Whatever a program does with a map, in whichever order, and
whichever requests the allocator refuses on the way, its outcomes are those of the partial function,
on which a refused insertion does nothing.
-/

namespace Rustyfill.BTree

open RawSlots Guarded Separated Transition

set_option autoImplicit false

variable {K V ε : Type}

/-! ## What a map is for -/

section
variable [DecidableEq K]

/-- The partial function with `value` at `key`. -/
def put (m : K → Option V) (key : K) (value : V) : K → Option V :=
  Function.update m key (some value)

def Default.make (default : Default K V ε) (key : K) : Except ε V :=
  match default with
  | .value v => .ok v
  | .made f => f ()
  | .madeOfKey f => f key

/-- What may come of an operation. Only an insertion at a key without a value may be refused; a
closure is called only there. -/
inductive Specified : (K → Option V) → Op K V ε × Outcome K V ε → (K → Option V) → Prop where
  | get (m : K → Option V) (key : K) : Specified m (.get key, .found (m key)) m
  | insert (m : K → Option V) (key : K) (value : V) :
    Specified m (.insert key value, .found (m key)) (put m key value)
  | insertRefused {m : K → Option V} {key : K} {value : V} : m key = none →
    Specified m (.insert key value, .refused none) m
  | insertGiveBack (m : K → Option V) (key : K) (value : V) :
    Specified m (.insertGiveBack key value, .found (m key)) (put m key value)
  | handBack {m : K → Option V} {key : K} {value : V} : m key = none →
    Specified m (.insertGiveBack key value, .refused (some (key, some value))) m
  | there {m : K → Option V} {key : K} {default : Default K V ε} {f : V → V} {v : V} :
    m key = some v → Specified m (.orInsert key default f, .reached v) (put m key (f v))
  | made {m : K → Option V} {key : K} {default : Default K V ε} {f : V → V} {v : V} :
    m key = none → default.make key = .ok v →
      Specified m (.orInsert key default f, .reached v) (put m key (f v))
  | closureFailed {m : K → Option V} {key : K} {default : Default K V ε} {f : V → V} {e : ε} :
    m key = none → default.make key = .error e →
      Specified m (.orInsert key default f, .failed key e) m
  | madeRefused {m : K → Option V} {key : K} {default : Default K V ε} {f : V → V} {v : V} :
    m key = none → default.make key = .ok v →
      Specified m (.orInsert key default f, .refused (some (key, some v))) m

theorem put_put (m : K → Option V) (key : K) (v v' : V) :
    put (put m key v) key v' = put m key v' := Function.update_idem ..

end

variable [LinearOrder K] {w w' : World K V} {key : K} {value v : V} {m : K → Option V}
  {seq pre post : List (K × V)} {handle : Handle}

/-! ## The graph of a partial function -/

def Graph (seq : List (K × V)) (m : K → Option V) : Prop := ∀ k v, (k, v) ∈ seq ↔ m k = some v

omit [LinearOrder K] in
theorem Graph.absent (hm : Graph seq m) (hkey : m key = none) : Absent key seq := by
  rintro ⟨k, v⟩ he rfl
  have hsome := (hm k v).mp he
  rw [hkey] at hsome
  cases hsome

theorem graph_put (hpre : ∀ e ∈ pre, e.1 < key) (hpost : ∀ e ∈ post, key < e.1)
    (hm : ∀ k v, k ≠ key → ((k, v) ∈ pre ++ post ↔ m k = some v)) :
    Graph (pre ++ (key, value) :: post) (put m key value) := by
  intro k v
  have hmem : (k, v) ∈ pre ++ (key, value) :: post ↔ (k, v) = (key, value) ∨ (k, v) ∈ pre ++ post :=
    List.perm_middle.mem_iff.trans List.mem_cons
  rw [hmem, put]
  by_cases hk : k = key
  · subst hk
    rw [Function.update_self]
    constructor
    · rintro (heq | he)
      · cases heq
        rfl
      · rcases List.mem_append.mp he with he | he
        · exact absurd rfl (hpre _ he).ne
        · exact absurd rfl (hpost _ he).ne
    · intro heq
      exact .inl (by rw [Option.some.inj heq])
  · rw [Function.update_of_ne hk, ← hm k v hk]
    exact or_iff_right fun heq => hk (Prod.ext_iff.mp heq).1

/-- The heap represents the partial function. -/
def Represents (w : World K V) (m : K → Option V) : Prop := ∃ seq, IsMap w seq ∧ Graph seq m

def At (w : World K V) (m : K → Option V) (handle : Handle) (key : K) (v : V) : Prop :=
  ∃ seq, IsMap w seq ∧ Graph seq m ∧ Refers w handle (key, v) seq

theorem At.represents (hat : At w m handle key v) : Represents w m := by
  obtain ⟨seq, hw, hm, -⟩ := hat
  exact ⟨seq, hw, hm⟩

/-! ## References -/

theorem At.readValue {Q : V → World K V → Prop} {E : Exit K V → World K V → Prop}
    (hat : At w m handle key v) : (readValue handle).Meets w Q E ↔ Q v w := by
  obtain ⟨_, _, _, _, _, hloc, _⟩ := hat
  exact readValue_meets hloc

theorem At.writeValue (hat : At w m handle key v) (value : V) :
    (writeValue handle value).Meets w (fun _ w' => At w' (put m key value) handle key value)
      (fun _ _ => False) := by
  obtain ⟨seq, hw, hm, pre, post, hloc, rfl⟩ := hat
  apply (writeValue_spec hloc value).mono
  · rintro _ w' ⟨hloc', hmap, -⟩
    obtain ⟨H, t, htree, hseq⟩ := hloc'.onHeap
    have hsorted := hw.sorted
    obtain ⟨hleft, hright, hcross⟩ := List.pairwise_append.mp hsorted
    obtain ⟨hpost, hright⟩ := List.pairwise_cons.mp hright
    have hpre : ∀ e ∈ pre, e.1 < key := fun e he => hcross e he _ List.mem_cons_self
    refine ⟨pre ++ (key, value) :: post, ⟨?_, ?_, htree.beyond, .inr ⟨H, t, htree, hseq⟩⟩, ?_,
      pre, post, hloc', rfl⟩
    · refine Sorted.insert (List.pairwise_append.mpr ⟨hleft, hright, ?_⟩) hpre hpost
      exact fun a ha b hb => hcross a ha b (List.mem_cons_of_mem _ hb)
    · rw [hmap, hw.length]
      simp only [List.length_append, List.length_cons]
    · refine graph_put hpre hpost fun k u hk => ?_
      rw [← hm k u]
      have hne : (k, u) ≠ (key, v) := fun heq => hk (Prod.ext_iff.mp heq).1
      exact ((List.perm_middle.mem_iff.trans List.mem_cons).trans (or_iff_right hne)).symm
  · intro _ _ h
    exact h

theorem At.occupiedInsert (hat : At w m handle key v) (value : V) :
    (OccupiedEntry.insert handle value).Meets w
      (fun old w' => old = v ∧ At w' (put m key value) handle key value) (fun _ _ => False) := by
  rw [OccupiedEntry.insert, Body.meets_bind, hat.readValue, Body.meets_bind]
  apply (hat.writeValue value).mono
  · intro _ w' h
    exact ⟨rfl, h⟩
  · intro _ _ h
    exact h

/-! ## Vacant entries -/

/-- The pair is handed back, with the map as it was, or the process is gone. -/
def Kept (w : World K V) (key : K) (value : V) (e : Exit K V) (w' : World K V) : Prop :=
  Refuses w.allocator ∧ (e = .fault .abort ∨
    (∃ err, e = .error key value err) ∧ w'.heap = w.heap ∧ w'.map = w.map)

omit [LinearOrder K] in
theorem HandsBack.kept {e : Exit K V} (hw : Refuses w.allocator) (h : HandsBack w key value e w') :
    Kept w key value e w' :=
  ⟨hw, .inr ⟨h.error, h.heap, h.map⟩⟩

omit [LinearOrder K] in
theorem tryInsertEmptyMap_kept (key : K) (value : V) :
    (tryInsertEmptyMap key value).Meets w (fun _ _ => True) (Kept w key value) := by
  rw [tryInsertEmptyMap, Body.meets_bind, tryNewLeaf, tryNew, Body.meets_bind, request_meets]
  generalize hg : w.allocator.request.1 = granted
  cases granted with
  | false => exact ⟨⟨0, hg⟩, .inr ⟨⟨⟨⟩, rfl⟩, rfl, rfl⟩⟩
  | true =>
    have hplaced : (w.asked.placed Node.newLeaf).heap w.next = some Node.newLeaf :=
      Function.update_self ..
    have hwritten : (do
        let n ← (Node.newLeaf : Node K V).writeKeyValue 0 key value
        return { n with len := 1 }) = some { (Node.newLeaf : Node K V) with
          len := 1, keys := Slots.uninit.write 0 key, vals := Slots.uninit.write 0 value } := by
      simp [Node.writeKeyValue, writeIn, capacity, Node.newLeaf]
    change Body.Meets (modify w.next _ >>= _) (w.asked.placed Node.newLeaf) _ _
    rw [Body.meets_bind, modify_meets hplaced hwritten]
    trivial

omit [LinearOrder K] in
theorem tryInsertIntoExisting_kept {l : Tree K V} {fs : List (Frame K V)} {i : Nat}
    (hw : OnHeap w fs.length (Path.plug fs l)) (hi : i ≤ l.entries.length) :
    (tryInsertIntoExisting ⟨⟨0, l.addr⟩, i⟩ key value).Meets w (fun _ _ => True)
      (Kept w key value) := by
  obtain ⟨link, hl, -⟩ := Path.Holds.unplug (Nat.zero_add _) hw.holds
  obtain ⟨hleaf, -⟩ := Path.Shaped.unplug (Nat.zero_add _) hw.shaped
  rw [tryInsertIntoExisting, Body.meets_bind, nodeLen_meets hl]
  by_cases hroom : l.entries.length < capacity
  · rw [if_pos hroom]
    apply (insertIntoLeaf_spec hw hroom hi).mono
    · intro _ _ _
      trivial
    · intro _ _ h
      exact h.elim
  · rw [if_neg hroom]
    apply (tryInsertWithSplit_spec hw (Nat.le_antisymm hleaf.2 (Nat.le_of_not_lt hroom)) hi).mono
    · intro _ _ _
      trivial
    · rintro e w' ⟨hrefuses, ⟨-, rfl⟩ | ⟨-, hback⟩⟩
      · exact ⟨hrefuses, .inl rfl⟩
      · exact hback.kept hrefuses

omit [LinearOrder K] in
theorem exists_path {h least : Nat} {t l : Tree K V} (hs : Tree.Shaped h least t)
    (hl : l ∈ t.leaves h) : ∃ fs, fs.length = h ∧ Path.plug fs l = t := by
  induction h generalizing t least with
  | zero =>
    obtain rfl := List.mem_singleton.mp hl
    exact ⟨[], rfl, rfl⟩
  | succ h ih =>
    obtain ⟨-, -, hlen, hchildren⟩ := hs
    obtain ⟨c, hc, hl⟩ := List.mem_flatMap.mp hl
    obtain ⟨fs, hfs, hplug⟩ := ih (hchildren c hc) hl
    obtain ⟨j, hj⟩ := List.getElem?_of_mem hc
    obtain ⟨hlt, -⟩ := List.getElem?_eq_some_iff.mp hj
    have hle : j ≤ t.entries.length := by omega
    refine ⟨fs ++ [t.frameAt j], by rw [List.length_append, hfs, List.length_singleton], ?_⟩
    rw [Path.plug_append, hplug]
    exact Tree.fill_frameAt hlen hle hj

omit [LinearOrder K] in
theorem Inserted.refers {kv : K × V} {r : NodeRef × Nat} (h : Inserted w w' seq kv r) :
    Refers w' ⟨r.1, r.2⟩ kv seq := by
  obtain ⟨-, H, t, htree, rfl, l, hl, hnode, hkv⟩ := h
  obtain ⟨fs, rfl, rfl⟩ := exists_path htree.shaped hl
  have hrefers := refers_plug (h := 0) (by rwa [Nat.zero_add]) hkv
  rw [Nat.zero_add] at hrefers
  rwa [hnode]

def Aborted (w : World K V) (e : Exit K V) : Prop := e = .fault .abort ∧ Refuses w.allocator

/-- The place of an absent key: an insertion there puts the pair, or hands it back. -/
def VacantAt (w : World K V) (m : K → Option V) (handle : Option Handle) (key : K) : Prop :=
  ∀ value, (VacantEntry.tryInsertGiveBack handle key value).Meets w
    (fun r w' => (∃ occupied, r = .ok occupied ∧ At w' (put m key value) occupied key value) ∨
      ∃ err, r = .error (key, value, err) ∧ Represents w' m ∧ Refuses w.allocator)
    (fun e _ => Aborted w e)

/-- What an insertion into the sequence between `pre` and `post` comes to. -/
theorem vacantAt_of_inserts {handle : Option Handle} (pre post : List (K × V))
    (hw : IsMap w (pre ++ post)) (hm : Graph (pre ++ post) m) (hpre : ∀ e ∈ pre, e.1 < key)
    (hpost : ∀ e ∈ post, key < e.1)
    (hinserts : ∀ value, (tryInsertKv handle key value).Meets w
      (fun r w' => Inserted w w' (pre ++ (key, value) :: post) (key, value) r)
      (Kept w key value)) : VacantAt w m handle key := by
  intro value
  have hgrows : w.next ≤ (tryInsertKv handle key value w).2.next := grows_tryInsertKv w
  have hmeets := hinserts value
  rw [VacantEntry.tryInsertGiveBack, Body.meets_bind]
  simp only [Body.Meets, attempt] at hmeets ⊢
  rcases htry : tryInsertKv handle key value w with ⟨e | ⟨node, idx⟩, w'⟩
  · rw [htry] at hmeets hgrows
    obtain ⟨hrefuses, rfl | ⟨⟨err, rfl⟩, hheap, hmap⟩⟩ := hmeets
    · exact ⟨rfl, hrefuses⟩
    · refine .inr ⟨err, rfl, ⟨pre ++ post, ⟨hw.sorted, hmap ▸ hw.length, ?_, ?_⟩, hm⟩, hrefuses⟩
      · intro q hq
        rw [hheap]
        exact hw.beyond q (hgrows.trans hq)
      · rcases hw.tree with ⟨hroot, hseq⟩ | ⟨H, t, htree, hseq⟩
        · exact .inl ⟨hmap ▸ hroot, hseq⟩
        · refine .inr ⟨H, t, ⟨hmap ▸ htree.root, hheap ▸ htree.holds, htree.shaped, htree.nodup,
            ?_⟩, hseq⟩
          intro q hq
          rw [hheap]
          exact htree.beyond q (hgrows.trans hq)
  · rw [htry] at hmeets
    refine .inl ⟨⟨node, idx⟩, rfl, pre ++ (key, value) :: post, hmeets.isMap hw hpre hpost,
      graph_put hpre hpost fun k u _ => hm k u, hmeets.refers⟩

theorem entry_meets (hw : Represents w m) : (entry key).Meets w
    (fun r w' => w' = w ∧
      ((∃ handle v, r = .occupied handle ∧ m key = some v ∧ At w m handle key v) ∨
        ∃ handle, r = .vacant handle ∧ m key = none ∧ VacantAt w m handle key))
    (fun _ _ => False) := by
  obtain ⟨seq, hw, hm⟩ := hw
  cases hkey : m key with
  | some v =>
    obtain ⟨handle, ⟨k, u⟩, hentry, rfl, hrefers⟩ := entry_occupied hw ((hm key v).mpr hkey) rfl
    have hu : m k = some u := by
      obtain ⟨pre, post, -, rfl⟩ := hrefers
      exact (hm k u).mp (List.mem_append_right _ List.mem_cons_self)
    rw [Body.Meets, hentry]
    refine ⟨rfl, .inl ⟨handle, u, rfl, ?_, seq, hw, hm, hrefers⟩⟩
    rw [← hkey, hu]
  | none =>
    have habsent := hm.absent hkey
    rcases hw.tree with ⟨hroot, rfl⟩ | ⟨H, t, htree, rfl⟩
    · rw [entry, Body.meets_bind, world_meets, hroot]
      refine ⟨rfl, .inr ⟨none, rfl, rfl, ?_⟩⟩
      refine vacantAt_of_inserts [] [] hw hm (by simp) (by simp) fun value => ?_
      apply ((tryInsertEmptyMap_spec hw.length hw.beyond).and
        (tryInsertEmptyMap_kept key value)).mono
      · exact fun _ _ h => h.1
      · exact fun _ _ h => h.2
    · obtain ⟨fs, l, i, pre, post, hpos, hgoes⟩ :=
        searchTree_meets htree.holds htree.shaped hw.sorted habsent
      obtain ⟨rfl, rfl, hi, hseq, hinsert, hpre, hpost⟩ := hpos
      rw [entry, Body.meets_bind, world_meets, htree.root]
      dsimp only
      rw [Body.meets_bind, hgoes]
      refine ⟨rfl, .inr ⟨_, rfl, rfl, ?_⟩⟩
      rw [hseq] at hw hm
      refine vacantAt_of_inserts pre post hw hm hpre hpost fun value => ?_
      apply ((tryInsertIntoExisting_spec htree hi).and (tryInsertIntoExisting_kept htree hi)).mono
      · intro r w' h
        rw [← hinsert]
        exact h.1
      · exact fun _ _ h => h.2

/-! ## The methods -/

/-- How an operation may end: as specified, and refused only where the allocator refused. -/
def Ended (w : World K V) (m : K → Option V) (op : Op K V ε) (out : Outcome K V ε)
    (w' : World K V) : Prop :=
  (∃ m', Specified m (op, out) m' ∧ Represents w' m') ∧
    ((∃ back, out = .refused back) → Refuses w.allocator)

def Performs (p : Routine K V (Outcome K V ε)) (w : World K V) (m : K → Option V)
    (op : Op K V ε) : Prop :=
  p.Meets w (Ended w m op) fun e _ => Aborted w e

section
variable {op : Op K V ε}

theorem VacantAt.tryInsert {handle : Option Handle} (h : VacantAt w m handle key) (value : V) :
    (VacantEntry.tryInsert handle key value).Meets w
      (fun r w' => (∃ occupied, r = .ok occupied ∧ Represents w' (put m key value)) ∨
        ∃ err, r = .error err ∧ Represents w' m ∧ Refuses w.allocator)
      (fun e _ => Aborted w e) := by
  rw [VacantEntry.tryInsert, Body.meets_bind]
  apply (h value).mono
  · rintro r w' (⟨occupied, rfl, hat⟩ | ⟨err, rfl, hrest⟩)
    · exact .inl ⟨occupied, rfl, hat.represents⟩
    · exact .inr ⟨err, rfl, hrest⟩
  · intro _ _ h
    exact h

theorem get_meets (hw : Represents w m) : (BTreeMap.get key).Meets w
    (fun v w' => v = m key ∧ w' = w) (fun _ _ => False) := by
  rw [BTreeMap.get, Body.meets_bind]
  apply (entry_meets hw).mono
  · rintro r w' ⟨rfl, ⟨handle, v, rfl, hkey, hat⟩ | ⟨handle, rfl, hkey, -⟩⟩
    · dsimp only
      rw [Body.meets_bind, hat.readValue]
      exact ⟨hkey.symm, rfl⟩
    · exact ⟨hkey.symm, rfl⟩
  · intro _ _ h
    exact h

theorem tryInsert_meets (hw : Represents w m) (value : V) : (BTreeMap.tryInsert key value).Meets w
    (fun r w' => r = .ok (m key) ∧ Represents w' (put m key value) ∨
      ∃ err, r = .error err ∧ m key = none ∧ Represents w' m ∧ Refuses w.allocator)
    (fun e _ => Aborted w e) := by
  rw [BTreeMap.tryInsert, Body.meets_bind]
  apply (entry_meets hw).mono
  · rintro r w' ⟨rfl, ⟨handle, v, rfl, hkey, hat⟩ | ⟨handle, rfl, hkey, hvacant⟩⟩
    · dsimp only
      rw [Body.meets_bind]
      apply (hat.occupiedInsert value).mono
      · rintro _ w'' ⟨rfl, hat'⟩
        exact .inl ⟨by rw [hkey], hat'.represents⟩
      · intro _ _ h
        exact h.elim
    · dsimp only
      rw [Body.meets_bind]
      apply (hvacant.tryInsert value).mono
      · rintro _ w'' (⟨occupied, rfl, hput⟩ | ⟨err, rfl, hrest⟩)
        · exact .inl ⟨by rw [hkey], hput⟩
        · exact .inr ⟨err, rfl, hkey, hrest⟩
      · intro _ _ h
        exact h
  · intro _ _ h
    exact h.elim

theorem tryInsertGiveBack_meets (hw : Represents w m) (value : V) :
    (BTreeMap.tryInsertGiveBack key value).Meets w
      (fun r w' => r = .ok (m key) ∧ Represents w' (put m key value) ∨
        ∃ err, r = .error (key, value, err) ∧ m key = none ∧ Represents w' m ∧ Refuses w.allocator)
      (fun e _ => Aborted w e) := by
  rw [BTreeMap.tryInsertGiveBack, Body.meets_bind]
  apply (entry_meets hw).mono
  · rintro r w' ⟨rfl, ⟨handle, v, rfl, hkey, hat⟩ | ⟨handle, rfl, hkey, hvacant⟩⟩
    · dsimp only
      rw [Body.meets_bind]
      apply (hat.occupiedInsert value).mono
      · rintro _ w'' ⟨rfl, hat'⟩
        exact .inl ⟨by rw [hkey], hat'.represents⟩
      · intro _ _ h
        exact h.elim
    · dsimp only
      rw [Body.meets_bind]
      apply (hvacant value).mono
      · rintro _ w'' (⟨occupied, rfl, hat⟩ | ⟨err, rfl, hrest⟩)
        · exact .inl ⟨by rw [hkey], hat.represents⟩
        · exact .inr ⟨err, rfl, hkey, hrest⟩
      · intro _ _ h
        exact h
  · intro _ _ h
    exact h.elim

theorem At.change (hat : At w m handle key v) (f : V → V) :
    (change handle f : Routine K V (Outcome K V ε)).Meets w
      (fun out w' => out = .reached v ∧ Represents w' (put m key (f v))) (fun _ _ => False) := by
  rw [BTree.change, Body.meets_bind, hat.readValue, Body.meets_bind]
  apply (hat.writeValue (f v)).mono
  · intro _ w' h
    exact ⟨rfl, h.represents⟩
  · intro _ _ h
    exact h

/-- An insertion at a vacant entry, and what is done with the reference to it. -/
theorem VacantAt.reaches {handle : Option Handle} {default : Default K V ε} {f : V → V}
    (h : VacantAt w m handle key) (hkey : m key = none) (hmake : default.make key = .ok value) :
    (VacantEntry.tryInsertGiveBack handle key value).Meets w
      (fun r w' =>
        (∃ occupied, r = .ok occupied ∧ (change occupied f).Meets w'
          (Ended w m (.orInsert key default f)) fun e _ => Aborted w e) ∨
        ∃ err, r = .error (key, value, err) ∧
          Ended w m (.orInsert key default f) (.refused (some (key, some value))) w')
      (fun e _ => Aborted w e) := by
  apply (h value).mono
  · rintro _ w' (⟨occupied, rfl, hat⟩ | ⟨err, rfl, hw', hrefuses⟩)
    · refine .inl ⟨occupied, rfl, ?_⟩
      apply (hat.change f).mono
      · rintro _ w'' ⟨rfl, hw''⟩
        rw [put_put] at hw''
        exact ⟨⟨_, .made hkey hmake, hw''⟩, fun ⟨_, hout⟩ => by cases hout⟩
      · intro _ _ h
        exact h.elim
    · exact .inr ⟨err, rfl, ⟨m, .madeRefused hkey hmake, hw'⟩, fun _ => hrefuses⟩
  · intro _ _ h
    exact h

/-- The three ways to get at an entry differ in where the default comes from. -/
theorem performs_orInsert (hw : Represents w m) (default : Default K V ε) (f : V → V) :
    Performs (orInsert key f default) w m (.orInsert key default f) := by
  have hthere {handle : Handle} {v : V} (hkey : m key = some v) (hat : At w m handle key v) :
      Performs (change handle f) w m (.orInsert key default f) := by
    apply (hat.change f).mono
    · rintro _ w' ⟨rfl, hw'⟩
      exact ⟨⟨_, .there hkey, hw'⟩, fun ⟨_, hout⟩ => by cases hout⟩
    · intro _ _ h
      exact h.elim
  have hfailed {e : ε} (hkey : m key = none) (hmake : default.make key = .error e) :
      Ended w m (.orInsert key default f) (.failed key e) w :=
    ⟨⟨m, .closureFailed hkey hmake, hw⟩, fun ⟨_, hout⟩ => by cases hout⟩
  cases default with
  | value v =>
    rw [orInsert, Performs, Body.meets_bind]
    apply (entry_meets hw).mono
    · rintro r w' ⟨rfl, ⟨handle, u, rfl, hkey, hat⟩ | ⟨handle, rfl, hkey, hvacant⟩⟩
      · exact hthere hkey hat
      · have hmake : (Default.value v : Default K V ε).make key = .ok v := rfl
        rw [Body.meets_bind, Entry.orTryInsertGiveBack, Body.meets_bind]
        apply (hvacant.reaches hkey hmake).mono
        · rintro _ w' (⟨occupied, rfl, hreach⟩ | ⟨err, rfl, hend⟩)
          · exact hreach
          · exact hend
        · intro _ _ h
          exact h
    · intro _ _ h
      exact h.elim
  | made g =>
    rw [orInsert, Performs, Body.meets_bind]
    apply (entry_meets hw).mono
    · rintro r w' ⟨rfl, ⟨handle, u, rfl, hkey, hat⟩ | ⟨handle, rfl, hkey, hvacant⟩⟩
      · exact hthere hkey hat
      · rw [Body.meets_bind, Entry.orTryInsertWithGiveBack]
        cases hg : g () with
        | error e => exact hfailed hkey hg
        | ok value =>
          have hmake : (Default.made g : Default K V ε).make key = .ok value := hg
          dsimp only
          rw [Body.meets_bind]
          apply (hvacant.reaches hkey hmake).mono
          · rintro _ w' (⟨occupied, rfl, hreach⟩ | ⟨err, rfl, hend⟩)
            · exact hreach
            · exact hend
          · intro _ _ h
            exact h
    · intro _ _ h
      exact h.elim
  | madeOfKey g =>
    rw [orInsert, Performs, Body.meets_bind]
    apply (entry_meets hw).mono
    · rintro r w' ⟨rfl, ⟨handle, u, rfl, hkey, hat⟩ | ⟨handle, rfl, hkey, hvacant⟩⟩
      · exact hthere hkey hat
      · rw [Body.meets_bind, Entry.orTryInsertWithKeyGiveBack]
        cases hg : g key with
        | error e => exact hfailed hkey hg
        | ok value =>
          have hmake : (Default.madeOfKey g : Default K V ε).make key = .ok value := hg
          dsimp only
          rw [Body.meets_bind]
          apply (hvacant.reaches hkey hmake).mono
          · rintro _ w' (⟨occupied, rfl, hreach⟩ | ⟨err, rfl, hend⟩)
            · exact hreach
            · exact hend
          · intro _ _ h
            exact h
    · intro _ _ h
      exact h.elim

theorem performs_perform (hw : Represents w m) (op : Op K V ε) : Performs (perform op) w m op := by
  cases op with
  | get key =>
    rw [perform, Performs, Body.meets_bind]
    apply (get_meets hw).mono
    · rintro _ w' ⟨rfl, rfl⟩
      exact ⟨⟨m, .get m key, hw⟩, fun ⟨_, hout⟩ => by cases hout⟩
    · intro _ _ h
      exact h.elim
  | insert key value =>
    rw [perform, Performs, Body.meets_bind]
    apply (tryInsert_meets hw value).mono
    · rintro _ w' (⟨rfl, hw'⟩ | ⟨err, rfl, hkey, hw', hrefuses⟩)
      · exact ⟨⟨_, .insert m key value, hw'⟩, fun ⟨_, hout⟩ => by cases hout⟩
      · exact ⟨⟨m, .insertRefused hkey, hw'⟩, fun _ => hrefuses⟩
    · intro _ _ h
      exact h
  | insertGiveBack key value =>
    rw [perform, Performs, Body.meets_bind]
    apply (tryInsertGiveBack_meets hw value).mono
    · rintro _ w' (⟨rfl, hw'⟩ | ⟨err, rfl, hkey, hw', hrefuses⟩)
      · exact ⟨⟨_, .insertGiveBack m key value, hw'⟩, fun ⟨_, hout⟩ => by cases hout⟩
      · exact ⟨⟨m, .handBack hkey, hw'⟩, fun _ => hrefuses⟩
    · intro _ _ h
      exact h
  | orInsert key default f => exact performs_orInsert hw default f

end

/-! ## Runs -/

/-- An operation that returns, with its outcome. -/
def Does (w : World K V) (step : Op K V ε × Outcome K V ε) (w' : World K V) : Prop :=
  perform step.1 w = (.ok step.2, w')

theorem does_refines : Refines (Does (ε := ε)) Specified (Represents (K := K) (V := V)) := by
  rintro w m ⟨op, out⟩ w' hw hstep
  have hmeets := performs_perform hw op
  rw [Performs, Body.Meets, hstep] at hmeets
  exact hmeets.1

/-- However many requests are refused in a run, its outcomes are those of a partial function, which
the tree on the heap is the graph of at the end; and there the next operation is refused, or the
process gone, only because the allocator refused a request. -/
theorem map_runs (w w' : World K V) (m : K → Option V) (steps : List (Op K V ε × Outcome K V ε))
    (hw : Represents w m) (hrun : Run Does w steps w') :
    (∃ m', Run Specified m steps m' ∧ Represents w' m') ∧
      ∀ op : Op K V ε, (perform op).Meets w'
        (fun out _ => (∃ back, out = .refused back) → Refuses w'.allocator)
        (fun e _ => e = .fault .abort ∧ Refuses w'.allocator) := by
  obtain ⟨m', hrun', hw'⟩ := does_refines.run hrun hw
  refine ⟨⟨m', hrun', hw'⟩, fun op => ?_⟩
  exact (performs_perform hw' op).mono (fun _ _ h => h.2) fun _ _ h => h

/-- The map that was never inserted into. -/
def newMap (grants : Nat → Bool) : World Nat Nat where
  heap _ := none
  next := 0
  map := ⟨none, 0⟩
  allocator := ⟨grants, 0⟩
  cached _ := none
  events := []

theorem newMap_represents (grants : Nat → Bool) : Represents (newMap grants) fun _ => none :=
  ⟨[], ⟨.nil, rfl, fun _ _ => rfl, .inl ⟨rfl, rfl⟩⟩, fun _ _ => by simp⟩

/-- An insertion that is refused, one that is not, a value that is changed in place, and what is
there then. -/
def firstSteps : List (Op Nat Nat Empty × Outcome Nat Nat Empty) :=
  [(.insertGiveBack 1 10, .refused (some (1, some 10))), (.insert 1 20, .found none),
    (.orInsert 1 (.value 0) (· + 5), .reached 20), (.get 1, .found (some 25))]

theorem does_perform {op : Op K V ε} {out : Outcome K V ε} (h : (perform op w).1 = .ok out) :
    Does w (op, out) (perform op w).2 := Prod.ext h rfl

theorem map_runs_newMap : ∃ w' m', Run Specified (fun _ => none) firstSteps m' ∧
    Represents w' m' := by
  have hrun : ∃ w', Run Does (newMap fun k => k != 0) firstSteps w' :=
    ⟨_, .cons (does_perform rfl) (.cons (does_perform rfl) (.cons (does_perform rfl)
      (.single (does_perform rfl))))⟩
  obtain ⟨w', hrun⟩ := hrun
  exact ⟨w', (map_runs _ w' _ _ (newMap_represents _) hrun).1⟩

end Rustyfill.BTree
