import Rustyfill.DocJson.Lookup

/-!
# Which declared paths are resolved

What a path denotes, by the table of paths and by what the modules list. The lookup goes through
the items of a module in order and stops at the first that is not in the index or has the name it
looks for; the path is resolved where that item is the one that leads on.
-/

namespace Rustyfill.DocJson

set_option autoImplicit false

section
variable {Ty : Type} (crate : Crate Ty)

/-! ## What a path denotes -/

/-- An item of one of the kinds, by the index or by the table of paths. -/
def HasKind (kinds : ItemKind → Bool) (id : Id) : Prop :=
  (∃ item, crate.index id = some item ∧ kinds item.inner.itemKind = true) ∨
    ∃ summary, (id, summary) ∈ crate.paths ∧ kinds summary.kind = true

def Lists (modId id : Id) (item : Item Ty) : Prop :=
  ∃ items, moduleItems crate.index modId = some items ∧ id ∈ items ∧ crate.index id = some item

/-- A named re-export, which is no glob, of the item with an id. -/
def Reexports (item : Item Ty) (name : String) (id : Id) : Prop :=
  ∃ u, item.inner = .use u ∧ u.name = name ∧ u.isGlob = false ∧ u.id = some id

/-- In the module the name is that of the submodule, by itself or by an alias. -/
def NamesModule (modId : Id) (name : String) (sub : Id) : Prop :=
  isModule crate.index sub = true ∧
    ((∃ item, Lists crate modId sub item ∧ item.name = some name) ∨
      ∃ id item, Lists crate modId id item ∧ Reexports item name sub)

/-- In the module the name is that of the type, by its definition or by a re-export. -/
def NamesType (modId : Id) (name : String) (type : Id) : Prop :=
  (∃ item, Lists crate modId type item ∧ item.name = some name ∧
      item.inner.itemKind.isType = true) ∨
    ∃ id item, Lists crate modId id item ∧ Reexports item name type ∧
      HasKind crate ItemKind.isType type

def InTable (kinds : ItemKind → Bool) (path : List String) (id : Id) : Prop :=
  ∃ summary, (id, summary) ∈ crate.paths ∧ kinds summary.kind = true ∧
    join summary.path = join path

/-- The path leads to the module. -/
inductive ModuleAt (lib : String) : List String → Id → Prop where
  | root : ModuleAt lib [lib] crate.root
  | known {path : List String} {id : Id} : InTable crate (· == .module) path id →
      ModuleAt lib path id
  | sub {path : List String} {name : String} {modId id : Id} : ModuleAt lib path modId →
      NamesModule crate modId name id → ModuleAt lib (path ++ [name]) id

/-- The path leads to the type. -/
def Denotes (lib : String) (path : List String) (id : Id) : Prop :=
  InTable crate ItemKind.isType path id ∨
    ∃ front name modId, path = front ++ [name] ∧ ModuleAt crate lib front modId ∧
      NamesType crate modId name id

def DenotesOnly (lib : String) (path : List String) (id : Id) : Prop :=
  Denotes crate lib path id ∧ ∀ id', Denotes crate lib path id' → id' = id

/-- The lookup of a path is right: it finds the type that the path denotes, and what it finds is a
type, or a constant, which the table admits as one. -/
structure Resolves (debug : List String → String) (lib : String) (path : List String) : Prop where
  found : ∀ id, DenotesOnly crate lib path id → resolveTypeId crate debug path = .ok id
  isType : ∀ id, resolveTypeId crate debug path = .ok id → HasKind crate ItemKind.isTypeish id

/-! ## What the lookup stops at -/

/-- The item that ends the search for a type, and what it leads to. -/
def typeStop (name : String) (id : Id) : Option (Option Id) :=
  match crate.index id with
  | none => some none
  | some item =>
    if item.isNamed name && item.inner.itemKind.isType then some (some id)
    else
      match item.inner with
      | .use u => if u.name = name then some u.id else none
      | _ => none

/-- The item that ends the search for a submodule, and what it leads to. -/
def moduleStop (name : String) (id : Id) : Option (Option Id) :=
  match crate.index id with
  | none => some none
  | some item =>
    match item.inner with
    | .module _ => if item.isNamed name then some (some id) else none
    | .use u =>
      if u.name = name then
        match u.id with
        | none => some none
        | some target =>
          match crate.index target with
          | none => some none
          | some _ => if isModule crate.index target then some (some target) else none
      else none
    | _ => none

/-- The first item of the module that ends the search leads to `target`. -/
def FirstLeadsTo (stop : Id → Option (Option Id)) (modId target : Id) : Prop :=
  ∃ before id after, moduleItems crate.index modId = some (before ++ id :: after) ∧
    (∀ x ∈ before, stop x = none) ∧ stop id = some (some target)

/-- Every module on the way lists first what leads on, the last one what leads to the type. -/
def WayTo (id : Id) : Id → List String → Prop
  | _, [] => False
  | modId, [name] => FirstLeadsTo crate (typeStop crate name) modId id
  | modId, name :: rest => ∃ sub, FirstLeadsTo crate (moduleStop crate name) modId sub ∧
      WayTo id sub rest

def firstEntry (kinds : ItemKind → Bool) (path : List String) : Option Id :=
  (crate.paths.find? fun e => kinds e.2.kind && join e.2.path == join path).map Prod.fst

/-- The deepest proper prefix of the path that the table knows as a module, of two segments at
least. -/
def Deepest (path : List String) (n : Nat) (modId : Id) : Prop :=
  2 ≤ n ∧ n < path.length ∧ firstEntry crate (· == .module) (path.take n) = some modId ∧
    ∀ k, n < k → k < path.length → firstEntry crate (· == .module) (path.take k) = none

/-- Nothing is in the way of the lookup: the first entry of the table for the path is not that of
a constant of the same path; and where there is none, some prefix is known as a module, from which
every module on the way lists first what leads on, and no re-export of something else ends the
way. -/
structure Unobstructed (lib : String) (path : List String) : Prop where
  table : ∀ entry, firstEntry crate ItemKind.isTypeish path = some entry →
    ∀ id, DenotesOnly crate lib path id → id = entry
  way : firstEntry crate ItemKind.isTypeish path = none → ∀ id, DenotesOnly crate lib path id →
    ∃ n modId, Deepest crate path n modId ∧ WayTo crate id modId (path.drop n)
  noOther : firstEntry crate ItemKind.isTypeish path = none → ∀ n modId id,
    Deepest crate path n modId → WayTo crate id modId (path.drop n) →
      HasKind crate ItemKind.isTypeish id

end

/-! ## The path index -/

section
variable {Ty : Type} {crate : Crate Ty}

theorem join_ne_nil {a b : String} {rest : List String} : join (a :: b :: rest) ≠ "" := by
  intro h
  have hlen := congrArg String.length h
  simp [join, String.length_append] at hlen

theorem orInsert_apply {m : String → Option Id} {key key' : String} {id : Id} :
    orInsert m key id key' = if key' = key then some ((m key).getD id) else m key' := rfl

theorem foldl_types {paths : List (Id × ItemSummary)} {idx : PathIndex} {key : String}
    (hkey : key ≠ "") : (paths.foldl PathIndex.add idx).types key = (idx.types key).or
      ((paths.find? fun e => e.2.kind.isTypeish && join e.2.path == key).map Prod.fst) := by
  induction paths generalizing idx with
  | nil => simp
  | cons e paths ih =>
    rw [List.foldl_cons, ih, List.find?_cons, PathIndex.add]
    by_cases hjoin : join e.2.path = key
    · rw [hjoin, if_neg hkey]
      cases hk : e.2.kind.isTypeish with
      | true =>
        simp only [if_true, orInsert_apply, beq_self_eq_true, Bool.and_self]
        cases idx.types key <;> rfl
      | false =>
        simp only [Bool.false_and, Bool.false_eq_true, if_false]
        split <;> rfl
    · have hbeq : (join e.2.path == key) = false := beq_false_of_ne hjoin
      rw [hbeq, Bool.and_false]
      congr 1
      split_ifs
      · rfl
      · exact if_neg (Ne.symm hjoin)
      · rfl
      · rfl

theorem foldl_modules {paths : List (Id × ItemSummary)} {idx : PathIndex} {key : String}
    (hkey : key ≠ "") : (paths.foldl PathIndex.add idx).modules key = (idx.modules key).or
      ((paths.find? fun e => e.2.kind == .module && join e.2.path == key).map Prod.fst) := by
  induction paths generalizing idx with
  | nil => simp
  | cons e paths ih =>
    rw [List.foldl_cons, ih, List.find?_cons, PathIndex.add]
    by_cases hjoin : join e.2.path = key
    · rw [hjoin, if_neg hkey]
      by_cases hmodule : e.2.kind = .module
      · have htype : ItemKind.isTypeish .module = false := rfl
        rw [hmodule, htype, if_neg Bool.false_ne_true, if_pos rfl]
        simp only [orInsert_apply, if_true, beq_self_eq_true, Bool.and_self]
        cases idx.modules key <;> rfl
      · rw [if_neg hmodule, beq_false_of_ne hmodule, Bool.false_and]
        split_ifs <;> rfl
    · have hbeq : (join e.2.path == key) = false := beq_false_of_ne hjoin
      rw [hbeq, Bool.and_false]
      congr 1
      split_ifs
      · rfl
      · rfl
      · exact if_neg (Ne.symm hjoin)
      · rfl

variable {lib seg : String} {segs : List String}

theorem build_findType : (PathIndex.build crate.paths).findType (lib :: seg :: segs) =
    firstEntry crate ItemKind.isTypeish (lib :: seg :: segs) :=
  foldl_types join_ne_nil

theorem build_findModule {path : List String} {n : Nat} (hn : 2 ≤ n)
    (hpath : path = lib :: seg :: segs) :
    (PathIndex.build crate.paths).findModule (path.take n) =
      firstEntry crate (· == .module) (path.take n) := by
  obtain ⟨n, rfl⟩ : ∃ k, n = k + 2 := ⟨n - 2, by omega⟩
  rw [hpath, List.take_succ_cons, List.take_succ_cons]
  exact foldl_modules join_ne_nil

theorem deepestModule_eq_some {idx : PathIndex} {path : List String} {j n : Nat} {modId : Id} :
    deepestModule idx path j = some (n, modId) ↔ 2 ≤ n ∧ n ≤ j ∧
      idx.findModule (path.take n) = some modId ∧
        ∀ k, n < k → k ≤ j → idx.findModule (path.take k) = none := by
  induction j with
  | zero =>
    constructor
    · intro h
      cases h
    · rintro ⟨hn, hle, -⟩
      omega
  | succ j ih =>
    rw [deepestModule]
    split
    · next hlt =>
      constructor
      · intro h
        cases h
      · rintro ⟨hn, hle, -⟩
        omega
    · next hge =>
      cases hfind : idx.findModule (path.take (j + 1)) with
      | some m =>
        constructor
        · intro h
          cases h
          exact ⟨by omega, Nat.le_refl _, hfind, fun k hk hle => by omega⟩
        · rintro ⟨hn, hle, hm, hnone⟩
          by_cases heq : n = j + 1
          · subst heq
            rw [hfind] at hm
            cases hm
            rfl
          · rw [hnone (j + 1) (by omega) (Nat.le_refl _)] at hfind
            cases hfind
      | none =>
        dsimp only
        rw [ih]
        constructor
        · rintro ⟨hn, hle, hm, hnone⟩
          refine ⟨hn, by omega, hm, fun k hk hle => ?_⟩
          by_cases heq : k = j + 1
          · rw [heq, hfind]
          · exact hnone k hk (by omega)
        · rintro ⟨hn, hle, hm, hnone⟩
          have hne : n ≠ j + 1 := by
            rintro rfl
            rw [hfind] at hm
            cases hm
          exact ⟨hn, by omega, hm, fun k hk hle => hnone k hk (by omega)⟩

theorem deepest_iff {n : Nat} {modId : Id} :
    deepestModule (PathIndex.build crate.paths) (lib :: seg :: segs)
        ((lib :: seg :: segs).length - 1) = some (n, modId) ↔
      Deepest crate (lib :: seg :: segs) n modId := by
  have hpos : 0 < (lib :: seg :: segs).length := Nat.succ_pos _
  rw [deepestModule_eq_some, Deepest]
  constructor
  · rintro ⟨hn, hle, hm, hnone⟩
    rw [build_findModule hn rfl] at hm
    refine ⟨hn, by omega, hm, fun k hk hlt => ?_⟩
    rw [← build_findModule (by omega) rfl]
    exact hnone k hk (by omega)
  · rintro ⟨hn, hlt, hm, hnone⟩
    rw [← build_findModule hn rfl] at hm
    refine ⟨hn, by omega, hm, fun k hk hle => ?_⟩
    rw [build_findModule (by omega) rfl]
    exact hnone k hk (by omega)

/-! ## The walk -/

theorem scanForType_eq {name : String} {items : List Id} :
    scanForType crate.index name items = (items.findSome? (typeStop crate name)).join := by
  induction items with
  | nil => rfl
  | cons iid items ih =>
    rw [scanForType, List.findSome?_cons, typeStop]
    rcases crate.index iid with _ | ⟨id, itemName, visibility, attrs, inner⟩
    · rfl
    · dsimp only
      split_ifs
      · rfl
      · cases inner with
        | use u =>
          dsimp only
          split_ifs
          · rfl
          · exact ih
        | _ => exact ih

theorem scanForSubmodule_eq {name : String} {items : List Id} :
    scanForSubmodule crate.index name items = (items.findSome? (moduleStop crate name)).join := by
  induction items with
  | nil => rfl
  | cons iid items ih =>
    rw [scanForSubmodule, List.findSome?_cons, moduleStop]
    rcases crate.index iid with _ | ⟨id, itemName, visibility, attrs, inner⟩
    · rfl
    · cases inner with
      | module sub =>
        dsimp only
        split_ifs
        · rfl
        · exact ih
      | use u =>
        dsimp only
        split_ifs
        · rcases u.id with _ | target
          · rfl
          · dsimp only
            rcases crate.index target with _ | item
            · rfl
            · dsimp only
              split_ifs
              · rfl
              · exact ih
        · exact ih
      | _ => exact ih

theorem firstLeadsTo_iff {stop : Id → Option (Option Id)} {modId target : Id} :
    FirstLeadsTo crate stop modId target ↔
      ((moduleItems crate.index modId).bind fun items => (items.findSome? stop).join) =
        some target := by
  rw [FirstLeadsTo]
  cases moduleItems crate.index modId with
  | none =>
    constructor
    · rintro ⟨before, id, after, h, -⟩
      cases h
    · intro h
      cases h
  | some items =>
    rw [Option.bind_some, Option.join_eq_some_iff, List.findSome?_eq_some_iff]
    constructor
    · rintro ⟨before, id, after, h, hnone, hstop⟩
      exact ⟨before, id, after, Option.some.inj h, hstop, hnone⟩
    · rintro ⟨before, id, after, h, hstop, hnone⟩
      exact ⟨before, id, after, congrArg some h, hnone, hstop⟩

theorem findTypeInModule_iff {modId id : Id} {name : String} :
    findTypeInModule crate.index modId name = some id ↔
      FirstLeadsTo crate (typeStop crate name) modId id := by
  rw [firstLeadsTo_iff, findTypeInModule]
  simp only [← scanForType_eq]

theorem findSubmoduleInModule_iff {modId id : Id} {name : String} :
    findSubmoduleInModule crate.index modId name = some id ↔
      FirstLeadsTo crate (moduleStop crate name) modId id := by
  rw [firstLeadsTo_iff, findSubmoduleInModule]
  simp only [← scanForSubmodule_eq]

variable {debug : List String → String}

theorem navigate_iff {path names : List String} {modId id : Id} :
    navigate crate debug path modId names = .ok id ↔ WayTo crate id modId names := by
  induction names generalizing modId with
  | nil =>
    constructor
    · intro h
      cases h
    · exact False.elim
  | cons name rest ih =>
    cases rest with
    | nil =>
      rw [navigate, WayTo, ← findTypeInModule_iff]
      cases findTypeInModule crate.index modId name with
      | none =>
        constructor
        · intro h
          cases h
        · intro h
          cases h
      | some found => simp only [Except.ok.injEq, Option.some.injEq]
    | cons name' rest =>
      rw [navigate, WayTo]
      simp only [← findSubmoduleInModule_iff]
      cases findSubmoduleInModule crate.index modId name with
      | none =>
        constructor
        · intro h
          cases h
        · rintro ⟨sub, h, -⟩
          cases h
      | some sub =>
        rw [ih]
        constructor
        · exact fun h => ⟨sub, rfl, h⟩
        · rintro ⟨sub', h, hway⟩
          cases h
          exact hway
      · exact List.cons_ne_nil _ _
      · exact List.cons_ne_nil _ _

theorem resolveTypeId_iff {id : Id} :
    resolveTypeId crate debug (lib :: seg :: segs) = .ok id ↔
      firstEntry crate ItemKind.isTypeish (lib :: seg :: segs) = some id ∨
        firstEntry crate ItemKind.isTypeish (lib :: seg :: segs) = none ∧ ∃ n modId,
          Deepest crate (lib :: seg :: segs) n modId ∧
            WayTo crate id modId ((lib :: seg :: segs).drop n) := by
  rw [resolveTypeId, build_findType]
  cases firstEntry crate ItemKind.isTypeish (lib :: seg :: segs) with
  | some entry => simp
  | none =>
    simp only [reduceCtorEq, false_or, true_and, ← deepest_iff,
      ← @navigate_iff _ _ debug (lib :: seg :: segs), resolveByWalking]
    cases deepestModule (PathIndex.build crate.paths) (lib :: seg :: segs)
        ((lib :: seg :: segs).length - 1) with
    | none => simp
    | some start =>
      simp only [Option.some.injEq]
      constructor
      · exact fun h => ⟨start.1, start.2, rfl, h⟩
      · rintro ⟨n, modId, rfl, h⟩
        exact h

theorem firstEntry_hasKind {kinds : ItemKind → Bool} {path : List String} {id : Id}
    (h : firstEntry crate kinds path = some id) : HasKind crate kinds id := by
  obtain ⟨⟨id', summary⟩, hfind, rfl⟩ := Option.map_eq_some_iff.mp h
  have hkind := List.find?_some hfind
  rw [Bool.and_eq_true] at hkind
  exact .inr ⟨summary, List.mem_of_find?_eq_some hfind, hkind.1⟩

/-- The lookup of a declared path is right exactly where nothing is in its way. -/
theorem resolves_iff (crate : Crate Ty) (debug : List String → String) (lib seg : String)
    (segs : List String) : Resolves crate debug lib (lib :: seg :: segs) ↔
      Unobstructed crate lib (lib :: seg :: segs) := by
  constructor
  · intro h
    constructor
    · intro entry hentry id hid
      have hfound := h.found id hid
      rw [resolveTypeId_iff.mpr (.inl hentry)] at hfound
      cases hfound
      rfl
    · intro hnone id hid
      rcases resolveTypeId_iff.mp (h.found id hid) with hentry | ⟨-, hway⟩
      · rw [hnone] at hentry
        cases hentry
      · exact hway
    · intro hnone n modId id hdeepest hway
      exact h.isType id (resolveTypeId_iff.mpr (.inr ⟨hnone, n, modId, hdeepest, hway⟩))
  · intro h
    constructor
    · intro id hid
      rw [resolveTypeId_iff]
      cases hentry : firstEntry crate ItemKind.isTypeish (lib :: seg :: segs) with
      | some entry => exact .inl (congrArg some (h.table entry hentry id hid).symm)
      | none => exact .inr ⟨rfl, h.way hentry id hid⟩
    · intro id hid
      rcases resolveTypeId_iff.mp hid with hentry | ⟨hnone, n, modId, hdeepest, hway⟩
      · exact firstEntry_hasKind hentry
      · exact h.noOther hnone n modId id hdeepest hway

end

/-! ## An item that is not in the index -/

/-- The crate `std` with a module `m`, which lists an item that is not in the index and then the
struct `T`. -/
def partialCrate : Crate Unit where
  root := ⟨0⟩
  paths := [(⟨1⟩, ⟨["std", "m"], .module⟩)]
  index id :=
    if id = ⟨0⟩ then some ⟨⟨0⟩, some "std", .isPublic, [], .module [⟨1⟩]⟩
    else if id = ⟨1⟩ then some ⟨⟨1⟩, some "m", .isPublic, [], .module [⟨9⟩, ⟨2⟩]⟩
    else if id = ⟨2⟩ then some ⟨⟨2⟩, some "T", .isPublic, [], .struct ⟨.unit, ⟨[], []⟩⟩⟩
    else none

/-- What the modules of the crate list, as far as it is in the index. -/
theorem lists_partialCrate {modId id : Id} {item : Item Unit}
    (h : Lists partialCrate modId id item) : item.inner = .module [⟨9⟩, ⟨2⟩] ∨
      id = ⟨2⟩ ∧ item.inner = .struct ⟨.unit, ⟨[], []⟩⟩ := by
  obtain ⟨items, hitems, hid, hitem⟩ := h
  have hcases : items = [⟨1⟩] ∨ items = [⟨9⟩, ⟨2⟩] := by
    simp only [moduleItems, partialCrate] at hitems
    split_ifs at hitems
    · cases hitems
      exact .inl rfl
    · cases hitems
      exact .inr rfl
  rcases hcases with rfl | rfl
  · cases List.mem_singleton.mp hid
    cases hitem
    exact .inl rfl
  · rcases List.mem_pair.mp hid with rfl | rfl
    · cases hitem
    · cases hitem
      exact .inr ⟨rfl, rfl⟩

theorem denotes_struct : DenotesOnly partialCrate "std" ["std", "m", "T"] ⟨2⟩ := by
  constructor
  · refine .inr ⟨["std", "m"], "T", ⟨1⟩, rfl, .known ?_, .inl ?_⟩
    · exact ⟨⟨["std", "m"], .module⟩, List.mem_singleton_self _, rfl, rfl⟩
    · exact ⟨_, ⟨[⟨9⟩, ⟨2⟩], rfl, List.mem_cons_of_mem _ (List.mem_singleton_self _), rfl⟩, rfl,
      rfl⟩
  · rintro id (⟨summary, hmem, hkind, -⟩ | ⟨front, name, modId, hpath, -, hnames⟩)
    · cases List.mem_singleton.mp hmem
      cases hkind
    · rcases hnames with ⟨item, hlists, hname, hkind⟩ | ⟨id', item, hlists, ⟨u, hu, -⟩, -⟩
      · rcases lists_partialCrate hlists with hinner | ⟨hid, -⟩
        · rw [hinner] at hkind
          cases hkind
        · exact hid
      · rcases lists_partialCrate hlists with hinner | ⟨-, hinner⟩
        · rw [hinner] at hu
          cases hu
        · rw [hinner] at hu
          cases hu

/-- The struct is not found: the search ends at the item before it. -/
theorem absent_item_hides_type : ¬ ∀ (crate : Crate Unit) (debug : List String → String)
    (lib seg : String) (segs : List String), Resolves crate debug lib (lib :: seg :: segs) := by
  intro h
  have hfound := (h partialCrate (fun _ => "") "std" "m" ["T"]).found ⟨2⟩ denotes_struct
  rcases resolveTypeId_iff.mp hfound with hentry | ⟨-, n, modId, ⟨hn, hlt, hmod, -⟩, hway⟩
  · cases hentry
  · obtain rfl : n = 2 := by
      simp only [List.length_cons, List.length_nil] at hlt
      omega
    obtain rfl : modId = ⟨1⟩ := (Option.some.inj hmod).symm
    obtain ⟨before, id, after, hitems, hbefore, hstop⟩ := hway
    cases before with
    | nil =>
      cases hitems
      cases hstop
    | cons x before =>
      obtain ⟨rfl, -⟩ := List.cons.inj (Option.some.inj hitems)
      cases hbefore ⟨9⟩ List.mem_cons_self

end Rustyfill.DocJson
