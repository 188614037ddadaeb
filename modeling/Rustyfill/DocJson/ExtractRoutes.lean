import Mathlib.Data.List.Nodup
import Rustyfill.DocJson.Extract

/-!
# What the extracted tables hold

Every located declaration has its place in the table of types, and the table of exports leads to
its mirrored type; every other path leads where the routing rules say, whatever the order in which
the maps are walked.
-/

namespace Rustyfill.DocJson.Extract

open TypeRepr Emit

set_option autoImplicit false

/-! ## Rows -/

section
variable {exports : ExportTable} {lib : String} {itemId : UInt32} {route : Str}

theorem resolve_append (exports later : ExportTable) :
    ExportTable.resolve (exports ++ later) lib itemId =
      (ExportTable.resolve later lib itemId).or (exports.resolve lib itemId) := by
  rw [ExportTable.resolve, ExportTable.resolve, ExportTable.resolve, List.reverse_append,
    List.find?_append, Option.map_or]

theorem mem_of_resolve (h : exports.resolve lib itemId = some route) :
    (⟨lib, itemId, route⟩ : ExportEntry) ∈ exports := by
  obtain ⟨e, hfind, rfl⟩ := Option.map_eq_some_iff.mp h
  have hkey := List.find?_some hfind
  simp only [Bool.and_eq_true, beq_iff_eq] at hkey
  obtain ⟨rfl, rfl⟩ := hkey
  exact List.mem_reverse.mp (List.mem_of_find?_eq_some hfind)

theorem exists_resolve (h : (⟨lib, itemId, route⟩ : ExportEntry) ∈ exports) :
    ∃ route', exports.resolve lib itemId = some route' := by
  cases hres : exports.resolve lib itemId with
  | some route' => exact ⟨route', rfl⟩
  | none =>
    have hnone := List.find?_eq_none.mp (Option.map_eq_none_iff.mp hres) _ (List.mem_reverse.mpr h)
    simp at hnone

theorem resolve_iff_mem (h : ∀ r r', (⟨lib, itemId, r⟩ : ExportEntry) ∈ exports →
      (⟨lib, itemId, r'⟩ : ExportEntry) ∈ exports → r = r') :
    exports.resolve lib itemId = some route ↔ (⟨lib, itemId, route⟩ : ExportEntry) ∈ exports := by
  constructor
  · exact mem_of_resolve
  · intro hmem
    obtain ⟨route', hres⟩ := exists_resolve hmem
    rw [hres, h route' route (mem_of_resolve hres) hmem]

theorem resolve_eq_none (h : ∀ e ∈ exports, ¬(e.lib = lib ∧ e.itemId = itemId)) :
    exports.resolve lib itemId = none := by
  cases hres : exports.resolve lib itemId with
  | none => rfl
  | some route => exact absurd ⟨rfl, rfl⟩ (h _ (mem_of_resolve hres))

/-- What a path of a library adds. -/
def RowOf (blob : Blob) (libName : String) (e : ExportEntry) : Prop :=
  ∃ id summary, (id, summary) ∈ blob.crate.paths ∧ summary.path ≠ [] ∧
    e = ⟨libName, id.raw, pathRoute blob libName id summary.path⟩

theorem mem_addPaths (blob : Blob) (libName : String) (paths : List (Id × ItemSummary))
    (exports : ExportTable) (e : ExportEntry) :
    e ∈ paths.foldl (addPath blob libName) exports ↔ e ∈ exports ∨
      ∃ id summary, (id, summary) ∈ paths ∧ summary.path ≠ [] ∧
        e = ⟨libName, id.raw, pathRoute blob libName id summary.path⟩ := by
  induction paths generalizing exports with
  | nil => simp
  | cons entry paths ih =>
    obtain ⟨id, summary⟩ := entry
    rw [List.foldl_cons, ih]
    have hadd : e ∈ addPath blob libName exports (id, summary) ↔ e ∈ exports ∨
        summary.path ≠ [] ∧ e = ⟨libName, id.raw, pathRoute blob libName id summary.path⟩ := by
      rw [addPath]
      split
      · rename_i hempty
        have hnil : summary.path = [] := List.isEmpty_iff.mp hempty
        simp [hnil]
      · rename_i hne
        simp [List.isEmpty_iff.not.mp hne]
    rw [hadd, or_assoc]
    refine or_congr_right ⟨?_, ?_⟩
    · rintro (⟨hne, rfl⟩ | ⟨id', summary', hmem, hne, rfl⟩)
      · exact ⟨id, summary, List.mem_cons_self, hne, rfl⟩
      · exact ⟨id', summary', List.mem_cons_of_mem _ hmem, hne, rfl⟩
    · rintro ⟨id', summary', hmem, hne, rfl⟩
      rcases List.mem_cons.mp hmem with heq | hmem
      · cases heq
        exact .inl ⟨hne, rfl⟩
      · exact .inr ⟨id', summary', hmem, hne, rfl⟩

theorem mem_exportTables (data : List (String × Blob)) (e : ExportEntry) :
    e ∈ exportTables data ↔ ∃ libName blob, (libName, blob) ∈ data ∧ RowOf blob libName e := by
  have hfold : ∀ (data : List (String × Blob)) (exports : ExportTable),
      e ∈ data.foldl (fun exports entry => buildExportTable entry.2 entry.1 exports) exports ↔
        e ∈ exports ∨ ∃ libName blob, (libName, blob) ∈ data ∧ RowOf blob libName e := by
    intro data
    induction data with
    | nil => simp
    | cons entry data ih =>
      intro exports
      obtain ⟨libName, blob⟩ := entry
      rw [List.foldl_cons, ih, buildExportTable, mem_addPaths, or_assoc]
      refine or_congr_right ⟨?_, ?_⟩
      · rintro (hrow | ⟨libName', blob', hmem, hrow⟩)
        · exact ⟨libName, blob, List.mem_cons_self, hrow⟩
        · exact ⟨libName', blob', List.mem_cons_of_mem _ hmem, hrow⟩
      · rintro ⟨libName', blob', hmem, hrow⟩
        rcases List.mem_cons.mp hmem with heq | hmem
        · cases heq
          exact .inl hrow
        · exact .inr ⟨libName', blob', hmem, hrow⟩
  rw [exportTables, hfold]
  simp

end

/-- The entries of a hash map have distinct keys. -/
def Keyed {A B : Type} (l : List (A × B)) : Prop := (l.map Prod.fst).Nodup

theorem Keyed.unique {A B : Type} {l : List (A × B)} (h : Keyed l) {a : A} {b b' : B}
    (hb : (a, b) ∈ l) (hb' : (a, b') ∈ l) : b = b' :=
  congrArg Prod.snd (List.inj_on_of_nodup_map h hb hb' rfl)

theorem Keyed.lookup_iff {A B : Type} [BEq A] [LawfulBEq A] {l : List (A × B)} (h : Keyed l)
    {a : A} {b : B} : l.lookup a = some b ↔ (a, b) ∈ l := by
  constructor
  · intro hfind
    obtain ⟨before, after, rfl, -⟩ := List.lookup_eq_some_iff.mp hfind
    exact List.mem_append_right _ List.mem_cons_self
  · intro hmem
    cases hfind : l.lookup a with
    | none => exact absurd (List.lookup_eq_none_iff.mp hfind _ hmem) (by simp)
    | some b' =>
      obtain ⟨before, after, rfl, -⟩ := List.lookup_eq_some_iff.mp hfind
      rw [h.unique (List.mem_append_right _ List.mem_cons_self) hmem]

theorem Keyed.lookup_perm {A B : Type} [BEq A] [LawfulBEq A] {l l' : List (A × B)} (h : Keyed l)
    (hperm : l'.Perm l) (a : A) : l'.lookup a = l.lookup a := by
  have h' : Keyed l' := (hperm.map Prod.fst).nodup_iff.mpr h
  exact Option.ext fun b => by rw [h'.lookup_iff, h.lookup_iff, hperm.mem_iff]

/-! ## The loops -/

/-- The types that declarations add, from a first id. -/
def placeAll : Nat → List (EmitType × Str) → TypeTable
  | _, [] => []
  | n, (docType, decl) :: located => placed docType decl n :: placeAll (n + 1) located

theorem placeAll_append (n : Nat) (l l' : List (EmitType × Str)) :
    placeAll n (l ++ l') = placeAll n l ++ placeAll (n + l.length) l' := by
  induction l generalizing n with
  | nil => rfl
  | cons p l ih =>
    rw [List.cons_append, placeAll, placeAll, ih, List.cons_append, List.length_cons]
    congr 3
    omega

theorem length_placeAll (n : Nat) (l : List (EmitType × Str)) :
    (placeAll n l).length = l.length := by
  induction l generalizing n with
  | nil => rfl
  | cons p l ih => rw [placeAll, List.length_cons, List.length_cons, ih]

theorem placeAll_id (n : Nat) (l : List (EmitType × Str)) {i : Nat} {ty : EmitType}
    (h : (placeAll n l)[i]? = some ty) : ty.id = n + i := by
  induction l generalizing n i with
  | nil => cases h
  | cons p l ih =>
    cases i with
    | zero =>
      cases h
      rfl
    | succ i =>
      rw [ih (n + 1) h]
      omega

theorem mem_placeAll (n : Nat) (l : List (EmitType × Str)) (ty : EmitType) :
    ty ∈ placeAll n l → ∃ docType decl, (docType, decl) ∈ l ∧ ty = placed docType decl ty.id := by
  induction l generalizing n with
  | nil => simp [placeAll]
  | cons p l ih =>
    intro h
    rcases List.mem_cons.mp h with rfl | h
    · exact ⟨p.1, p.2, List.mem_cons_self, rfl⟩
    · obtain ⟨docType, decl, hmem, hty⟩ := ih (n + 1) h
      exact ⟨docType, decl, List.mem_cons_of_mem _ hmem, hty⟩

theorem exists_mem_placeAll (n : Nat) {l : List (EmitType × Str)} {docType : EmitType} {decl : Str}
    (h : (docType, decl) ∈ l) : ∃ id, placed docType decl id ∈ placeAll n l := by
  induction l generalizing n with
  | nil => cases h
  | cons p l ih =>
    rcases List.mem_cons.mp h with rfl | h
    · exact ⟨n, List.mem_cons_self⟩
    · obtain ⟨id, hid⟩ := ih (n + 1) h
      exact ⟨id, List.mem_cons_of_mem _ hid⟩

def Tables.add (st : Tables) (located : List (EmitType × Str)) (errors : List String) : Tables where
  types := st.types ++ placeAll st.types.length located
  exports := st.exports ++ (placeAll st.types.length located).map mirrorRow
  errors := st.errors ++ errors

theorem Tables.add_nil (st : Tables) : st.add [] [] = st := by simp [add, placeAll]

theorem Tables.add_add (st : Tables) (l l' : List (EmitType × Str)) (e e' : List String) :
    (st.add l e).add l' e' = st.add (l ++ l') (e ++ e') := by
  simp only [add, List.length_append, length_placeAll, placeAll_append, List.map_append,
    List.append_assoc]

theorem Tables.add_foldl {A : Type} {f : Tables → A → Tables} {l : A → List (EmitType × Str)}
    {e : A → List String} (h : ∀ st a, f st a = st.add (l a) (e a)) (st : Tables) (as : List A) :
    as.foldl f st = st.add (as.flatMap l) (as.flatMap e) := by
  induction as generalizing st with
  | nil => exact st.add_nil.symm
  | cons a as ih => rw [List.foldl_cons, ih, h, add_add, List.flatMap_cons, List.flatMap_cons]

section
variable (debug : List String → String) (plain : WireType → String)

def declLocated (blob : Blob) (libName : String) (decl : Str) : List (EmitType × Str) :=
  match locateAndConvert debug plain blob decl libName with
  | .ok docType => [(docType, decl)]
  | .error _ => []

def declErrors (blob : Blob) (libName : String) (decl : Str) : List String :=
  match locateAndConvert debug plain blob decl libName with
  | .ok _ => []
  | .error e => [notFound libName decl e]

def targetLocated (data : List (String × Blob)) (target : Declarations) : List (EmitType × Str) :=
  match data.lookup target.libName with
  | none => []
  | some blob => (target.declaredStructs ++ target.cfgGatedDecls).flatMap
      (declLocated debug plain blob target.libName)

def targetErrors (data : List (String × Blob)) (target : Declarations) : List String :=
  match data.lookup target.libName with
  | none => [s!"No doc-JSON data available for library '{target.libName}'"]
  | some blob => target.declaredStructs.flatMap (declErrors debug plain blob target.libName)

theorem finalizeEntry_eq (docType : EmitType) (decl : Str) (st : Tables) :
    finalizeEntry docType decl st = st.add [(docType, decl)] [] := by
  simp [finalizeEntry, Tables.add, placeAll]

theorem extractDeclared_eq (blob : Blob) (libName : String) (st : Tables) (decl : Str) :
    extractDeclared debug plain blob libName st decl =
      st.add (declLocated debug plain blob libName decl)
        (declErrors debug plain blob libName decl) := by
  rw [extractDeclared, declLocated, declErrors]
  cases locateAndConvert debug plain blob decl libName with
  | ok docType => exact finalizeEntry_eq docType decl st
  | error e => simp [Tables.add, placeAll]

theorem extractGated_eq (blob : Blob) (libName : String) (st : Tables) (decl : Str) :
    extractGated debug plain blob libName st decl =
      st.add (declLocated debug plain blob libName decl) [] := by
  rw [extractGated, declLocated]
  cases locateAndConvert debug plain blob decl libName with
  | ok docType => exact finalizeEntry_eq docType decl st
  | error e => exact st.add_nil.symm

theorem extractTarget_eq (data : List (String × Blob)) (st : Tables) (target : Declarations) :
    extractTarget debug plain data st target =
      st.add (targetLocated debug plain data target) (targetErrors debug plain data target) := by
  rw [extractTarget, targetLocated, targetErrors]
  cases data.lookup target.libName with
  | none => simp [Tables.add, placeAll]
  | some blob =>
    have hnil : target.cfgGatedDecls.flatMap (fun _ => ([] : List String)) = [] :=
      List.flatMap_eq_nil_iff.mpr fun _ _ => rfl
    dsimp only
    rw [Tables.add_foldl (extractDeclared_eq debug plain blob target.libName),
      Tables.add_foldl (extractGated_eq debug plain blob target.libName), Tables.add_add,
      List.flatMap_append, hnil, List.append_nil]

def allLocated (data : List (String × Blob)) (targets : List Declarations) :
    List (EmitType × Str) :=
  targets.flatMap (targetLocated debug plain data)

def allErrors (data : List (String × Blob)) (targets : List Declarations) : List String :=
  targets.flatMap (targetErrors debug plain data)

theorem extractTypes_eq (data : List (String × Blob)) (targets : List Declarations) :
    extractTypes debug plain data targets =
      if (allErrors debug plain data targets).isEmpty then
        .ok (placeAll 0 (allLocated debug plain data targets), exportTables data ++
          (placeAll 0 (allLocated debug plain data targets)).map mirrorRow)
      else .error (allErrors debug plain data targets) := by
  rw [extractTypes, Tables.add_foldl (extractTarget_eq debug plain data)]
  rfl

/-! ## What the tables hold -/

/-- Every library has its data, and every declaration that is not gated is found there. -/
def Complete (data : List (String × Blob)) (targets : List Declarations) : Prop :=
  ∀ target ∈ targets, ∃ blob, (target.libName, blob) ∈ data ∧ ∀ decl ∈ target.declaredStructs,
    ∃ docType, locateAndConvert debug plain blob decl target.libName = .ok docType

/-- A declaration of the spec that is found in its library. -/
def Declares (data : List (String × Blob)) (targets : List Declarations) (docType : EmitType)
    (decl : Str) : Prop :=
  ∃ target ∈ targets, ∃ blob, (target.libName, blob) ∈ data ∧
    decl ∈ target.declaredStructs ++ target.cfgGatedDecls ∧
    locateAndConvert debug plain blob decl target.libName = .ok docType

/-- The two types have one row in the table of exports. -/
def SameItem (ty ty' : EmitType) : Prop := ty'.lib = ty.lib ∧ ty'.itemId = ty.itemId

structure Routes (data : List (String × Blob)) (targets : List Declarations) (types : TypeTable)
    (exports : ExportTable) : Prop where
  /-- A type has the place in the table that its id says. -/
  ids : ∀ (i : Nat) (ty : EmitType), types[i]? = some ty → ty.id = i
  declared : ∀ docType decl, Declares debug plain data targets docType decl →
    ∃ id, placed docType decl id ∈ types
  only : ∀ ty ∈ types, ∃ docType decl, Declares debug plain data targets docType decl ∧
    ty = placed docType decl ty.id
  /-- The item of a declared type leads to the mirrored type that was declared last for it. -/
  mirrored : ∀ ty ∈ types, ∃ before ty' after, types = before ++ ty' :: after ∧ SameItem ty ty' ∧
    (∀ e ∈ after, ¬SameItem ty e) ∧ exports.resolve ty.lib ty.itemId = some (mirrorPath ty')
  /-- Every other item leads where its path does. -/
  others : ∀ libName (id : Id), (∀ ty ∈ types, ¬(ty.lib = libName ∧ ty.itemId = id.raw)) →
    ∀ route, exports.resolve libName id.raw = some route ↔
      ∃ blob summary, (libName, blob) ∈ data ∧ (id, summary) ∈ blob.crate.paths ∧
        summary.path ≠ [] ∧ route = pathRoute blob libName id summary.path

section
variable {debug plain} {data data' : List (String × Blob)} {targets : List Declarations}

theorem mem_declLocated {blob : Blob} {libName : String} {decl decl' : Str} {docType : EmitType} :
    (docType, decl') ∈ declLocated debug plain blob libName decl ↔
      decl' = decl ∧ locateAndConvert debug plain blob decl libName = .ok docType := by
  rw [declLocated]
  cases locateAndConvert debug plain blob decl libName with
  | ok docType' =>
    rw [List.mem_singleton, Prod.mk.injEq, Except.ok.injEq]
    exact ⟨fun h => ⟨h.2, h.1.symm⟩, fun h => ⟨h.2.symm, h.1⟩⟩
  | error e => simp

theorem mem_allLocated (hdata : Keyed data) {docType : EmitType} {decl : Str} :
    (docType, decl) ∈ allLocated debug plain data targets ↔
      Declares debug plain data targets docType decl := by
  rw [allLocated, List.mem_flatMap]
  refine exists_congr fun target => and_congr_right fun _ => ?_
  rw [targetLocated]
  cases hlookup : data.lookup target.libName with
  | none =>
    refine ⟨fun h => absurd h List.not_mem_nil, ?_⟩
    rintro ⟨blob, hblob, -⟩
    rw [hdata.lookup_iff.mpr hblob] at hlookup
    cases hlookup
  | some blob =>
    have hblob := hdata.lookup_iff.mp hlookup
    dsimp only
    rw [List.mem_flatMap]
    constructor
    · rintro ⟨decl', hdecl, hmem⟩
      obtain ⟨rfl, hok⟩ := mem_declLocated.mp hmem
      exact ⟨blob, hblob, hdecl, hok⟩
    · rintro ⟨blob', hblob', hdecl, hok⟩
      obtain rfl := hdata.unique hblob hblob'
      exact ⟨decl, hdecl, mem_declLocated.mpr ⟨rfl, hok⟩⟩

theorem allErrors_eq_nil (hdata : Keyed data) :
    allErrors debug plain data targets = [] ↔ Complete debug plain data targets := by
  rw [allErrors, List.flatMap_eq_nil_iff]
  refine forall_congr' fun target => imp_congr_right fun _ => ?_
  rw [targetErrors]
  cases hlookup : data.lookup target.libName with
  | none =>
    refine ⟨fun h => absurd h (List.cons_ne_nil _ _), ?_⟩
    rintro ⟨blob, hblob, -⟩
    rw [hdata.lookup_iff.mpr hblob] at hlookup
    cases hlookup
  | some blob =>
    have hblob := hdata.lookup_iff.mp hlookup
    have hdecl : ∀ decl, declErrors debug plain blob target.libName decl = [] ↔
        ∃ docType, locateAndConvert debug plain blob decl target.libName = .ok docType := by
      intro decl
      rw [declErrors]
      cases locateAndConvert debug plain blob decl target.libName with
      | ok docType => exact ⟨fun _ => ⟨docType, rfl⟩, fun _ => rfl⟩
      | error e =>
        refine ⟨fun h => absurd h (List.cons_ne_nil _ _), ?_⟩
        rintro ⟨_, h⟩
        cases h
    dsimp only
    rw [List.flatMap_eq_nil_iff]
    constructor
    · exact fun h => ⟨blob, hblob, fun decl hmem => (hdecl decl).mp (h decl hmem)⟩
    · rintro ⟨blob', hblob', h⟩
      obtain rfl := hdata.unique hblob hblob'
      exact fun decl hmem => (hdecl decl).mpr (h decl hmem)

theorem resolve_exportTables (hdata : Keyed data)
    (hpaths : ∀ entry ∈ data, Keyed entry.2.crate.paths) (libName : String) (id : Id)
    (route : Str) : (exportTables data).resolve libName id.raw = some route ↔
      ∃ blob summary, (libName, blob) ∈ data ∧ (id, summary) ∈ blob.crate.paths ∧
        summary.path ≠ [] ∧ route = pathRoute blob libName id summary.path := by
  have hrows : ∀ route, (⟨libName, id.raw, route⟩ : ExportEntry) ∈ exportTables data ↔
      ∃ blob summary, (libName, blob) ∈ data ∧ (id, summary) ∈ blob.crate.paths ∧
        summary.path ≠ [] ∧ route = pathRoute blob libName id summary.path := by
    intro route
    rw [mem_exportTables]
    constructor
    · rintro ⟨libName', blob, hblob, ⟨raw⟩, summary, hsummary, hne, heq⟩
      cases heq
      exact ⟨blob, summary, hblob, hsummary, hne, rfl⟩
    · rintro ⟨blob, summary, hblob, hsummary, hne, rfl⟩
      exact ⟨libName, blob, hblob, id, summary, hsummary, hne, rfl⟩
  refine (resolve_iff_mem fun r r' hr hr' => ?_).trans (hrows route)
  obtain ⟨blob, summary, hblob, hsummary, -, rfl⟩ := (hrows r).mp hr
  obtain ⟨blob', summary', hblob', hsummary', -, rfl⟩ := (hrows r').mp hr'
  obtain rfl := hdata.unique hblob hblob'
  rw [(hpaths _ hblob).unique hsummary hsummary']

theorem resolve_mirrored {types : TypeTable} {ty : EmitType} (h : ∃ e ∈ types, SameItem ty e) :
    ∃ before ty' after, types = before ++ ty' :: after ∧ SameItem ty ty' ∧
      (∀ e ∈ after, ¬SameItem ty e) ∧
      ExportTable.resolve (types.map mirrorRow) ty.lib ty.itemId = some (mirrorPath ty') := by
  induction types with
  | nil =>
    obtain ⟨e, he, -⟩ := h
    cases he
  | cons t types ih =>
    have hsplit : ExportTable.resolve ((t :: types).map mirrorRow) ty.lib ty.itemId =
        (ExportTable.resolve (types.map mirrorRow) ty.lib ty.itemId).or
          (ExportTable.resolve [mirrorRow t] ty.lib ty.itemId) :=
      resolve_append [mirrorRow t] (types.map mirrorRow)
    by_cases hlater : ∃ e ∈ types, SameItem ty e
    · obtain ⟨before, ty', after, rfl, hsame, hafter, hres⟩ := ih hlater
      refine ⟨t :: before, ty', after, rfl, hsame, hafter, ?_⟩
      rw [hsplit, hres, Option.some_or]
    · have hafter : ∀ e ∈ types, ¬SameItem ty e := fun e he hsame => hlater ⟨e, he, hsame⟩
      have hnone : ExportTable.resolve (types.map mirrorRow) ty.lib ty.itemId = none := by
        refine resolve_eq_none fun row hrow => ?_
        obtain ⟨e, he, rfl⟩ := List.mem_map.mp hrow
        exact hafter e he
      obtain ⟨e, he, hsame⟩ := h
      rcases List.mem_cons.mp he with rfl | he
      · refine ⟨[], e, types, rfl, hsame, hafter, ?_⟩
        rw [hsplit, hnone, Option.none_or]
        simp [ExportTable.resolve, mirrorRow, hsame.1, hsame.2]
      · exact absurd hsame (hafter e he)

theorem routes_of_tables (hdata : Keyed data)
    (hpaths : ∀ entry ∈ data, Keyed entry.2.crate.paths) :
    Routes debug plain data targets (placeAll 0 (allLocated debug plain data targets))
      (exportTables data ++ (placeAll 0 (allLocated debug plain data targets)).map mirrorRow) where
  ids i ty h := (placeAll_id 0 _ h).trans (Nat.zero_add i)
  declared docType decl h := exists_mem_placeAll 0 ((mem_allLocated hdata).mpr h)
  only ty h := by
    obtain ⟨docType, decl, hmem, hty⟩ := mem_placeAll 0 _ ty h
    exact ⟨docType, decl, (mem_allLocated hdata).mp hmem, hty⟩
  mirrored ty h := by
    obtain ⟨before, ty', after, htypes, hsame, hafter, hres⟩ := resolve_mirrored
      ⟨ty, h, rfl, rfl⟩
    refine ⟨before, ty', after, htypes, hsame, hafter, ?_⟩
    rw [resolve_append, hres, Option.some_or]
  others libName id h route := by
    have hnone :
        ExportTable.resolve ((placeAll 0 (allLocated debug plain data targets)).map mirrorRow)
          libName id.raw = none := by
      refine resolve_eq_none fun row hrow => ?_
      obtain ⟨e, he, rfl⟩ := List.mem_map.mp hrow
      exact h e he
    rw [resolve_append, hnone, Option.none_or, resolve_exportTables hdata hpaths]

/-- The extraction succeeds exactly if every library has its data and every declaration that is
not gated is found. Then the table of types holds the declarations that are found and nothing
else, each item of a declared type leads to its mirrored type, and every other item leads where
the path of its library does. -/
theorem extract_types_routes (hdata : Keyed data)
    (hpaths : ∀ entry ∈ data, Keyed entry.2.crate.paths) :
    match extractTypes debug plain data targets with
    | .ok (types, exports) => Complete debug plain data targets ∧
        Routes debug plain data targets types exports
    | .error errors => ¬Complete debug plain data targets ∧ errors ≠ [] := by
  rw [extractTypes_eq]
  by_cases herrors : allErrors debug plain data targets = []
  · rw [if_pos (List.isEmpty_iff.mpr herrors)]
    exact ⟨(allErrors_eq_nil hdata).mp herrors, routes_of_tables hdata hpaths⟩
  · rw [if_neg (List.isEmpty_iff.not.mpr herrors)]
    exact ⟨(allErrors_eq_nil hdata).not.mp herrors, herrors⟩

/-- The crate `core` with one declared struct and one that is not. -/
def cellBlob : Blob where
  crate :=
    { root := ⟨0⟩
      paths := [(⟨1⟩, ⟨["core", "cell", "A"], .struct⟩),
        (⟨2⟩, ⟨["core", "cell", "cell", "Cell"], .struct⟩)]
      index := fun id =>
        if id = ⟨1⟩ then some ⟨⟨1⟩, some "A", .isPublic, [], .struct ⟨.unit, ⟨[], []⟩⟩⟩ else none }
  crateId _ := 0
  externalCrates _ := none

def allocBlob : Blob :=
  ⟨⟨⟨0⟩, fun _ => none, [(⟨1⟩, ⟨["alloc", "vec", "Vec"], .struct⟩)]⟩, fun _ => 0, fun _ => none⟩

def cellData : List (String × Blob) := [("core", cellBlob), ("alloc", allocBlob)]

def cellTargets : List Declarations := [⟨"core", ["cell::A".toList], ["cell::B".toList]⟩]

theorem keyed_cellData : Keyed cellData ∧ ∀ entry ∈ cellData, Keyed entry.2.crate.paths := by
  refine ⟨?_, fun entry he => ?_⟩
  · exact List.nodup_cons.mpr ⟨by decide, List.nodup_singleton _⟩
  · rcases List.mem_pair.mp he with rfl | rfl
    · exact List.nodup_cons.mpr ⟨by decide, List.nodup_singleton _⟩
    · exact List.nodup_singleton _

theorem extracts_cell : ∃ types exports,
    extractTypes (fun _ => "") (fun _ => "") cellData cellTargets = .ok (types, exports) ∧
      types.length = 1 ∧ exports.resolve "core" 1 = some "crate::std::cell::A".toList ∧
      exports.resolve "core" 2 = some "::__rustyfill_builtin_core::cell::Cell".toList :=
  ⟨_, _, rfl, rfl, rfl, rfl⟩

theorem extract_types_routes_cell : ∃ types exports,
    Complete (fun _ => "") (fun _ => "") cellData cellTargets ∧
      Routes (fun _ => "") (fun _ => "") cellData cellTargets types exports ∧ types.length = 1 := by
  obtain ⟨types, exports, hok, hlength, -⟩ := extracts_cell
  have h := @extract_types_routes (fun _ => "") (fun _ => "") cellData cellTargets keyed_cellData.1
    keyed_cellData.2
  rw [hok] at h
  exact ⟨types, exports, h.1, h.2, hlength⟩

/-- What is found does not depend on the order in which the libraries are walked. -/
theorem allLocated_perm (hdata : Keyed data) (hperm : data'.Perm data) :
    allLocated debug plain data' targets = allLocated debug plain data targets ∧
      allErrors debug plain data' targets = allErrors debug plain data targets := by
  constructor
  · refine congrArg (targets.flatMap ·) (funext fun target => ?_)
    rw [targetLocated, targetLocated, hdata.lookup_perm hperm]
  · refine congrArg (targets.flatMap ·) (funext fun target => ?_)
    rw [targetErrors, targetErrors, hdata.lookup_perm hperm]

/-- The libraries may be walked in any order: the outcome is the same. -/
theorem extract_types_any_order (hdata : Keyed data) (hperm : data'.Perm data)
    (hpaths : ∀ entry ∈ data, Keyed entry.2.crate.paths) :
    match extractTypes debug plain data targets, extractTypes debug plain data' targets with
    | .ok (types, exports), .ok (types', exports') => types' = types ∧
        ∀ libName (id : Id), exports'.resolve libName id.raw = exports.resolve libName id.raw
    | .error errors, .error errors' => errors' = errors
    | _, _ => False := by
  obtain ⟨hlocated, herrors⟩ := @allLocated_perm debug plain data data' targets hdata hperm
  have hdata' : Keyed data' := (hperm.map Prod.fst).nodup_iff.mpr hdata
  have hpaths' : ∀ entry ∈ data', Keyed entry.2.crate.paths :=
    fun entry he => hpaths entry (hperm.mem_iff.mp he)
  rw [extractTypes_eq, extractTypes_eq, hlocated, herrors]
  by_cases hnil : (allErrors debug plain data targets).isEmpty = true
  · rw [if_pos hnil, if_pos hnil]
    refine ⟨rfl, fun libName id => ?_⟩
    rw [resolve_append, resolve_append]
    refine congrArg _ (Option.ext fun route => ?_)
    rw [resolve_exportTables hdata hpaths, resolve_exportTables hdata' hpaths']
    simp only [hperm.mem_iff]
  · rw [if_neg hnil, if_neg hnil]

theorem extract_types_any_order_cell : ∃ types exports,
    extractTypes (fun _ => "") (fun _ => "") [("alloc", allocBlob), ("core", cellBlob)]
      cellTargets = .ok (types, exports) ∧
    exports.resolve "core" 1 = some "crate::std::cell::A".toList := by
  obtain ⟨types, exports, hok, -, hres, -⟩ := extracts_cell
  have h := @extract_types_any_order (fun _ => "") (fun _ => "") cellData
    [("alloc", allocBlob), ("core", cellBlob)] cellTargets keyed_cellData.1 (.swap ..)
    keyed_cellData.2
  rw [hok] at h
  cases hswap : extractTypes (fun _ => "") (fun _ => "") [("alloc", allocBlob), ("core", cellBlob)]
      cellTargets with
  | error errors =>
    rw [hswap] at h
    exact h.elim
  | ok tables =>
    rw [hswap] at h
    exact ⟨tables.1, tables.2, rfl, (h.2 "core" ⟨1⟩).trans hres⟩

end

end

end Rustyfill.DocJson.Extract
