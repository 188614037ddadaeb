import Rustyfill.DocJson.ManifestTree
import Rustyfill.Lib.Lists

/-!
# Files and manifest agree

Every written file is the file of a stem: a list of segments, joined by slashes. The writer and the
manifest take the stem of a module to be the module itself or the module with `mod` behind it, by
two different tests. Paths are compared as texts.
-/

namespace Rustyfill.DocJson.Emit

open TypeRepr

set_option autoImplicit false

def pathOf (stem : Module) : Str := slash stem ++ ".rs".toList

def modSegment : Str := "mod".toList

theorem slash_not_mem_mod : '/' ∉ modSegment := by decide

section
variable {m m' : Module}

theorem pathOf_injective (hne : m ≠ []) (hne' : m' ≠ []) (h : ∀ seg ∈ m, '/' ∉ seg)
    (h' : ∀ seg ∈ m', '/' ∉ seg) (heq : pathOf m = pathOf m') : m = m' :=
  slash_injective hne hne' h h' (List.append_cancel_right heq)

theorem pathOf_mod (hne : m ≠ []) : pathOf (m ++ [modSegment]) = slash m ++ "/mod.rs".toList := by
  rw [pathOf, slash_concat hne, List.append_assoc]
  rfl

end

/-! ## Modules of a table -/

section
variable (toLowercase : Str → Str) (table : TypeTable) (spec : LoaderSpec)

/-- The module whose path a type carries; a type at the root has a module of its own. -/
def moduleOf (ty : EmitType) : Module :=
  if ty.modulePath.isEmpty then [toLowercase ty.name.toList]
  else Text.split "::".toList ty.modulePath.toList

def typesOf (m : Module) : List EmitType := table.filter fun ty => moduleOf toLowercase ty == m

def IsModule (m : Module) : Prop := ∃ ty ∈ table, moduleOf toLowercase ty = m

/-- There is a module directly below, and both are spelled in ASCII identifiers. -/
def HasChild (m : Module) : Prop :=
  ∃ name, IsModule toLowercase table (m ++ [name]) ∧
    ∀ seg ∈ m ++ [name], isIdentifier seg = true

/-- There is a module anywhere below. -/
def HasDescendant (m : Module) : Prop :=
  ∃ m', IsModule toLowercase table m' ∧ m <+: m' ∧ m ≠ m'

def stubModules : List Module :=
  spec.targets.filterMap fun target => target.knownExternalTypes.head?.bind fun first =>
    let segments := Text.split "::".toList first.path
    if segments.length < 2 then none else some segments.dropLast

/-! ## Agreement -/

/-- The includes of the manifests among the files. -/
def includes (writes : List Write) : List (Module × Str) :=
  writes.flatMap fun w =>
    match w.contents with
    | .manifest lines => includesOf [] lines
    | _ => []

structure Agree (writes : List Write) : Prop where
  /-- An include names exactly one file, that of the types of its module. -/
  included : ∀ inc ∈ includes writes, ∃ m, inc.1 = wrapperMod :: m ∧
    (writes.filter fun w => w.path == inc.2) = [⟨inc.2, .binding (typesOf toLowercase table m)⟩]
  /-- A binding file is included exactly once, at its module. -/
  once : ∀ path types, ⟨path, .binding types⟩ ∈ writes →
    ∃ m, types = typesOf toLowercase table m ∧ types ≠ [] ∧
      ((includes writes).filter fun inc => inc.2 == path) = [(wrapperMod :: m, path)]
  /-- No file overwrites another. -/
  distinct : (writes.map Write.path).Nodup

/-- The modules of a table and of the stubs do not get into each other's way. -/
structure Laid : Prop where
  /-- What has a module below has one directly below, and both are spelled in identifiers. -/
  child : ∀ m, IsModule toLowercase table m → HasDescendant toLowercase table m →
    HasChild toLowercase table m
  /-- Next to the file `mod.rs` of a module there is no module `mod` in a file of its own. -/
  ownMod : ∀ m, IsModule toLowercase table m → HasChild toLowercase table m →
    IsModule toLowercase table (m ++ [modSegment]) → HasChild toLowercase table (m ++ [modSegment])
  stubs : (stubModules spec).Nodup
  /-- Stubs are in no module that has its types in a file of its name. -/
  stubLeaf : ∀ m ∈ stubModules spec, IsModule toLowercase table m → HasChild toLowercase table m
  stubMod : ∀ m, m ++ [modSegment] ∈ stubModules spec → IsModule toLowercase table m →
    ¬ HasChild toLowercase table m
  manifest : IsModule toLowercase table ["bindings_generated".toList] →
    HasChild toLowercase table ["bindings_generated".toList]
  manifestStub : ["bindings_generated".toList] ∉ stubModules spec

end

/-! ## Files and modules -/

section
variable {toLowercase : Str → Str} {table : TypeTable} {spec : LoaderSpec} {exports : ExportTable}

theorem typeRelPath_eq (ty : EmitType) :
    typeRelPath toLowercase ty = slash (moduleOf toLowercase ty) := by
  rw [typeRelPath, moduleOf]
  split_ifs
  · exact (List.intercalate_singleton).symm
  · rfl

theorem moduleOf_ne_nil (ty : EmitType) : moduleOf toLowercase ty ≠ [] := by
  rw [moduleOf]
  split_ifs
  · exact List.cons_ne_nil _ _
  · exact Text.split_ne_nil _ _

/-- The module paths of a table consist of segments. -/
def Segmented (toLowercase : Str → Str) (table : TypeTable) : Prop :=
  ∀ ty ∈ table, ∀ seg ∈ moduleOf toLowercase ty, IsSegment seg

instance (toLowercase : Str → Str) (table : TypeTable) : Decidable (Segmented toLowercase table) :=
  inferInstanceAs (Decidable (∀ ty ∈ table, ∀ seg ∈ moduleOf toLowercase ty, IsSegment seg))

theorem IsModule.ne_nil {m : Module} (h : IsModule toLowercase table m) : m ≠ [] := by
  obtain ⟨ty, -, rfl⟩ := h
  exact moduleOf_ne_nil ty

theorem IsModule.segments {m : Module} (hseg : Segmented toLowercase table)
    (h : IsModule toLowercase table m) : ∀ seg ∈ m, IsSegment seg := by
  obtain ⟨ty, hty, rfl⟩ := h
  exact hseg ty hty

theorem IsModule.not_mem {m : Module} (hseg : Segmented toLowercase table)
    (h : IsModule toLowercase table m) : ∀ seg ∈ m, '/' ∉ seg :=
  fun seg hs => (h.segments hseg seg hs).2

theorem mem_allFiles {fp : Str} :
    fp ∈ allFiles toLowercase table ↔ ∃ m, IsModule toLowercase table m ∧ slash m = fp := by
  rw [allFiles, filesByPath, Grouping.mem_group_keys]
  constructor
  · rintro ⟨ty, hty, rfl⟩
    exact ⟨_, ⟨ty, hty, rfl⟩, (typeRelPath_eq ty).symm⟩
  · rintro ⟨m, ⟨ty, hty, rfl⟩, rfl⟩
    exact ⟨ty, hty, typeRelPath_eq ty⟩

theorem slash_mem_allFiles {m : Module} (hseg : Segmented toLowercase table) (hne : m ≠ [])
    (hm : ∀ seg ∈ m, '/' ∉ seg) :
    slash m ∈ allFiles toLowercase table ↔ IsModule toLowercase table m := by
  rw [mem_allFiles]
  constructor
  · rintro ⟨m', hm', heq⟩
    exact slash_injective hm'.ne_nil hne (hm'.not_mem hseg) hm heq ▸ hm'
  · intro h
    exact ⟨m, h, rfl⟩

theorem typesOf_ne_nil {m : Module} (hm : IsModule toLowercase table m) :
    typesOf toLowercase table m ≠ [] := by
  obtain ⟨ty, hty, hmod⟩ := hm
  exact List.ne_nil_of_mem (List.mem_filter.mpr ⟨hty, beq_iff_eq.mpr hmod⟩)

theorem mem_filesByPath {fp : Str} {types : List EmitType} (hseg : Segmented toLowercase table) :
    (fp, types) ∈ filesByPath toLowercase table ↔
      ∃ m, IsModule toLowercase table m ∧ slash m = fp ∧ typesOf toLowercase table m = types := by
  have hfilter : ∀ m, IsModule toLowercase table m →
      (table.filter fun ty => typeRelPath toLowercase ty == slash m) =
        typesOf toLowercase table m := by
    intro m hm
    refine List.filter_congr fun ty hty => ?_
    have hty' : IsModule toLowercase table (moduleOf toLowercase ty) := ⟨ty, hty, rfl⟩
    rw [typeRelPath_eq, Bool.eq_iff_iff, beq_iff_eq, beq_iff_eq]
    exact ⟨slash_injective hty'.ne_nil hm.ne_nil (hty'.not_mem hseg) (hm.not_mem hseg),
      congrArg slash⟩
  have hkey : ∀ ty : EmitType, (typeRelPath toLowercase ty == fp) = true ↔
      typeRelPath toLowercase ty = fp := fun ty => beq_iff_eq
  rw [filesByPath, Grouping.mem_group hkey]
  constructor
  · rintro ⟨rfl, hne⟩
    obtain ⟨ty, hty⟩ := List.exists_mem_of_ne_nil _ hne
    obtain ⟨hty, hpath⟩ := List.mem_filter.mp hty
    have hm : IsModule toLowercase table (moduleOf toLowercase ty) := ⟨ty, hty, rfl⟩
    have hslash : slash (moduleOf toLowercase ty) = fp :=
      (typeRelPath_eq ty).symm.trans (beq_iff_eq.mp hpath)
    exact ⟨_, hm, hslash, by rw [← hfilter _ hm, hslash]⟩
  · rintro ⟨m, hm, rfl, rfl⟩
    exact ⟨hfilter m hm, typesOf_ne_nil hm⟩

theorem typesOf_injective {m m' : Module} (hne : typesOf toLowercase table m ≠ [])
    (heq : typesOf toLowercase table m = typesOf toLowercase table m') : m = m' := by
  obtain ⟨ty, hty⟩ := List.exists_mem_of_ne_nil _ hne
  have hm := beq_iff_eq.mp (List.mem_filter.mp hty).2
  rw [heq] at hty
  have hm' := beq_iff_eq.mp (List.mem_filter.mp hty).2
  exact hm.symm.trans hm'

/-! ## The two tests -/

theorem parse_of_segments {m : Module} (h : ∀ seg ∈ m, seg ≠ []) :
    ModulePath.parse m = some ⟨m⟩ ↔ ∀ seg ∈ m, isIdentifier seg = true := by
  have hne : m ≠ [[]] := by
    rintro rfl
    exact h [] (List.mem_singleton_self _) rfl
  rw [ModulePath.parse, if_neg hne, Option.ite_none_right_eq_some]
  simp only [List.all_eq_true, Bool.and_eq_true, Bool.not_eq_true', and_true]
  constructor
  · exact fun hall seg hs => (hall seg hs).2
  · exact fun hall seg hs => ⟨by simp [h seg hs], hall seg hs⟩

theorem parse_eq_some {m : Module} {p : ModulePath} (h : ∀ seg ∈ m, seg ≠ [])
    (hp : ModulePath.parse m = some p) : p = ⟨m⟩ := by
  have hne : m ≠ [[]] := by
    rintro rfl
    exact h [] (List.mem_singleton_self _) rfl
  rw [ModulePath.parse, if_neg hne, Option.ite_none_right_eq_some] at hp
  exact (Option.some.inj hp.2).symm

theorem fromSlash_slash {m : Module} (hseg : Segmented toLowercase table)
    (hm : IsModule toLowercase table m) : ModulePath.fromSlash (slash m) = ModulePath.parse m := by
  rw [ModulePath.fromSlash, split_slash hm.ne_nil (hm.not_mem hseg)]

theorem getChildren_isEmpty {m : Module} (hseg : Segmented toLowercase table)
    (hm : IsModule toLowercase table m) :
    (getChildren (slash m) (allFiles toLowercase table)).isEmpty = false ↔
      HasChild toLowercase table m := by
  have hsegs : ∀ seg ∈ m, seg ≠ [] := fun seg hs => (hm.segments hseg seg hs).1
  rw [getChildren, fromSlash_slash hseg hm]
  constructor
  · intro h
    cases hparse : ModulePath.parse m with
    | none => rw [hparse] at h; cases h
    | some p =>
      obtain rfl := parse_eq_some hsegs hparse
      simp only [hparse, List.isEmpty_eq_false_iff, ne_eq, List.map_eq_nil_iff] at h
      obtain ⟨q, hq⟩ := List.exists_mem_of_ne_nil _ h
      obtain ⟨hq, hparent⟩ := List.mem_filter.mp hq
      obtain ⟨fp, hfp, hslash⟩ := List.mem_filterMap.mp hq
      obtain ⟨m', hm', rfl⟩ := mem_allFiles.mp hfp
      rw [fromSlash_slash hseg hm'] at hslash
      have hsegs' : ∀ seg ∈ m', seg ≠ [] := fun seg hs => (hm'.segments hseg seg hs).1
      obtain rfl := parse_eq_some hsegs' hslash
      obtain ⟨name, hname⟩ := ModulePath.isDirectParentOf_iff.mp hparent
      have hname' : m' = m ++ [name] := hname
      subst hname'
      exact ⟨name, hm', (parse_of_segments hsegs').mp hslash⟩
  · rintro ⟨name, hchild, hident⟩
    have hparse : ModulePath.parse m = some ⟨m⟩ := (parse_of_segments hsegs).mpr fun seg hs =>
      hident seg (List.mem_append_left _ hs)
    have hparse' : ModulePath.parse (m ++ [name]) = some ⟨m ++ [name]⟩ :=
      (parse_of_segments fun seg hs => (hchild.segments hseg seg hs).1).mpr hident
    simp only [hparse, List.isEmpty_eq_false_iff, ne_eq, List.map_eq_nil_iff]
    refine List.ne_nil_of_mem (a := ⟨m ++ [name]⟩) (List.mem_filter.mpr ⟨?_, ?_⟩)
    · refine List.mem_filterMap.mpr ⟨slash (m ++ [name]), mem_allFiles.mpr ⟨_, hchild, rfl⟩, ?_⟩
      rw [fromSlash_slash hseg hchild, hparse']
    · exact ModulePath.isDirectParentOf_iff.mpr ⟨name, rfl⟩

theorem mem_modulesWithChildren {m : Module} (hseg : Segmented toLowercase table)
    (hm : IsModule toLowercase table m) :
    slash m ∈ modulesWithChildren (allFiles toLowercase table) ↔
      HasDescendant toLowercase table m := by
  have hlen : 0 < m.length := List.length_pos_iff.mpr hm.ne_nil
  simp only [modulesWithChildren, List.mem_flatMap, List.mem_map, List.mem_range]
  constructor
  · rintro ⟨fp, hfp, i, hi, heq⟩
    obtain ⟨m', hm', rfl⟩ := mem_allFiles.mp hfp
    rw [segmentsOf_slash hm'.ne_nil (hm'.segments hseg)] at hi heq
    have hne : m'.take (i + 1) ≠ [] := by
      rw [← List.length_pos_iff, List.length_take]
      omega
    have htake : m'.take (i + 1) = m := slash_injective hne hm.ne_nil
      (fun seg hs => hm'.not_mem hseg seg (List.mem_of_mem_take hs)) (hm.not_mem hseg) heq
    refine ⟨m', hm', ⟨m'.drop (i + 1), by rw [← htake, List.take_append_drop]⟩, ?_⟩
    intro hsame
    have hlength := congrArg List.length htake
    rw [List.length_take, ← hsame] at hlength
    rw [← hsame] at hi
    omega
  · rintro ⟨m', hm', ⟨rest, hrest⟩, hne⟩
    have hlength := congrArg List.length hrest
    rw [List.length_append] at hlength
    have hrest' : rest ≠ [] := by
      rintro rfl
      exact hne (by rw [← hrest, List.append_nil])
    have := List.length_pos_iff.mpr hrest'
    refine ⟨slash m', mem_allFiles.mpr ⟨m', hm', rfl⟩, m.length - 1, ?_, ?_⟩
    · rw [segmentsOf_slash hm'.ne_nil (hm'.segments hseg)]
      omega
    · rw [segmentsOf_slash hm'.ne_nil (hm'.segments hseg), Nat.sub_add_cancel hlen, ← hrest,
        List.take_left]
      rfl

/-! ## Stems -/

/-- All modules, in the order of their files. -/
def modules (toLowercase : Str → Str) (table : TypeTable) : List Module :=
  (filesByPath toLowercase table).map fun file => segmentsOf file.1

open Classical in
noncomputable def writerStem (toLowercase : Str → Str) (table : TypeTable) (m : Module) : Module :=
  if HasChild toLowercase table m then m ++ [modSegment] else m

open Classical in
noncomputable def manifestStem (toLowercase : Str → Str) (table : TypeTable) (m : Module) :
    Module :=
  if HasDescendant toLowercase table m then m ++ [modSegment] else m

theorem bindingPath_eq {m : Module} (hseg : Segmented toLowercase table)
    (hm : IsModule toLowercase table m) :
    bindingPath (slash m) (allFiles toLowercase table) =
      pathOf (writerStem toLowercase table m) := by
  rw [bindingPath, writerStem]
  by_cases h : HasChild toLowercase table m
  · rw [if_pos h, (getChildren_isEmpty hseg hm).mpr h, if_neg Bool.false_ne_true,
      pathOf_mod hm.ne_nil]
  · have hempty : (getChildren (slash m) (allFiles toLowercase table)).isEmpty = true := by
      rw [← Bool.not_eq_false, getChildren_isEmpty hseg hm]
      exact h
    rw [if_neg h, if_pos hempty]
    rfl

theorem mem_modules {m : Module} (hseg : Segmented toLowercase table) :
    m ∈ modules toLowercase table ↔ IsModule toLowercase table m := by
  rw [modules, List.mem_map]
  constructor
  · rintro ⟨⟨fp, types⟩, hfile, rfl⟩
    obtain ⟨m, hm, rfl, -⟩ := (mem_filesByPath hseg).mp hfile
    rw [segmentsOf_slash hm.ne_nil (hm.segments hseg)]
    exact hm
  · intro hm
    exact ⟨(slash m, _), (mem_filesByPath hseg).mpr ⟨m, hm, rfl, rfl⟩,
      segmentsOf_slash hm.ne_nil (hm.segments hseg)⟩

theorem modules_nodup (hseg : Segmented toLowercase table) :
    (modules toLowercase table).Nodup := by
  have hkeys : (modules toLowercase table).map slash = allFiles toLowercase table := by
    rw [modules, List.map_map, allFiles]
    refine List.map_congr_left ?_
    rintro ⟨fp, types⟩ hfile
    obtain ⟨m, hm, rfl, -⟩ := (mem_filesByPath hseg).mp hfile
    rw [Function.comp_apply, segmentsOf_slash hm.ne_nil (hm.segments hseg)]
  refine List.Nodup.of_map slash ?_
  rw [hkeys]
  exact Grouping.group_keys_nodup _ _

theorem header_ne_nil : header ≠ [] := by decide

theorem renderBindingFile_ne_nil (types : List EmitType) (spec : LoaderSpec)
    (exports : ExportTable) : (renderBindingFile types spec exports).isEmpty = false := by
  rw [renderBindingFile, List.isEmpty_eq_false_iff]
  exact List.append_ne_nil_of_left_ne_nil header_ne_nil _

noncomputable def bindingFile (toLowercase : Str → Str) (table : TypeTable) (m : Module) : Write :=
  ⟨pathOf (writerStem toLowercase table m), .binding (typesOf toLowercase table m)⟩

theorem bindingWrites_eq (hseg : Segmented toLowercase table) :
    bindingWrites toLowercase table spec exports =
      (modules toLowercase table).map (bindingFile toLowercase table) := by
  rw [bindingWrites, modules, List.map_map, ← List.filterMap_eq_map]
  refine List.filterMap_congr ?_
  rintro ⟨fp, types⟩ hfile
  obtain ⟨m, hm, rfl, rfl⟩ := (mem_filesByPath hseg).mp hfile
  rw [bindingWrite, renderBindingFile_ne_nil, if_neg Bool.false_ne_true, bindingPath_eq hseg hm]
  simp only [Function.comp_apply, segmentsOf_slash hm.ne_nil (hm.segments hseg), bindingFile]

theorem stubWrites_paths (spec : LoaderSpec) :
    (stubWrites spec).map Write.path = (stubModules spec).map pathOf := by
  rw [stubWrites, stubModules, List.map_filterMap, List.map_filterMap]
  refine List.filterMap_congr fun target _ => ?_
  rw [emitKnownTypeStubs]
  cases target.knownExternalTypes with
  | nil => rfl
  | cons first kts =>
    simp only [List.head?_cons, Option.bind_some]
    split_ifs <;> rfl

theorem stubModules_ne_nil {m : Module} (h : m ∈ stubModules spec) : m ≠ [] := by
  obtain ⟨target, -, hstub⟩ := List.mem_filterMap.mp h
  cases hkts : target.knownExternalTypes with
  | nil => rw [hkts] at hstub; cases hstub
  | cons first kts =>
    simp only [hkts, List.head?_cons, Option.bind_some] at hstub
    split_ifs at hstub with hlen
    have hm := Option.some.inj hstub
    rw [← hm, ← List.length_pos_iff, List.length_dropLast]
    omega

theorem emitAll_writes {fails : Str → Option Str} {outDir : Str} {e : Emission}
    (h : emitAll toLowercase fails outDir table spec exports = some e) (herrors : e.errors = []) :
    e.writes = bindingWrites toLowercase table spec exports ++
      (stubWrites spec ++ [emitManifest (allFiles toLowercase table)]) := by
  rw [emitAll] at h
  split_ifs at h
  have he := Option.some.inj h
  subst he
  have hnone : ∀ w ∈ bindingWrites toLowercase table spec exports,
      (fails w.path).isNone = true := by
    intro w hw
    have hw' := List.filterMap_eq_nil_iff.mp herrors w hw
    rw [writeError, Option.map_eq_none_iff] at hw'
    rw [hw']
    rfl
  exact congrArg (· ++ _) (List.filter_eq_self.mpr hnone)

/-! ## The includes of a run -/

noncomputable def moduleInclude (toLowercase : Str → Str) (table : TypeTable) (m : Module) :
    Module × Str :=
  (wrapperMod :: m, pathOf (manifestStem toLowercase table m))

theorem includeOf_eq {m : Module} (hseg : Segmented toLowercase table)
    (hm : IsModule toLowercase table m) :
    includeOf [wrapperMod] (modulesWithChildren (allFiles toLowercase table))
      (allFiles toLowercase table) m = some (moduleInclude toLowercase table m) := by
  have hmem : (allFiles toLowercase table).contains (slash m) = true :=
    List.contains_iff_mem.mpr (mem_allFiles.mpr ⟨m, hm, rfl⟩)
  rw [includeOf, if_pos hmem, moduleInclude, manifestStem]
  by_cases h : HasDescendant toLowercase table m
  · have hchildren := List.contains_iff_mem.mpr ((mem_modulesWithChildren hseg hm).mpr h)
    rw [if_pos hchildren, if_pos h, pathOf_mod hm.ne_nil]
    rfl
  · have hchildren := mt List.contains_iff_mem.mp (mt (mem_modulesWithChildren hseg hm).mp h)
    rw [if_neg hchildren, if_neg h]
    rfl

theorem manifest_includes (hseg : Segmented toLowercase table) :
    (∀ inc, inc ∈ includesOf [] (manifestLines (allFiles toLowercase table)) ↔
      ∃ m, IsModule toLowercase table m ∧ moduleInclude toLowercase table m = inc) ∧
      (includesOf [] (manifestLines (allFiles toLowercase table))).Nodup := by
  have hsegments : ∀ fp ∈ allFiles toLowercase table, ∀ seg ∈ segmentsOf fp, IsSegment seg := by
    intro fp hfp seg hs
    obtain ⟨m, hm, rfl⟩ := mem_allFiles.mp hfp
    rw [segmentsOf_slash hm.ne_nil (hm.segments hseg)] at hs
    exact hm.segments hseg seg hs
  obtain ⟨hsorted, hnodes⟩ := ManifestTree.nodes_foldl ManifestTree.sorted_nil
    (allFiles toLowercase table)
  have hmodule : ∀ n inc, n ∈ ((allFiles toLowercase table).foldl insertIntoTree .nil).nodes →
      includeOf [wrapperMod] (modulesWithChildren (allFiles toLowercase table))
        (allFiles toLowercase table) n = some inc →
      IsModule toLowercase table n ∧ moduleInclude toLowercase table n = inc := by
    intro n inc hn hinc
    rcases (hnodes n).mp hn with hnil | ⟨fp, hfp, hne, hfront⟩
    · exact absurd hnil List.not_mem_nil
    · have hn' : IsModule toLowercase table n :=
        (slash_mem_allFiles hseg hne fun seg hs =>
          (hsegments fp hfp seg (hfront.subset hs)).2).mp (mem_of_includeOf hinc).1
      rw [includeOf_eq hseg hn'] at hinc
      exact ⟨hn', Option.some.inj hinc⟩
  rw [includesOf_manifestLines fun fp hfp seg hs => (hsegments fp hfp seg hs).2]
  constructor
  · intro inc
    rw [List.mem_filterMap]
    constructor
    · rintro ⟨n, hn, hinc⟩
      exact ⟨n, hmodule n inc hn hinc⟩
    · rintro ⟨m, hm, rfl⟩
      refine ⟨m, (hnodes m).mpr (Or.inr ⟨slash m, mem_allFiles.mpr ⟨m, hm, rfl⟩, hm.ne_nil, ?_⟩),
        includeOf_eq hseg hm⟩
      rw [segmentsOf_slash hm.ne_nil (hm.segments hseg)]
  · refine (ManifestTree.nodes_nodup hsorted).filterMap ?_
    intro n n' inc hinc hinc'
    have hsame := (mem_of_includeOf hinc).2.symm.trans (mem_of_includeOf hinc').2
    exact (List.cons.inj hsame).2

/-- The files of a run, by their stems. -/
noncomputable def stems (toLowercase : Str → Str) (table : TypeTable) (spec : LoaderSpec) :
    List Module :=
  (modules toLowercase table).map (writerStem toLowercase table) ++
    (stubModules spec ++ [["bindings_generated".toList]])

/-- What a run without errors leaves. -/
structure Emitted (toLowercase : Str → Str) (table : TypeTable) (spec : LoaderSpec)
    (writes : List Write) : Prop where
  paths : writes.map Write.path = (stems toLowercase table spec).map pathOf
  bindings : ∀ path types, ⟨path, .binding types⟩ ∈ writes ↔
    ∃ m, IsModule toLowercase table m ∧ path = pathOf (writerStem toLowercase table m) ∧
      types = typesOf toLowercase table m
  includes : ∀ inc, inc ∈ includes writes ↔
    ∃ m, IsModule toLowercase table m ∧ moduleInclude toLowercase table m = inc
  nodup : (Emit.includes writes).Nodup

theorem stub_contents {w : Write} (h : w ∈ stubWrites spec) : ∃ kts, w.contents = .stubs kts := by
  obtain ⟨target, -, hstub⟩ := List.mem_filterMap.mp h
  cases hkts : target.knownExternalTypes with
  | nil => rw [hkts] at hstub; cases hstub
  | cons first kts =>
    simp only [emitKnownTypeStubs, hkts, List.head?_cons, Option.bind_some] at hstub
    split_ifs at hstub
    rw [← Option.some.inj hstub]
    exact ⟨first :: kts, rfl⟩

theorem emission_emitted {fails : Str → Option Str} {outDir : Str} {e : Emission}
    (hseg : Segmented toLowercase table)
    (h : emitAll toLowercase fails outDir table spec exports = some e) (herrors : e.errors = []) :
    Emitted toLowercase table spec e.writes := by
  have hwrites := emitAll_writes h herrors
  rw [bindingWrites_eq hseg] at hwrites
  have hincludes : includes e.writes =
      includesOf [] (manifestLines (allFiles toLowercase table)) := by
    have hbindings : includes ((modules toLowercase table).map (bindingFile toLowercase table)) =
        [] := by
      rw [includes, List.flatMap_map]
      exact List.flatMap_eq_nil_iff.mpr fun m _ => rfl
    have hstubs : includes (stubWrites spec) = [] := by
      refine List.flatMap_eq_nil_iff.mpr fun w hw => ?_
      obtain ⟨kts, hkts⟩ := stub_contents hw
      simp only [hkts]
    rw [includes] at hbindings hstubs
    rw [hwrites, includes, List.flatMap_append, List.flatMap_append, hbindings, hstubs]
    exact List.append_nil _
  obtain ⟨hmem, hnodup⟩ := manifest_includes hseg
  refine ⟨?_, ?_, ?_, ?_⟩
  · rw [hwrites, stems, List.map_append, List.map_append, List.map_append, List.map_append,
      List.map_map, List.map_map, stubWrites_paths]
    rfl
  · intro path types
    rw [hwrites, List.mem_append, List.mem_append, List.mem_map, List.mem_singleton]
    constructor
    · rintro (⟨m, hm, hfile⟩ | hstub | hmanifest)
      · cases hfile
        exact ⟨m, (mem_modules hseg).mp hm, rfl, rfl⟩
      · obtain ⟨kts, hkts⟩ := stub_contents hstub
        cases hkts
      · cases hmanifest
    · rintro ⟨m, hm, rfl, rfl⟩
      exact Or.inl ⟨m, (mem_modules hseg).mpr hm, rfl⟩
  · rw [hincludes]
    exact hmem
  · rw [hincludes]
    exact hnodup

/-! ## Distinct stems -/

theorem writerStem_of_child {m : Module} (h : HasChild toLowercase table m) :
    writerStem toLowercase table m = m ++ [modSegment] := if_pos h

theorem writerStem_of_leaf {m : Module} (h : ¬ HasChild toLowercase table m) :
    writerStem toLowercase table m = m := if_neg h

theorem ne_concat {α : Type} (l : List α) (a : α) : l ≠ l ++ [a] := by
  intro h
  have hlength := congrArg List.length h
  rw [List.length_append, List.length_singleton] at hlength
  omega

theorem eq_writerStem_iff {m s : Module} :
    s = writerStem toLowercase table m ↔
      HasChild toLowercase table m ∧ s = m ++ [modSegment] ∨
        ¬ HasChild toLowercase table m ∧ s = m := by
  by_cases h : HasChild toLowercase table m
  · rw [writerStem_of_child h]
    simp only [h, true_and, not_true, false_and, or_false]
  · rw [writerStem_of_leaf h]
    simp only [h, false_and, not_false_eq_true, true_and, false_or]

theorem binding_stems_nodup (hseg : Segmented toLowercase table) :
    ((modules toLowercase table).map (writerStem toLowercase table)).Nodup ↔
      ∀ m, IsModule toLowercase table m → HasChild toLowercase table m →
        IsModule toLowercase table (m ++ [modSegment]) →
          HasChild toLowercase table (m ++ [modSegment]) := by
  constructor
  · intro hnodup m hm hchild hmod
    by_contra hleaf
    have hsame : writerStem toLowercase table m =
        writerStem toLowercase table (m ++ [modSegment]) :=
      (writerStem_of_child hchild).trans (writerStem_of_leaf hleaf).symm
    exact ne_concat m modSegment (List.inj_on_of_nodup_map hnodup ((mem_modules hseg).mpr hm)
      ((mem_modules hseg).mpr hmod) hsame)
  · intro hmod
    refine (modules_nodup hseg).map_on fun m hm m' hm' hsame => ?_
    have hm := (mem_modules hseg).mp hm
    have hm' := (mem_modules hseg).mp hm'
    rcases eq_writerStem_iff.mp hsame with ⟨hchild', heq⟩ | ⟨hleaf', heq⟩
    · rcases eq_writerStem_iff.mp heq.symm with ⟨-, heq'⟩ | ⟨hleaf, rfl⟩
      · exact (List.append_cancel_right heq').symm
      · exact absurd (hmod m' hm' hchild' hm) hleaf
    · rcases eq_writerStem_iff.mp heq.symm with ⟨hchild, rfl⟩ | ⟨-, rfl⟩
      · exact absurd (hmod m hm hchild hm') hleaf'
      · rfl

theorem stems_nodup (hseg : Segmented toLowercase table) :
    (stems toLowercase table spec).Nodup ↔
      (∀ m, IsModule toLowercase table m → HasChild toLowercase table m →
        IsModule toLowercase table (m ++ [modSegment]) →
          HasChild toLowercase table (m ++ [modSegment])) ∧
      (stubModules spec).Nodup ∧
      (∀ m ∈ stubModules spec, IsModule toLowercase table m → HasChild toLowercase table m) ∧
      (∀ m, m ++ [modSegment] ∈ stubModules spec → IsModule toLowercase table m →
        ¬ HasChild toLowercase table m) ∧
      (IsModule toLowercase table ["bindings_generated".toList] →
        HasChild toLowercase table ["bindings_generated".toList]) ∧
      ["bindings_generated".toList] ∉ stubModules spec := by
  have hmanifest : ∀ m, IsModule toLowercase table m →
      m ++ [modSegment] ≠ ["bindings_generated".toList] := by
    intro m hm heq
    have hlength := congrArg List.length heq
    have hpos := List.length_pos_iff.mpr hm.ne_nil
    rw [List.length_append, List.length_singleton, List.length_singleton] at hlength
    omega
  rw [stems, List.nodup_append, List.nodup_append, binding_stems_nodup hseg]
  simp only [List.nodup_singleton, true_and, List.mem_singleton, List.mem_append, List.mem_map,
    forall_exists_index, and_imp, forall_apply_eq_imp_iff₂, forall_eq, mem_modules hseg]
  constructor
  · rintro ⟨hmod, ⟨hstubs, hstub⟩, hcross⟩
    refine ⟨hmod, hstubs, ?_, ?_, ?_, fun hmem => hstub _ hmem rfl⟩
    · intro m hmem hm
      by_contra hleaf
      exact hcross m hm m (Or.inl hmem) (writerStem_of_leaf hleaf)
    · intro m hmem hm hchild
      exact hcross m hm _ (Or.inl hmem) (writerStem_of_child hchild)
    · intro hm
      by_contra hleaf
      exact hcross _ hm _ (Or.inr rfl) (writerStem_of_leaf hleaf)
  · rintro ⟨hmod, hstubs, hleaves, hmods, hown, hstub⟩
    refine ⟨hmod, ⟨hstubs, fun s hs heq => hstub (heq ▸ hs)⟩, ?_⟩
    intro m hm s hs heq
    rcases eq_writerStem_iff.mp heq.symm with ⟨hchild, rfl⟩ | ⟨hleaf, rfl⟩
    · rcases hs with hs | hs
      · exact hmods m hs hm hchild
      · exact hmanifest m hm hs
    · rcases hs with hs | rfl
      · exact hleaf (hleaves s hs hm)
      · exact hleaf (hown hm)

/-- Stubs have paths of segments; the first one of an absolute path is empty. -/
def StubsSegmented (spec : LoaderSpec) : Prop := ∀ m ∈ stubModules spec, ∀ seg ∈ m, '/' ∉ seg

theorem stems_not_mem (hseg : Segmented toLowercase table) (hstubs : StubsSegmented spec) :
    ∀ s ∈ stems toLowercase table spec, s ≠ [] ∧ ∀ seg ∈ s, '/' ∉ seg := by
  intro s hs
  rw [stems, List.mem_append, List.mem_append, List.mem_map, List.mem_singleton] at hs
  rcases hs with ⟨m, hm, hstem⟩ | hs | rfl
  · have hm := (mem_modules hseg).mp hm
    rcases eq_writerStem_iff.mp hstem.symm with ⟨-, rfl⟩ | ⟨-, rfl⟩
    · refine ⟨List.append_ne_nil_of_left_ne_nil hm.ne_nil _, fun seg hs => ?_⟩
      rcases List.mem_append.mp hs with hs | hs
      · exact hm.not_mem hseg seg hs
      · rw [List.mem_singleton.mp hs]
        exact slash_not_mem_mod
    · exact ⟨hm.ne_nil, hm.not_mem hseg⟩
  · exact ⟨stubModules_ne_nil hs, hstubs s hs⟩
  · refine ⟨List.cons_ne_nil _ _, fun seg hs => ?_⟩
    rw [List.mem_singleton.mp hs]
    decide

theorem paths_nodup (hseg : Segmented toLowercase table) (hstubs : StubsSegmented spec) :
    ((stems toLowercase table spec).map pathOf).Nodup ↔ (stems toLowercase table spec).Nodup := by
  have hstems := stems_not_mem hseg hstubs
  refine ⟨List.Nodup.of_map pathOf, fun h => h.map_on fun s hs s' hs' heq => ?_⟩
  exact pathOf_injective (hstems s hs).1 (hstems s' hs').1 (hstems s hs).2 (hstems s' hs').2 heq

/-! ## Agreement of a run -/

theorem manifestStem_of_descendant {m : Module} (h : HasDescendant toLowercase table m) :
    manifestStem toLowercase table m = m ++ [modSegment] := if_pos h

theorem HasChild.descendant {m : Module} (h : HasChild toLowercase table m) :
    HasDescendant toLowercase table m := by
  obtain ⟨name, hm, -⟩ := h
  exact ⟨m ++ [name], hm, List.prefix_append m [name], ne_concat m name⟩

theorem manifestStem_eq {m : Module}
    (h : HasDescendant toLowercase table m → HasChild toLowercase table m) :
    manifestStem toLowercase table m = writerStem toLowercase table m := by
  by_cases hchild : HasChild toLowercase table m
  · rw [manifestStem_of_descendant hchild.descendant, writerStem_of_child hchild]
  · rw [writerStem_of_leaf hchild, manifestStem, if_neg (mt h hchild)]

/-- Where the manifest takes another stem than the writer, it names no file of the module. -/
theorem child_of_included {writes : List Write} (hseg : Segmented toLowercase table)
    (hemitted : Emitted toLowercase table spec writes)
    (hagree : Agree toLowercase table writes) {m : Module} (hm : IsModule toLowercase table m)
    (hdesc : HasDescendant toLowercase table m) : HasChild toLowercase table m := by
  obtain ⟨m', hm', hfilter⟩ := hagree.included _ ((hemitted.includes _).mpr ⟨m, hm, rfl⟩)
  obtain rfl : m = m' := (List.cons.inj hm').2
  have hwrite : ⟨(moduleInclude toLowercase table m).2, .binding (typesOf toLowercase table m)⟩ ∈
      writes.filter fun w => w.path == (moduleInclude toLowercase table m).2 := by
    rw [hfilter]
    exact List.mem_singleton_self _
  obtain ⟨m', hm', hpath, htypes⟩ := (hemitted.bindings _ _).mp (List.mem_filter.mp hwrite).1
  obtain rfl : m = m' := typesOf_injective (typesOf_ne_nil hm) htypes
  by_contra hleaf
  rw [writerStem_of_leaf hleaf, moduleInclude, manifestStem_of_descendant hdesc] at hpath
  have hsegs : ∀ seg ∈ m ++ [modSegment], '/' ∉ seg := by
    intro seg hs
    rcases List.mem_append.mp hs with hs | hs
    · exact hm.not_mem hseg seg hs
    · rw [List.mem_singleton.mp hs]
      exact slash_not_mem_mod
  exact ne_concat m modSegment (pathOf_injective
    (List.append_ne_nil_of_left_ne_nil hm.ne_nil _) hm.ne_nil hsegs (hm.not_mem hseg) hpath).symm

/-- Where both take the same stems and these are distinct, files and manifest agree. -/
theorem agree_of_stems {writes : List Write} (hemitted : Emitted toLowercase table spec writes)
    (hchild : ∀ m, IsModule toLowercase table m → HasDescendant toLowercase table m →
      HasChild toLowercase table m) (hdistinct : (writes.map Write.path).Nodup) :
    Agree toLowercase table writes where
  included := by
    intro inc hinc
    obtain ⟨m, hm, rfl⟩ := (hemitted.includes inc).mp hinc
    have hstem := manifestStem_eq (hchild m hm)
    have hwrite : ⟨pathOf (manifestStem toLowercase table m),
        .binding (typesOf toLowercase table m)⟩ ∈ writes :=
      (hemitted.bindings _ _).mpr ⟨m, hm, congrArg pathOf hstem, rfl⟩
    refine ⟨m, rfl, ListUpdate.filter_eq_singleton hdistinct.of_map hwrite fun w hw => ?_⟩
    rw [beq_iff_eq]
    exact ⟨fun hpath => List.inj_on_of_nodup_map hdistinct hw hwrite hpath, congrArg Write.path⟩
  once := by
    intro path types hwrite
    obtain ⟨m, hm, rfl, rfl⟩ := (hemitted.bindings path types).mp hwrite
    have hstem := manifestStem_eq (hchild m hm)
    have hinc : (wrapperMod :: m, pathOf (writerStem toLowercase table m)) ∈ includes writes := by
      rw [← hstem]
      exact (hemitted.includes _).mpr ⟨m, hm, rfl⟩
    refine ⟨m, rfl, typesOf_ne_nil hm,
      ListUpdate.filter_eq_singleton hemitted.nodup hinc fun inc hinc' => ?_⟩
    obtain ⟨m', hm', rfl⟩ := (hemitted.includes inc).mp hinc'
    rw [beq_iff_eq]
    constructor
    · intro hpath
      rw [moduleInclude, manifestStem_eq (hchild m' hm')] at hpath
      have hwrite' : ⟨pathOf (writerStem toLowercase table m'),
          .binding (typesOf toLowercase table m')⟩ ∈ writes :=
        (hemitted.bindings _ _).mpr ⟨m', hm', rfl, rfl⟩
      have hsame := List.inj_on_of_nodup_map hdistinct hwrite' hwrite hpath
      have htypes := Contents.binding.inj (Write.mk.inj hsame).2
      obtain rfl := typesOf_injective (typesOf_ne_nil hm') htypes
      rw [moduleInclude, hstem]
    · rintro heq
      exact congrArg Prod.snd heq
  distinct := hdistinct

/-- The files and the manifest of a run without errors agree exactly if the modules are laid so. -/
theorem agree_iff {fails : Str → Option Str} {outDir : Str} {e : Emission}
    (hseg : Segmented toLowercase table) (hstubs : StubsSegmented spec)
    (h : emitAll toLowercase fails outDir table spec exports = some e) (herrors : e.errors = []) :
    Agree toLowercase table e.writes ↔ Laid toLowercase table spec := by
  have hemitted := emission_emitted hseg h herrors
  have hpaths : (e.writes.map Write.path).Nodup ↔ (stems toLowercase table spec).Nodup := by
    rw [hemitted.paths, paths_nodup hseg hstubs]
  constructor
  · intro hagree
    obtain ⟨hmod, hnodup, hleaf, hstubMod, hmanifest, hmanifestStub⟩ :=
      (stems_nodup hseg).mp (hpaths.mp hagree.distinct)
    exact ⟨fun m => child_of_included hseg hemitted hagree, hmod, hnodup, hleaf, hstubMod,
      hmanifest, hmanifestStub⟩
  · intro hlaid
    refine agree_of_stems hemitted hlaid.child (hpaths.mpr ((stems_nodup hseg).mpr ?_))
    exact ⟨hlaid.ownMod, hlaid.stubs, hlaid.stubLeaf, hlaid.stubMod, hlaid.manifest,
      hlaid.manifestStub⟩

end

/-! ### A module with a gap below it -/

/-- Where every file can be written, there is a run without errors. -/
theorem emitAll_of_no_failure (toLowercase : Str → Str) (outDir : Str) (table : TypeTable)
    (spec : LoaderSpec) (exports : ExportTable) :
    ∃ e, emitAll toLowercase (fun _ => none) outDir table spec exports = some e ∧
      e.errors = [] := by
  have hothers : ((stubWrites spec ++ [emitManifest (allFiles toLowercase table)]).any
      fun w => ((fun _ => none : Str → Option Str) w.path).isSome) = false :=
    List.any_eq_false.mpr fun w _ => Bool.false_ne_true
  refine ⟨_, by rw [emitAll, hothers, if_neg Bool.false_ne_true], ?_⟩
  exact List.filterMap_eq_nil_iff.mpr fun w _ => rfl

def unitStruct (name modulePath : String) : EmitType where
  id := 0
  itemId := 0
  lib := "std"
  name := name
  modulePath := modulePath
  kind := .struct [] false
  generics := []
  wherePredicates := []
  attrs := ⟨[], [], []⟩

/-- A target with the stub of an external type. -/
def stubSpec : LoaderSpec := ⟨[{
  libName := "std"
  pathReplacements := []
  ignoredStructs := []
  extraDerives := fun _ => none
  knownExternalTypes := [⟨"core::sync::atomic::Atomic".toList, "pub struct Atomic;".toList⟩] }]⟩

theorem stubSpec_segmented : StubsSegmented stubSpec := by
  unfold StubsSegmented
  decide

theorem agree_iff_nested :
    ∃ e, emitAll id (fun _ => none) [] [unitStruct "A" "a", unitStruct "B" "a::b"] stubSpec [] =
        some e ∧
      (Agree id [unitStruct "A" "a", unitStruct "B" "a::b"] e.writes ↔
        Laid id [unitStruct "A" "a", unitStruct "B" "a::b"] stubSpec) := by
  obtain ⟨e, he, herrors⟩ := emitAll_of_no_failure id []
    [unitStruct "A" "a", unitStruct "B" "a::b"] stubSpec []
  exact ⟨e, he, agree_iff (by decide) stubSpec_segmented he herrors⟩

/-- There are types in `a` and in `a::b::c`, and none in `a::b`. -/
theorem gap_disagrees :
    ∃ e, emitAll id (fun _ => none) [] [unitStruct "A" "a", unitStruct "C" "a::b::c"] ⟨[]⟩ [] =
        some e ∧ e.errors = [] ∧
      ¬ Agree id [unitStruct "A" "a", unitStruct "C" "a::b::c"] e.writes := by
  obtain ⟨e, he, herrors⟩ := emitAll_of_no_failure id []
    [unitStruct "A" "a", unitStruct "C" "a::b::c"] ⟨[]⟩ []
  refine ⟨e, he, herrors, fun hagree => ?_⟩
  have hseg : Segmented id [unitStruct "A" "a", unitStruct "C" "a::b::c"] := by decide
  have hm : IsModule id [unitStruct "A" "a", unitStruct "C" "a::b::c"] [['a']] :=
    ⟨unitStruct "A" "a", List.mem_cons_self, by decide⟩
  have hdesc : HasDescendant id [unitStruct "A" "a", unitStruct "C" "a::b::c"] [['a']] :=
    ⟨[['a'], ['b'], ['c']], ⟨unitStruct "C" "a::b::c",
      List.mem_cons_of_mem _ (List.mem_singleton_self _), by decide⟩, by decide, by decide⟩
  obtain ⟨name, ⟨ty, hty, hname⟩, -⟩ :=
    child_of_included hseg (emission_emitted hseg he herrors) hagree hm hdesc
  have hlength : ∀ ty ∈ [unitStruct "A" "a", unitStruct "C" "a::b::c"],
      (moduleOf id ty).length ≠ 2 := by decide
  exact hlength ty hty (by rw [hname]; rfl)

end Rustyfill.DocJson.Emit
