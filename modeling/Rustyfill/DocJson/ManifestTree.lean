import Rustyfill.DocJson.Manifest

/-!
# Reading the manifest

The modules and the includes that the lines of a manifest stand for, and the nodes of the tree they
were written from. A module is the list of its segments.
-/

namespace Rustyfill.DocJson.Emit

open TypeRepr

set_option autoImplicit false

abbrev Module := List Str

def slash (m : Module) : Str := ['/'].intercalate m

/-- A segment of a module path. -/
def IsSegment (seg : Str) : Prop := seg ≠ [] ∧ '/' ∉ seg

instance : DecidablePred IsSegment := fun seg => inferInstanceAs (Decidable (seg ≠ [] ∧ '/' ∉ seg))

def includesOf : Module → List Line → List (Module × Str)
  | _, [] => []
  | inside, .module _ name :: lines => includesOf (inside ++ [name]) lines
  | inside, .allow _ :: lines => includesOf inside lines
  | inside, .include _ path :: lines => (inside, path) :: includesOf inside lines
  | inside, .close _ :: lines => includesOf inside.dropLast lines

/-! ## Paths -/

section
variable {m m' : Module} {seg : Str}

theorem slash_concat (hne : m ≠ []) (seg : Str) : slash (m ++ [seg]) = slash m ++ '/' :: seg :=
  Text.intercalate_concat hne seg

theorem slash_injective (hne : m ≠ []) (hne' : m' ≠ []) (h : ∀ seg ∈ m, '/' ∉ seg)
    (h' : ∀ seg ∈ m', '/' ∉ seg) (heq : slash m = slash m') : m = m' :=
  Text.intercalate_injective hne hne' h h' heq

theorem split_slash (hne : m ≠ []) (h : ∀ seg ∈ m, '/' ∉ seg) : Text.split ['/'] (slash m) = m :=
  Text.split_intercalate hne h

theorem segmentsOf_slash (hne : m ≠ []) (h : ∀ seg ∈ m, IsSegment seg) :
    segmentsOf (slash m) = m := by
  rw [segmentsOf, split_slash hne fun seg hseg => (h seg hseg).2]
  exact List.filter_eq_self.mpr fun seg hseg => by simp [(h seg hseg).1]

theorem moduleName_slash (m : Module) (h : '/' ∉ seg) : moduleName (slash (m ++ [seg])) = seg := by
  cases m with
  | nil =>
    rw [List.nil_append, slash, List.intercalate_singleton, moduleName,
      Text.rsplitOnce_of_not_mem h]
  | cons a m =>
    rw [slash_concat (List.cons_ne_nil a m), moduleName, Text.rsplitOnce_append _ h]

/-- The parent that a node below a module is written with. -/
def parentOf (m : Module) : Option Str := if m = [] then none else some (slash m)

theorem childPath_parentOf (m : Module) (seg : Str) :
    childPath (parentOf m) seg = slash (m ++ [seg]) := by
  rw [parentOf]
  by_cases h : m = []
  · rw [if_pos h, h]
    exact (List.intercalate_singleton).symm
  · rw [if_neg h, slash_concat h]
    exact List.append_assoc _ _ _

theorem parentOf_concat (m : Module) (seg : Str) :
    parentOf (m ++ [seg]) = some (slash (m ++ [seg])) :=
  if_neg (List.append_ne_nil_of_right_ne_nil m (List.cons_ne_nil seg []))

end

/-! ## Nodes -/

namespace ManifestTree

def roots : ManifestTree → List Str
  | nil => []
  | cons name _ rest => name :: rest.roots

def nodes : ManifestTree → List Module
  | nil => []
  | cons name children rest => [name] :: children.nodes.map (name :: ·) ++ rest.nodes

/-- Every level is sorted. -/
def Sorted : ManifestTree → Prop
  | nil => True
  | cons name children rest => (∀ r ∈ rest.roots, name < r) ∧ children.Sorted ∧ rest.Sorted

variable {tree : ManifestTree} {n segs : Module} {r : Str}

theorem sorted_ofSegments (segs : Module) : (ofSegments segs).Sorted := by
  induction segs with
  | nil => trivial
  | cons seg segs ih => exact ⟨fun r hr => absurd hr List.not_mem_nil, ih, trivial⟩

theorem mem_nodes_ofSegments : n ∈ (ofSegments segs).nodes ↔ n ≠ [] ∧ n <+: segs := by
  induction segs generalizing n with
  | nil =>
    constructor
    · intro h
      exact absurd h List.not_mem_nil
    · rintro ⟨hne, hfront⟩
      exact absurd (List.prefix_nil.mp hfront) hne
  | cons seg segs ih =>
    simp only [ofSegments, nodes, List.append_nil, List.mem_cons, List.mem_map, ih]
    constructor
    · rintro (rfl | ⟨n, ⟨-, hfront⟩, rfl⟩)
      · exact ⟨List.cons_ne_nil _ _, List.cons_prefix_cons.mpr ⟨rfl, List.nil_prefix⟩⟩
      · exact ⟨List.cons_ne_nil _ _, List.cons_prefix_cons.mpr ⟨rfl, hfront⟩⟩
    · rintro ⟨hne, hfront⟩
      cases n with
      | nil => exact absurd rfl hne
      | cons a n =>
        obtain ⟨rfl, htail⟩ := List.cons_prefix_cons.mp hfront
        cases n with
        | nil => exact Or.inl rfl
        | cons b n => exact Or.inr ⟨b :: n, ⟨List.cons_ne_nil _ _, htail⟩, rfl⟩

theorem mem_roots_insert {seg : Str} (h : r ∈ (tree.insert (seg :: segs)).roots) :
    r = seg ∨ r ∈ tree.roots := by
  induction tree with
  | nil => exact Or.inl (List.mem_singleton.mp h)
  | cons name children rest _ ihrest =>
    rw [insert] at h
    split_ifs at h with heq hlt
    · exact Or.inr h
    · exact (List.mem_cons.mp h).imp_right id
    · rcases List.mem_cons.mp h with rfl | h
      · exact Or.inr List.mem_cons_self
      · exact (ihrest h).imp_right (List.mem_cons_of_mem _)

theorem sorted_nil : (nil : ManifestTree).Sorted := trivial

theorem sorted_insert (h : tree.Sorted) : (tree.insert segs).Sorted := by
  induction tree generalizing segs with
  | nil =>
    cases segs with
    | nil => exact h
    | cons seg segs => exact sorted_ofSegments (seg :: segs)
  | cons name children rest ihchildren ihrest =>
    cases segs with
    | nil => exact h
    | cons seg segs =>
      obtain ⟨hroots, hchildren, hrest⟩ := h
      rw [insert]
      split_ifs with heq hlt
      · exact ⟨hroots, ihchildren hchildren, hrest⟩
      · refine ⟨?_, sorted_ofSegments segs, hroots, hchildren, hrest⟩
        intro r hr
        rcases List.mem_cons.mp hr with rfl | hr
        · exact hlt
        · exact hlt.trans (hroots r hr)
      · refine ⟨?_, hchildren, ihrest hrest⟩
        intro r hr
        rcases mem_roots_insert hr with rfl | hr
        · exact lt_of_le_of_ne (not_lt.mp hlt) (Ne.symm heq)
        · exact hroots r hr

theorem mem_nodes_insert : n ∈ (tree.insert segs).nodes ↔ n ∈ tree.nodes ∨ n ≠ [] ∧ n <+: segs := by
  induction tree generalizing n segs with
  | nil =>
    cases segs with
    | nil =>
      simp only [insert, nodes, List.prefix_nil, false_or, List.not_mem_nil, false_iff]
      exact fun h => h.1 h.2
    | cons seg segs =>
      rw [insert, mem_nodes_ofSegments]
      simp only [nodes, List.not_mem_nil, false_or]
  | cons name children rest ihchildren ihrest =>
    cases segs with
    | nil =>
      simp only [insert, List.prefix_nil, iff_self_or]
      exact fun h => absurd h.2 h.1
    | cons seg segs =>
      rw [insert]
      split_ifs with heq hlt
      · subst heq
        simp only [nodes, List.cons_append, List.mem_cons, List.mem_append, List.mem_map,
          ihchildren]
        constructor
        · rintro (rfl | ⟨n, hn | ⟨-, hfront⟩, rfl⟩ | hn)
          · exact Or.inl (Or.inl rfl)
          · exact Or.inl (Or.inr (Or.inl ⟨n, hn, rfl⟩))
          · exact Or.inr ⟨List.cons_ne_nil _ _, List.cons_prefix_cons.mpr ⟨rfl, hfront⟩⟩
          · exact Or.inl (Or.inr (Or.inr hn))
        · rintro ((rfl | ⟨n, hn, rfl⟩ | hn) | ⟨hne, hfront⟩)
          · exact Or.inl rfl
          · exact Or.inr (Or.inl ⟨n, Or.inl hn, rfl⟩)
          · exact Or.inr (Or.inr hn)
          · cases n with
            | nil => exact absurd rfl hne
            | cons a n =>
              obtain ⟨rfl, htail⟩ := List.cons_prefix_cons.mp hfront
              cases n with
              | nil => exact Or.inl rfl
              | cons b n =>
                exact Or.inr (Or.inl ⟨b :: n, Or.inr ⟨List.cons_ne_nil _ _, htail⟩, rfl⟩)
      · have hnew : (cons seg (ofSegments segs) (cons name children rest)).nodes =
            (ofSegments (seg :: segs)).nodes ++ (cons name children rest).nodes := by
          simp only [ofSegments, nodes, List.append_nil]
        rw [hnew, List.mem_append, mem_nodes_ofSegments, or_comm]
      · simp only [nodes, List.cons_append, List.mem_cons, List.mem_append, ihrest, or_assoc]

theorem head_of_mem_nodes (h : n ∈ tree.nodes) : ∃ r ∈ tree.roots, ∃ rest, n = r :: rest := by
  induction tree with
  | nil => exact absurd h List.not_mem_nil
  | cons name children rest _ ihrest =>
    simp only [nodes, List.cons_append, List.mem_cons, List.mem_append, List.mem_map] at h
    rcases h with rfl | ⟨n, -, rfl⟩ | h
    · exact ⟨name, List.mem_cons_self, [], rfl⟩
    · exact ⟨name, List.mem_cons_self, n, rfl⟩
    · obtain ⟨r, hr, tail, rfl⟩ := ihrest h
      exact ⟨r, List.mem_cons_of_mem _ hr, tail, rfl⟩

theorem nodes_nodup (h : tree.Sorted) : tree.nodes.Nodup := by
  induction tree with
  | nil => exact List.nodup_nil
  | cons name children rest ihchildren ihrest =>
    obtain ⟨hroots, hchildren, hrest⟩ := h
    have hinside : (children.nodes.map (name :: ·)).Nodup :=
      (ihchildren hchildren).map fun _ _ heq => (List.cons.inj heq).2
    have hhead : [name] ∉ children.nodes.map (name :: ·) := by
      intro hmem
      obtain ⟨n, hn, heq⟩ := List.mem_map.mp hmem
      obtain ⟨r, -, tail, rfl⟩ := head_of_mem_nodes hn
      cases heq
    refine (List.nodup_cons.mpr ⟨hhead, hinside⟩).append (ihrest hrest) ?_
    intro n hn hn'
    obtain ⟨r, hr, tail, rfl⟩ := head_of_mem_nodes hn'
    have hname : r = name := by
      rcases List.mem_cons.mp hn with heq | hn
      · exact (List.cons.inj heq).1
      · obtain ⟨n, -, heq⟩ := List.mem_map.mp hn
        exact (List.cons.inj heq).1.symm
    exact absurd (hroots r hr) (by rw [hname]; exact lt_irrefl name)

theorem nodes_foldl (h : tree.Sorted) (files : List Str) :
    (files.foldl insertIntoTree tree).Sorted ∧
      ∀ n, n ∈ (files.foldl insertIntoTree tree).nodes ↔
        n ∈ tree.nodes ∨ ∃ fp ∈ files, n ≠ [] ∧ n <+: segmentsOf fp := by
  induction files generalizing tree with
  | nil => exact ⟨h, fun n => by simp⟩
  | cons fp files ih =>
    have hinsert : (insertIntoTree tree fp).Sorted := sorted_insert h
    obtain ⟨hsorted, hnodes⟩ := ih hinsert
    refine ⟨hsorted, fun n => ?_⟩
    rw [List.foldl_cons]
    refine (hnodes n).trans ?_
    rw [insertIntoTree, mem_nodes_insert]
    simp only [List.mem_cons, exists_eq_or_imp, or_assoc]

end ManifestTree

/-! ## The includes of a tree -/

def includeOf (inside : Module) (withChildren allFiles : List Str) (m : Module) :
    Option (Module × Str) :=
  if allFiles.contains (slash m) then
    some (inside ++ m,
      if withChildren.contains (slash m) then slash m ++ "/mod.rs".toList
      else slash m ++ ".rs".toList)
  else none

theorem mem_of_includeOf {inside m : Module} {withChildren allFiles : List Str}
    {inc : Module × Str} (h : includeOf inside withChildren allFiles m = some inc) :
    slash m ∈ allFiles ∧ inc.1 = inside ++ m := by
  rw [includeOf, Option.ite_none_right_eq_some] at h
  obtain ⟨hcontains, hinc⟩ := h
  exact ⟨List.contains_iff_mem.mp hcontains, (congrArg Prod.fst (Option.some.inj hinc)).symm⟩

theorem includesOf_nodes {withChildren allFiles : List Str} (inside : Module)
    {tree : ManifestTree} (h : ∀ n ∈ tree.nodes, ∀ seg ∈ n, '/' ∉ seg) (m : Module)
    (indent : Nat) (lines : List Line) :
    includesOf (inside ++ m)
        (emitManifestNodes withChildren allFiles (parentOf m) indent tree ++ lines) =
      tree.nodes.filterMap (fun n => includeOf inside withChildren allFiles (m ++ n)) ++
        includesOf (inside ++ m) lines := by
  induction tree generalizing m indent lines with
  | nil => rfl
  | cons name children rest ihchildren ihrest =>
    have hname : '/' ∉ name := h [name] List.mem_cons_self name (List.mem_singleton_self name)
    have hchildren : ∀ n ∈ children.nodes, ∀ seg ∈ n, '/' ∉ seg := fun n hn seg hseg =>
      h (name :: n) (List.mem_append_left _ (List.mem_cons_of_mem _ (List.mem_map_of_mem hn))) seg
        (List.mem_cons_of_mem _ hseg)
    have hrest : ∀ n ∈ rest.nodes, ∀ seg ∈ n, '/' ∉ seg := fun n hn =>
      h n (List.mem_append_right _ hn)
    have hdeeper := fun lines => ihchildren hchildren (m ++ [name]) (indent + 1) lines
    have hown : ∀ lines, includesOf (inside ++ (m ++ [name]))
        (includeLines withChildren allFiles indent (slash (m ++ [name])) ++ lines) =
        (includeOf inside withChildren allFiles (m ++ [name])).toList ++
          includesOf (inside ++ (m ++ [name])) lines := by
      intro lines
      rw [includeLines, includeOf]
      split_ifs <;> rfl
    have hlast : (inside ++ (m ++ [name])).dropLast = inside ++ m := by
      rw [← List.append_assoc, List.dropLast_concat]
    rw [parentOf_concat] at hdeeper
    rw [emitManifestNodes, childPath_parentOf, moduleName_slash m hname]
    simp only [List.cons_append, List.append_assoc, includesOf]
    rw [hown, hdeeper]
    simp only [includesOf, hlast, ihrest hrest, ManifestTree.nodes, List.filterMap_append,
      List.filterMap_cons, List.filterMap_map, List.append_assoc]
    cases includeOf inside withChildren allFiles (m ++ [name]) with
    | none => simp
    | some inc => simp

theorem includesOf_manifestLines {allFiles : List Str}
    (h : ∀ fp ∈ allFiles, ∀ seg ∈ segmentsOf fp, '/' ∉ seg) :
    includesOf [] (manifestLines allFiles) =
      ((allFiles.foldl insertIntoTree .nil).nodes).filterMap
        (includeOf [wrapperMod] (modulesWithChildren allFiles) allFiles) := by
  obtain ⟨-, hnodes⟩ := ManifestTree.nodes_foldl ManifestTree.sorted_nil allFiles
  have hseg : ∀ n ∈ (allFiles.foldl insertIntoTree .nil).nodes, ∀ seg ∈ n, '/' ∉ seg := by
    intro n hn seg hseg
    rcases (hnodes n).mp hn with hnil | ⟨fp, hfp, -, hfront⟩
    · exact absurd hnil List.not_mem_nil
    · exact h fp hfp seg (hfront.subset hseg)
  have hincludes := @includesOf_nodes (modulesWithChildren allFiles) allFiles [wrapperMod] _ hseg
    [] 1 [.close 0]
  simp only [List.append_nil, List.nil_append, includesOf] at hincludes
  simp only [manifestLines, List.cons_append, includesOf, List.nil_append]
  exact hincludes

end Rustyfill.DocJson.Emit
