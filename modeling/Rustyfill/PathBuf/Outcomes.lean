import Rustyfill.PathBuf.Pushing

/-!
# When a push is that of `std`, and when it is atomic

A path with a drive or another prefix that is not verbatim gets the child without a separator,
and is not cut back to its prefix for a rooted child. A path that was cleared, or got a separator,
is not put back when the child cannot be pushed.
-/

namespace Rustyfill.PathBuf

open Guarded Collections

set_option autoImplicit false

/-! ## Two platforms -/

def nameComponent (name : Bytes) : List Component :=
  if name = [] then []
  else if name = [46] then [.curDir]
  else if name = [46, 46] then [.parentDir]
  else [.normal name]

/-- The names between the separators; `name` is the one that was begun. -/
def splitNames (sep : UInt8) : Bytes → Bytes → List Component
  | name, [] => nameComponent name
  | name, b :: rest =>
    if b = sep then nameComponent name ++ splitNames sep [] rest
    else splitNames sep (name ++ [b]) rest

def rooted (sep : UInt8) : Bytes → List Component
  | [] => []
  | b :: rest => if b = sep then .rootDir :: splitNames sep [] rest else splitNames sep [b] rest

theorem nameComponent_kind {name : Bytes} : ∀ c ∈ nameComponent name, c.kind? = none := by
  intro c hc
  rw [nameComponent] at hc
  split at hc
  · cases hc
  · split at hc
    · obtain rfl := List.mem_singleton.mp hc
      rfl
    · split at hc
      · obtain rfl := List.mem_singleton.mp hc
        rfl
      · obtain rfl := List.mem_singleton.mp hc
        rfl

theorem splitNames_kind {sep : UInt8} {name path : Bytes} :
    ∀ c ∈ splitNames sep name path, c.kind? = none := by
  induction path generalizing name with
  | nil => exact nameComponent_kind
  | cons b rest ih =>
    intro c hc
    rw [splitNames] at hc
    split at hc
    · rcases List.mem_append.mp hc with hc | hc
      · exact nameComponent_kind c hc
      · exact ih c hc
    · exact ih c hc

theorem rooted_kind {sep : UInt8} {path : Bytes} : ∀ c ∈ rooted sep path, c.kind? = none := by
  intro c hc
  cases path with
  | nil => cases hc
  | cons b rest =>
    rw [rooted] at hc
    split at hc
    · rcases List.mem_cons.mp hc with rfl | hc
      · rfl
      · exact splitNames_kind c hc
    · exact splitNames_kind c hc

/-- Paths of slashes. -/
def unix : Platform where
  components := rooted 47
  isAbsolute path := path.head? = some 47
  hasRoot path := path.head? = some 47
  isSeparator b := b = 47
  mainSeparator := 47
  cygwin := false
  prefixFirst _ _ hc := rooted_kind _ (List.mem_of_mem_tail hc)

/-- Paths of backslashes, which may start with a drive. -/
def drives : Platform where
  components path :=
    match path with
    | d :: 58 :: rest => .pre [d, 58] (.disk d) :: rooted 92 rest
    | _ => rooted 92 path
  isAbsolute path := path[1]? = some 58 ∧ path[2]? = some 92
  hasRoot path := path.head? = some 92 ∨ path[1]? = some 58 ∧ path[2]? = some 92
  isSeparator b := b = 92 ∨ b = 47
  mainSeparator := 92
  cygwin := false
  prefixFirst path c hc := by
    split at hc
    · exact rooted_kind _ hc
    · exact rooted_kind _ (List.mem_of_mem_tail hc)

/-! ## The push of `std` -/

variable {w w' : World OsString} {base child : Bytes}

theorem tryToPathBuf_spec (base : Bytes) (hempty : w.store.elems = []) : (tryToPathBuf base).Meets w
    (fun _ w' => w'.store.elems = base) (fun e _ => ∃ r, e = .error r) := by
  by_cases hpos : 0 < base.length
  · rw [tryToPathBuf, if_pos hpos, Body.meets_bind]
    apply (reserve_spec (n := base.length)).mono
    · rintro _ w₁ ⟨-, helems, -, -, hroom⟩
      have happended : (appended w₁.store base hroom).elems = base := by
        rw [hempty] at helems
        exact congrArg (· ++ base) helems
      simp only [Body.Meets, push_room hroom]
      exact happended
    · rintro e w₁ ⟨⟨r, rfl⟩, -⟩
      exact ⟨r, rfl⟩
  · have hnil : base = [] := List.eq_nil_of_length_eq_zero (Nat.eq_zero_of_not_pos hpos)
    subst hnil
    have hroom : ([] : Bytes).length ≤ w.store.capacity - w.store.len := Nat.zero_le _
    rw [tryToPathBuf, if_neg hpos]
    change Body.Meets (push []) w _ _
    simp only [Body.Meets, push_room hroom]
    exact (List.append_nil _).trans hempty

theorem of_meets {R : Type} {p : PathMethod TryReserveError R} {r : R}
    {Q : R → World OsString → Prop} {F : Exit TryReserveError → World OsString → Prop}
    (hmeets : p.Meets w Q F) (hrun : p w = (.ok r, w')) : Q r w' := by
  rw [Body.Meets, hrun] at hmeets
  exact hmeets

/-- The path is that of `std` unless it has a prefix that is dropped behind or run into. -/
theorem push_as_std_iff (P : Platform) (component : Layout) (base child : Bytes) :
    (∀ w w' : World OsString, w.store.elems = base →
      tryPush P component child w = (.ok (), w') →
      (w'.store.elems = P.push base child ↔ ¬ Diverges P base child)) ∧
    (∀ w w' : World OsString, w.store.elems = [] →
      tryJoin P component base child w = (.ok (), w') →
      (w'.store.elems = P.push base child ↔ ¬ Diverges P base child)) := by
  constructor
  · rintro w w' rfl hrun
    have hpushed := (of_meets (innerPush_spec component child) hrun).1
    rw [hpushed]
    exact pushedPath_eq_iff
  · intro w w' hempty hrun
    have hjoin : (tryJoin P component base child).Meets w
        (fun _ w' => w'.store.elems = pushedPath P base child) (fun _ _ => True) := by
      rw [tryJoin, Body.meets_bind]
      apply (tryToPathBuf_spec base hempty).mono
      · rintro _ w₁ rfl
        apply (innerPush_spec component child).mono
        · rintro _ w₂ ⟨hpushed, -⟩
          exact hpushed
        · intro _ _ _
          trivial
      · intro _ _ _
        trivial
    rw [of_meets hjoin hrun]
    exact pushedPath_eq_iff

/-- `C:\a`, in a full buffer. -/
def driveWorld : World OsString where
  store := ⟨[67, 58, 92, 97], 4, by decide, by decide⟩
  memory := ⟨fun _ _ => true, 0⟩
  calls := 0

/-- A buffer that was never allocated. -/
def joinWorld : World OsString where
  store := ⟨[], 0, by decide, by decide⟩
  memory := ⟨fun _ _ => true, 0⟩
  calls := 0

theorem not_diverges_of_pathPrefix {P : Platform} {base child : Bytes}
    (h : P.pathPrefix base = none) : ¬ Diverges P base child := by
  rintro ⟨-, p, hp, -⟩
  rw [h] at hp
  cases hp

/-- A child of a drive, and one of a path that has no prefix. -/
theorem children_pushed :
    ((tryPush drives ⟨56, 8⟩ [98] driveWorld).2.store.elems = drives.push [67, 58, 92, 97] [98] ↔
      ¬ Diverges drives [67, 58, 92, 97] [98]) ∧
    (tryJoin drives ⟨56, 8⟩ [97] [98] joinWorld).2.store.elems = drives.push [97] [98] := by
  constructor
  · exact (push_as_std_iff drives ⟨56, 8⟩ [67, 58, 92, 97] [98]).1 driveWorld
      (tryPush drives ⟨56, 8⟩ [98] driveWorld).2 rfl rfl
  · exact ((push_as_std_iff drives ⟨56, 8⟩ [97] [98]).2 joinWorld
      (tryJoin drives ⟨56, 8⟩ [97] [98] joinWorld).2 rfl rfl).mpr
      (not_diverges_of_pathPrefix rfl)

/-- `C:\a` and `b` make `C:\ab`. -/
theorem drive_runs_into_child : ¬ ∀ (P : Platform) (component : Layout) (child : Bytes)
    (w w' : World OsString), tryPush P component child w = (.ok (), w') →
      w'.store.elems = P.push w.store.elems child := by
  intro h
  have hstd := h drives ⟨56, 8⟩ [98] driveWorld (tryPush drives ⟨56, 8⟩ [98] driveWorld).2 rfl
  exact absurd hstd (by decide)

/-! ## Atomicity -/

/-- An error leaves the path as it was, unless the path was changed before the refusal. -/
theorem push_atomic_iff (P : Platform) (component : Layout) (w : World OsString)
    (child : Bytes) :
    (∀ r w', tryPush P component child w = (.error (.error r), w') →
      w'.store.elems = w.store.elems) ↔ ¬ Loses P w child := by
  have hspec := innerPush_spec (P := P) (w := w) component child
  constructor
  · intro hatomic hloses
    rcases hrun : innerPush P component child w with ⟨e | _, w'⟩
    · rw [Body.Meets, hrun] at hspec
      obtain ⟨⟨r, rfl⟩, hiff⟩ := hspec
      exact hiff.mp (hatomic r w' hrun) hloses
    · rw [Body.Meets, hrun] at hspec
      exact hspec.2 hloses
  · intro hnot r w' hrun
    change innerPush P component child w = _ at hrun
    rw [Body.Meets, hrun] at hspec
    exact hspec.2.mpr hnot

/-- `a`, in a full buffer, where nothing more is granted. -/
def fullWorld : World OsString where
  store := ⟨[97], 1, by decide, one_le_usizeMax⟩
  memory := ⟨fun _ _ => false, 0⟩
  calls := 0

/-- `/b` is refused after `a` was cleared. -/
theorem cleared_path_is_lost : ¬ ∀ (P : Platform) (component : Layout) (child : Bytes)
    (w w' : World OsString) (r : TryReserveError),
    tryPush P component child w = (.error (.error r), w') → w'.store.elems = w.store.elems := by
  intro h
  have hsame := h unix ⟨56, 8⟩ [47, 98] fullWorld (tryPush unix ⟨56, 8⟩ [47, 98] fullWorld).2
    .allocError rfl
  exact absurd hsame (by decide)

end Rustyfill.PathBuf
