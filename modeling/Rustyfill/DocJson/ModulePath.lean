import Rustyfill.DocJson.Model
import Rustyfill.Lib.Run
import Rustyfill.Lib.Text

/-!
# Module paths

`syntaxes/module_path.rs`. A `str` is the list of its characters.
-/

namespace Rustyfill.DocJson

open Transition

set_option autoImplicit false

def isAsciiAlphabetic (c : Char) : Bool :=
  decide ('a' ≤ c ∧ c ≤ 'z') || decide ('A' ≤ c ∧ c ≤ 'Z')

def isAsciiAlphanumeric (c : Char) : Bool := isAsciiAlphabetic c || decide ('0' ≤ c ∧ c ≤ '9')

def isIdentifier : List Char → Bool
  | [] => false
  | c :: cs =>
    (isAsciiAlphabetic c || c == '_') && cs.all fun c => isAsciiAlphanumeric c || c == '_'

structure ModulePath where
  segments : List (List Char)
deriving DecidableEq

namespace ModulePath

/-! ## Construction -/

def root : ModulePath := ⟨[]⟩

def parse (segments : List (List Char)) : Option ModulePath :=
  if segments = [[]] then some root
  else if segments.all fun seg => !seg.isEmpty && isIdentifier seg then some ⟨segments⟩
  else none

def fromSlash (slash : List Char) : Option ModulePath := parse (Text.split ['/'] slash)

def fromCanonical (canonical : List Char) : Option ModulePath :=
  parse (Text.split [':', ':'] canonical)

def fromFileStem (path : List Char) : Option ModulePath :=
  let withoutRs := (stripSuffix path ['.', 'r', 's']).getD path
  let cleaned := (stripSuffix withoutRs ['/', 'm', 'o', 'd']).getD withoutRs
  if cleaned = ['m', 'o', 'd'] then some root else fromSlash cleaned

/-- The empty segment passes. -/
def fromSegments (segments : List (List Char)) : Option ModulePath :=
  if segments.any fun seg => !seg.isEmpty && !isIdentifier seg then none else some ⟨segments⟩

/-! ## Operations -/

def depth (p : ModulePath) : Nat := p.segments.length

def parentOwned (p : ModulePath) : ModulePath := ⟨p.segments.take (p.segments.length - 1)⟩

def join (p : ModulePath) (name : List Char) : ModulePath := ⟨p.segments ++ [name]⟩

def leaf (p : ModulePath) : List Char := p.segments.getLast?.getD []

def contains (p other : ModulePath) : Bool := p.segments.isPrefixOf other.segments

def isDirectParentOf (p other : ModulePath) : Bool :=
  other.depth == p.depth + 1 && (other.segments.drop p.depth).length == 1 &&
    other.segments.take p.depth == p.segments

def toSlash (p : ModulePath) : List Char := ['/'].intercalate p.segments

def toCanonical (p : ModulePath) : List Char := [':', ':'].intercalate p.segments

def relativeSegments (p pref : ModulePath) : Option (List (List Char)) :=
  if pref.contains p then some (p.segments.drop pref.depth) else none

def childNameBelow (p pref : ModulePath) : Option (List Char) :=
  match p.relativeSegments pref with
  | some [name] => some name
  | _ => none

/-! ## Relations -/

variable {p q : ModulePath} {name : List Char}

theorem contains_iff : p.contains q = true ↔ ∃ rest, q.segments = p.segments ++ rest := by
  rw [contains, List.isPrefixOf_iff_prefix]
  constructor
  · rintro ⟨rest, h⟩
    exact ⟨rest, h.symm⟩
  · rintro ⟨rest, h⟩
    exact ⟨rest, h.symm⟩

theorem relativeSegments_eq {rest : List (List Char)} :
    q.relativeSegments p = some rest ↔ q.segments = p.segments ++ rest := by
  rw [relativeSegments]
  constructor
  · intro h
    split_ifs at h with hc
    obtain ⟨rest', hrest⟩ := contains_iff.mp hc
    rw [hrest, depth, List.drop_left] at h
    rw [hrest, Option.some.inj h]
  · intro h
    rw [if_pos (contains_iff.mpr ⟨rest, h⟩), h, depth, List.drop_left]

theorem isDirectParentOf_iff :
    p.isDirectParentOf q = true ↔ ∃ name, q.segments = p.segments ++ [name] := by
  simp only [isDirectParentOf, Bool.and_eq_true, beq_iff_eq, depth]
  constructor
  · rintro ⟨⟨-, hone⟩, htake⟩
    obtain ⟨name, hname⟩ := List.length_eq_one_iff.mp hone
    refine ⟨name, ?_⟩
    have hwhole := List.take_append_drop p.segments.length q.segments
    rw [htake, hname] at hwhole
    exact hwhole.symm
  · rintro ⟨name, h⟩
    rw [h]
    simp

theorem childNameBelow_eq :
    q.childNameBelow p = some name ↔ q.segments = p.segments ++ [name] := by
  rw [← relativeSegments_eq, childNameBelow]
  rcases q.relativeSegments p with _ | ⟨_ | ⟨name', _ | ⟨_, _⟩⟩⟩
  · simp
  · simp
  · simp
  · simp

/-- The relations agree with the one of a list being the front of another. -/
structure Agree (p q : ModulePath) : Prop where
  contains : p.contains q = true ↔ p.segments <+: q.segments
  relative : p.contains q = true ↔
    ∃ rest, q.relativeSegments p = some rest ∧ q.segments = p.segments ++ rest
  directParent : p.isDirectParentOf q = true ↔ ∃ name, q.segments = p.segments ++ [name]
  childName : ∀ name, q.childNameBelow p = some name ↔ q.segments = p.segments ++ [name]

theorem agree (p q : ModulePath) : Agree p q where
  contains := List.isPrefixOf_iff_prefix
  relative := by
    rw [contains_iff]
    simp only [relativeSegments_eq, and_self]
  directParent := isDirectParentOf_iff
  childName _ := childNameBelow_eq

/-! ## Spellings -/

def Valid (p : ModulePath) : Prop := ∀ seg ∈ p.segments, isIdentifier seg = true

theorem valid_root : root.Valid := fun _ h => by cases h

theorem not_isIdentifier_nil : isIdentifier [] ≠ true := Bool.false_ne_true

/-- No identifier contains a character that is neither a letter nor a digit nor `_`. -/
theorem isIdentifier_not_mem {c : Char} {seg : List Char} (hc : isAsciiAlphanumeric c = false)
    (hne : (c == '_') = false) (h : isIdentifier seg = true) : c ∉ seg := by
  have hword : (isAsciiAlphanumeric c || c == '_') = false := by rw [hc, hne]; rfl
  cases seg with
  | nil => exact List.not_mem_nil
  | cons d seg =>
    rw [isIdentifier, Bool.and_eq_true, List.all_eq_true] at h
    intro hmem
    rcases List.mem_cons.mp hmem with rfl | hmem
    · have hfirst : (isAsciiAlphabetic c || c == '_') = false := by
        rw [isAsciiAlphanumeric, Bool.or_eq_false_iff] at hc
        rw [hc.1, hne]
        rfl
      rw [hfirst] at h
      exact Bool.false_ne_true h.1
    · have hall := h.2 c hmem
      rw [hword] at hall
      exact Bool.false_ne_true hall

theorem Valid.not_mem (hp : p.Valid) {c : Char} (hc : isAsciiAlphanumeric c = false)
    (hne : (c == '_') = false) : ∀ seg ∈ p.segments, c ∉ seg :=
  fun seg hseg => isIdentifier_not_mem hc hne (hp seg hseg)

theorem Valid.parse (hp : p.Valid) : ModulePath.parse p.segments = some p := by
  have hroot : p.segments ≠ [[]] := by
    intro h
    have hmem : ([] : List Char) ∈ p.segments := h ▸ List.mem_singleton_self _
    exact not_isIdentifier_nil (hp [] hmem)
  have hall : (p.segments.all fun seg => !seg.isEmpty && isIdentifier seg) = true := by
    rw [List.all_eq_true]
    intro seg hseg
    have hid := hp seg hseg
    cases seg with
    | nil => exact absurd hid not_isIdentifier_nil
    | cons c cs => exact hid
  rw [ModulePath.parse, if_neg hroot, if_pos hall]

/-- A spelling with a separator that no identifier contains is read back. -/
theorem Valid.parse_split (hp : p.Valid) {c : Char} {sep : List Char}
    (hc : isAsciiAlphanumeric c = false) (hne : (c == '_') = false) :
    ModulePath.parse (Text.split (c :: sep) ((c :: sep).intercalate p.segments)) = some p := by
  by_cases hnil : p.segments = []
  · obtain rfl : p = root := by
      cases p
      exact congrArg ModulePath.mk hnil
    rfl
  · rw [Text.split_intercalate hnil (hp.not_mem hc hne)]
    exact hp.parse

theorem Valid.fromSlash (hp : p.Valid) : fromSlash p.toSlash = some p :=
  hp.parse_split (by decide) (by decide)

theorem Valid.fromCanonical (hp : p.Valid) : fromCanonical p.toCanonical = some p :=
  hp.parse_split (by decide) (by decide)

theorem valid_of_parse {segments : List (List Char)} (h : ModulePath.parse segments = some p) :
    p.Valid := by
  rw [ModulePath.parse] at h
  split_ifs at h with hroot hall
  · cases h
    exact valid_root
  · cases h
    intro seg hseg
    have hseg' := List.all_eq_true.mp hall seg hseg
    rw [Bool.and_eq_true] at hseg'
    exact hseg'.2

/-- What makes a path canonical: it has one spelling of each kind, from which it is read back. -/
structure Canonical (p : ModulePath) : Prop where
  valid : p.Valid
  slash : ModulePath.fromSlash p.toSlash = some p
  canonical : ModulePath.fromCanonical p.toCanonical = some p
  slashUnique : ∀ q : ModulePath, q.Valid → p.toSlash = q.toSlash → p = q
  canonicalUnique : ∀ q : ModulePath, q.Valid → p.toCanonical = q.toCanonical → p = q
  agree : ∀ q, Agree p q ∧ Agree q p

theorem canonical_iff : p.Canonical ↔ p.Valid := by
  constructor
  · exact Canonical.valid
  · intro hp
    refine ⟨hp, hp.fromSlash, hp.fromCanonical, ?_, ?_, fun q => ⟨agree p q, agree q p⟩⟩
    · intro q hq h
      apply Option.some.inj
      rw [← hp.fromSlash, ← hq.fromSlash, h]
    · intro q hq h
      apply Option.some.inj
      rw [← hp.fromCanonical, ← hq.fromCanonical, h]

/-! ## Runs -/

/-- A public constructor, or an operation on the path at hand. -/
inductive Op where
  | root
  | fromSlash (slash : List Char)
  | fromCanonical (canonical : List Char)
  | fromFileStem (path : List Char)
  | fromSegments (segments : List (List Char))
  | join (name : List Char)
  | parentOwned

def Op.apply : Op → ModulePath → Option ModulePath
  | .root, _ => some ModulePath.root
  | .fromSlash slash, _ => ModulePath.fromSlash slash
  | .fromCanonical canonical, _ => ModulePath.fromCanonical canonical
  | .fromFileStem path, _ => ModulePath.fromFileStem path
  | .fromSegments segments, _ => ModulePath.fromSegments segments
  | .join name, p => some (p.join name)
  | .parentOwned, p => some p.parentOwned

def step (p : ModulePath) (op : Op) (q : ModulePath) : Prop := op.apply p = some q

instance (p : ModulePath) (op : Op) (q : ModulePath) : Decidable (step p op q) :=
  inferInstanceAs (Decidable (_ = _))

/-- No segment is empty, and what is joined is an identifier. -/
def Op.Sound : Op → Prop
  | .fromSegments segments => [] ∉ segments
  | .join name => isIdentifier name = true
  | _ => True

theorem fromSegments_valid_iff {segments : List (List Char)}
    (h : ModulePath.fromSegments segments = some p) : p.Valid ↔ [] ∉ segments := by
  rw [ModulePath.fromSegments] at h
  split_ifs at h with hany
  cases h
  constructor
  · exact fun hp hmem => not_isIdentifier_nil (hp [] hmem)
  · intro hnil seg hseg
    have hseg' : ¬ (!seg.isEmpty && !isIdentifier seg) = true := fun hbad =>
      hany (List.any_eq_true.mpr ⟨seg, hseg, hbad⟩)
    cases seg with
    | nil => exact absurd hseg hnil
    | cons c cs =>
      rw [List.isEmpty_cons, Bool.not_false, Bool.true_and, Bool.not_eq_true,
        Bool.not_eq_false'] at hseg'
      exact hseg'

theorem valid_of_fromFileStem {path : List Char} (h : ModulePath.fromFileStem path = some p) :
    p.Valid := by
  rw [ModulePath.fromFileStem] at h
  split_ifs at h
  · cases h
    exact valid_root
  · exact valid_of_parse h

/-- A step from a path of identifiers leads to one exactly when it is sound. -/
theorem step_valid_iff {op : Op} (hp : p.Valid) (h : step p op q) : q.Valid ↔ op.Sound := by
  rw [step] at h
  cases op with
  | root =>
    cases h
    exact iff_of_true valid_root trivial
  | fromSlash slash => exact iff_of_true (valid_of_parse h) trivial
  | fromCanonical canonical => exact iff_of_true (valid_of_parse h) trivial
  | fromFileStem path => exact iff_of_true (valid_of_fromFileStem h) trivial
  | fromSegments segments => exact fromSegments_valid_iff h
  | join name =>
    cases h
    constructor
    · exact fun hq => hq name (List.mem_append_right _ (List.mem_singleton_self _))
    · intro hname seg hseg
      rcases List.mem_append.mp hseg with hseg | hseg
      · exact hp seg hseg
      · exact List.mem_singleton.mp hseg ▸ hname
  | parentOwned =>
    cases h
    exact iff_of_true (fun seg hseg => hp seg (List.mem_of_mem_take hseg)) trivial

/-- In a run from the root every path on the way is canonical exactly when every step is sound. -/
theorem canonical_of_run_iff {ops : List Op} {q : ModulePath}
    (h : Run step ModulePath.root ops q) :
    (∀ before after r, ops = before ++ after → Run step ModulePath.root before r → r.Canonical) ↔
      ∀ op ∈ ops, op.Sound := by
  constructor
  · intro hall op hop
    obtain ⟨before, after, rfl⟩ := List.append_of_mem hop
    obtain ⟨r, hbefore, hrest⟩ := h.split
    cases hrest with
    | cons hstep hafter =>
      rename_i r'
      have hr := (hall before (op :: after) r rfl hbefore).valid
      have hr' : r'.Canonical := by
        apply hall (before ++ [op]) after r'
        · rw [List.append_assoc, List.singleton_append]
        · exact hbefore.snoc hstep
      exact (step_valid_iff hr hstep).mp hr'.valid
  · rintro hsound before after r rfl hbefore
    rw [canonical_iff]
    have hguarded := hbefore.guard fun op hop => hsound op (List.mem_append_left _ hop)
    apply hguarded.invariant _ valid_root
    rintro s op t hs ⟨hop, hstep⟩
    exact (step_valid_iff hs hstep).mpr hop

theorem canonical_of_run_stem : (∀ before after r,
    [Op.fromFileStem "sys/mod.rs".toList, .join "unix".toList] = before ++ after →
      Run step ModulePath.root before r → r.Canonical) ↔
    ∀ op ∈ [Op.fromFileStem "sys/mod.rs".toList, .join "unix".toList], op.Sound := by
  have hstem : step ModulePath.root (.fromFileStem "sys/mod.rs".toList) ⟨["sys".toList]⟩ := by
    decide
  have hjoin : step ⟨["sys".toList]⟩ (.join "unix".toList) ⟨["sys".toList, "unix".toList]⟩ := by
    decide
  exact canonical_of_run_iff (.cons hstem (.cons hjoin (.nil _)))

/-- The path of one empty segment is spelled like the root. -/
theorem empty_segment_passes :
    ¬ ∀ (ops : List Op) (q : ModulePath), Run step ModulePath.root ops q → q.Canonical := by
  intro h
  have hrun : step ModulePath.root (.fromSegments [[]]) ⟨[[]]⟩ := by decide
  have hslash : ModulePath.fromSlash [] = some ⟨[[]]⟩ := (h _ _ (.single hrun)).slash
  cases hslash

end ModulePath

end Rustyfill.DocJson
