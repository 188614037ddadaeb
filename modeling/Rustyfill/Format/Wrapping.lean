import Rustyfill.Format.Analysis
import Rustyfill.Format.Arguments

/-!
# Which arguments are wrapped

The arguments of a format string as the compiler takes them, and what the macro should do with
them: wrap those that are displayed in the wrapper of their trait, and pass those that a width or
a precision is taken from as they are. The macro does so exactly if the arguments split, no name
is raw, no argument that is displayed is captured, and the readings of the placeholders decide for
the right wrappers.
-/

namespace Rustyfill.TryFormatArgs

open Format

set_option autoImplicit false

variable {u : Unicode}

/-! ## What the arguments are for -/

def wrapperOf : Trait → Wrapper
  | .debug => .debug
  | .lowerHex => .lowerHex
  | .upperHex => .upperHex
  | .lowerExp => .lowerExp
  | .upperExp => .upperExp
  | .display | .octal | .pointer | .binary => .display

/-- The name that a format string has for an argument. -/
def label (name : Name) : Name := if ['r', '#'] <+: name then name.drop 2 else name

/-- An argument of the macro, or a variable that the format string captures. -/
inductive Target where
  | arg (i : Nat)
  | capture (name : Name)
deriving DecidableEq

def targetOf (args : List Arg) : Slot → Target
  | .index i => .arg i
  | .name name =>
    match args.findIdx? fun arg => arg.name.map label == some name with
    | some i => .arg i
    | none => .capture name

def Displays (s : FormatString) (args : List Arg) (t : Target) (tr : Trait) : Prop :=
  ∃ slot type, .display slot type ∈ uses s ∧ targetOf args slot = t ∧ type.trait = tr

def Measures (s : FormatString) (args : List Arg) (t : Target) : Prop :=
  ∃ slot, .measure slot ∈ uses s ∧ targetOf args slot = t

/-- An index is that of an argument, and a name is an identifier. -/
def SlotOk (u : Unicode) (n : Nat) : Slot → Prop
  | .index i => i < n
  | .name name => IsIdent u name

/-- The arguments that `core::format_args!` accepts with a format string. -/
structure Accepted (u : Unicode) (s : FormatString) (args : List Arg) : Prop where
  slots : ∀ use ∈ uses s, SlotOk u args.length use.slot
  length_le : args.length ≤ usizeMax
  used : ∀ i < args.length, ∃ use ∈ uses s, targetOf args use.slot = .arg i
  ordered : args.Pairwise fun a b => a.name.isSome = true → b.name.isSome = true
  names : ∀ arg ∈ args, ∀ name, arg.name = some name → IsIdent u (label name)
  nodup : (args.filterMap fun arg => arg.name.map label).Nodup
  exprs : ∀ arg ∈ args, IsExpr arg.expr
  -- an identifier with one equals sign after it gives a name
  unnamed : ∀ arg ∈ args, arg.name = none → ∀ name rest,
    arg.expr = .ident name :: .punct '=' :: rest → rest.head? = some (.punct '=')

/-- None of the documented cases in which every argument falls back to `TryDisplayWrapper`: no
argument is displayed through two traits, and the placeholders that do not give their argument
have one trait. -/
structure Uniform (s : FormatString) (args : List Arg) : Prop where
  displayed : ∀ t tr tr', Displays s args t tr → Displays s args t tr' → tr = tr'
  implicit : ∀ p ∈ placeholders s, ∀ q ∈ placeholders s, p.argument = none → q.argument = none →
    p.type.trait = q.type.trait

def Emitted.arg (e : Emitted) : Arg := ⟨e.name, e.expr⟩

/-- The arguments are passed, and wrapped as they should be. -/
structure WrapsArgs (emitted : List Emitted) (s : FormatString) (args : List Arg) : Prop where
  passed : (emitted.take args.length).map Emitted.arg = args
  displayed : ∀ i tr, Displays s args (.arg i) tr →
    (emitted[i]?).bind Emitted.wrapper = some (wrapperOf tr)
  captured : ∀ name tr, Displays s args (.capture name) tr →
    ⟨some name, some (wrapperOf tr), [.ident name]⟩ ∈ emitted
  measured : ∀ i, Measures s args (.arg i) → (∀ tr, ¬ Displays s args (.arg i) tr) →
    (emitted[i]?).bind Emitted.wrapper = none

def Wraps (res : Except ParseError (Except Fault (List Emitted))) (s : FormatString)
    (args : List Arg) : Prop :=
  ∃ emitted, res = .ok (.ok emitted) ∧ WrapsArgs emitted s args

/-! ## When the macro does this -/

def RawName (name : Name) : Prop := ['r', '#'] <+: name

/-- The readings decide for a wrapper: they agree on it, or it is the one for display and they do
not agree. -/
def Decides (ws : List Wrapper) (w : Wrapper) : Prop :=
  ws ≠ [] ∧ ((∀ v ∈ ws, v = w) ∨ w = .display ∧ ∃ v ∈ ws, ∃ v' ∈ ws, v ≠ v')

/-- The readings that decide how an argument is wrapped: those at its name, or at its index, but
for an argument without a name those of the placeholders that do not give their argument come
first. -/
def readsFor (u : Unicode) (s : FormatString) (i : Nat) (name : Option Name) : List Wrapper :=
  match name with
  | some name => readsAt u (.name name) s
  | none => if (autoReads u s).isEmpty then readsAt u (.index i) s else autoReads u s

structure Supported (u : Unicode) (s : FormatString) (args : List Arg) (trailing : Bool) :
    Prop where
  splits : Splits trailing args
  not_raw : ∀ arg ∈ args, ∀ name, arg.name = some name → ¬ RawName name
  not_captured : ∀ name tr, ¬ Displays s args (.capture name) tr
  displayed : ∀ i tr arg, args[i]? = some arg → Displays s args (.arg i) tr →
    Decides (readsFor u s i arg.name) (wrapperOf tr)
  measured : ∀ i arg, args[i]? = some arg → Measures s args (.arg i) →
    (∀ tr, ¬ Displays s args (.arg i) tr) → readsFor u s i arg.name = []

theorem combine_eq_none {ws : List Wrapper} : combine ws = none ↔ ws = [] := by
  cases ws with
  | nil => simp [combine]
  | cons v t =>
    refine iff_of_false ?_ (by simp)
    rw [combine]
    split <;> simp

theorem combine_eq_some {ws : List Wrapper} {w : Wrapper} :
    combine ws = some w ↔ Decides ws w := by
  cases ws with
  | nil => simp [combine, Decides]
  | cons v t =>
    have hne : v :: t ≠ [] := by simp
    have hself : v ∈ v :: t := List.mem_cons_self ..
    rw [combine]
    by_cases hall : t.all (· == v) = true
    · have hagree : ∀ x ∈ v :: t, x = v := by
        intro x hx
        rcases List.mem_cons.mp hx with rfl | hmem
        · rfl
        · simpa using List.all_eq_true.mp hall x hmem
      rw [if_pos hall]
      constructor
      · intro heq
        obtain rfl := Option.some.inj heq
        exact ⟨hne, Or.inl hagree⟩
      · rintro ⟨-, hagree' | ⟨-, x, hx, y, hy, hxy⟩⟩
        · rw [hagree' v hself]
        · exact absurd ((hagree x hx).trans (hagree y hy).symm) hxy
    · rw [if_neg hall]
      obtain ⟨x, hx, hxv⟩ : ∃ x ∈ t, x ≠ v := by
        simpa [List.all_eq_true] using hall
      have hx' : x ∈ v :: t := List.mem_cons_of_mem _ hx
      constructor
      · intro heq
        exact ⟨hne, Or.inr ⟨(Option.some.inj heq).symm, x, hx', v, hself, hxv⟩⟩
      · rintro ⟨-, hagree | ⟨rfl, -⟩⟩
        · exact absurd ((hagree x hx').trans (hagree v hself).symm) hxv
        · rfl

theorem argKind_wrapper {a : FormatAnalysis} {s : FormatString}
    (h : Tracks a (fun m => readsAt u m s) (autoReads u s)) (i : Nat) (name : Option Name) :
    (argKind a i name).bind WrapKind.wrapper = combine (readsFor u s i name) := by
  unfold argKind readsFor
  cases name with
  | some name => exact (h.sums (.name name)).wrapper
  | none =>
    rw [h.autoKinds, autoDefault_eq]
    cases hautos : autoReads u s with
    | nil => exact (h.sums (.index i)).wrapper
    | cons w t =>
      obtain ⟨v, hv⟩ : ∃ v, combine (w :: t) = some v := by
        rw [← Option.ne_none_iff_exists', ne_eq, combine_eq_none]
        simp
      simp [hv]

/-! ## What is emitted -/

theorem emitArgs_ok {a : FormatAnalysis} {args : List Arg}
    (hraw : ∀ arg ∈ args, ∀ name, arg.name = some name → ¬ RawName name) (i : Nat) :
    ∃ emitted, emitArgs a i args = .ok emitted ∧ emitted.map Emitted.arg = args ∧
      ∀ j arg, args[j]? = some arg → (emitted[j]?).bind Emitted.wrapper =
        (argKind a (i + j) arg.name).bind WrapKind.wrapper := by
  induction args generalizing i with
  | nil => exact ⟨[], rfl, rfl, by simp⟩
  | cons arg args ih =>
    obtain ⟨hfirst, hrest⟩ := List.forall_mem_cons.mp hraw
    obtain ⟨emitted, hemit, hargs, hwrappers⟩ := ih hrest (i + 1)
    have hone : emitArg a i arg =
        .ok ⟨arg.name, (argKind a i arg.name).bind WrapKind.wrapper, arg.expr⟩ := by
      unfold emitArg
      rcases hname : arg.name with _ | name
      · rfl
      · have hnew : identNew name = .ok name := if_neg (hfirst name hname)
        simp only [hnew]
        rfl
    refine ⟨_, by rw [emitArgs, hone, hemit]; rfl, ?_, ?_⟩
    · rw [List.map_cons, hargs]
      rfl
    · intro j arg' harg'
      cases j with
      | zero =>
        obtain rfl : arg = arg' := by simpa using harg'
        rfl
      | succ j =>
        have hj := hwrappers j arg' (by simpa using harg')
        rw [Nat.add_assoc, Nat.add_comm 1 j] at hj
        simpa using hj

theorem not_raw_of_emitArgs {a : FormatAnalysis} {args : List Arg} {i : Nat}
    {emitted : List Emitted} (h : emitArgs a i args = .ok emitted) :
    ∀ arg ∈ args, ∀ name, arg.name = some name → ¬ RawName name := by
  induction args generalizing i emitted with
  | nil => simp
  | cons arg args ih =>
    rw [emitArgs] at h
    rcases hone : emitArg a i arg with e | first
    · rw [hone] at h
      exact absurd h (by simp [bind, Except.bind])
    · rw [hone] at h
      rcases hrest : emitArgs a (i + 1) args with e | others
      · rw [hrest] at h
        exact absurd h (by simp [bind, Except.bind])
      · refine List.forall_mem_cons.mpr ⟨fun name hname hraw => ?_, ih hrest⟩
        have hnew : identNew name = .error (.expect "raw identifier") := if_pos hraw
        unfold emitArg at hone
        rw [hname] at hone
        simp [hnew, bind, Except.bind] at hone

section
variable {s : FormatString} {args : List Arg} {trailing : Bool}

/-- The placeholders of a format string that is accepted are plain. -/
theorem Accepted.plain (h : Accepted u s args) :
    ∀ p ∈ placeholders s, PlainPlaceholder u p := by
  intro p hp
  obtain ⟨n, hn⟩ := exists_uses hp 0
  obtain ⟨hargument, hwidth, hprecision⟩ := p.mem_uses n
  have hslot : ∀ (x : Parameter) (use : Use), use ∈ uses s → use.slot = x.slot →
      Parameter.Plain u x := by
    intro x use huse heq
    have hok := h.slots use huse
    have hle := h.length_le
    rw [heq] at hok
    cases x with
    | index m =>
      have hlt : m.val < args.length := hok
      exact hlt.le.trans hle
    | name name => exact hok
  have hcount : ∀ c : Count, (∀ use ∈ c.uses, use ∈ uses s) → Count.Plain u c := by
    intro c hc
    cases c with
    | integer m => trivial
    | parameter x => exact hslot x (.measure x.slot) (hc _ (List.mem_singleton_self _)) rfl
  refine ⟨fun x hx => hslot x _ (hn _ (hargument x hx)) rfl, fun spec hspec => ⟨?_, ?_⟩⟩
  · intro c hc
    have hwidth' : p.width = some c := by simp [Placeholder.width, hspec, hc]
    exact hcount c fun use huse => hn _ (hwidth c hwidth' use huse)
  · intro pr hpr
    have hpr' : p.precision = some pr := by simp [Placeholder.precision, hspec, hpr]
    cases pr with
    | count c => exact hcount c fun use huse => hn _ (hprecision c hpr' use huse)
    | star => trivial

theorem Accepted.exists_arg (h : Accepted u s args) {i : Nat} {use : Use} (huse : use ∈ uses s)
    (htarget : targetOf args use.slot = .arg i) : ∃ arg, args[i]? = some arg := by
  suffices hlt : i < args.length from ⟨_, List.getElem?_eq_getElem hlt⟩
  have hslot := h.slots use huse
  cases heq : use.slot with
  | index j =>
    rw [heq] at htarget hslot
    obtain rfl : j = i := by simpa [targetOf] using htarget
    exact hslot
  | name name =>
    rw [heq, targetOf] at htarget
    cases hfind : args.findIdx? fun arg => arg.name.map label == some name with
    | none =>
      rw [hfind] at htarget
      simp at htarget
    | some j =>
      rw [hfind] at htarget
      obtain rfl : j = i := by simpa using htarget
      obtain ⟨hlt, -⟩ := List.findIdx?_eq_some_iff_getElem.mp hfind
      exact hlt

theorem tryFormatArgs_eq (s : FormatString) (args : List Arg) (trailing : Bool) :
    tryFormatArgs u (inputTokens s args trailing) =
      .ok (emitArgs (analyzeFormatString u (render s)) 0
        (parseArgs (argsTokens trailing args).length (argsTokens trailing args))) := rfl

theorem label_of_not_raw {name : Name} (h : ¬ RawName name) : label name = name := if_neg h

theorem ne_of_captured {slot : Slot} {name : Name} (h : targetOf args slot = .capture name) :
    ∀ arg ∈ args, arg.name.map label ≠ some name := by
  cases slot with
  | index i => simp [targetOf] at h
  | name name' =>
    unfold targetOf at h
    dsimp only at h
    cases hfind : args.findIdx? fun arg => arg.name.map label == some name' with
    | some i =>
      rw [hfind] at h
      simp at h
    | none =>
      rw [hfind] at h
      obtain rfl : name' = name := by simpa using h
      intro arg harg heq
      have hnot := List.findIdx?_eq_none_iff.mp hfind arg harg
      simp [heq] at hnot

theorem wraps_of_supported (hacc : Accepted u s args) (h : Supported u s args trailing) :
    Wraps (tryFormatArgs u (inputTokens s args trailing)) s args := by
  have htracks := analyzeFormatString_tracks hacc.plain
  have hparse := (parseArgs_spec trailing args _ hacc.exprs (Nat.le_refl _)).2 h.splits
  obtain ⟨emitted, hemit, hargs, hwrappers⟩ :=
    @emitArgs_ok (analyzeFormatString u (render s)) args h.not_raw 0
  have hlen : emitted.length = args.length := by rw [← hargs, List.length_map]
  have hwrapper : ∀ i arg, args[i]? = some arg →
      (emitted[i]?).bind Emitted.wrapper = combine (readsFor u s i arg.name) := by
    intro i arg harg
    rw [hwrappers i arg harg, Nat.zero_add, argKind_wrapper htracks]
  rw [tryFormatArgs_eq, hparse, hemit]
  refine ⟨emitted, rfl, ?_, ?_, ?_, ?_⟩
  · rw [← hlen, List.take_length, hargs]
  · intro i tr hdisplay
    have ⟨slot, type, huse, htarget, _⟩ := hdisplay
    obtain ⟨arg, harg⟩ := hacc.exists_arg huse htarget
    rw [hwrapper i arg harg, combine_eq_some]
    exact h.displayed i tr arg harg hdisplay
  · exact fun name tr hdisplay => absurd hdisplay (h.not_captured name tr)
  · intro i hmeasure hnot
    have ⟨slot, huse, htarget⟩ := hmeasure
    obtain ⟨arg, harg⟩ := hacc.exists_arg huse htarget
    rw [hwrapper i arg harg, combine_eq_none]
    exact h.measured i arg harg hmeasure hnot

theorem supported_of_wraps (hacc : Accepted u s args)
    (h : Wraps (tryFormatArgs u (inputTokens s args trailing)) s args) :
    Supported u s args trailing := by
  have htracks := analyzeFormatString_tracks hacc.plain
  obtain ⟨hiff, hself⟩ := parseArgs_spec trailing args _ hacc.exprs (Nat.le_refl _)
  obtain ⟨emitted, hres, hwraps⟩ := h
  rw [tryFormatArgs_eq] at hres
  have hemit := Except.ok.inj hres
  have hraw := not_raw_of_emitArgs hemit
  obtain ⟨emitted', hemit', hargs, hwrappers⟩ :=
    @emitArgs_ok (analyzeFormatString u (render s)) _ hraw 0
  obtain rfl : emitted' = emitted := Except.ok.inj (hemit'.symm.trans hemit)
  have hsplits : Splits trailing args := by
    rw [← hiff, ← hargs, ← List.map_take]
    exact hwraps.passed
  have hparse := hself hsplits
  rw [hparse] at hraw hargs hwrappers
  have hwrapper : ∀ i arg, args[i]? = some arg →
      (emitted'[i]?).bind Emitted.wrapper = combine (readsFor u s i arg.name) := by
    intro i arg harg
    rw [hwrappers i arg harg, Nat.zero_add, argKind_wrapper htracks]
  refine ⟨hsplits, hraw, ?_, ?_, ?_⟩
  · intro name tr hdisplay
    have ⟨slot, type, _, htarget, _⟩ := hdisplay
    have hmem := List.mem_map_of_mem (f := Emitted.arg) (hwraps.captured name tr hdisplay)
    rw [hargs] at hmem
    refine ne_of_captured htarget _ hmem ?_
    simp [Emitted.arg, label_of_not_raw (hraw _ hmem name rfl)]
  · intro i tr arg harg hdisplay
    rw [← combine_eq_some, ← hwrapper i arg harg]
    exact hwraps.displayed i tr hdisplay
  · intro i arg harg hmeasure hnot
    rw [← combine_eq_none, ← hwrapper i arg harg]
    exact hwraps.measured i hmeasure hnot

end

/-- The macro wraps the arguments as it should exactly for what it supports. -/
theorem tryFormatArgs_wraps_iff {s : FormatString} {args : List Arg} (hacc : Accepted u s args)
    (trailing : Bool) :
    Wraps (tryFormatArgs u (inputTokens s args trailing)) s args ↔
      Supported u s args trailing :=
  ⟨supported_of_wraps hacc, wraps_of_supported hacc⟩

/-- `{0:>1$x} {name:?}`. -/
def hexString : FormatString := [
  .placeholder ⟨some (.index ⟨['0'], by simp, by simp⟩),
    some ⟨some (none, .right), none, false, false,
      some (.parameter (.index ⟨['1'], by simp, by simp⟩)), none, .lowerHex⟩, [], by simp⟩,
  .text ' ',
  .placeholder ⟨some (.name ['n', 'a', 'm', 'e']),
    some ⟨none, none, false, false, none, none, .debug⟩, [], by simp⟩]

/-- `n, w, name = e`. -/
def hexArgs : List Arg :=
  [⟨none, [.ident ['n']]⟩, ⟨none, [.ident ['w']]⟩, ⟨some ['n', 'a', 'm', 'e'], [.ident ['e']]⟩]

theorem uses_hexString : uses hexString = [.measure (.index 1), .display (.index 0) .lowerHex,
    .display (.name ['n', 'a', 'm', 'e']) .debug] := rfl

theorem isIdent_name : IsIdent .ascii ['n', 'a', 'm', 'e'] :=
  ⟨⟨'n', ['a', 'm', 'e'], rfl, Or.inl rfl⟩, by simp [Unicode.ascii], by simp⟩

theorem displays_hexString {t : Target} {tr : Trait} (h : Displays hexString hexArgs t tr) :
    t = .arg 0 ∧ tr = .lowerHex ∨ t = .arg 2 ∧ tr = .debug := by
  obtain ⟨slot, type, huse, rfl, rfl⟩ := h
  rw [uses_hexString] at huse
  simp only [List.mem_cons, List.not_mem_nil, or_false, reduceCtorEq, false_or,
    Use.display.injEq] at huse
  rcases huse with ⟨rfl, rfl⟩ | ⟨rfl, rfl⟩
  · exact Or.inl ⟨rfl, rfl⟩
  · exact Or.inr ⟨rfl, rfl⟩

theorem measures_hexString {t : Target} (h : Measures hexString hexArgs t) : t = .arg 1 := by
  obtain ⟨slot, huse, rfl⟩ := h
  rw [uses_hexString] at huse
  simp only [List.mem_cons, List.not_mem_nil, or_false, reduceCtorEq, Use.measure.injEq] at huse
  subst huse
  rfl

theorem accepted_hexString : Accepted .ascii hexString hexArgs := by
  refine ⟨?_, by decide, ?_, by decide, ?_, by decide, ?_, ?_⟩
  · rw [uses_hexString]
    simp only [List.forall_mem_cons, Use.slot]
    exact ⟨(by decide : 1 < 3), (by decide : 0 < 3), isIdent_name, by simp⟩
  · have hlast : targetOf hexArgs (.name ['n', 'a', 'm', 'e']) = .arg 2 := rfl
    intro i hi
    rw [uses_hexString]
    match i, hi with
    | 0, _ => exact ⟨.display (.index 0) .lowerHex, by simp, rfl⟩
    | 1, _ => exact ⟨.measure (.index 1), by simp, rfl⟩
    | 2, _ => exact ⟨.display (.name ['n', 'a', 'm', 'e']) .debug, by simp, hlast⟩
  · simp only [hexArgs, List.forall_mem_cons]
    refine ⟨by simp, by simp, ?_, by simp⟩
    intro name hname
    obtain rfl := Option.some.inj hname
    exact isIdent_name
  · simp only [hexArgs, List.forall_mem_cons]
    exact ⟨⟨_, _, rfl, by decide⟩, ⟨_, _, rfl, by decide⟩, ⟨_, _, rfl, by decide⟩, by simp⟩
  · simp [hexArgs]

theorem tryFormatArgs_wraps_hexString : render hexString = "{0:>1$x} {name:?}".toList ∧
    Wraps (tryFormatArgs .ascii (inputTokens hexString hexArgs false)) hexString hexArgs := by
  refine ⟨by decide, (tryFormatArgs_wraps_iff accepted_hexString false).mpr ⟨?_, ?_, ?_, ?_, ?_⟩⟩
  · refine ⟨binding_of_not_mem (by simp), Or.inl (by simp [Flat, IsGroup]),
      binding_of_not_mem (by simp), Or.inl (by simp [Flat, IsGroup]),
      binding_of_not_mem (by simp), Or.inl (by simp [Flat, IsGroup]), trivial⟩
  · simp only [hexArgs, List.forall_mem_cons]
    refine ⟨by simp, by simp, ?_, by simp⟩
    intro name hname
    obtain rfl := Option.some.inj hname
    unfold RawName
    decide
  · intro name tr hdisplay
    rcases displays_hexString hdisplay with ⟨ht, -⟩ | ⟨ht, -⟩ <;> exact absurd ht (by simp)
  · intro i tr arg harg hdisplay
    rcases displays_hexString hdisplay with ⟨ht, rfl⟩ | ⟨ht, rfl⟩
    · obtain rfl := Target.arg.inj ht
      obtain rfl := Option.some.inj harg
      exact combine_eq_some.mp rfl
    · obtain rfl := Target.arg.inj ht
      obtain rfl := Option.some.inj harg
      exact combine_eq_some.mp rfl
  · intro i arg harg hmeasure hnot
    obtain rfl := Target.arg.inj (measures_hexString hmeasure)
    obtain rfl := Option.some.inj harg
    rfl

/-- `{:x<5}`. -/
def fillString : FormatString := [
  .placeholder ⟨none, some ⟨some (some 'x', .left), none, false, false,
    some (.integer ⟨['5'], by simp, by simp⟩), none, .display⟩, [], by simp⟩]

def fillArgs : List Arg := [⟨none, [.ident ['n']]⟩]

theorem uses_fillString : uses fillString = [.display (.index 0) .display] := rfl

theorem accepted_fillString : Accepted .ascii fillString fillArgs := by
  refine ⟨?_, by decide, ?_, by decide, ?_, by decide, ?_, ?_⟩
  · rw [uses_fillString]
    simp only [List.forall_mem_cons, Use.slot]
    exact ⟨(by decide : 0 < 1), by simp⟩
  · intro i hi
    rw [uses_fillString]
    match i, hi with
    | 0, _ => exact ⟨.display (.index 0) .display, by simp, rfl⟩
  · simp [fillArgs]
  · simp only [fillArgs, List.forall_mem_cons]
    exact ⟨⟨_, _, rfl, by decide⟩, by simp⟩
  · simp [fillArgs]

theorem uniform_fillString : Uniform fillString fillArgs := by
  have hdisplay : ∀ {t tr}, Displays fillString fillArgs t tr → tr = .display := by
    rintro t tr ⟨slot, type, huse, -, rfl⟩
    rw [uses_fillString] at huse
    simp only [List.mem_singleton, Use.display.injEq] at huse
    rw [huse.2]
    rfl
  refine ⟨fun t tr tr' h h' => (hdisplay h).trans (hdisplay h').symm, ?_⟩
  intro p hp q hq _ _
  obtain rfl : p = q := (List.mem_singleton.mp hp).trans (List.mem_singleton.mp hq).symm
  rfl

/-- The fill character `x` is read as the type. -/
theorem tryFormatArgs_fill : render fillString = "{:x<5}".toList ∧
    ¬ ∀ (u : Unicode) (s : FormatString) (args : List Arg) (trailing : Bool),
      Accepted u s args → Uniform s args →
        Wraps (tryFormatArgs u (inputTokens s args trailing)) s args := by
  refine ⟨by decide, fun h => ?_⟩
  obtain ⟨emitted, hres, hwraps⟩ :=
    h .ascii fillString fillArgs false accepted_fillString uniform_fillString
  have hemit : tryFormatArgs .ascii (inputTokens fillString fillArgs false) =
      .ok (.ok [⟨none, some .lowerHex, [.ident ['n']]⟩]) := rfl
  obtain rfl := Except.ok.inj (Except.ok.inj (hemit.symm.trans hres))
  have hdisplay : Displays fillString fillArgs (.arg 0) .display :=
    ⟨.index 0, .display, by rw [uses_fillString]; simp, rfl, rfl⟩
  exact absurd (hwraps.displayed 0 .display hdisplay) (by decide)

end Rustyfill.TryFormatArgs
