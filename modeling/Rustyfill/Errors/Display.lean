import Rustyfill.Errors.Frames

/-!
# Rendering a report

`rustyfill-errors/src/fmt.rs` and `fmt_helpers.rs`. The frames of the walk are collected, and each
of them draws its lines. A line is kept in parts: its columns, its connector and its text; `write`
puts them together. The formatter itself takes whatever is written.
-/

namespace Rustyfill.Errors

set_option autoImplicit false

variable {C I : Type}

/-! ## Connectors -/

def thinBranch : String := "├╴"

def thinLast : String := "╰╴"

def sourceFirst : String := "╰┬▶ "

def sourceExclusive : String := "╰─▶ "

def sourceMid : String := "├▶ "

def sourceLast : String := "╰▶ "

def sepChar : String := "│"

/-! ## Lines -/

inductive LineKind where
  | header
  | item
  | siblingSeparator
  | childSeparator
  | blank
deriving DecidableEq

structure Line where
  kind : LineKind
  columns : List Bool
  connector : String
  text : String
deriving DecidableEq

/-- A column takes four characters, and two in `write_sibling_separator`. -/
def Line.write (l : Line) : String :=
  let columns := match l.kind with
    | .siblingSeparator => l.columns.map fun isCont => if isCont then " │" else "  "
    | _ => l.columns.map fun isCont => if isCont then " │  " else "    "
  String.join columns ++ l.connector ++ l.text ++ "\n"

/-- What the types in a report write, and whether that fails on the way. -/
structure Displays (C I : Type) where
  context : C → Except String String
  item : I → Except String String
  location : I → String
  isPrintable : I → Bool
  forceForwardSlashes : Bool

/-- `fmt::Error`. What had been written before it is not kept. -/
inductive FmtError where
  | error

/-- A context that fails to be displayed. -/
def orFailed : Except String String → String
  | .ok s => s
  | .error s => s ++ "<failed to format context>"

def plural (n : Nat) : String := if n = 1 then "" else "s"

/-! ## Columns -/

/-- The loop of `extend_continuing`, which stops when a push is refused. -/
def extendLoop : Nat → Buffer Bool → Allocator → Buffer Bool × Allocator
  | 0, continuing, a => (continuing, a)
  | n + 1, continuing, a =>
    match continuing.tryPushBackGiveBack true a with
    | (.ok (), continuing, a) => extendLoop n continuing a
    | (.error _, continuing, a) => (continuing, a)

def extendContinuing (continuing : Buffer Bool) (depth : Nat) (a : Allocator) :
    Buffer Bool × Allocator :=
  let needed := depth - 1
  extendLoop (needed + 1 - continuing.items.length) continuing a

def markLastAt (continuing : Buffer Bool) (ancestorDepth : Nat) : Buffer Bool :=
  { continuing with items := continuing.items.set (ancestorDepth - 1) false }

/-- The columns of a line at a depth. -/
def writeIndent (continuing : Buffer Bool) (depth : Nat) : List Bool :=
  (List.range (depth - 1)).map fun i => continuing.items.getD i true

def writeSiblingSeparator (continuing : Buffer Bool) (depth : Nat) : Line :=
  ⟨.siblingSeparator, writeIndent continuing depth, " │", ""⟩

/-! ## The lines of a frame -/

section
variable (d : Displays C I)

/-- How many attachments are printable, and how many are opaque. -/
def countAttachments (attachments : List I) : Nat × Nat :=
  let printable := (attachments.filter d.isPrintable).length
  (printable, attachments.length - printable)

def writeLocation (loc : Location) : String :=
  let file := if d.forceForwardSlashes then loc.file.map fun c => if c = '\\' then '/' else c
    else loc.file
  "at " ++ file ++ ":" ++ toString loc.line ++ ":" ++ toString loc.column

/-- The loop over the printable attachments. -/
def renderPrintable (columns : List Bool) (opaqueCount totalLines lineIdx : Nat) :
    List I → Except FmtError (List Line)
  | [] => .ok []
  | att :: rest =>
    let isLastLine := lineIdx = totalLines - 1
    let connector := if isLastLine ∧ opaqueCount = 0 then thinLast else thinBranch
    match d.item att with
    | .error _ => .error .error
    | .ok s => do
      let lines ← renderPrintable columns opaqueCount totalLines (lineIdx + 1) rest
      .ok (⟨.item, columns, connector, s⟩ :: lines)

/-- The sums are far from overflow: a `Vec` has at most `isize::MAX` entries. -/
def renderAttachments (continuing : Buffer Bool) (subDepth : Nat) (attachments : List I)
    (totalLines firstLineIdx : Nat) : Except FmtError (List Line) := do
  let opaqueCount := (countAttachments d attachments).2
  let columns := writeIndent continuing subDepth
  let lines ← renderPrintable d columns opaqueCount totalLines firstLineIdx
    (attachments.filter d.isPrintable)
  .ok (lines ++ if 0 < opaqueCount then
    [⟨.item, columns, thinLast,
      toString opaqueCount ++ " additional opaque attachment" ++ plural opaqueCount⟩]
    else [])

def lostText (n : Nat) : String := "<" ++ toString n ++ " frame" ++ plural n ++ " lost>"

def renderStaticFrame (sf : StaticFrame C I) (continuing : Buffer Bool) (hasChildren : Bool) :
    Except FmtError (List Line) := do
  let segment := match sf.context.segment with
    | some seg => " [" ++ seg ++ "]"
    | none => ""
  let header := orFailed (d.context sf.context.context) ++ segment
  let hasAtts := !sf.attachments.isEmpty
  let locConnector := if hasAtts || hasChildren then thinBranch else thinLast
  let lines ← if hasAtts then
      let opaqueCount := (countAttachments d sf.attachments).2
      let printableCount := (sf.attachments.filter d.isPrintable).length
      let attLines := printableCount + if 0 < opaqueCount then 1 else 0
      renderAttachments d continuing 0 sf.attachments (attLines + 1) 1
    else .ok []
  .ok (⟨.header, [], "", header⟩ ::
    ⟨.item, [], locConnector, writeLocation d sf.context.location⟩ :: lines)

/-- A static frame; what follows it in the list is looked at for a marker. -/
def staticLines (sf : StaticFrame C I) (isHead lostFramesFollow : Bool)
    (continuing : Buffer Bool) : Except FmtError (List Line) := do
  let hasOwnChildren := !sf.children.isEmpty || 0 < sf.lostChildren
  let separator := if hasOwnChildren then [⟨.childSeparator, [], sepChar, ""⟩] else []
  if isHead then
    let lines ← renderStaticFrame d sf continuing hasOwnChildren
    .ok (lines ++ separator)
  else
    let effectiveHasChildren := hasOwnChildren || lostFramesFollow
    let lines ← renderStaticFrame d sf continuing effectiveHasChildren
    .ok (⟨.blank, [], "", ""⟩ :: lines ++ separator)

def sourceConnector (isFirst isLast : Bool) : String :=
  if isFirst && !isLast then sourceFirst
  else if isFirst && isLast then sourceExclusive
  else if !isLast then " " ++ sourceMid
  else " " ++ sourceLast

/-- A dynamic frame, once its own column is up to date. -/
def dynamicLines (df : DynamicFrame I) (depth : Nat) (isFirst isLast : Bool)
    (continuing : Buffer Bool) : Except FmtError (List Line) := do
  let header : Line := ⟨.header, writeIndent continuing depth, sourceConnector isFirst isLast,
    orFailed (d.item df.context)⟩
  let subDepth := depth + 1
  let columns := writeIndent continuing subDepth
  let atts := df.attachments
  let hasAtts := !atts.isEmpty
  let hasLost := 0 < df.lostChildren && df.children.isEmpty
  let hasChildSources := !df.children.isEmpty
  let locIsLast := !hasAtts && !hasLost && !hasChildSources
  let location : Line := ⟨.item, columns, if locIsLast then thinLast else thinBranch,
    d.location df.context⟩
  let lines ← if hasAtts then
      let opaqueCount := (countAttachments d atts).2
      let printableCount := (atts.filter d.isPrintable).length
      let remainingAfterLoc := printableCount + (if 0 < opaqueCount then 1 else 0) +
        if hasLost then 1 else 0
      renderAttachments d continuing subDepth atts (remainingAfterLoc + 1) 1
    else .ok []
  let lost : List Line :=
    if hasLost then [⟨.item, columns, thinLast, lostText df.lostChildren⟩] else []
  let siblings := if !isLast && !hasChildSources then [writeSiblingSeparator continuing depth]
    else []
  let children : List Line := if hasChildSources then [⟨.childSeparator, columns, sepChar, ""⟩]
    else []
  .ok (header :: location :: lines ++ lost ++ siblings ++ children)

/-! ## The loop over the frames -/

def depthOf : Item C I → Nat
  | .ok (_, depth) => depth
  | .error (_, depth) => depth

/-- `matches!((&frames[next_i].0, &frames[next_i].1), (Ok(FrameRef::LostFrames(_)), 0))`. -/
def isRootMarker : Item C I → Bool
  | .ok (.lostFrames _, depth) => depth = 0
  | _ => false

/-- One turn of the loop: the lines of a frame, which comes after `past`, the last of them first,
and before `rest`. -/
def drawFrame (past : List (Item C I)) (item : Item C I) (rest : List (Item C I))
    (continuing : Buffer Bool) (a : Allocator) :
    Except FmtError (List Line × Buffer Bool × Allocator) :=
  match item with
  | .ok (.static sf, depth) => do
    let isHead := depth = 0 && past.isEmpty
    let lines ← staticLines d sf isHead (rest.head?.any isRootMarker) continuing
    let (continuing, a) := extendContinuing continuing 1 a
    .ok (lines, continuing, a)
  | .ok (.dynamic df, depth) => do
    let siblingsBefore := (past.filter fun x => depthOf x = depth).length
    let siblingsAfter := (rest.filter fun x => depthOf x = depth).length
    let isFirst := siblingsBefore = 0
    let isLast := siblingsAfter = 0
    let (continuing, a) := extendContinuing continuing depth a
    let continuing := if isLast then markLastAt continuing depth else continuing
    let lines ← dynamicLines d df depth isFirst isLast continuing
    let (continuing, a) := extendContinuing continuing (depth + 1) a
    .ok (lines, continuing, a)
  | .ok (.lostFrames n, depth) =>
    let (continuing, a) := extendContinuing continuing depth a
    .ok ([⟨.item, writeIndent continuing depth, thinLast, lostText n⟩], continuing, a)
  | .error (_, depth) =>
    let (continuing, a) := extendContinuing continuing depth a
    .ok ([⟨.item, writeIndent continuing depth, thinLast, "<failed to display, out of memory>"⟩],
      continuing, a)

def drawFrames (past : List (Item C I)) : List (Item C I) → Buffer Bool → Allocator →
    Except FmtError (List (List Line) × Allocator)
  | [], _, a => .ok ([], a)
  | item :: rest, continuing, a => do
    let (lines, continuing, a) ← drawFrame d past item rest continuing a
    let (groups, a) ← drawFrames (item :: past) rest continuing a
    .ok (lines :: groups, a)

end

/-! ## The report -/

instance : RawVec (Item C I) := ⟨4⟩

/-- Collect what the walk answers with, in at most `fuel` calls; `none` when a push is refused. -/
def collectFrames : Nat → Frames C I → Buffer (Item C I) → Allocator →
    Except Fault (Option (List (Item C I)) × Allocator)
  | 0, _, _, _ => .error (.unreachable "more items than calls")
  | fuel + 1, walker, frames, a => do
    match ← walker.next a with
    | (none, _, a) => .ok (some frames.items, a)
    | (some item, walker, a) =>
      match frames.tryPushBackGiveBack item a with
      | (.ok (), frames, a) => collectFrames fuel walker frames a
      | (.error _, _, a) => .ok (none, a)

inductive Rendering where
  | frames (groups : List (List Line))
  | outOfMemory

def Rendering.write : Rendering → String
  | frames groups => String.join (groups.flatten.map Line.write)
  | outOfMemory => "<failed to render report, out of memory>"

/-- `Display::fmt`, to which the other implementations delegate. -/
def Report.fmt (d : Displays C I) (fuel : Nat) (r : Report C I) (a : Allocator) :
    Except Fault (Except FmtError Rendering × Allocator) := do
  let walker := { r.frames with toWalk := r.frames.toWalk.setAutoUnstall true }
  match ← collectFrames fuel walker .new a with
  | (none, a) => .ok (.ok .outOfMemory, a)
  | (some frames, a) =>
    match drawFrames d [] frames .new a with
    | .ok (groups, a) => .ok (.ok (.frames groups), a)
    | .error e => .ok (.error e, a)

end Rustyfill.Errors
