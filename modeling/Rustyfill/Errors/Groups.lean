import Rustyfill.Errors.Display
import Rustyfill.Errors.Spots

/-!
# The lines of one frame

What a frame should be drawn like at its spot, and when the lines that it draws are like that: the
connectors of the lines below the header depend on the frame alone.
-/

namespace Rustyfill.Errors

set_option autoImplicit false

variable {C I : Type}

/-! ## How a frame should be drawn -/

/-- The connector of a header, by the position among the siblings. -/
def positionConnector : Bool → Bool → String
  | false, true => sourceFirst
  | false, false => sourceExclusive
  | true, true => " " ++ sourceMid
  | true, false => " " ++ sourceLast

/-- The connectors of `n` lines, of which only the last one may end the group. -/
def closing (follows : Bool) : Nat → List String
  | 0 => []
  | 1 => [if follows then thinBranch else thinLast]
  | n + 2 => thinBranch :: closing follows (n + 1)

def columnsAt (header below : List Bool) : LineKind → List Bool
  | .header => header
  | .siblingSeparator => header
  | .item => below
  | .childSeparator => below
  | .blank => []

def itemsOf (lines : List Line) : List Line := lines.filter fun l => l.kind = .item

structure Drawn (p : Spot C I) (lines : List Line) : Prop where
  header : p.Dynamic → ∀ l ∈ lines, l.kind = .header →
    l.connector = positionConnector p.earlier p.later
  columns : ∀ l ∈ lines, l.columns = columnsAt p.columns p.below l.kind
  items : (itemsOf lines).map Line.connector = closing p.follows (itemsOf lines).length

/-! ## When it is -/

section
variable (d : Displays C I)

/-- Nothing comes after the last attachment, not even the count of the lost children if it is the
count of the opaque ones. -/
def DynamicFrame.Closed (df : DynamicFrame I) : Prop :=
  (df.attachments ≠ [] → df.children = []) ∧
    ((∃ i ∈ df.attachments, d.isPrintable i = false) → df.lostChildren = 0)

/-- Neither a child nor the count of the lost peers comes after attachments. Where there are no
attachments and no children, the frame has lost children or is a peer that the count comes after
exactly if the count comes after it. -/
def StaticFrame.Closed (sf : StaticFrame C I) (earlier marked : Bool) : Prop :=
  (sf.attachments ≠ [] → sf.children = [] ∧ marked = false) ∧
    (sf.attachments = [] → sf.children = [] →
      (0 < sf.lostChildren ∨ earlier = true ∧ marked = true ↔ marked = true))

/-- How many lines attachments take. -/
def lineCount (attachments : List I) : Nat := (attachments.filter d.isPrintable).length +
  if 0 < (countAttachments d attachments).2 then 1 else 0

/-- The attachments can be displayed. -/
def Printed (attachments : List I) : Prop :=
  ∀ i ∈ attachments, d.isPrintable i = true → ∃ s, d.item i = .ok s

end

/-! ## Connectors -/

theorem closing_succ (follows : Bool) (n : Nat) : closing follows (n + 1) =
    List.replicate n thinBranch ++ [if follows then thinBranch else thinLast] := by
  induction n with
  | zero => rfl
  | succ n ih =>
    rw [closing, ih, List.replicate_succ, List.cons_append]

theorem closing_length (follows : Bool) (n : Nat) : (closing follows n).length = n := by
  cases n with
  | zero => rfl
  | succ n => rw [closing_succ, List.length_append, List.length_replicate, List.length_singleton]

theorem length_of_connectors {lines : List Line} {follows : Bool} {n : Nat}
    (h : lines.map Line.connector = closing follows n) : lines.length = n := by
  rw [← closing_length follows n, ← h, List.length_map]

theorem closing_true (n : Nat) : closing true n = List.replicate n thinBranch := by
  cases n with
  | zero => rfl
  | succ n => rw [closing_succ, if_pos rfl, List.replicate_succ']

theorem thinBranch_ne : thinBranch ≠ thinLast := by decide

theorem closing_iff (follows : Bool) (n : Nat) (connector : String) :
    List.replicate n thinBranch ++ [connector] = closing follows (n + 1) ↔
      connector = if follows then thinBranch else thinLast := by
  rw [closing_succ, List.append_cancel_left_eq, List.singleton_inj]

theorem terminates_iff (follows : Bool) :
    (thinLast = if follows then thinBranch else thinLast) ↔ follows = false := by
  cases follows with
  | false => exact iff_of_true rfl rfl
  | true => exact iff_of_false (Ne.symm thinBranch_ne) (fun h => nomatch h)

theorem sourceConnector_eq (isFirst isLast : Bool) :
    sourceConnector isFirst isLast = positionConnector (!isFirst) (!isLast) := by
  cases isFirst <;> cases isLast <;> rfl

theorem positionConnector_inj {earlier later earlier' later' : Bool} :
    positionConnector earlier later = positionConnector earlier' later' ↔
      earlier = earlier' ∧ later = later' := by
  revert earlier later earlier' later'
  decide

/-! ## Attachments -/

section
variable {d : Displays C I}

def Items (columns : List Bool) (lines : List Line) : Prop :=
  ∀ l ∈ lines, l.kind = .item ∧ l.columns = columns

theorem Items.itemsOf {columns : List Bool} {lines : List Line} (h : Items columns lines) :
    itemsOf lines = lines := by
  rw [Errors.itemsOf, List.filter_eq_self]
  intro l hl
  exact decide_eq_true (h l hl).1

theorem itemsOf_append (lines lines' : List Line) :
    itemsOf (lines ++ lines') = itemsOf lines ++ itemsOf lines' :=
  List.filter_append _ _

theorem itemsOf_item (columns : List Bool) (connector text : String) (lines : List Line) :
    itemsOf (⟨.item, columns, connector, text⟩ :: lines) =
      ⟨.item, columns, connector, text⟩ :: itemsOf lines := rfl

theorem itemsOf_header (columns : List Bool) (connector text : String) (lines : List Line) :
    itemsOf (⟨.header, columns, connector, text⟩ :: lines) = itemsOf lines := rfl

theorem itemsOf_if {b : Bool} {l : Line} (h : l.kind ≠ .item) :
    itemsOf (if b = true then [l] else []) = [] := by
  cases b with
  | false => rfl
  | true => exact List.filter_cons_of_neg (by simpa using h)

theorem renderPrintable_spec (columns : List Bool) (opaqueCount totalLines lineIdx : Nat)
    {l : List I} (hd : ∀ i ∈ l, ∃ s, d.item i = .ok s) (hle : lineIdx + l.length ≤ totalLines) :
    ∃ lines, renderPrintable d columns opaqueCount totalLines lineIdx l = .ok lines ∧
      Items columns lines ∧ lines.map Line.connector =
        closing (!decide (opaqueCount = 0 ∧ lineIdx + l.length = totalLines)) l.length := by
  induction l generalizing lineIdx with
  | nil => exact ⟨[], rfl, (fun l hl => nomatch hl), rfl⟩
  | cons att rest ih =>
    obtain ⟨⟨s, hs⟩, hrest⟩ := List.forall_mem_cons.mp hd
    rw [List.length_cons] at hle
    obtain ⟨lines, hlines, hitems, hconnectors⟩ := ih (lineIdx + 1) hrest (by omega)
    refine ⟨⟨.item, columns, if lineIdx = totalLines - 1 ∧ opaqueCount = 0 then thinLast
      else thinBranch, s⟩ :: lines, ?_, List.forall_mem_cons.mpr ⟨⟨rfl, rfl⟩, hitems⟩, ?_⟩
    · simp only [renderPrintable, hs, hlines]
      rfl
    · have hsum : lineIdx + 1 + rest.length = lineIdx + (att :: rest).length := by
        rw [List.length_cons]
        omega
      rw [List.map_cons, hconnectors, hsum]
      cases rest with
      | nil =>
        rw [List.length_nil] at hle
        rw [List.length_singleton]
        have hiff : (lineIdx = totalLines - 1 ∧ opaqueCount = 0) ↔
            (opaqueCount = 0 ∧ lineIdx + 1 = totalLines) := by omega
        by_cases hlast : opaqueCount = 0 ∧ lineIdx + 1 = totalLines
        · rw [if_pos (hiff.mpr hlast), decide_eq_true hlast]
          rfl
        · rw [if_neg (fun h => hlast (hiff.mp h)), decide_eq_false hlast]
          rfl
      | cons att' rest =>
        rw [if_neg]
        · rfl
        · simp only [List.length_cons] at hle
          omega

theorem count_printable (attachments : List I) : (attachments.filter d.isPrintable).length +
    (countAttachments d attachments).2 = attachments.length :=
  Nat.add_sub_cancel' (List.length_filter_le _ _)

theorem count_opaque (attachments : List I) : 0 < (countAttachments d attachments).2 ↔
    ∃ i ∈ attachments, d.isPrintable i = false := by
  have hcount := @count_printable C I d attachments
  have hall : (attachments.filter d.isPrintable).length = attachments.length ↔
      ∀ i ∈ attachments, d.isPrintable i = true := List.length_filter_eq_length_iff
  constructor
  · intro hpos
    by_contra hnone
    have hsame := hall.mpr (fun i hi => by
      rw [← Bool.not_eq_false]
      exact fun hfalse => hnone ⟨i, hi, hfalse⟩)
    omega
  · rintro ⟨i, hi, hfalse⟩
    refine Nat.pos_of_ne_zero (fun hzero => ?_)
    rw [hzero, Nat.add_zero] at hcount
    rw [hall.mp hcount i hi] at hfalse
    cases hfalse

/-- The attachments end the group, unless a line comes after printable ones. -/
theorem renderAttachments_spec (continuing : Buffer Bool) (subDepth after : Nat)
    {attachments : List I} (hd : Printed d attachments) :
    ∃ lines, renderAttachments d continuing subDepth attachments
        ((attachments.filter d.isPrintable).length +
          (if 0 < (countAttachments d attachments).2 then 1 else 0) + after + 1) 1 = .ok lines ∧
      Items (writeIndent continuing subDepth) lines ∧ lines.map Line.connector =
        closing (decide ((countAttachments d attachments).2 = 0 ∧ 0 < after))
          ((attachments.filter d.isPrintable).length +
            if 0 < (countAttachments d attachments).2 then 1 else 0) := by
  have hprinted : ∀ i ∈ attachments.filter d.isPrintable, ∃ s, d.item i = .ok s := by
    intro i hi
    obtain ⟨hmem, hprintable⟩ := List.mem_filter.mp hi
    exact hd i hmem hprintable
  generalize hcount : (countAttachments d attachments).2 = o
  generalize hlist : attachments.filter d.isPrintable = l at hprinted ⊢
  obtain ⟨lines, hlines, hitems, hconnectors⟩ := @renderPrintable_spec C I d
    (writeIndent continuing subDepth) o (l.length + (if 0 < o then 1 else 0) + after + 1) 1 l
    hprinted (by omega)
  refine ⟨lines ++ if 0 < o then [⟨.item, writeIndent continuing subDepth, thinLast,
    toString o ++ " additional opaque attachment" ++ plural o⟩] else [], ?_, ?_, ?_⟩
  · simp only [renderAttachments, hcount, hlist, hlines]
    rfl
  · refine List.forall_mem_append.mpr ⟨hitems, ?_⟩
    split
    · exact List.forall_mem_singleton.mpr ⟨rfl, rfl⟩
    · exact fun l hl => nomatch hl
  · rw [List.map_append, hconnectors]
    rcases Nat.eq_zero_or_pos o with rfl | hpos
    · simp only [Nat.lt_irrefl, if_false, List.map_nil, List.append_nil, Nat.add_zero, true_and]
      congr 1
      rw [← decide_not, decide_eq_decide]
      omega
    · rw [if_pos hpos, if_pos hpos, decide_eq_false (fun h => Nat.ne_of_gt hpos h.1),
        decide_eq_false (fun h => Nat.ne_of_gt hpos h.1), Bool.not_false, closing_true,
        closing_succ]
      rfl

theorem lineCount_eq_zero {attachments : List I} :
    lineCount d attachments = 0 ↔ attachments = [] := by
  have hcount := @count_printable C I d attachments
  rw [lineCount, ← List.length_eq_zero_iff]
  split <;> omega

theorem lineCount_pos {attachments : List I} :
    0 < lineCount d attachments ↔ attachments ≠ [] :=
  Nat.pos_iff_ne_zero.trans (not_congr lineCount_eq_zero)

theorem isEmpty_iff_lineCount (attachments : List I) :
    (!attachments.isEmpty) = true ↔ 0 < lineCount d attachments := by
  rw [lineCount_pos]
  simp

theorem attachmentLines_spec (continuing : Buffer Bool) (subDepth after : Nat)
    {attachments : List I} (hd : Printed d attachments) :
    ∃ lines, (if (!attachments.isEmpty) = true then
        renderAttachments d continuing subDepth attachments
          (lineCount d attachments + after + 1) 1 else .ok []) = .ok lines ∧
      Items (writeIndent continuing subDepth) lines ∧ lines.map Line.connector =
        closing (decide ((countAttachments d attachments).2 = 0 ∧ 0 < after))
          (lineCount d attachments) := by
  cases attachments with
  | nil => exact ⟨[], rfl, (fun l hl => nomatch hl), rfl⟩
  | cons att rest => exact renderAttachments_spec continuing subDepth after hd

/-! ## Frames at the root -/

theorem static_closing {atts : Nat} (hasChildren follows : Bool) :
    ((if 0 < atts ∨ hasChildren = true then thinBranch else thinLast) :: closing false atts =
        closing follows (atts + 1)) ↔
      (0 < atts → follows = false) ∧ (atts = 0 → hasChildren = follows) := by
  cases atts with
  | zero =>
    cases hasChildren <;> cases follows <;> decide
  | succ n =>
    rw [if_pos (Or.inl (Nat.succ_pos n)), closing_succ, ← List.cons_append, ← List.replicate_succ,
      closing_iff, if_neg Bool.false_ne_true, terminates_iff]
    exact ⟨fun h => ⟨fun _ => h, fun hzero => nomatch hzero⟩, fun h => h.1 (Nat.succ_pos n)⟩

theorem renderStaticFrame_eq {sf : StaticFrame C I} {continuing : Buffer Bool}
    {lines : List Line} (h : (if (!sf.attachments.isEmpty) = true then
        renderAttachments d continuing 0 sf.attachments (lineCount d sf.attachments + 0 + 1) 1
      else .ok []) = .ok lines) (hasChildren : Bool) :
    ∃ header, renderStaticFrame d sf continuing hasChildren = .ok (⟨.header, [], "", header⟩ ::
      ⟨.item, [], if !sf.attachments.isEmpty || hasChildren then thinBranch else thinLast,
        writeLocation d sf.context.location⟩ :: lines) := by
  rw [lineCount] at h
  simp only [renderStaticFrame]
  by_cases hatts : (!sf.attachments.isEmpty) = true
  · rw [if_pos hatts] at h ⊢
    simp only [Nat.add_zero] at h
    rw [h]
    exact ⟨_, rfl⟩
  · rw [if_neg hatts] at h ⊢
    cases h
    exact ⟨_, rfl⟩

/-- Something follows the location of a frame at the root, as the code sees it. -/
def StaticFrame.branches (sf : StaticFrame C I) (isHead lostFramesFollow : Bool) : Bool :=
  !sf.children.isEmpty || 0 < sf.lostChildren || !isHead && lostFramesFollow

/-- The lines below the header are the location and those of the attachments. -/
theorem staticLines_items {sf : StaticFrame C I} {continuing : Buffer Bool} {lines : List Line}
    (h : (if (!sf.attachments.isEmpty) = true then
        renderAttachments d continuing 0 sf.attachments (lineCount d sf.attachments + 0 + 1) 1
      else .ok []) = .ok lines) (hitems : Items [] lines) (isHead lostFramesFollow : Bool) :
    ∃ drawn, staticLines d sf isHead lostFramesFollow continuing = .ok drawn ∧
      (∀ l ∈ drawn, l.columns = []) ∧
      itemsOf drawn = ⟨.item, [], if !sf.attachments.isEmpty ||
        sf.branches isHead lostFramesFollow then thinBranch else thinLast,
        writeLocation d sf.context.location⟩ :: lines := by
  obtain ⟨header, hrender⟩ := renderStaticFrame_eq h (sf.branches isHead lostFramesFollow)
  generalize hgroup : (⟨.header, [], "", header⟩ :: ⟨.item, [], if !sf.attachments.isEmpty ||
    sf.branches isHead lostFramesFollow then thinBranch else thinLast,
    writeLocation d sf.context.location⟩ :: lines : List Line) = group at hrender
  have hcolumns : ∀ l ∈ group, l.columns = [] := by
    rw [← hgroup, List.forall_mem_cons, List.forall_mem_cons]
    exact ⟨rfl, rfl, fun l hl => (hitems l hl).2⟩
  have hitemsOf : itemsOf group = ⟨.item, [], if !sf.attachments.isEmpty ||
      sf.branches isHead lostFramesFollow then thinBranch else thinLast,
      writeLocation d sf.context.location⟩ :: lines := by
    rw [← hgroup, itemsOf_header, itemsOf_item, hitems.itemsOf]
  have hseparator : ∀ b : Bool, ∀ l ∈ (if b = true then
      [⟨.childSeparator, [], sepChar, ""⟩] else ([] : List Line)), l.columns = [] := by
    intro b
    cases b with
    | false => exact fun l hl => nomatch hl
    | true => exact List.forall_mem_singleton.mpr rfl
  rw [← hitemsOf]
  cases isHead with
  | true =>
    simp only [StaticFrame.branches, Bool.not_true, Bool.false_and, Bool.or_false] at hrender
    refine ⟨group ++ if (!sf.children.isEmpty || 0 < sf.lostChildren) = true then
      [⟨.childSeparator, [], sepChar, ""⟩] else [], ?_, ?_, ?_⟩
    · simp only [staticLines, if_true, hrender]
      rfl
    · exact List.forall_mem_append.mpr ⟨hcolumns, hseparator _⟩
    · rw [itemsOf_append, itemsOf_if (by decide), List.append_nil]
  | false =>
    simp only [StaticFrame.branches, Bool.not_false, Bool.true_and] at hrender
    refine ⟨⟨.blank, [], "", ""⟩ :: group ++
      if (!sf.children.isEmpty || 0 < sf.lostChildren) = true then
        [⟨.childSeparator, [], sepChar, ""⟩] else [], ?_, ?_, ?_⟩
    · simp only [staticLines, Bool.false_eq_true, if_false, hrender]
      rfl
    · exact List.forall_mem_append.mpr
        ⟨List.forall_mem_cons.mpr ⟨rfl, hcolumns⟩, hseparator _⟩
    · rw [itemsOf_append, itemsOf_if (by decide), List.append_nil]
      rfl


/-- A frame at the root is drawn as it should be exactly if nothing comes after its attachments
and, without any, what it takes to follow the location does. -/
theorem staticLines_drawn {sf : StaticFrame C I} (hd : Printed d sf.attachments)
    {p : Spot C I} (hp : p.frame = .static sf) (hcolumns : p.columns = [])
    (isHead lostFramesFollow : Bool) (continuing : Buffer Bool) :
    ∃ lines, staticLines d sf isHead lostFramesFollow continuing = .ok lines ∧
      (Drawn p lines ↔ (sf.attachments ≠ [] → p.follows = false) ∧
        (sf.attachments = [] → sf.branches isHead lostFramesFollow = p.follows)) := by
  obtain ⟨lines, hlines, hitems, hconnectors⟩ := attachmentLines_spec continuing 0 0 hd
  obtain ⟨drawn, hdrawn, hall, hitemsOf⟩ :=
    staticLines_items hlines hitems isHead lostFramesFollow
  refine ⟨drawn, hdrawn, ?_⟩
  have hnone : ∀ kind, columnsAt p.columns p.below kind = [] := by
    intro kind
    rw [hcolumns, Spot.below, hp]
    cases kind <;> rfl
  have hiff : (itemsOf drawn).map Line.connector = closing p.follows (itemsOf drawn).length ↔
      (sf.attachments ≠ [] → p.follows = false) ∧
        (sf.attachments = [] → sf.branches isHead lostFramesFollow = p.follows) := by
    rw [hitemsOf, List.map_cons, List.length_cons, hconnectors, length_of_connectors hconnectors,
      ← @lineCount_pos C I d, ← @lineCount_eq_zero C I d, ← static_closing,
      decide_eq_false (by simp)]
    simp only [Bool.or_eq_true, @isEmpty_iff_lineCount C I d]
  rw [← hiff]
  constructor
  · exact Drawn.items
  · intro h
    refine ⟨fun ⟨df, hdf⟩ => ?_, fun l hl => ?_, h⟩
    · rw [hp] at hdf
      cases hdf
    · rw [hall l hl, hnone]

/-! ## Frames below another -/

/-- The connectors below the header of a frame that is not at the root. -/
theorem dynamic_closing {atts opaqueCount : Nat} {hasLost hasChildren : Bool}
    (hlost : hasLost = true → hasChildren = false) :
    ((if atts = 0 ∧ hasLost = false ∧ hasChildren = false then thinLast else thinBranch) ::
        (closing (decide (opaqueCount = 0 ∧ 0 < if hasLost then 1 else 0)) atts ++
          if hasLost then [thinLast] else []) =
        closing hasChildren (atts + (if hasLost then 1 else 0) + 1)) ↔
      (0 < atts → hasChildren = false) ∧ (0 < atts → 0 < opaqueCount → hasLost = false) := by
  cases hasLost with
  | false =>
    have hlocation : (if atts = 0 ∧ false = false ∧ hasChildren = false then thinLast
        else thinBranch) = if 0 < atts ∨ hasChildren = true then thinBranch else thinLast := by
      rcases Nat.eq_zero_or_pos atts with rfl | hpos
      · cases hasChildren <;> rfl
      · rw [if_pos (Or.inl hpos), if_neg (fun h => Nat.ne_of_gt hpos h.1)]
    rw [hlocation, if_neg Bool.false_ne_true, if_neg Bool.false_ne_true, List.append_nil,
      Nat.add_zero, decide_eq_false (fun h => Nat.lt_irrefl 0 h.2), static_closing]
    simp
  | true =>
    rw [hlost rfl, if_neg (by simp), if_pos rfl, if_pos rfl, closing_succ, List.replicate_succ,
      if_neg Bool.false_ne_true, List.cons_append, List.cons_inj_right,
      List.append_cancel_right_eq, ← closing_true]
    rcases Nat.eq_zero_or_pos opaqueCount with rfl | hcount
    · simp
    · rw [decide_eq_false (fun h => Nat.ne_of_gt hcount h.1)]
      cases atts with
      | zero => simp [closing]
      | succ n =>
        rw [closing_succ false, if_neg Bool.false_ne_true, closing_iff, terminates_iff]
        simp [hcount]

theorem dynamicLines_eq {df : DynamicFrame I} {depth : Nat} {continuing : Buffer Bool}
    {lines : List Line} (h : (if (!df.attachments.isEmpty) = true then
        renderAttachments d continuing (depth + 1) df.attachments
          (lineCount d df.attachments +
            (if (0 < df.lostChildren && df.children.isEmpty) = true then 1 else 0) + 1) 1
      else .ok []) = .ok lines) (isFirst isLast : Bool) :
    dynamicLines d df depth isFirst isLast continuing = .ok
      (⟨.header, writeIndent continuing depth, sourceConnector isFirst isLast,
        orFailed (d.item df.context)⟩ ::
      ⟨.item, writeIndent continuing (depth + 1),
        if (!(!df.attachments.isEmpty) && !(0 < df.lostChildren && df.children.isEmpty) &&
          !(!df.children.isEmpty)) = true then thinLast else thinBranch,
        d.location df.context⟩ :: lines ++
      (if (0 < df.lostChildren && df.children.isEmpty) = true then
        [⟨.item, writeIndent continuing (depth + 1), thinLast, lostText df.lostChildren⟩]
        else []) ++
      (if (!isLast && !(!df.children.isEmpty)) = true then [writeSiblingSeparator continuing depth]
        else []) ++
      if (!df.children.isEmpty) = true then
        [⟨.childSeparator, writeIndent continuing (depth + 1), sepChar, ""⟩] else []) := by
  rw [lineCount] at h
  simp only [dynamicLines]
  by_cases hatts : (!df.attachments.isEmpty) = true
  · rw [if_pos hatts] at h ⊢
    rw [h]
    rfl
  · rw [if_neg hatts] at h ⊢
    cases h
    rfl

theorem forall_mem_if {b : Bool} {l : Line} {P : Line → Prop} (h : P l) :
    ∀ l' ∈ (if b = true then [l] else []), P l' := by
  cases b with
  | false => exact fun l hl => nomatch hl
  | true => exact List.forall_mem_singleton.mpr h

/-- The lines below the header are the location, those of the attachments, and the count of the
lost children. -/
theorem dynamicLines_items {df : DynamicFrame I} {depth : Nat} {continuing : Buffer Bool}
    {lines : List Line} (h : (if (!df.attachments.isEmpty) = true then
        renderAttachments d continuing (depth + 1) df.attachments
          (lineCount d df.attachments +
            (if (0 < df.lostChildren && df.children.isEmpty) = true then 1 else 0) + 1) 1
      else .ok []) = .ok lines) (hitems : Items (writeIndent continuing (depth + 1)) lines)
    (isFirst isLast : Bool) :
    ∃ drawn, dynamicLines d df depth isFirst isLast continuing = .ok drawn ∧
      (∃ l ∈ drawn, l.kind = .header) ∧
      (∀ l ∈ drawn, (l.kind = .header → l.connector = sourceConnector isFirst isLast) ∧
        l.columns =
          columnsAt (writeIndent continuing depth) (writeIndent continuing (depth + 1)) l.kind) ∧
      (itemsOf drawn).map Line.connector =
        (if df.attachments = [] ∧ (0 < df.lostChildren && df.children.isEmpty) = false ∧
          (!df.children.isEmpty) = false then thinLast else thinBranch) ::
          (lines.map Line.connector ++
            if (0 < df.lostChildren && df.children.isEmpty) = true then [thinLast] else []) := by
  refine ⟨_, dynamicLines_eq h isFirst isLast, ⟨_, List.mem_cons_self .., rfl⟩, ?_, ?_⟩
  · rw [List.forall_mem_append, List.forall_mem_append, List.forall_mem_append,
      List.forall_mem_cons, List.forall_mem_cons]
    refine ⟨⟨⟨⟨⟨fun _ => rfl, rfl⟩, ⟨fun hkind => (nomatch hkind), rfl⟩,
      fun l hl => ?_⟩, ?_⟩, ?_⟩, ?_⟩
    · obtain ⟨hkind, hcolumns⟩ := hitems l hl
      rw [hkind, hcolumns]
      exact ⟨fun hheader => (nomatch hheader), rfl⟩
    · exact forall_mem_if ⟨fun hkind => (nomatch hkind), rfl⟩
    · exact forall_mem_if ⟨fun hkind => (nomatch hkind), rfl⟩
    · exact forall_mem_if ⟨fun hkind => (nomatch hkind), rfl⟩
  · have hlost : (itemsOf (if (0 < df.lostChildren && df.children.isEmpty) = true then
        [⟨.item, writeIndent continuing (depth + 1), thinLast, lostText df.lostChildren⟩]
        else [])).map Line.connector =
          if (0 < df.lostChildren && df.children.isEmpty) = true then [thinLast] else [] := by
      split <;> rfl
    rw [itemsOf_append, itemsOf_append, itemsOf_if (by simp [writeSiblingSeparator]),
      itemsOf_if (by simp),
      List.append_nil, List.append_nil, itemsOf_append, itemsOf_header, itemsOf_item,
      hitems.itemsOf, List.map_append, List.map_cons, hlost, List.cons_append]
    congr 1
    generalize (0 < df.lostChildren && df.children.isEmpty) = hasLost
    generalize (!df.children.isEmpty) = hasChildren
    cases df.attachments <;> cases hasLost <;> cases hasChildren <;> simp

/-- A frame that is not at the root is drawn as it should be exactly if its position among all
frames of its depth, and the columns, are those of its spot, and its attachments are the last to
follow the location, unless the count of the lost children follows printable ones. -/
theorem dynamicLines_drawn {df : DynamicFrame I} (hd : Printed d df.attachments) {p : Spot C I}
    (hp : p.frame = .dynamic df) (depth : Nat) (isFirst isLast : Bool) (continuing : Buffer Bool) :
    ∃ lines, dynamicLines d df depth isFirst isLast continuing = .ok lines ∧
      (Drawn p lines ↔ ((isFirst = !p.earlier) ∧ isLast = !p.later) ∧
        (writeIndent continuing depth = p.columns ∧
          writeIndent continuing (depth + 1) = p.below) ∧ df.Closed d) := by
  obtain ⟨lines, hlines, hitems, hconnectors⟩ := attachmentLines_spec continuing (depth + 1)
    (if (0 < df.lostChildren && df.children.isEmpty) = true then 1 else 0) hd
  obtain ⟨drawn, hdrawn, ⟨header, hheader, hkind⟩, hall, hconnectors'⟩ :=
    dynamicLines_items hlines hitems isFirst isLast
  refine ⟨drawn, hdrawn, ?_⟩
  have hdynamic : p.Dynamic := ⟨df, hp⟩
  have hfollows : p.follows = !df.children.isEmpty := by rw [Spot.follows, hp]
  have hlength : (itemsOf drawn).length = lineCount d df.attachments +
      (if (0 < df.lostChildren && df.children.isEmpty) = true then 1 else 0) + 1 := by
    rw [← List.length_map, hconnectors', hconnectors, List.length_cons, List.length_append,
      closing_length]
    split <;> rfl
  have hitemsIff : (itemsOf drawn).map Line.connector =
      closing p.follows (itemsOf drawn).length ↔ df.Closed d := by
    rw [hlength, hconnectors', hconnectors, hfollows]
    simp only [← @lineCount_eq_zero C I d]
    rw [dynamic_closing, lineCount_pos, count_opaque, DynamicFrame.Closed]
    · have hne : (∃ i ∈ df.attachments, d.isPrintable i = false) → df.attachments ≠ [] :=
        fun ⟨i, hi, _⟩ => List.ne_nil_of_mem hi
      simp only [Bool.not_eq_false', List.isEmpty_iff, Bool.and_eq_false_iff,
        decide_eq_false_iff_not, Nat.not_lt, Nat.le_zero, List.isEmpty_eq_false_iff]
      refine and_congr_right (fun hchildren => ⟨fun h hcount => ?_, fun h _ hcount => ?_⟩)
      · exact (h (hne hcount) hcount).resolve_right
          (fun hnot => hnot (hchildren (hne hcount)))
      · exact Or.inl (h hcount)
    · intro hlost
      rw [Bool.and_eq_true] at hlost
      rw [hlost.2]
      rfl
  obtain ⟨item, hitem, hitemKind⟩ : ∃ l ∈ drawn, l.kind = .item := by
    obtain ⟨l, hl⟩ := List.exists_mem_of_length_pos (by rw [hlength]; exact Nat.succ_pos _)
    obtain ⟨hmem, hdecide⟩ := List.mem_filter.mp hl
    exact ⟨l, hmem, of_decide_eq_true hdecide⟩
  constructor
  · rintro ⟨hsource, hcolumns, hclosing⟩
    have hposition := hsource hdynamic header hheader hkind
    rw [(hall header hheader).1 hkind, sourceConnector_eq, positionConnector_inj] at hposition
    have hfirst := hcolumns header hheader
    have hbelow := hcolumns item hitem
    rw [(hall header hheader).2, hkind] at hfirst
    rw [(hall item hitem).2, hitemKind] at hbelow
    refine ⟨?_, ⟨hfirst, hbelow⟩, hitemsIff.mp hclosing⟩
    rw [← hposition.1, ← hposition.2, Bool.not_not, Bool.not_not]
    exact ⟨rfl, rfl⟩
  · rintro ⟨⟨rfl, rfl⟩, ⟨hfirst, hbelow⟩, hclosed⟩
    refine ⟨fun _ l hl hkind => ?_, fun l hl => ?_, hitemsIff.mpr hclosed⟩
    · rw [(hall l hl).1 hkind, sourceConnector_eq, Bool.not_not, Bool.not_not]
    · rw [(hall l hl).2, hfirst, hbelow]

end

end Rustyfill.Errors
