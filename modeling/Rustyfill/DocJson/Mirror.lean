import Rustyfill.DocJson.Model

/-!
# What the conversion loses

A type as it is written in the source, how rustdoc describes it, and which descriptions are
converted. A description leaves out the members that rustdoc strips: a tuple has a hole in their
place, every other list of members is shorter and has a flag beside it.
-/

namespace Rustyfill.DocJson

set_option autoImplicit false

/-! ## Types as they are written -/

/-- A member, and whether rustdoc strips it. -/
structure Source (α : Type) where
  member : α
  stripped : Bool

inductive SourceFields (Ty : Type) where
  | unit
  | tuple (fields : List (Source (DocField Ty)))
  | named (fields : List (Source (DocField Ty)))

structure SourceVariant (Ty : Type) where
  name : String
  fields : SourceFields Ty
  discriminant : Option String

inductive SourceType (Ty : Type) where
  | struct (fields : SourceFields Ty)
  | enum (variants : List (Source (SourceVariant Ty)))
  | union (fields : List (Source (DocField Ty)))

section
variable {α Ty : Type}

def members (l : List (Source α)) : List α := l.map Source.member

/-- The members that rustdoc leaves. -/
def kept (l : List (Source α)) : List α := members (l.filter fun m => !m.stripped)

def SourceFields.struct : SourceFields Ty → DocTypeKind Ty
  | .unit => .struct [] false
  | .tuple fields => .struct (members fields) true
  | .named fields => .struct (members fields) false

def SourceFields.variant : SourceFields Ty → DocVariantKind Ty
  | .unit => .unit
  | .tuple fields => .tuple (members fields)
  | .named fields => .struct (members fields)

def SourceVariant.converted (v : SourceVariant Ty) : DocVariant Ty :=
  ⟨v.name, v.fields.variant, v.discriminant⟩

/-- The extracted type that mirrors a type, with all its members. -/
def SourceType.kind : SourceType Ty → DocTypeKind Ty
  | .struct fields => fields.struct
  | .enum variants => .enum ((members variants).map SourceVariant.converted)
  | .union fields => .union (members fields)

/-! ## How rustdoc describes them -/

variable (index : Index Ty)

structure ShowsItem (item : Item Ty) (f : DocField Ty) : Prop where
  name : item.name = some f.name
  visibility : docVisibility item.visibility = f.visibility
  inner : item.inner = .structField f.ty

def Shows (id : Id) (f : DocField Ty) : Prop := ∃ item, index id = some item ∧ ShowsItem item f

/-- Named members, with the flag that says whether some were stripped. -/
def DescribesNamed {β : Type} (shows : Id → β → Prop) (ids : List Id) (flag : Bool)
    (l : List (Source β)) : Prop :=
  List.Forall₂ shows ids (kept l) ∧ flag = l.any Source.stripped

/-- A tuple, with a hole for every stripped field. -/
def DescribesTuple (entries : List (Option Id)) (l : List (Source (DocField Ty))) : Prop :=
  List.Forall₂ (fun entry f => match entry with
    | none => f.stripped = true
    | some id => f.stripped = false ∧ Shows index id f.member) entries l

def DescribesStruct : StructKind → SourceFields Ty → Prop
  | .unit, .unit => True
  | .tuple entries, .tuple fields => DescribesTuple index entries fields
  | .plain ids flag, .named fields => DescribesNamed (Shows index) ids flag fields
  | _, _ => False

def DescribesVariant : VariantKind → SourceFields Ty → Prop
  | .plain, .unit => True
  | .tuple entries, .tuple fields => DescribesTuple index entries fields
  | .struct ids flag, .named fields => DescribesNamed (Shows index) ids flag fields
  | _, _ => False

def ShowsVariant (id : Id) (v : SourceVariant Ty) : Prop :=
  ∃ item var, index id = some item ∧ item.name = some v.name ∧ item.inner = .variant var ∧
    var.discriminant = v.discriminant ∧ DescribesVariant index var.kind v.fields

def Describes (item : Item Ty) (t : SourceType Ty) : Prop :=
  match item.inner, t with
  | .struct s, .struct fields => DescribesStruct index s.kind fields
  | .enum e, .enum variants =>
    DescribesNamed (ShowsVariant index) e.variants e.hasStrippedVariants variants
  | .union u, .union fields =>
    DescribesNamed (Shows index) u.fields u.hasStrippedFields fields
  | _, _ => False

/-! ## What a description says is missing -/

/-- A flag says that named fields were stripped. -/
def StructKind.flagged : StructKind → Bool
  | .plain _ flag => flag
  | _ => false

def VariantKind.flagged : VariantKind → Bool
  | .struct _ flag => flag
  | _ => false

/-- A flag or a hole says that fields were stripped. -/
def StructKind.stripped : StructKind → Bool
  | .tuple entries => entries.contains none
  | k => k.flagged

def VariantKind.stripped : VariantKind → Bool
  | .tuple entries => entries.contains none
  | k => k.flagged

/-- What the item says of its own members, or a variant it lists of its fields. -/
def Says (ofStruct : StructKind → Bool) (ofVariant : VariantKind → Bool) (item : Item Ty) : Prop :=
  match item.inner with
  | .struct s => ofStruct s.kind = true
  | .enum e => e.hasStrippedVariants = true ∨ ∃ id ∈ e.variants, ∃ vitem v,
      index id = some vitem ∧ vitem.inner = .variant v ∧ ofVariant v.kind = true
  | .union u => u.hasStrippedFields = true
  | _ => False

def Flagged (item : Item Ty) : Prop := Says index StructKind.flagged VariantKind.flagged item

/-- A flag or a hole in a tuple says that members were stripped. -/
def Stripped (item : Item Ty) : Prop := Says index StructKind.stripped VariantKind.stripped item

def StructKind.ids : StructKind → List Id
  | .unit => []
  | .tuple entries => entries.filterMap id
  | .plain ids _ => ids

def VariantKind.ids : VariantKind → List Id
  | .plain => []
  | .tuple entries => entries.filterMap id
  | .struct ids _ => ids

/-- The id of a member, or of a field of a variant, is not in the index. -/
def Missing (item : Item Ty) : Prop :=
  match item.inner with
  | .struct s => ∃ id ∈ s.kind.ids, index id = none
  | .enum e => ∃ id ∈ e.variants, index id = none ∨ ∃ vitem v,
      index id = some vitem ∧ vitem.inner = .variant v ∧ ∃ fid ∈ v.kind.ids, index fid = none
  | .union u => ∃ id ∈ u.fields, index id = none
  | _ => False

/-- No member is lost: what is converted has all members of the type it was written as, and what
is known to be incomplete is not converted. -/
structure Lossless (plain : Ty → String) (item : Item Ty) : Prop where
  mirrors : ∀ t doc, Describes index item t → DocType.fromItem index plain item = .ok doc →
    doc.kind = t.kind
  stripped : Stripped index item → ∃ msg, DocType.fromItem index plain item = .error msg
  missing : Missing index item → ∃ msg, DocType.fromItem index plain item = .error msg

/-! ## What can be converted -/

def IsField (id : Id) : Prop := ∃ f, Shows index id f

def StructKind.Convertible : StructKind → Prop
  | .unit => True
  | .tuple entries => ∀ entry ∈ entries, ∃ id, entry = some id ∧ IsField index id
  | .plain ids _ => ∀ id ∈ ids, IsField index id

def VariantKind.Convertible : VariantKind → Prop
  | .plain => True
  | .tuple entries => ∀ entry ∈ entries, ∃ id, entry = some id ∧ IsField index id
  | .struct ids _ => ∀ id ∈ ids, IsField index id

def IsVariant (id : Id) : Prop :=
  ∃ item name v, index id = some item ∧ item.name = some name ∧ item.inner = .variant v ∧
    v.kind.Convertible index

/-- A named type, alias or constant whose members are in the index, named and of their kinds, and
whose tuples have no holes. -/
def Convertible (item : Item Ty) : Prop :=
  item.name.isSome = true ∧ match item.inner with
    | .struct s => s.kind.Convertible index
    | .enum e => ∀ id ∈ e.variants, IsVariant index id
    | .union u => ∀ id ∈ u.fields, IsField index id
    | .typeAlias _ => True
    | .constant _ _ => True
    | _ => False

end

/-! ## Lists of results -/

section
variable {α β ε : Type} {f : α → Except ε β}

theorem mapM_eq_ok {l : List α} {ys : List β} :
    l.mapM f = .ok ys ↔ List.Forall₂ (fun x y => f x = .ok y) l ys := by
  induction l generalizing ys with
  | nil =>
    rw [List.mapM_nil, List.forall₂_nil_left_iff]
    constructor
    · intro h
      cases h
      rfl
    · rintro rfl
      rfl
  | cons x l ih =>
    rw [List.mapM_cons, bind_eq_ok, List.forall₂_cons_left_iff]
    constructor
    · rintro ⟨y, hy, h⟩
      obtain ⟨ys', hys', h⟩ := bind_eq_ok.mp h
      cases h
      exact ⟨y, ys', hy, ih.mp hys', rfl⟩
    · rintro ⟨y, ys', hy, hys', rfl⟩
      exact ⟨y, hy, bind_eq_ok.mpr ⟨ys', ih.mpr hys', rfl⟩⟩

theorem exists_forall₂ {R : α → β → Prop} {l : List α} :
    (∃ ys, List.Forall₂ R l ys) ↔ ∀ x ∈ l, ∃ y, R x y := by
  induction l with
  | nil => simp
  | cons x l ih =>
    rw [List.forall_mem_cons, ← ih]
    constructor
    · rintro ⟨_, h⟩
      cases h with
      | cons hx hl => exact ⟨⟨_, hx⟩, _, hl⟩
    · rintro ⟨⟨y, hy⟩, ys, hys⟩
      exact ⟨y :: ys, .cons hy hys⟩

end

/-! ## Fields -/

section
variable {Ty : Type} {index : Index Ty} {plain : Ty → String}

theorem orError_eq_ok {α : Type} {msg : String} {o : Option α} {a : α} :
    orError msg o = .ok a ↔ o = some a := by
  cases o with
  | none => simp [orError]
  | some b => simp [orError]

theorem fromItem_field {item : Item Ty} {f : DocField Ty} :
    DocField.fromItem item = .ok f ↔ ShowsItem item f := by
  rw [DocField.fromItem, bind_eq_ok]
  constructor
  · rintro ⟨name, hname, h⟩
    rw [orError_eq_ok] at hname
    split at h
    · next ty hty =>
      cases h
      exact ⟨hname, rfl, hty⟩
    · cases h
  · rintro ⟨hname, hvisibility, hinner⟩
    refine ⟨f.name, orError_eq_ok.mpr hname, ?_⟩
    rw [hinner, hvisibility]
    rfl

theorem fieldOf_eq_ok {absent : Id → String} {id : Id} {f : DocField Ty} :
    fieldOf index absent id = .ok f ↔ Shows index id f := by
  rw [fieldOf, bind_eq_ok]
  simp only [orError_eq_ok, fromItem_field]
  exact Iff.rfl

theorem fields_eq_ok {absent : Id → String} {ids : List Id} {fs : List (DocField Ty)} :
    ids.mapM (fieldOf index absent) = .ok fs ↔ List.Forall₂ (Shows index) ids fs := by
  rw [mapM_eq_ok]
  simp only [fieldOf_eq_ok]

theorem tupleFields_eq_ok {stripped : Nat → String} {absent : Id → String} {i : Nat}
    {entries : List (Option Id)} {fs : List (DocField Ty)} :
    tupleFields index stripped absent i entries = .ok fs ↔
      List.Forall₂ (fun entry f => ∃ id, entry = some id ∧ Shows index id f) entries fs := by
  induction entries generalizing i fs with
  | nil =>
    rw [tupleFields, List.forall₂_nil_left_iff]
    constructor
    · intro h
      cases h
      rfl
    · rintro rfl
      rfl
  | cons entry entries ih =>
    rw [List.forall₂_cons_left_iff]
    cases entry with
    | none =>
      constructor
      · intro h
        cases h
      · rintro ⟨_, _, ⟨id, h, -⟩, -⟩
        cases h
    | some fid =>
      rw [tupleFields, bind_eq_ok]
      constructor
      · rintro ⟨f, hf, h⟩
        obtain ⟨fs', hfs', h⟩ := bind_eq_ok.mp h
        cases h
        exact ⟨f, fs', ⟨fid, rfl, fieldOf_eq_ok.mp hf⟩, ih.mp hfs', rfl⟩
      · rintro ⟨f, fs', ⟨id, hid, hf⟩, hfs', rfl⟩
        cases hid
        exact ⟨f, fieldOf_eq_ok.mpr hf, bind_eq_ok.mpr ⟨fs', ih.mpr hfs', rfl⟩⟩

/-! ## What is converted -/

theorem fields_convertible {absent : Id → String} {ids : List Id} :
    (∃ fs, ids.mapM (fieldOf index absent) = .ok fs) ↔ ∀ id ∈ ids, IsField index id := by
  simp only [fields_eq_ok, exists_forall₂]
  exact Iff.rfl

theorem tuple_convertible {stripped : Nat → String} {absent : Id → String}
    {entries : List (Option Id)} :
    (∃ fs, tupleFields index stripped absent 0 entries = .ok fs) ↔
      ∀ entry ∈ entries, ∃ id, entry = some id ∧ IsField index id := by
  simp only [tupleFields_eq_ok, exists_forall₂]
  constructor
  · intro h entry hentry
    obtain ⟨f, id, hid, hf⟩ := h entry hentry
    exact ⟨id, hid, f, hf⟩
  · intro h entry hentry
    obtain ⟨id, hid, f, hf⟩ := h entry hentry
    exact ⟨f, id, hid, hf⟩

theorem exists_bind_pure {α β : Type} {x : Except String α} {g : α → β} :
    (∃ b, (do let a ← x; return g a) = Except.ok b) ↔ ∃ a, x = .ok a := by
  cases x with
  | error e =>
    constructor
    · rintro ⟨b, h⟩
      cases h
    · rintro ⟨a, h⟩
      cases h
  | ok a => exact ⟨fun _ => ⟨a, rfl⟩, fun _ => ⟨g a, rfl⟩⟩

theorem structKind_convertible {name : String} {k : StructKind} :
    (∃ r, parseStructKind index name k = .ok r) ↔ k.Convertible index := by
  cases k with
  | unit => exact ⟨fun _ => trivial, fun _ => ⟨_, rfl⟩⟩
  | tuple entries => exact exists_bind_pure.trans tuple_convertible
  | plain ids flag => exact exists_bind_pure.trans fields_convertible

theorem variantKind_convertible {name : String} {k : VariantKind} :
    (∃ r, parseVariantKind index name k = .ok r) ↔ k.Convertible index := by
  cases k with
  | plain => exact ⟨fun _ => trivial, fun _ => ⟨_, rfl⟩⟩
  | tuple entries => exact exists_bind_pure.trans tuple_convertible
  | struct ids flag => exact exists_bind_pure.trans fields_convertible

theorem fromItem_variant {item : Item Ty} {v : DocVariant Ty} :
    DocVariant.fromItem index item = .ok v ↔ ∃ var, item.name = some v.name ∧
      item.inner = .variant var ∧ parseVariantKind index v.name var.kind = .ok v.kind ∧
      var.discriminant = v.discriminantExpr := by
  rw [DocVariant.fromItem, bind_eq_ok]
  constructor
  · rintro ⟨name, hname, h⟩
    rw [orError_eq_ok] at hname
    split at h
    · next var hvar =>
      obtain ⟨kind, hkind, h⟩ := bind_eq_ok.mp h
      cases h
      exact ⟨var, hname, hvar, hkind, rfl⟩
    · cases h
  · rintro ⟨var, hname, hvar, hkind, hdiscriminant⟩
    refine ⟨v.name, orError_eq_ok.mpr hname, ?_⟩
    rw [hvar]
    apply bind_eq_ok.mpr
    refine ⟨v.kind, hkind, ?_⟩
    rw [hdiscriminant]
    rfl

theorem variantOf_eq_ok {id : Id} {v : DocVariant Ty} : variantOf index id = .ok v ↔
    ∃ item var, index id = some item ∧ item.name = some v.name ∧ item.inner = .variant var ∧
      parseVariantKind index v.name var.kind = .ok v.kind ∧
      var.discriminant = v.discriminantExpr := by
  rw [variantOf, bind_eq_ok]
  simp only [orError_eq_ok, fromItem_variant]
  constructor
  · rintro ⟨item, hitem, var, h⟩
    exact ⟨item, var, hitem, h⟩
  · rintro ⟨item, var, hitem, h⟩
    exact ⟨item, hitem, var, h⟩

theorem variant_convertible {id : Id} : (∃ v, variantOf index id = .ok v) ↔ IsVariant index id := by
  simp only [variantOf_eq_ok]
  constructor
  · rintro ⟨v, item, var, hitem, hname, hvar, hkind, -⟩
    exact ⟨item, v.name, var, hitem, hname, hvar, variantKind_convertible.mp ⟨_, hkind⟩⟩
  · rintro ⟨item, name, var, hitem, hname, hvar, hkind⟩
    obtain ⟨kind, hkind⟩ := variantKind_convertible.mpr hkind
    exact ⟨⟨name, kind, var.discriminant⟩, item, var, hitem, hname, hvar, hkind, rfl⟩

theorem variants_convertible {ids : List Id} :
    (∃ vs, ids.mapM (variantOf index) = .ok vs) ↔ ∀ id ∈ ids, IsVariant index id := by
  simp only [mapM_eq_ok, exists_forall₂, variant_convertible]

theorem fromItem_eq_ok {item : Item Ty} {doc : DocType Ty}
    (h : DocType.fromItem index plain item = .ok doc) : ∃ name generics, item.name = some name ∧
      parseKind index plain name item.inner = .ok (doc.kind, generics) := by
  obtain ⟨name, hname, h⟩ := bind_eq_ok.mp h
  obtain ⟨⟨kind, generics⟩, hkind, h⟩ := bind_eq_ok.mp h
  cases h
  exact ⟨name, generics, orError_eq_ok.mp hname, hkind⟩

theorem fromItem_convertible {item : Item Ty} :
    (∃ doc, DocType.fromItem index plain item = .ok doc) ↔ Convertible index item := by
  have hkind (name : String) : (∃ r, parseKind index plain name item.inner = .ok r) ↔
      match item.inner with
      | .struct s => s.kind.Convertible index
      | .enum e => ∀ id ∈ e.variants, IsVariant index id
      | .union u => ∀ id ∈ u.fields, IsField index id
      | .typeAlias _ => True
      | .constant _ _ => True
      | _ => False := by
    cases item.inner with
    | struct s => exact exists_bind_pure.trans structKind_convertible
    | enum e => exact exists_bind_pure.trans variants_convertible
    | union u => exact exists_bind_pure.trans fields_convertible
    | typeAlias a => exact ⟨fun _ => trivial, fun _ => ⟨_, rfl⟩⟩
    | constant type const => exact ⟨fun _ => trivial, fun _ => ⟨_, rfl⟩⟩
    | _ => exact ⟨fun ⟨_, h⟩ => (nomatch h), False.elim⟩
  rw [Convertible]
  cases hname : item.name with
  | none =>
    constructor
    · rintro ⟨doc, h⟩
      obtain ⟨name, -, hsome, -⟩ := fromItem_eq_ok h
      rw [hname] at hsome
      cases hsome
    · rintro ⟨h, -⟩
      cases h
  | some name =>
    rw [← hkind name]
    constructor
    · rintro ⟨doc, h⟩
      obtain ⟨name', generics, hsome, hparse⟩ := fromItem_eq_ok h
      rw [hname] at hsome
      cases hsome
      exact ⟨rfl, _, hparse⟩
    · rintro ⟨-, ⟨kind, generics⟩, hparse⟩
      exact ⟨_, bind_eq_ok.mpr
        ⟨name, orError_eq_ok.mpr hname, bind_eq_ok.mpr ⟨_, hparse, rfl⟩⟩⟩

/-! ## Nothing is lost -/

theorem kept_eq_members {α : Type} {l : List (Source α)} (h : l.any Source.stripped = false) :
    kept l = members l := by
  rw [kept, List.filter_eq_self.mpr]
  intro m hm
  rw [List.any_eq_false] at h
  rw [Bool.not_eq_true', Bool.eq_false_iff]
  exact h m hm

theorem named_mirrored {absent : Id → String} {ids : List Id} {flag : Bool}
    {l : List (Source (DocField Ty))} {fs : List (DocField Ty)} (hflag : flag = false)
    (hdesc : DescribesNamed (Shows index) ids flag l)
    (h : ids.mapM (fieldOf index absent) = .ok fs) : fs = members l := by
  obtain ⟨hids, hany⟩ := hdesc
  rw [kept_eq_members (hany.symm.trans hflag)] at hids
  rw [fields_eq_ok.mpr hids] at h
  cases h
  rfl

theorem shows_unique {id : Id} {f f' : DocField Ty} (h : Shows index id f)
    (h' : Shows index id f') : f = f' := by
  have hf := (@fieldOf_eq_ok _ _ Id.debug _ _).mpr h
  rw [fieldOf_eq_ok.mpr h'] at hf
  cases hf
  rfl

theorem tuple_mirrored {stripped : Nat → String} {absent : Id → String}
    {entries : List (Option Id)} {l : List (Source (DocField Ty))} {fs : List (DocField Ty)}
    (hdesc : DescribesTuple index entries l)
    (h : tupleFields index stripped absent 0 entries = .ok fs) : fs = members l := by
  rw [tupleFields_eq_ok] at h
  induction hdesc generalizing fs with
  | nil =>
    cases h
    rfl
  | cons hentry _ ih =>
    cases h with
    | cons hf hfs =>
      obtain ⟨id, rfl, hf⟩ := hf
      rw [ih hfs, shows_unique hf hentry.2]
      rfl

theorem struct_mirrored {name : String} {k : StructKind} {fields : SourceFields Ty}
    {r : List (DocField Ty) × Bool} (hflag : k.flagged = false)
    (hdesc : DescribesStruct index k fields) (h : parseStructKind index name k = .ok r) :
    .struct r.1 r.2 = fields.struct := by
  cases k with
  | unit =>
    cases h
    cases fields with
    | unit => rfl
    | tuple l => cases hdesc
    | named l => cases hdesc
  | tuple entries =>
    obtain ⟨fs, hfs, h⟩ := bind_eq_ok.mp h
    cases h
    cases fields with
    | unit => cases hdesc
    | tuple l =>
      rw [tuple_mirrored hdesc hfs]
      rfl
    | named l => cases hdesc
  | plain ids flag =>
    obtain ⟨fs, hfs, h⟩ := bind_eq_ok.mp h
    cases h
    cases fields with
    | unit => cases hdesc
    | tuple l => cases hdesc
    | named l =>
      rw [named_mirrored hflag hdesc hfs]
      rfl

theorem variantKind_mirrored {name : String} {k : VariantKind} {fields : SourceFields Ty}
    {r : DocVariantKind Ty} (hflag : k.flagged = false)
    (hdesc : DescribesVariant index k fields) (h : parseVariantKind index name k = .ok r) :
    r = fields.variant := by
  cases k with
  | plain =>
    cases h
    cases fields with
    | unit => rfl
    | tuple l => cases hdesc
    | named l => cases hdesc
  | tuple entries =>
    obtain ⟨fs, hfs, h⟩ := bind_eq_ok.mp h
    cases h
    cases fields with
    | unit => cases hdesc
    | tuple l =>
      rw [tuple_mirrored hdesc hfs]
      rfl
    | named l => cases hdesc
  | struct ids flag =>
    obtain ⟨fs, hfs, h⟩ := bind_eq_ok.mp h
    cases h
    cases fields with
    | unit => cases hdesc
    | tuple l => cases hdesc
    | named l =>
      rw [named_mirrored hflag hdesc hfs]
      rfl

/-- The variants that are shown are mirrored, if none of them has a flag. -/
theorem variants_mirrored {ids : List Id} {l : List (SourceVariant Ty)} {vs : List (DocVariant Ty)}
    (hflags : ∀ id ∈ ids, ∀ item v, index id = some item → item.inner = .variant v →
      v.kind.flagged = false)
    (hdesc : List.Forall₂ (ShowsVariant index) ids l) (h : ids.mapM (variantOf index) = .ok vs) :
    vs = l.map SourceVariant.converted := by
  rw [mapM_eq_ok] at h
  induction hdesc generalizing vs with
  | nil =>
    cases h
    rfl
  | cons hv _ ih =>
    obtain ⟨hflag, hflags⟩ := List.forall_mem_cons.mp hflags
    cases h with
    | @cons _ v _ vs hok hvs =>
      obtain ⟨item, var, hitem, hname, hinner, hdiscriminant, hdesc⟩ := hv
      obtain ⟨item', var', hitem', hname', hinner', hkind, hdiscriminant'⟩ :=
        variantOf_eq_ok.mp hok
      rw [hitem] at hitem'
      cases hitem'
      rw [hinner] at hinner'
      cases hinner'
      rw [hname] at hname'
      cases v with
      | mk name kind discriminant =>
        cases hname'
        have hmirror := variantKind_mirrored (hflag item var hitem hinner) hdesc hkind
        dsimp only at hmirror hdiscriminant'
        rw [ih hflags hvs, hmirror, ← hdiscriminant', hdiscriminant]
        rfl

theorem fromItem_mirrors {item : Item Ty} {t : SourceType Ty} {doc : DocType Ty}
    (hflag : ¬ Flagged index item) (hdesc : Describes index item t)
    (h : DocType.fromItem index plain item = .ok doc) : doc.kind = t.kind := by
  obtain ⟨name, generics, -, hparse⟩ := fromItem_eq_ok h
  rw [Flagged, Says] at hflag
  unfold Describes at hdesc
  revert hflag hdesc hparse
  cases item.inner with
  | struct s =>
    intro hflag hdesc hparse
    obtain ⟨⟨fs, tuple⟩, hfs, hparse⟩ := bind_eq_ok.mp hparse
    cases t with
    | struct fields =>
      have hmirror := struct_mirrored (Bool.eq_false_iff.mpr hflag) hdesc hfs
      obtain ⟨hkind, -⟩ := Prod.mk.inj (Except.ok.inj hparse)
      exact hkind.symm.trans hmirror
    | enum l => cases hdesc
    | union l => cases hdesc
  | enum e =>
    intro hflag hdesc hparse
    obtain ⟨vs, hvs, hparse⟩ := bind_eq_ok.mp hparse
    cases t with
    | struct fields => cases hdesc
    | enum l =>
      obtain ⟨hshown, hany⟩ := hdesc
      obtain ⟨hown, hvariants⟩ := not_or.mp hflag
      rw [kept_eq_members (hany.symm.trans (Bool.eq_false_iff.mpr hown))] at hshown
      have hmirror := variants_mirrored (fun id hid vitem v hvitem hv =>
        Bool.eq_false_iff.mpr fun hf => hvariants ⟨id, hid, vitem, v, hvitem, hv, hf⟩) hshown hvs
      rw [hmirror] at hparse
      obtain ⟨hkind, -⟩ := Prod.mk.inj (Except.ok.inj hparse)
      exact hkind.symm
    | union l => cases hdesc
  | union u =>
    intro hflag hdesc hparse
    obtain ⟨fs, hfs, hparse⟩ := bind_eq_ok.mp hparse
    cases t with
    | struct fields => cases hdesc
    | enum l => cases hdesc
    | union l =>
      have hmirror := named_mirrored (Bool.eq_false_iff.mpr hflag) hdesc hfs
      rw [hmirror] at hparse
      obtain ⟨hkind, -⟩ := Prod.mk.inj (Except.ok.inj hparse)
      exact hkind.symm
  | _ =>
    intro _ hdesc
    cases t <;> cases hdesc

theorem struct_flagged {k : StructKind} (h : k.flagged = true) : k.stripped = true := by
  cases k with
  | unit => exact h
  | tuple entries => cases h
  | plain ids flag => exact h

theorem variant_flagged {k : VariantKind} (h : k.flagged = true) : k.stripped = true := by
  cases k with
  | plain => exact h
  | tuple entries => cases h
  | struct ids flag => exact h

theorem flagged_stripped {item : Item Ty} (h : Flagged index item) : Stripped index item := by
  rw [Flagged, Says] at h
  rw [Stripped, Says]
  revert h
  cases item.inner with
  | struct s => exact struct_flagged
  | enum e =>
    rintro (h | ⟨id, hid, vitem, v, hvitem, hv, hflag⟩)
    · exact .inl h
    · exact .inr ⟨id, hid, vitem, v, hvitem, hv, variant_flagged hflag⟩
  | union u => exact id
  | _ => exact id

theorem struct_hole {k : StructKind} (hs : k.stripped = true) (hc : k.Convertible index) :
    k.flagged = true := by
  cases k with
  | unit => exact hs
  | tuple entries =>
    obtain ⟨id, hid, -⟩ := hc none (List.contains_iff_mem.mp hs)
    cases hid
  | plain ids flag => exact hs

theorem variant_hole {k : VariantKind} (hs : k.stripped = true) (hc : k.Convertible index) :
    k.flagged = true := by
  cases k with
  | plain => exact hs
  | tuple entries =>
    obtain ⟨id, hid, -⟩ := hc none (List.contains_iff_mem.mp hs)
    cases hid
  | struct ids flag => exact hs

theorem stripped_flagged {item : Item Ty} (hs : Stripped index item)
    (hc : Convertible index item) : Flagged index item := by
  replace hc := hc.2
  rw [Stripped, Says] at hs
  rw [Flagged, Says]
  revert hs hc
  cases item.inner with
  | struct s => exact struct_hole
  | enum e =>
    rintro (h | ⟨id, hid, vitem, v, hvitem, hv, hs⟩) hc
    · exact .inl h
    · obtain ⟨vitem', name, v', hvitem', -, hv', hc⟩ := hc id hid
      rw [hvitem] at hvitem'
      cases hvitem'
      rw [hv] at hv'
      cases hv'
      exact .inr ⟨id, hid, vitem, v, hvitem, hv, variant_hole hs hc⟩
  | union u => exact fun hs _ => hs
  | _ => exact fun hs _ => hs

theorem isField_present {id : Id} (h : IsField index id) : index id ≠ none := by
  obtain ⟨f, item, hitem, -⟩ := h
  rw [hitem]
  exact nofun

theorem tuple_present {entries : List (Option Id)} {id : Id}
    (hc : ∀ entry ∈ entries, ∃ id, entry = some id ∧ IsField index id)
    (hid : id ∈ entries.filterMap fun e => e) : index id ≠ none := by
  obtain ⟨entry, hentry, rfl⟩ := List.mem_filterMap.mp hid
  obtain ⟨id', hid', hfield⟩ := hc _ hentry
  cases hid'
  exact isField_present hfield

theorem struct_present {k : StructKind} {id : Id} (hc : k.Convertible index) (hid : id ∈ k.ids) :
    index id ≠ none := by
  cases k with
  | unit => cases hid
  | tuple entries => exact tuple_present hc hid
  | plain ids flag => exact isField_present (hc id hid)

theorem variant_present {k : VariantKind} {id : Id} (hc : k.Convertible index)
    (hid : id ∈ k.ids) : index id ≠ none := by
  cases k with
  | plain => cases hid
  | tuple entries => exact tuple_present hc hid
  | struct ids flag => exact isField_present (hc id hid)

theorem convertible_present {item : Item Ty} (hc : Convertible index item) :
    ¬ Missing index item := by
  replace hc := hc.2
  rw [Missing]
  revert hc
  cases item.inner with
  | struct s =>
    rintro hc ⟨id, hid, hnone⟩
    exact struct_present hc hid hnone
  | enum e =>
    rintro hc ⟨id, hid, hmissing⟩
    obtain ⟨item, name, v, hitem, -, hv, hcv⟩ := hc id hid
    rcases hmissing with hnone | ⟨item', v', hitem', hv', fid, hfid, hnone⟩
    · rw [hitem] at hnone
      cases hnone
    · rw [hitem] at hitem'
      cases hitem'
      rw [hv] at hv'
      cases hv'
      exact variant_present hcv hfid hnone
  | union u =>
    rintro hc ⟨id, hid, hnone⟩
    exact isField_present (hc id hid) hnone
  | _ => exact fun _ => id

theorem fromItem_error {item : Item Ty} (h : ¬ Convertible index item) :
    ∃ msg, DocType.fromItem index plain item = .error msg := by
  rcases hrun : DocType.fromItem index plain item with msg | doc
  · exact ⟨msg, rfl⟩
  · exact (h (fromItem_convertible.mp ⟨doc, hrun⟩)).elim

/-- A flag that is not looked at: what is converted is known to be incomplete. -/
theorem flagged_lossy {item : Item Ty} (hflag : Flagged index item) (hc : Convertible index item) :
    ¬ Lossless index plain item := by
  intro h
  obtain ⟨doc, hdoc⟩ := (@fromItem_convertible _ _ plain _).mpr hc
  obtain ⟨msg, hmsg⟩ := h.stripped (flagged_stripped hflag)
  rw [hdoc] at hmsg
  cases hmsg

/-- Members are lost exactly where nothing but a flag says that they are missing. -/
theorem fromItem_lossless_iff (index : Index Ty) (plain : Ty → String) (item : Item Ty) :
    Lossless index plain item ↔ ¬ (Flagged index item ∧ Convertible index item) := by
  constructor
  · rintro h ⟨hflag, hc⟩
    exact flagged_lossy hflag hc h
  · intro h
    constructor
    · intro t doc hdesc hdoc
      exact fromItem_mirrors (fun hflag => h ⟨hflag, fromItem_convertible.mp ⟨doc, hdoc⟩⟩)
        hdesc hdoc
    · exact fun hs => fromItem_error fun hc => h ⟨stripped_flagged hs hc, hc⟩
    · exact fun hm => fromItem_error fun hc => convertible_present hc hm

/-- A struct of which rustdoc shows no field, because it stripped the only one. -/
def strippedStruct : Item Unit :=
  ⟨⟨0⟩, some "S", .isPublic, [], .struct ⟨.plain [] true, ⟨[], []⟩⟩⟩

theorem stripped_struct_is_converted : ¬ ∀ (index : Index Unit) (plain : Unit → String)
    (item : Item Unit), Lossless index plain item := by
  intro h
  have hflag : Flagged (fun _ => none) strippedStruct := rfl
  have hc : Convertible (fun _ => none) strippedStruct := ⟨rfl, fun id hid => (nomatch hid)⟩
  exact flagged_lossy hflag hc (h (fun _ => none) (fun _ => "") strippedStruct)

end

end Rustyfill.DocJson
