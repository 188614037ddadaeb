import Rustyfill.DocJson.Wire

/-!
# Looking up a declared type

The lookup of `docjson/mod.rs`. The table of paths is a hash map whose order is not known: it is a
list here, in the order in which it happens to be walked. How a path is shown in a message is a
parameter.
-/

namespace Rustyfill.DocJson

set_option autoImplicit false

structure ItemSummary where
  path : List String
  kind : ItemKind

structure Crate (Ty : Type) where
  root : Id
  index : Index Ty
  paths : List (Id × ItemSummary)

def join : List String → String
  | [] => ""
  | [s] => s
  | s :: rest => s ++ "::" ++ join rest

/-- Struct, enum, union or type alias. -/
def ItemKind.isType : ItemKind → Bool
  | .struct | .enum | .union | .typeAlias => true
  | _ => false

/-- The kinds that the path index admits as types. -/
def ItemKind.isTypeish (k : ItemKind) : Bool := k.isType || k == .constant

/-! ## The path index -/

/-- `entry(key).or_insert(id)`. -/
def orInsert (m : String → Option Id) (key : String) (id : Id) : String → Option Id :=
  fun k => if k = key then some ((m key).getD id) else m k

structure PathIndex where
  types : String → Option Id
  modules : String → Option Id

namespace PathIndex

def add (idx : PathIndex) (entry : Id × ItemSummary) : PathIndex :=
  let key := join entry.2.path
  if key = "" then idx
  else if entry.2.kind.isTypeish then { idx with types := orInsert idx.types key entry.1 }
  else if entry.2.kind = .module then { idx with modules := orInsert idx.modules key entry.1 }
  else idx

def build (paths : List (Id × ItemSummary)) : PathIndex :=
  paths.foldl add ⟨fun _ => none, fun _ => none⟩

def findType (idx : PathIndex) (path : List String) : Option Id := idx.types (join path)

def findModule (idx : PathIndex) (path : List String) : Option Id := idx.modules (join path)

end PathIndex

/-! ## Modules -/

section
variable {Ty : Type} (index : Index Ty)

def Item.isNamed (item : Item Ty) (name : String) : Bool := item.name == some name

def moduleItems (modId : Id) : Option (List Id) :=
  match index modId with
  | some item =>
    match item.inner with
    | .module items => some items
    | _ => none
  | none => none

def isModule (id : Id) : Bool := (moduleItems index id).isSome

def scanForType (typeName : String) : List Id → Option Id
  | [] => none
  | iid :: items =>
    match index iid with
    | none => none
    | some item =>
      if item.isNamed typeName && item.inner.itemKind.isType then some iid
      else
        match item.inner with
        | .use u => if u.name = typeName then u.id else scanForType typeName items
        | _ => scanForType typeName items

def findTypeInModule (modId : Id) (typeName : String) : Option Id :=
  (moduleItems index modId).bind (scanForType index typeName)

def scanForSubmodule (subName : String) : List Id → Option Id
  | [] => none
  | iid :: items =>
    match index iid with
    | none => none
    | some item =>
      match item.inner with
      | .module _ => if item.isNamed subName then some iid else scanForSubmodule subName items
      | .use u =>
        if u.name = subName then
          match u.id with
          | none => none
          | some target =>
            match index target with
            | none => none
            | some _ =>
              if isModule index target then some target else scanForSubmodule subName items
        else scanForSubmodule subName items
      | _ => scanForSubmodule subName items

def findSubmoduleInModule (modId : Id) (subName : String) : Option Id :=
  (moduleItems index modId).bind (scanForSubmodule index subName)

end

/-! ## Paths -/

section
variable {Ty : Type} (crate : Crate Ty) (debug : List String → String)

/-- The deepest prefix of at most `n` and at least two segments that is known as a module. -/
def deepestModule (idx : PathIndex) (fullPath : List String) : Nat → Option (Nat × Id)
  | 0 => none
  | n + 1 =>
    if n + 1 < 2 then none
    else
      match idx.findModule (fullPath.take (n + 1)) with
      | some modId => some (n + 1, modId)
      | none => deepestModule idx fullPath n

def navigate (fullPath : List String) : Id → List String → Except String Id
  | _, [] => .error s!"unreachable: path {debug fullPath} exhausted without finding type"
  | modId, [segment] =>
    match findTypeInModule crate.index modId segment with
    | some id => .ok id
    | none => .error s!"type '{segment}' not found in module (resolving {debug fullPath})"
  | modId, segment :: rest =>
    match findSubmoduleInModule crate.index modId segment with
    | some sub => navigate fullPath sub rest
    | none => .error s!"submodule '{segment}' not found (resolving {debug fullPath})"

def resolveByWalking (idx : PathIndex) (fullPath : List String) : Except String Id :=
  match deepestModule idx fullPath (fullPath.length - 1) with
  | some (startIdx, modId) => navigate crate debug fullPath modId (fullPath.drop startIdx)
  | none => .error s!"cannot resolve path {debug fullPath}: no known module prefix found"

def resolveTypeId (fullPath : List String) : Except String Id :=
  let idx := PathIndex.build crate.paths
  match idx.findType fullPath with
  | some id => .ok id
  | none => resolveByWalking crate debug idx fullPath

end

end Rustyfill.DocJson
