import Rustyfill.DocJson.TypeRepr

/-!
# The references in a type

Every reference that the writer resolves, and that the text of a type depends on the resolver only
through its answers for them.
-/

namespace Rustyfill.DocJson.TypeRepr

open TypeSyntax

set_option autoImplicit false

structure Reference where
  path : Str
  id : UInt32
deriving DecidableEq

mutual

/-- The references that the writer resolves, in the order of the text. -/
def typeReferences : WireType → List Reference
  | .resolvedPath p => pathReferences p
  | .dynTrait traits _ => polyTraitsReferences traits
  | .generic _ => []
  | .primitive _ => []
  | .functionPointer _ _ inputs _ output =>
    typesReferences inputs ++ outputReferences output
  | .tuple elems => typesReferences elems
  | .slice elem => typeReferences elem
  | .array type _ => typeReferences type
  | .implTrait bounds => boundsReferences bounds
  | .rawPointer _ type => typeReferences type
  | .borrowedRef _ _ type => typeReferences type
  | .qualifiedPath _ args selfType (some trait) =>
    typeReferences selfType ++ (pathReferences trait ++ optArgsReferences args)
  | .qualifiedPath _ args selfType none => typeReferences selfType ++ optArgsReferences args

def typesReferences : List WireType → List Reference
  | [] => []
  | t :: ts => typeReferences t ++ typesReferences ts

def outputReferences : Option WireType → List Reference
  | none => []
  | some t => typeReferences t

def pathReferences : Path → List Reference
  | .mk path id args => ⟨path, id⟩ :: optArgsReferences args

def polyTraitReferences : PolyTrait → List Reference
  | .mk trait _ => pathReferences trait

def polyTraitsReferences : List PolyTrait → List Reference
  | [] => []
  | t :: ts => polyTraitReferences t ++ polyTraitsReferences ts

def optArgsReferences : Option GenericArgs → List Reference
  | none => []
  | some args => genericArgsReferences args

def genericArgsReferences : GenericArgs → List Reference
  | .angleBracketed args constraints =>
    argsReferences args ++ constraintsReferences constraints
  | .parenthesized inputs output => typesReferences inputs ++ outputReferences output
  | .returnTypeNotation => []

def argReferences : GenericArg → List Reference
  | .lifetime _ => []
  | .type t => typeReferences t
  | .const _ => []
  | .infer => []

def argsReferences : List GenericArg → List Reference
  | [] => []
  | a :: args => argReferences a ++ argsReferences args

/-- The arguments of the associated type itself are not written. -/
def constraintReferences : AssocItemConstraint → List Reference
  | .mk _ _ binding => bindingReferences binding

def constraintsReferences : List AssocItemConstraint → List Reference
  | [] => []
  | c :: cs => constraintReferences c ++ constraintsReferences cs

def bindingReferences : AssocItemConstraintKind → List Reference
  | .equality term => termReferences term
  | .constraint bounds => boundsReferences bounds

def termReferences : Term → List Reference
  | .type t => typeReferences t
  | .constant _ => []

def boundReferences : GenericBound → List Reference
  | .traitBound trait _ _ => pathReferences trait
  | .outlives _ => []
  | .use _ => []

def boundsReferences : List GenericBound → List Reference
  | [] => []
  | b :: bounds => boundReferences b ++ boundsReferences bounds

end

def SameAnswers (res res' : Str → UInt32 → Str) (refs : List Reference) : Prop :=
  ∀ r ∈ refs, res r.path r.id = res' r.path r.id

section
variable {res res' : Str → UInt32 → Str} {refs refs' : List Reference}

theorem SameAnswers.left (h : SameAnswers res res' (refs ++ refs')) : SameAnswers res res' refs :=
  fun r hr => h r (List.mem_append_left refs' hr)

theorem SameAnswers.right (h : SameAnswers res res' (refs ++ refs')) : SameAnswers res res' refs' :=
  fun r hr => h r (List.mem_append_right refs hr)

mutual

theorem writeType_congr : ∀ t : WireType, SameAnswers res res' (typeReferences t) →
    writeType res t = writeType res' t
  | .resolvedPath p, h => writePath_congr p h
  | .dynTrait traits lifetime, h => by
    rw [writeType, writeType, writePolyTraits_congr traits h]
  | .generic _, _ => rfl
  | .primitive _, _ => rfl
  | .functionPointer _ _ inputs _ output, h => by
    rw [writeType, writeType, writeTypes_congr inputs h.left, writeOutput_congr output h.right]
  | .tuple elems, h => by rw [writeType, writeType, writeTypes_congr elems h]
  | .slice elem, h => by rw [writeType, writeType, writeType_congr elem h]
  | .array type _, h => by rw [writeType, writeType, writeType_congr type h]
  | .implTrait bounds, h => by rw [writeType, writeType, writeBounds_congr bounds h]
  | .rawPointer _ type, h => by rw [writeType, writeType, writeType_congr type h]
  | .borrowedRef _ _ type, h => by rw [writeType, writeType, writeType_congr type h]
  | .qualifiedPath _ args selfType (some trait), h => by
    rw [writeType, writeType, writeType_congr selfType h.left,
      writePath_congr trait h.right.left, writeOptArgs_congr args h.right.right]
  | .qualifiedPath _ args selfType none, h => by
    rw [writeType, writeType, writeType_congr selfType h.left, writeOptArgs_congr args h.right]

theorem writeTypes_congr : ∀ ts : List WireType, SameAnswers res res' (typesReferences ts) →
    writeTypes res ts = writeTypes res' ts
  | [], _ => rfl
  | t :: ts, h => by
    rw [writeTypes, writeTypes, writeType_congr t h.left, writeTypes_congr ts h.right]

theorem writeOutput_congr : ∀ o : Option WireType, SameAnswers res res' (outputReferences o) →
    writeOutput res o = writeOutput res' o
  | none, _ => rfl
  | some t, h => by rw [writeOutput, writeOutput, writeType_congr t h]

theorem writePath_congr : ∀ p : Path, SameAnswers res res' (pathReferences p) →
    writePath res p = writePath res' p
  | .mk path id args, h => by
    rw [writePath, writePath, h ⟨path, id⟩ List.mem_cons_self,
      writeOptArgs_congr args fun r hr => h r (List.mem_cons_of_mem _ hr)]

theorem writePolyTrait_congr : ∀ t : PolyTrait, SameAnswers res res' (polyTraitReferences t) →
    writePolyTrait res t = writePolyTrait res' t
  | .mk trait _, h => writePath_congr trait h

theorem writePolyTraits_congr : ∀ ts : List PolyTrait,
    SameAnswers res res' (polyTraitsReferences ts) →
      writePolyTraits res ts = writePolyTraits res' ts
  | [], _ => rfl
  | t :: ts, h => by
    rw [writePolyTraits, writePolyTraits, writePolyTrait_congr t h.left,
      writePolyTraits_congr ts h.right]

theorem writeOptArgs_congr : ∀ a : Option GenericArgs, SameAnswers res res' (optArgsReferences a) →
    writeOptArgs res a = writeOptArgs res' a
  | none, _ => rfl
  | some args, h => writeGenericArgs_congr args h

theorem writeGenericArgs_congr : ∀ a : GenericArgs, SameAnswers res res' (genericArgsReferences a) →
    writeGenericArgs res a = writeGenericArgs res' a
  | .angleBracketed args constraints, h => by
    rw [writeGenericArgs, writeGenericArgs, writeArgs_congr args h.left,
      writeConstraints_congr constraints h.right]
  | .parenthesized inputs output, h => by
    rw [writeGenericArgs, writeGenericArgs, writeTypes_congr inputs h.left,
      writeOutput_congr output h.right]
  | .returnTypeNotation, _ => rfl

theorem writeArg_congr : ∀ a : GenericArg, SameAnswers res res' (argReferences a) →
    writeArg res a = writeArg res' a
  | .lifetime _, _ => rfl
  | .type t, h => writeType_congr t h
  | .const _, _ => rfl
  | .infer, _ => rfl

theorem writeArgs_congr : ∀ args : List GenericArg, SameAnswers res res' (argsReferences args) →
    writeArgs res args = writeArgs res' args
  | [], _ => rfl
  | a :: args, h => by
    rw [writeArgs, writeArgs, writeArg_congr a h.left, writeArgs_congr args h.right]

theorem writeConstraint_congr : ∀ c : AssocItemConstraint,
    SameAnswers res res' (constraintReferences c) → writeConstraint res c = writeConstraint res' c
  | .mk _ _ binding, h => by
    rw [writeConstraint, writeConstraint, writeBinding_congr binding h]

theorem writeConstraints_congr : ∀ cs : List AssocItemConstraint,
    SameAnswers res res' (constraintsReferences cs) →
    writeConstraints res cs = writeConstraints res' cs
  | [], _ => rfl
  | c :: cs, h => by
    rw [writeConstraints, writeConstraints, writeConstraint_congr c h.left,
      writeConstraints_congr cs h.right]

theorem writeBinding_congr : ∀ b : AssocItemConstraintKind,
    SameAnswers res res' (bindingReferences b) → writeBinding res b = writeBinding res' b
  | .equality term, h => by rw [writeBinding, writeBinding, writeTerm_congr term h]
  | .constraint bounds, h => by rw [writeBinding, writeBinding, writeBounds_congr bounds h]

theorem writeTerm_congr : ∀ t : Term, SameAnswers res res' (termReferences t) →
    writeTerm res t = writeTerm res' t
  | .type t, h => writeType_congr t h
  | .constant _, _ => rfl

theorem writeBound_congr : ∀ b : GenericBound, SameAnswers res res' (boundReferences b) →
    writeBound res b = writeBound res' b
  | .traitBound trait _ .none, h => writePath_congr trait h
  | .traitBound trait _ .maybe, h => by rw [writeBound, writeBound, writePath_congr trait h]
  | .traitBound trait _ .maybeConst, h => by rw [writeBound, writeBound, writePath_congr trait h]
  | .outlives _, _ => rfl
  | .use _, _ => rfl

theorem writeBounds_congr : ∀ bounds : List GenericBound,
    SameAnswers res res' (boundsReferences bounds) →
      writeBounds res bounds = writeBounds res' bounds
  | [], _ => rfl
  | b :: bounds, h => by
    rw [writeBounds, writeBounds, writeBound_congr b h.left, writeBounds_congr bounds h.right]

end

end

end Rustyfill.DocJson.TypeRepr
