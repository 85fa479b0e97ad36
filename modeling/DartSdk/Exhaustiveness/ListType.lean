/-!
# Static types of lists in the exhaustiveness check

`pkg/_fe_analyzer_shared/lib/src/exhaustiveness/types/list.dart`, and of `shared.dart` the
restriction of a list pattern. A type is any type that `TypeOperations` knows.
-/

namespace Exhaustiveness

structure TypeOperations (Ty : Type) where
  isSubtypeOf : Ty → Ty → Bool
  getListElementType : Ty → Option Ty
  isDynamic : Ty → Bool
  typeToString : Ty → String

inductive Key where
  | headKey (index : Nat)
  | tailKey (index : Nat)
  | restKey (headSize tailSize : Nat)
  | nameKey (name : String)
  deriving DecidableEq, Repr

structure ListTypeRestriction (Ty : Type) where
  elementType : Ty
  typeArgumentText : String
  size : Nat
  hasRest : Bool
  deriving DecidableEq, Repr

/-- Of a restriction of another class, `ListTypeRestriction.isSubtypeOf` reads `isUnrestricted`. -/
inductive Restriction (Ty : Type) where
  | list (restriction : ListTypeRestriction Ty)
  | other (isUnrestricted : Bool)

variable {Ty : Type}

namespace ListTypeRestriction

def isUnrestricted (r : ListTypeRestriction Ty) : Bool := r.hasRest && r.size == 0

def isSubtypeOf (typeOperations : TypeOperations Ty) (r : ListTypeRestriction Ty) :
    (other : Restriction Ty) → Bool
  | .other isUnrestricted => isUnrestricted
  | .list other =>
    if other.isUnrestricted then true
    else if !typeOperations.isSubtypeOf r.elementType other.elementType then false
    else if other.hasRest then r.size ≥ other.size
    else if r.hasRest then false
    else r.size == other.size

def toString (r : ListTypeRestriction Ty) : String :=
  r.typeArgumentText ++ "[" ++
    ", ".intercalate (List.replicate r.size "()" ++ if r.hasRest then ["..."] else []) ++ "]"

/-- The restriction that `createListSpace` makes for a list pattern. -/
def ofPattern (elementType : Ty) (typeArgumentText : String) (headSize tailSize : Nat)
    (hasRest : Bool) : ListTypeRestriction Ty :=
  { elementType, typeArgumentText, size := headSize + tailSize, hasRest }

end ListTypeRestriction

structure ListPatternStaticType (Ty : Type) where
  type : Ty
  restriction : ListTypeRestriction Ty
  name : String

/-- `maxHeadSize` and `maxTailSize` after the loop over the keys. -/
def maxSizes (keysOfInterest : List Key) : Nat × Nat :=
  keysOfInterest.foldl (fun (maxHeadSize, maxTailSize) key =>
    match key with
    | .headKey index => (if index ≥ maxHeadSize then index + 1 else maxHeadSize, maxTailSize)
    | .tailKey index => (maxHeadSize, if index ≥ maxTailSize then index + 1 else maxTailSize)
    | _ => (maxHeadSize, maxTailSize)) (0, 0)

def maxSize (keysOfInterest : List Key) : Nat :=
  (maxSizes keysOfInterest).1 + (maxSizes keysOfInterest).2

/-- `none` is the failure of the null check of the element type. -/
def getSubtypes (typeOperations : TypeOperations Ty) (type : Ty) (keysOfInterest : List Key) :
    Option (List (ListPatternStaticType Ty)) := do
  let elementType ← typeOperations.getListElementType type
  let typeArgumentText := if typeOperations.isDynamic elementType then ""
    else "<" ++ typeOperations.typeToString elementType ++ ">"
  let subtype (size : Nat) (hasRest : Bool) : ListPatternStaticType Ty :=
    let identity := { elementType, typeArgumentText, size, hasRest }
    ⟨type, identity, identity.toString⟩
  let maxSize := maxSize keysOfInterest
  return (List.range maxSize).map (subtype · false) ++ [subtype maxSize true]

end Exhaustiveness
