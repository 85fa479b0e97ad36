import Mathlib.Data.List.Perm.Subperm

/-!
# Spaces of the exhaustiveness check

`pkg/_fe_analyzer_shared/lib/src/exhaustiveness/space.dart`. The keys and the static types are any
types. `Space` has no `operator ==`, so that its values are compared by `identical`, an argument.
-/

namespace Exhaustiveness

/-- A `Map<Key, Space>`. -/
structure PropertyMap (K S : Type) where
  keys : List K
  nodup : keys.Nodup
  get : {k // k ∈ keys} → S

def PropertyMap.empty {K S : Type} : PropertyMap K S := ⟨[], .nil, fun k => nomatch k⟩

structure StaticTypes (Ty : Type) where
  eq : Ty → Ty → Bool
  nullType : Ty
  neverType : Ty
  nullable : Ty → Ty

mutual
inductive SingleSpace (Ty K : Type) where
  | mk (type : Ty) (properties additionalProperties : PropertyMap K (Space Ty K))
inductive Space (Ty K : Type) where
  | mk (path : List K) (singleSpaces : List (SingleSpace Ty K))
end

variable {Ty K : Type}

namespace SingleSpace

def type : SingleSpace Ty K → Ty | mk type _ _ => type

def properties : SingleSpace Ty K → PropertyMap K (Space Ty K) | mk _ properties _ => properties

def additionalProperties : SingleSpace Ty K → PropertyMap K (Space Ty K)
  | mk _ _ additionalProperties => additionalProperties

end SingleSpace

namespace Space

def path : Space Ty K → List K | mk path _ => path

def singleSpaces : Space Ty K → List (SingleSpace Ty K) | mk _ singleSpaces => singleSpaces

end Space

section
variable [DecidableEq K] (types : StaticTypes Ty) (identical : Space Ty K → Space Ty K → Bool)

/-- `operator ==`. For identical single spaces the test of the fields succeeds as well. -/
def SingleSpace.eq (this other : SingleSpace Ty K) : Bool :=
  types.eq this.type other.type && this.properties.keys.length == other.properties.keys.length &&
    this.properties.keys.attach.all fun k =>
      if h : k.1 ∈ other.properties.keys then
        identical (this.properties.get k) (other.properties.get ⟨k, h⟩)
      else false

def SingleSpace.empty : SingleSpace Ty K := .mk types.neverType .empty .empty

/-- The loop of `fromSingleSpaces`. An element is added to a set if no element of it is equal. -/
def singleSpacesSet (singleSpaces : List (SingleSpace Ty K)) : List (SingleSpace Ty K) :=
  singleSpaces.foldl (fun set singleSpace =>
    if singleSpace.eq types identical (SingleSpace.empty types) then set
    else if set.any (singleSpace.eq types identical) then set
    else set ++ [singleSpace]) []

def Space.fromSingleSpaces (path : List K) (singleSpaces : List (SingleSpace Ty K)) : Space Ty K :=
  let isNull (a b : SingleSpace Ty K) := types.eq a.type types.nullType &&
    a.properties.keys.isEmpty && b.properties.keys.isEmpty
  let nullable (a : SingleSpace Ty K) : SingleSpace Ty K :=
    .mk (types.nullable a.type) .empty .empty
  .mk path <| match singleSpacesSet types identical singleSpaces with
    | [] => [SingleSpace.empty types]
    | [a, b] => if isNull a b then [nullable b] else if isNull b a then [nullable a] else [a, b]
    | singleSpacesList => singleSpacesList

def Space.union (this other : Space Ty K) : Space Ty K :=
  fromSingleSpaces types identical this.path (this.singleSpaces ++ other.singleSpaces)

end

end Exhaustiveness
