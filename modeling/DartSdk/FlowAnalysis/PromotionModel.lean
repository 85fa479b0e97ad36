/-!
# Promotion chains

`PromotionModel.joinPromotedTypes` of
`pkg/_fe_analyzer_shared/lib/src/flow_analysis/flow_analysis.dart`. The chains are kept from
`index1` and `index2` on.
-/

namespace FlowAnalysis

variable {T : Type}

/-- The operations that the join uses. -/
structure FlowAnalysisTypeOperations (T : Type) where
  isSameType : T → T → Bool
  isSubtypeOf : T → T → Bool

namespace PromotionModel

structure JoinState (T : Type) where
  chain1 : List T
  chain2 : List T
  skipped1 : Bool
  skipped2 : Bool
  result : Option (List T)

variable (typeOperations : FlowAnalysisTypeOperations T)

def joinLoop : List T → List T → Bool → Bool → Option (List T) → JoinState T
  | type1 :: chain1, type2 :: chain2, skipped1, skipped2, result =>
    if typeOperations.isSameType type1 type2 then
      joinLoop chain1 chain2 skipped1 skipped2 (some (result.getD [] ++ [type1]))
    else if typeOperations.isSubtypeOf type2 type1 then
      joinLoop chain1 (type2 :: chain2) true skipped2 result
    else if typeOperations.isSubtypeOf type1 type2 then
      joinLoop (type1 :: chain1) chain2 skipped1 true result
    else ⟨type1 :: chain1, type2 :: chain2, true, true, result⟩
  | chain1, chain2, skipped1, skipped2, result => ⟨chain1, chain2, skipped1, skipped2, result⟩
  termination_by chain1 chain2 => chain1.length + chain2.length

def joinPromotedTypes : Option (List T) → Option (List T) → Option (List T)
  | none, _ => none
  | _, none => none
  | some chain1, some chain2 =>
    let s := joinLoop typeOperations chain1 chain2 false false none
    if s.chain1.isEmpty && !s.skipped1 then some chain1
    else if s.chain2.isEmpty && !s.skipped2 then some chain2
    else s.result

end PromotionModel

end FlowAnalysis
