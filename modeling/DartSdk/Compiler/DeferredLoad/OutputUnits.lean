import DartSdk.Compiler.DeferredLoad.AlgorithmState
import DartSdk.Compiler.DeferredLoad.FinalTransitions

/-!
# Output units

`applySetTransitions`, `_createOutputUnits` and `computeOutputUnitsToLoad` of `pkg/compiler/lib/src/`
(`deferred_load/` and `js_emitter/startup_emitter/fragment_merger.dart`). The keys of `entityToSet`
are given in their order. The imports of a set are kept in the order of the set.
-/

namespace Compiler.DeferredLoad

structure OutputUnit where
  isMainOutput : Bool
  name : String
  imports : List Nat
  deriving DecidableEq, Repr

/-- `_allOutputUnits.sort()`: the main output unit is the first one, and units with fewer imports
come first. Of units with equally many imports the order is left open. -/
structure UnitSort where
  sort : List OutputUnit → List OutputUnit
  perm : ∀ l, (sort l).Perm l
  sorted : ∀ l, (sort l).Pairwise fun a b =>
    b.isMainOutput = false → a.isMainOutput = true ∨ a.imports.length ≤ b.imports.length

variable {Entity : Type}

/-- `none` is out of fuel. -/
def AlgorithmState.applySetTransitions (fuel : Nat)
    (importSetTransitions : List ImportSetTransition) (keys : List Entity)
    (s : AlgorithmState Entity) : Option (AlgorithmState Entity) := do
  let imports := (keys.filterMap s.entityToSet).dedup
  let finalTransitions ←
    ImportSetLattice.computeFinalTransitions fuel importSetTransitions imports
  return { s with entityToSet := fun key => (s.entityToSet key).bind finalTransitions }

/-- The output units so far, also as the fields `unit` of the import sets. -/
structure OutputUnits where
  unit : ImportSet → Option OutputUnit
  all : List OutputUnit
  counter : Nat

namespace OutputUnits

def mainOutputUnit : OutputUnit := ⟨true, "main", []⟩

def start (importSets : ImportSetLattice) : OutputUnits where
  unit := Function.update (fun _ => none) importSets.mainSet (some mainOutputUnit)
  all := [mainOutputUnit]
  counter := 1

def addUnit (units : OutputUnits) (importSet : ImportSet) : OutputUnits :=
  if (units.unit importSet).isSome then units
  else
    let unit : OutputUnit := ⟨false, toString units.counter, importSet.imports⟩
    { unit := Function.update units.unit importSet (some unit)
      all := units.all ++ [unit]
      counter := units.counter + 1 }

/-- `_createOutputUnits`, after the set transitions. -/
def createOutputUnits (sort : UnitSort) (importSets : ImportSetLattice) (keys : List Entity)
    (s : AlgorithmState Entity) : OutputUnits :=
  let units := (keys.filterMap s.entityToSet).foldl addUnit (start importSets)
  { units with all := sort.sort units.all }

/-- The load list of an import, from all units but the main output unit. -/
def computeOutputUnitsToLoad (units : OutputUnits) (i : Nat) : List OutputUnit :=
  let sortedOutputUnits := (units.all.filter (!·.isMainOutput)).reverse
  sortedOutputUnits.filter (·.imports.contains i)

end OutputUnits

end Compiler.DeferredLoad
