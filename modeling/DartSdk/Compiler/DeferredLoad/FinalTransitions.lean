import DartSdk.Compiler.DeferredLoad.ImportSet

/-!
# Final transitions

`containsAll` and `computeFinalTransitions` of
`pkg/compiler/lib/src/deferred_load/import_set.dart`. The maps are functions, and the candidates of
a set are the transitions that have not been applied to it yet.
-/

namespace Compiler.DeferredLoad

open Function

/-- The scan of `containsAll` along the links of both sets. -/
def ImportSet.containsAllLoop : List Nat → List Nat → Bool
  | _, [] => true
  | [], _ :: _ => false
  | x :: current, y :: other =>
    if x > y then containsAllLoop current (y :: other)
    else if y > x then false
    else containsAllLoop current other

def ImportSet.containsAll (a other : ImportSet) : Bool := containsAllLoop a.imports other.imports

structure ImportSetTransition where
  source : ImportSet
  transitions : ImportSet
  deriving DecidableEq

namespace ImportSetLattice

structure Finals where
  finalTransitions : ImportSet → Option ImportSet
  allCandidateTransitions : ImportSet → List ImportSetTransition

/-- One candidate: the set so far and the transitions applied. -/
def applyCandidate (originalImportSet : ImportSet) (acc : ImportSet × List ImportSetTransition)
    (transition : ImportSetTransition) : ImportSet × List ImportSetTransition :=
  if originalImportSet.containsAll transition.source then
    (acc.1.union transition.transitions, acc.2 ++ [transition])
  else acc

/-- The flag tells whether a transition has been applied. -/
def process (s : Finals) (originalImportSet : ImportSet) : Finals × Bool :=
  let importSet := (s.finalTransitions originalImportSet).getD originalImportSet
  let candidateTransitions := s.allCandidateTransitions originalImportSet
  let r := candidateTransitions.foldl (applyCandidate originalImportSet) (importSet, [])
  (⟨update s.finalTransitions originalImportSet (some r.1),
    update s.allCandidateTransitions originalImportSet (candidateTransitions.filter (· ∉ r.2))⟩,
    !r.2.isEmpty)

def processNext (acc : Finals × Bool) (originalImportSet : ImportSet) : Finals × Bool :=
  let r := process acc.1 originalImportSet
  (r.1, acc.2 || r.2)

/-- The rounds, until one changes nothing; `none` is out of fuel. -/
def finalLoop (imports : List ImportSet) : Nat → Finals → Option Finals
  | 0, _ => none
  | fuel + 1, s =>
    let r := imports.foldl processNext (s, false)
    if r.2 then finalLoop imports fuel r.1 else some r.1

def computeFinalTransitions (fuel : Nat) (importSetTransitions : List ImportSetTransition)
    (imports : List ImportSet) : Option (ImportSet → Option ImportSet) :=
  (finalLoop imports fuel ⟨fun _ => none, fun _ => importSetTransitions⟩).map
    Finals.finalTransitions

end ImportSetLattice

end Compiler.DeferredLoad
