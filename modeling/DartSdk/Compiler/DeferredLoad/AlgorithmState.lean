import DartSdk.Compiler.DeferredLoad.ImportSet

/-!
# The deferred loading algorithm

`AlgorithmState` and `WorkQueue` of `pkg/compiler/lib/src/deferred_load/`. What `EntityDataInfo`
collects for an entity, its direct dependencies and its deferred roots, is given by a `Program`. The
map `pendingWorkItems` from an entity to its item in the queue is a search in the queue. Calls and
iterations have a bound on their number; to reach it is the error `diverged`.
-/

namespace Compiler.DeferredLoad

/-- The imports of a program: the synthetic one of the main output unit, all deferred imports, and
the imports which program split constraints add to a deferred import. -/
structure ImportSetLattice where
  mainImport : Nat
  allDeferredImports : List Nat
  singletonTransitions : Nat → Option (List Nat)
  mainImport_notMem : mainImport ∉ allDeferredImports
  transitions_subset : ∀ i imports, singletonTransitions i = some imports →
    imports ⊆ allDeferredImports

namespace ImportSetLattice

def mainSet (l : ImportSetLattice) : ImportSet :=
  .setOfImportsToImportSet (l.mainImport :: l.allDeferredImports)

def initialSetOf (l : ImportSetLattice) (i : Nat) : ImportSet :=
  match l.singletonTransitions i with
  | some imports => .setOfImportsToImportSet imports
  | none => .setOfImportsToImportSet [i]

end ImportSetLattice

structure Program (Entity : Type) where
  importSets : ImportSetLattice
  /-- `main` and the global dependencies. -/
  roots : List Entity
  directDependencies : Entity → List Entity
  deferredRoots : Entity → List (Entity × List Nat)
  needsRecursiveUpdate : Entity → Bool
  local_dependencies : ∀ e, needsRecursiveUpdate e = false → directDependencies e = []
  deferred_imports : ∀ e r imports, (r, imports) ∈ deferredRoots e →
    imports ⊆ importSets.allDeferredImports

inductive Failure where
  /-- "Tried to assign to the main output unit". -/
  | assertion
  /-- `directDependencies[entityData]!` of an entity that was not processed. -/
  | nullCheck
  | diverged
  deriving DecidableEq, Repr

structure WorkItem (Entity : Type) where
  entityData : Entity
  importsToAdd : ImportSet
  deriving DecidableEq

structure AlgorithmState (Entity : Type) where
  entityToSet : Entity → Option ImportSet
  directDependencies : Entity → Option (List Entity)
  queue : List (WorkItem Entity)

variable {Entity : Type} [DecidableEq Entity]

namespace AlgorithmState

def empty : AlgorithmState Entity where
  entityToSet _ := none
  directDependencies _ := none
  queue := []

/-- `entityToSet[entityData] ?? importSets.emptySet`. -/
def currentSet (s : AlgorithmState Entity) (e : Entity) : ImportSet :=
  (s.entityToSet e).getD .emptySet

/-- `entityToSet[entityData] = set`. -/
def assign (s : AlgorithmState Entity) (e : Entity) (set : ImportSet) : AlgorithmState Entity :=
  { s with entityToSet := fun e' => if e' = e then some set else s.entityToSet e' }

/-- `WorkQueue.addEntityData`. -/
def addEntityData (s : AlgorithmState Entity) (e : Entity) (importSet : ImportSet) :
    AlgorithmState Entity :=
  if s.queue.any (fun item => item.entityData = e) then
    { s with queue := s.queue.map fun item =>
        if item.entityData = e then { item with importsToAdd := item.importsToAdd.union importSet }
        else item }
  else { s with queue := s.queue ++ [⟨e, importSet⟩] }

variable (p : Program Entity)

/-- `update`, and `_updateDependencies` in its branch for `currentSet == oldSet`. -/
def update : Nat → AlgorithmState Entity → Entity → ImportSet → ImportSet →
    Except Failure (AlgorithmState Entity)
  | 0, _, _, _, _ => .error .diverged
  | fuel + 1, s, entityData, oldSet, newSet =>
    let currentSet := s.currentSet entityData
    if currentSet = newSet then .ok s
    else if currentSet = p.importSets.mainSet then .ok s
    else if currentSet = oldSet then
      match s.directDependencies entityData with
      | some directDependenciesList =>
        directDependenciesList.foldlM (fun s entity => update fuel s entity oldSet newSet)
          (s.assign entityData newSet)
      | none => .error .nullCheck
    else if p.needsRecursiveUpdate entityData then
      if newSet ≠ p.importSets.mainSet ∨ oldSet ≠ .emptySet then
        .ok (s.addEntityData entityData newSet)
      else .error .assertion
    else .ok (s.assign entityData (currentSet.union newSet))

/-- The queueing of a deferred root for each of its imports. -/
def addDeferredRoot (s : AlgorithmState Entity) (entity : Entity) (imports : List Nat) :
    AlgorithmState Entity :=
  imports.foldl (fun s i => s.addEntityData entity (p.importSets.initialSetOf i)) s

def processEntity : Nat → AlgorithmState Entity → Entity → Except Failure (AlgorithmState Entity)
  | 0, _, _ => .error .diverged
  | fuel + 1, s, entityData =>
    if (s.directDependencies entityData).isSome then .ok s
    else do
      let s := { s with directDependencies := fun e =>
        if e = entityData then some (p.directDependencies e) else s.directDependencies e }
      let s ← (p.deferredRoots entityData).foldlM (fun s (entity, imports) => do
        let s ← processEntity fuel s entity
        return addDeferredRoot p s entity imports) s
      (p.directDependencies entityData).foldlM (fun s entity => processEntity fuel s entity) s

/-- `WorkQueue.processNextItem`, on a queue with the first item removed. -/
def processNextItem (fuel : Nat) (s : AlgorithmState Entity) (item : WorkItem Entity) :
    Except Failure (AlgorithmState Entity) := do
  let s ← processEntity p fuel s item.entityData
  let oldSet := s.currentSet item.entityData
  let newSet := oldSet.union item.importsToAdd
  update p fuel s item.entityData oldSet newSet

/-- `while (queue.isNotEmpty) queue.processNextItem(this)`. -/
def emptyQueue (fuel : Nat) : Nat → AlgorithmState Entity → Except Failure (AlgorithmState Entity)
  | 0, _ => .error .diverged
  | n + 1, s =>
    match s.queue with
    | [] => .ok s
    | item :: queue => do
      let s ← processNextItem p fuel { s with queue } item
      emptyQueue fuel n s

/-- The queue with the roots of the main output unit. -/
def start : AlgorithmState Entity :=
  p.roots.foldl (fun s e => s.addEntityData e p.importSets.mainSet) empty

/-- `create`, with a bound on the depth of calls and one on the iterations. -/
def create (fuel n : Nat) : Except Failure (AlgorithmState Entity) :=
  emptyQueue p fuel n (start p)

end AlgorithmState

end Compiler.DeferredLoad
