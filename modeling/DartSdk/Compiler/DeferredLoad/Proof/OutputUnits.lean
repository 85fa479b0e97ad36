import DartSdk.Compiler.DeferredLoad.OutputUnits
import DartSdk.Compiler.DeferredLoad.Proof.AlgorithmState
import DartSdk.Compiler.DeferredLoad.Proof.FinalTransitions

/-!
# Loaded code finds what it needs

The set of an entity is part of the sets of its dependencies, and stays so when the set transitions
are applied to both (`applySetTransitions_spec`). A unit is loaded by the imports of its set
(`createOutputUnits_spec`), so loading an import loads all dependencies (`create_loads`), those with
more imports first.
-/

namespace Compiler.DeferredLoad

open AlgorithmState Reachability ImportSet ImportSetLattice List Function

variable {Entity : Type} {p : Program Entity} {s s' : AlgorithmState Entity} {x y : Entity}
  {i j : ℕ}

/-! ## The sets that are assigned -/

namespace Program

/-- Only entities of the program have imports. -/
theorem occurs_of_mem_assigned (h : i ∈ p.assigned x) : p.Occurs x := by
  obtain ⟨r, hx, hr⟩ := h
  refine Program.Occurs.depends ?_ hx
  rcases hr with ⟨hr, -⟩ | ⟨y, imports, -, hy, hr, -⟩
  · exact ⟨r, hr, .refl⟩
  · exact hy.visits (.inr ⟨imports, hr⟩)

theorem assigned_subset (h : i ∈ p.assigned x) : i ∈ p.importSets.mainSet := by
  obtain ⟨r, -, ⟨-, hi⟩ | ⟨y, imports, j, -, hr, hj, hi⟩⟩ := h
  · exact hi
  · exact initialSetOf_le (p.deferred_imports y r imports hr hj) i hi

/-- The import of the main output unit comes from a root, with all other imports. -/
theorem assigned_of_main (h : p.importSets.mainImport ∈ p.assigned x)
    (hi : i ∈ p.importSets.mainSet) : i ∈ p.assigned x := by
  obtain ⟨r, hx, ⟨hr, -⟩ | ⟨y, imports, j, -, hr, hj, hm⟩⟩ := h
  · exact ⟨r, hx, .inl ⟨hr, hi⟩⟩
  · exact absurd hm (mainImport_notMem_initialSetOf (p.deferred_imports y r imports hr hj))

end Program

variable {T : List ImportSetTransition} {keys : List Entity} {S S' : ImportSet}

/-! ## The set transitions -/

/-- The transitions are between sets of deferred imports, from at least two of them. -/
structure Constrains (T : List ImportSetTransition) (l : ImportSetLattice) : Prop where
  source : ∀ t ∈ T, 1 < t.source.length
  transitions : ∀ t ∈ T, ∀ i ∈ t.transitions, i ∈ l.allDeferredImports

theorem Reached.mono (h : S ≤ S') (hi : Reached T S i) : Reached T S' i := by
  rcases hi with hi | ⟨t, ht, hs, hi⟩
  · exact .inl (h i hi)
  · exact .inr ⟨t, ht, hs.trans h, hi⟩

/-- Nothing is reached from the empty set. -/
theorem Constrains.exists_mem (hT : Constrains T p.importSets) (h : Reached T S i) :
    ∃ j, j ∈ S := by
  rcases h with h | ⟨t, ht, hs, -⟩
  · exact ⟨i, h⟩
  · obtain ⟨j, hj⟩ := exists_mem_of_length_pos (Nat.lt_of_succ_lt (hT.source t ht))
    exact ⟨j, hs j hj⟩

/-- The import of the main output unit is no target. -/
theorem Constrains.mainImport_mem (hT : Constrains T p.importSets)
    (h : Reached T S p.importSets.mainImport) : p.importSets.mainImport ∈ S := by
  rcases h with h | ⟨t, ht, -, hi⟩
  · exact h
  · exact absurd (hT.transitions t ht _ hi) p.importSets.mainImport_notMem

theorem Constrains.mem_mainSet (hT : Constrains T p.importSets) (hS : S ≤ p.importSets.mainSet)
    (h : Reached T S i) : i ∈ p.importSets.mainSet := by
  rcases h with h | ⟨t, ht, -, hi⟩
  · exact hS i h
  · rw [mainSet, mem_setOfImportsToImportSet]
    exact .tail _ (hT.transitions t ht i hi)

theorem applySetTransitions_spec (fuel : ℕ) (T : List ImportSetTransition)
    (hk : ∀ x, x ∈ keys ↔ (s.entityToSet x).isSome) :
    ∃ s', s.applySetTransitions (fuel + 2) T keys = some s' ∧ ∀ x,
      (s'.entityToSet x).isSome = (s.entityToSet x).isSome ∧
        ∀ S, s.entityToSet x = some S → ∀ i, i ∈ s'.currentSet x ↔ Reached T S i := by
  obtain ⟨m, hm, h⟩ :=
    computeFinalTransitions_mem fuel T (keys.filterMap s.entityToSet).dedup
  refine ⟨_, by rw [applySetTransitions, hm]; rfl, fun x => ?_⟩
  cases hS : s.entityToSet x with
  | none => simp [hS]
  | some S =>
    have hx : x ∈ keys := by rw [hk, hS]; rfl
    obtain ⟨R, hR, hi⟩ := h S (mem_dedup.2 (mem_filterMap.2 ⟨x, hx, hS⟩))
    simp [currentSet, hS, hR, hi]

/-- The sets tell where code is found: the roots are in the main output unit, and what an entity
needs has all of its imports. -/
structure Sound (p : Program Entity) (s : AlgorithmState Entity) : Prop where
  roots : ∀ x ∈ p.roots, s.currentSet x = p.importSets.mainSet
  main : ∀ x, p.importSets.mainImport ∈ s.currentSet x → s.currentSet x = p.importSets.mainSet
  dependencies : ∀ x, ∀ y ∈ p.directDependencies x, s.currentSet x ≤ s.currentSet y
  deferredRoots : ∀ x i, i ∈ s.currentSet x → ∀ r imports, (r, imports) ∈ p.deferredRoots x →
    ∀ j ∈ imports, p.importSets.initialSetOf j ≤ s.currentSet r

/-- **The set transitions keep** what is needed together. -/
theorem sound_of_reached (hT : Constrains T p.importSets)
    (h : ∀ x i, i ∈ s.currentSet x ↔ i ∈ p.assigned x)
    (h' : ∀ x i, i ∈ s'.currentSet x ↔ Reached T (s.currentSet x) i) : Sound p s' := by
  have hle : ∀ x, s.currentSet x ≤ s'.currentSet x := fun x i hi => (h' x i).2 (.inl hi)
  have hmain : ∀ x, (∀ i ∈ p.importSets.mainSet, i ∈ s.currentSet x) →
      s'.currentSet x = p.importSets.mainSet := fun x hx => by
    refine eq_of_mem_iff fun i => ⟨fun hi => ?_, fun hi => hle x i (hx i hi)⟩
    exact hT.mem_mainSet (fun i hi => Program.assigned_subset ((h x i).1 hi)) ((h' x i).1 hi)
  constructor
  case roots =>
    intro x hx
    exact hmain x fun i hi => (h x i).2 (subset_collected (.inl ⟨hx, hi⟩))
  case main =>
    intro x hx
    have hm := (h x _).1 (hT.mainImport_mem ((h' x _).1 hx))
    exact hmain x fun i hi => (h x i).2 (Program.assigned_of_main hm hi)
  case dependencies =>
    intro x y hy i hi
    refine (h' y i).2 (Reached.mono (fun i hi => ?_) ((h' x i).1 hi))
    exact (h y i).2 (collected_mono_edge hy ((h x i).1 hi))
  case deferredRoots =>
    intro x i hi r imports hr j hj k hk
    obtain ⟨i', hi'⟩ := hT.exists_mem ((h' x i).1 hi)
    have hx := Program.occurs_of_mem_assigned ((h x i').1 hi')
    exact hle r k ((h r k).2 (subset_collected (.inr ⟨x, imports, j, hx, hr, hj, hk⟩)))

/-! ## The units -/

namespace OutputUnits

variable {units : OutputUnits} {l : ImportSetLattice} {u : OutputUnit}

/-- The unit of a set. -/
structure Built (l : ImportSetLattice) (units : OutputUnits) : Prop where
  main : units.unit l.mainSet = some mainOutputUnit
  other : ∀ S u, S ≠ l.mainSet → units.unit S = some u →
    u.isMainOutput = false ∧ u.imports = S.imports ∧ u ∈ units.all

theorem built_start (l : ImportSetLattice) : Built l (start l) where
  main := by simp [start]
  other S u hne hu := by simp [start, update_of_ne hne] at hu

theorem addUnit_of_some (h : units.unit S = some u) : units.addUnit S = units := by
  simp [addUnit, h]

theorem Built.addUnit (h : Built l units) (S : ImportSet) :
    Built l (units.addUnit S) ∧ (∃ u, (units.addUnit S).unit S = some u) ∧
      ∀ S' u, units.unit S' = some u → (units.addUnit S).unit S' = some u := by
  cases hS : units.unit S with
  | some u =>
    rw [addUnit_of_some hS]
    exact ⟨h, ⟨u, hS⟩, fun _ _ h => h⟩
  | none =>
    have hold : ∀ S' u, units.unit S' = some u → (units.addUnit S).unit S' = some u := by
      intro S' u hu
      have hne : S' ≠ S := by
        rintro rfl
        rw [hS] at hu
        cases hu
      simp [OutputUnits.addUnit, hS, update_of_ne hne, hu]
    refine ⟨⟨hold _ _ h.main, fun S' u hm hu => ?_⟩, by simp [OutputUnits.addUnit, hS], hold⟩
    simp only [OutputUnits.addUnit, hS, Option.isSome_none, Bool.false_eq_true, if_false] at hu ⊢
    obtain rfl | hne := eq_or_ne S' S
    · rw [update_self] at hu
      cases hu
      exact ⟨rfl, rfl, mem_append_right _ mem_cons_self⟩
    · rw [update_of_ne hne] at hu
      obtain ⟨hu, himp, hall⟩ := h.other S' u hm hu
      exact ⟨hu, himp, mem_append_left _ hall⟩

theorem Built.foldl (h : Built l units) (sets : List ImportSet) :
    Built l (sets.foldl OutputUnits.addUnit units) ∧
      (∀ S ∈ sets, ∃ u, (sets.foldl OutputUnits.addUnit units).unit S = some u) ∧
      ∀ S u, units.unit S = some u →
        (sets.foldl OutputUnits.addUnit units).unit S = some u := by
  induction sets generalizing units with
  | nil => exact ⟨h, by simp, fun _ _ h => h⟩
  | cons S sets ih =>
    obtain ⟨hb, ⟨u, hu⟩, hk⟩ := h.addUnit S
    obtain ⟨hb', hs', hk'⟩ := ih hb
    exact ⟨hb', forall_mem_cons.2 ⟨⟨u, hk' _ _ hu⟩, hs'⟩, fun S' u' h' => hk' _ _ (hk _ _ h')⟩

theorem createOutputUnits_built (sort : UnitSort) (l : ImportSetLattice) (keys : List Entity)
    (s : AlgorithmState Entity) : Built l (createOutputUnits sort l keys s) := by
  obtain ⟨hb, -, -⟩ := (built_start l).foldl (keys.filterMap s.entityToSet)
  refine ⟨hb.main, fun S u hne hu => ?_⟩
  obtain ⟨hm, hi, hu⟩ := hb.other S u hne hu
  exact ⟨hm, hi, (sort.perm _).mem_iff.2 hu⟩

/-- The unit of an entity. -/
def unitOf (units : OutputUnits) (s : AlgorithmState Entity) (x : Entity) : Option OutputUnit :=
  (s.entityToSet x).bind units.unit

theorem createOutputUnits_unitOf (sort : UnitSort) (l : ImportSetLattice)
    (hk : ∀ x, x ∈ keys ↔ (s.entityToSet x).isSome) (hx : (s.entityToSet x).isSome) :
    ∃ u, (createOutputUnits sort l keys s).unitOf s x = some u := by
  obtain ⟨-, hs, -⟩ := (built_start l).foldl (keys.filterMap s.entityToSet)
  obtain ⟨S, hS⟩ := Option.isSome_iff_exists.1 hx
  rw [unitOf, hS]
  exact hs S (mem_filterMap.2 ⟨x, (hk x).2 hx, hS⟩)

/-! ## The load lists -/

theorem mem_computeOutputUnitsToLoad : u ∈ units.computeOutputUnitsToLoad i ↔
    u ∈ units.all ∧ u.isMainOutput = false ∧ i ∈ u.imports := by
  simp only [computeOutputUnitsToLoad, mem_filter, mem_reverse, Bool.not_eq_true', contains_eq_mem,
    decide_eq_true_eq, and_assoc]

/-- Units with more imports come first. -/
theorem createOutputUnits_sorted (sort : UnitSort) (l : ImportSetLattice) (keys : List Entity)
    (s : AlgorithmState Entity) (i : ℕ) :
    ((createOutputUnits sort l keys s).computeOutputUnitsToLoad i).Pairwise
      (·.imports.length ≥ ·.imports.length) := by
  refine Pairwise.filter _ (pairwise_reverse.2 (pairwise_filter.2 ?_))
  refine (sort.sorted _).imp fun {a b} h ha hb => ?_
  simp only [Bool.not_eq_true'] at ha hb
  exact (h hb).resolve_left (by simp [ha])

theorem exists_before {l : List OutputUnit} {u v : OutputUnit}
    (h : l.Pairwise (·.imports.length ≥ ·.imports.length)) (hu : u ∈ l) (hv : v ∈ l)
    (hlt : u.imports.length < v.imports.length) : ∃ l₁ l₂, l = l₁ ++ u :: l₂ ∧ v ∈ l₁ := by
  obtain ⟨l₁, l₂, rfl⟩ := append_of_mem hu
  refine ⟨l₁, l₂, rfl, ?_⟩
  rcases mem_append.1 hv with hv | hv
  · exact hv
  have hle : v.imports.length ≤ u.imports.length := by
    rcases mem_cons.1 hv with rfl | hv
    · exact le_rfl
    · exact (pairwise_cons.1 (pairwise_append.1 h).2.1).1 v hv
  exact absurd hle hlt.not_ge

/-- The units of a program give what is needed. With the unit of an entity, a load list has those of
its dependencies that are not in the main output unit, and they come before it. The unit of a
deferred root is in the load lists of the imports that its own one stands for. -/
structure Loads (p : Program Entity) (s : AlgorithmState Entity) (units : OutputUnits) : Prop where
  roots : ∀ x ∈ p.roots, units.unitOf s x = some mainOutputUnit
  main : ∀ x, units.unitOf s x = some mainOutputUnit → ∀ y ∈ p.directDependencies x,
    units.unitOf s y = some mainOutputUnit
  dependencies : ∀ x u i, units.unitOf s x = some u → u ∈ units.computeOutputUnitsToLoad i →
    ∀ y ∈ p.directDependencies x, ∃ v, units.unitOf s y = some v ∧
      (v = mainOutputUnit ∨ v = u ∨
        ∃ l₁ l₂, units.computeOutputUnitsToLoad i = l₁ ++ u :: l₂ ∧ v ∈ l₁)
  deferredRoots : ∀ x u, units.unitOf s x = some u →
    (u = mainOutputUnit ∨ ∃ i, u ∈ units.computeOutputUnitsToLoad i) →
    ∀ r imports, (r, imports) ∈ p.deferredRoots x → ∀ j ∈ imports,
      ∀ k ∈ p.importSets.initialSetOf j, ∃ v, units.unitOf s r = some v ∧
        (v = mainOutputUnit ∨ v ∈ units.computeOutputUnitsToLoad k)

theorem unitOf_eq (hi : i ∈ s.currentSet x) : units.unitOf s x = units.unit (s.currentSet x) := by
  cases hS : s.entityToSet x with
  | none => simp [currentSet, hS] at hi
  | some S => simp [unitOf, currentSet, hS]

/-- The unit of an entity has the imports of its set, and is in their load lists. -/
theorem unitOf_spec (hb : Built l units) (hu : units.unitOf s x = some u) :
    (u = mainOutputUnit ↔ s.currentSet x = l.mainSet) ∧
      (s.currentSet x ≠ l.mainSet → u.imports = (s.currentSet x).imports) ∧
      ∀ i, u ∈ units.computeOutputUnitsToLoad i ↔
        s.currentSet x ≠ l.mainSet ∧ i ∈ s.currentSet x := by
  obtain ⟨S, hS, hunit⟩ := Option.bind_eq_some_iff.1 hu
  have hcur : s.currentSet x = S := by rw [currentSet, hS, Option.getD_some]
  rw [hcur]
  obtain rfl | hne := eq_or_ne S l.mainSet
  · have humain : u = mainOutputUnit := Option.some_inj.1 (hunit.symm.trans hb.main)
    simp [humain, mem_computeOutputUnitsToLoad, mainOutputUnit]
  · obtain ⟨hm, himp, hall⟩ := hb.other S u hne hunit
    refine ⟨iff_of_false ?_ hne, fun _ => himp, fun i => ?_⟩
    · rintro rfl
      cases hm
    · simp [mem_computeOutputUnitsToLoad, hm, himp, hall, hne, mem_def]

/-- **Sound sets give units that load what is needed**. -/
theorem loads_of_sound (h : Sound p s) (sort : UnitSort)
    (hk : ∀ x, x ∈ keys ↔ (s.entityToSet x).isSome) :
    Loads p s (createOutputUnits sort p.importSets keys s) := by
  have hb := createOutputUnits_built sort p.importSets keys s
  have hunit : ∀ x i, i ∈ s.currentSet x →
      ∃ u, (createOutputUnits sort p.importSets keys s).unitOf s x = some u := by
    intro x i hi
    refine createOutputUnits_unitOf sort p.importSets hk ?_
    cases hS : s.entityToSet x with
    | none => simp [currentSet, hS] at hi
    | some S => rfl
  have hmain : ∀ x, s.currentSet x = p.importSets.mainSet →
      (createOutputUnits sort p.importSets keys s).unitOf s x = some mainOutputUnit := by
    intro x hx
    obtain ⟨u, hu⟩ := hunit x p.importSets.mainImport (hx ▸ mainImport_mem _)
    rw [hu, (unitOf_spec hb hu).1.2 hx]
  constructor
  case roots => exact fun x hx => hmain x (h.roots x hx)
  case main =>
    intro x hx y hy
    have hle := h.dependencies x y hy
    rw [(unitOf_spec hb hx).1.1 rfl] at hle
    exact hmain y (h.main y (hle _ (mainImport_mem _)))
  case dependencies =>
    intro x u i hu hi y hy
    have hle := h.dependencies x y hy
    obtain ⟨-, himp, hload⟩ := unitOf_spec hb hu
    obtain ⟨hne, hix⟩ := (hload i).1 hi
    obtain ⟨v, hv⟩ := hunit y i (hle i hix)
    refine ⟨v, hv, ?_⟩
    obtain ⟨hvm, hvimp, hvload⟩ := unitOf_spec hb hv
    by_cases hmy : s.currentSet y = p.importSets.mainSet
    · exact .inl (hvm.2 hmy)
    right
    obtain heq | hlt := hle.eq_or_lt
    · left
      rw [unitOf_eq (hle i hix), ← heq, ← unitOf_eq hix, hu] at hv
      exact (Option.some_inj.1 hv).symm
    · right
      refine exists_before (createOutputUnits_sorted ..) hi ((hvload i).2 ⟨hmy, hle i hix⟩) ?_
      rw [himp hne, hvimp hmy]
      exact length_lt hlt
  case deferredRoots =>
    intro x u hu hx r imports hr j hj k hkj
    obtain ⟨hum, -, hload⟩ := unitOf_spec hb hu
    have hix : ∃ i, i ∈ s.currentSet x := by
      rcases hx with hx | ⟨i, hi⟩
      · exact ⟨_, hum.1 hx ▸ mainImport_mem _⟩
      · exact ⟨i, ((hload i).1 hi).2⟩
    obtain ⟨i, hi⟩ := hix
    have hkr := h.deferredRoots x i hi r imports hr j hj k hkj
    obtain ⟨v, hv⟩ := hunit r k hkr
    obtain ⟨hvm, -, hvload⟩ := unitOf_spec hb hv
    refine ⟨v, hv, ?_⟩
    by_cases hmr : s.currentSet r = p.importSets.mainSet
    · exact .inl (hvm.2 hmr)
    · exact .inr ((hvload k).2 ⟨hmr, hkr⟩)

end OutputUnits

section

variable [DecidableEq Entity] [Fintype Entity]

/-- **Loaded code finds what it needs**: the algorithm ends and leaves sets from which, after any
set transitions, the units and their load lists are made such that the roots are in the main output
unit, and each dependency of a loaded entity is loaded with it. -/
theorem create_loads (p : Program Entity) (T : List ImportSetTransition) (sort : UnitSort) :
    ∃ n, ∀ fuel > Fintype.card Entity, ∀ m ≥ n, ∃ s, create p fuel m = .ok s ∧
      (Constrains T p.importSets → ∀ keys : List Entity,
        (∀ x, x ∈ keys ↔ (s.entityToSet x).isSome) → ∀ k, ∃ s',
          s.applySetTransitions (k + 2) T keys = some s' ∧
            OutputUnits.Loads p s' (.createOutputUnits sort p.importSets keys s')) := by
  refine ⟨bound p (start p) + 1, fun fuel hfuel m hm => ?_⟩
  obtain ⟨s, hs, ha⟩ := create_assigned p hfuel (n := m) hm
  refine ⟨s, hs, fun hT keys hk k => ?_⟩
  obtain ⟨s', hs', h'⟩ := applySetTransitions_spec k T hk
  have hreach : ∀ x i, i ∈ s'.currentSet x ↔ Reached T (s.currentSet x) i := by
    intro x i
    obtain ⟨hsome, hi⟩ := h' x
    cases hS : s.entityToSet x with
    | some S => rw [hi S hS, currentSet, hS, Option.getD_some]
    | none =>
      rw [hS, Option.isSome_none, Option.isSome_eq_false_iff, Option.isNone_iff_eq_none] at hsome
      simp only [currentSet, hS, hsome, Option.getD_none, not_mem_emptySet, false_iff]
      intro hr
      obtain ⟨j, hj⟩ := hT.exists_mem hr
      exact not_mem_emptySet hj
  refine ⟨s', hs', OutputUnits.loads_of_sound (sound_of_reached hT ha hreach) sort fun x => ?_⟩
  rw [hk, (h' x).1]

end

/-- A sort by the number of imports, after the main output unit. -/
def UnitSort.bySize : UnitSort where
  sort l := l.mergeSort fun a b =>
    a.isMainOutput || !b.isMainOutput && a.imports.length ≤ b.imports.length
  perm l := mergeSort_perm l _
  sorted l := by
    refine (pairwise_mergeSort (fun a b c => ?_) (fun a b => ?_) l).imp fun {a b} h hb => by
      simpa [hb] using h
    all_goals
      simp only [Bool.or_eq_true, Bool.and_eq_true, Bool.not_eq_true', decide_eq_true_eq]
      grind

/-- `main` loads `1` with two imports and `2` with a third one, on which `1` depends. -/
def constrained : Program (Fin 3) where
  importSets :=
    { mainImport := 0, allDeferredImports := [1, 2, 3], singletonTransitions := fun _ => none,
      mainImport_notMem := by decide, transitions_subset := by simp }
  roots := [0]
  directDependencies e := if e = 1 then [2] else []
  deferredRoots e := if e = 0 then [(1, [1, 2]), (2, [3])] else []
  needsRecursiveUpdate _ := true
  local_dependencies := by simp
  deferred_imports := by
    intro e r imports h
    split at h
    · simp only [List.mem_cons, Prod.mk.injEq, not_mem_nil, or_false] at h
      rcases h with ⟨-, rfl⟩ | ⟨-, rfl⟩ <;> decide
    · cases h

theorem constrains_plain : Constrains [plain] constrained.importSets where
  source := by decide
  transitions := by simp [plain, mem_def, constrained]

theorem create_loads_constrained :
    ∃ n, ∀ fuel > Fintype.card (Fin 3), ∀ m ≥ n, ∃ s, create constrained fuel m = .ok s ∧
      ∀ keys : List (Fin 3), (∀ x, x ∈ keys ↔ (s.entityToSet x).isSome) → ∀ k, ∃ s',
        s.applySetTransitions (k + 2) [plain] keys = some s' ∧
          OutputUnits.Loads constrained s'
            (.createOutputUnits .bySize constrained.importSets keys s') := by
  obtain ⟨n, h⟩ := create_loads constrained [plain] .bySize
  refine ⟨n, fun fuel hfuel m hm => ?_⟩
  obtain ⟨s, hs, hl⟩ := h fuel hfuel m hm
  exact ⟨s, hs, hl constrains_plain⟩

end Compiler.DeferredLoad
