import DartSdk.Compiler.DeferredLoad.Proof.Update
import DartSdk.Lib.Reachability
import Mathlib.Tactic.Ring

/-!
# The deferred loading algorithm assigns what reaches an entity

* `processEntity_spec`: what is processed is closed under dependencies and deferred roots, and the
  deferred roots are queued.
* `Inv`: between two items of the queue, all dependencies of an entity are promised its set. The
  items for the main output unit come first; as long as there are any, every set is empty or the
  main set.
* `deferredLoad_spec`: **the algorithm ends** with the imports of all roots from which an entity can
  be reached.
-/

namespace Compiler.DeferredLoad

open Fallible Reachability Relation AlgorithmState ImportSet List Nat Finset

variable {Entity : Type} {p : Program Entity} {s s' t : AlgorithmState Entity} {e x y d r : Entity}

/-! ## The assignment -/

namespace Program

def Depends (p : Program Entity) (x y : Entity) : Prop := y ∈ p.directDependencies x

/-- Processing an entity leads to its dependencies and its deferred roots. -/
def Visits (p : Program Entity) (x y : Entity) : Prop :=
  y ∈ p.directDependencies x ∨ ∃ imports, (y, imports) ∈ p.deferredRoots x

/-- The entities of the program. -/
def Occurs (p : Program Entity) (x : Entity) : Prop := ∃ r ∈ p.roots, ReflTransGen p.Visits r x

/-- The imports for which an entity is a root. -/
def rootImports (p : Program Entity) (x : Entity) : Set ℕ :=
  {i | x ∈ p.roots ∧ i ∈ p.importSets.mainSet ∨
    ∃ y imports j, p.Occurs y ∧ (x, imports) ∈ p.deferredRoots y ∧ j ∈ imports ∧
      i ∈ p.importSets.initialSetOf j}

/-- The imports of all roots from which an entity can be reached. -/
def assigned (p : Program Entity) (x : Entity) : Set ℕ := collected p.Depends p.rootImports x

end Program

theorem Program.Occurs.visits (h : p.Occurs x) (hxy : p.Visits x y) : p.Occurs y := by
  obtain ⟨r, hr, hrx⟩ := h
  exact ⟨r, hr, hrx.tail hxy⟩

theorem Program.Occurs.depends (he : p.Occurs e) (h : ReflTransGen p.Depends e x) : p.Occurs x := by
  induction h with
  | refl => exact he
  | tail _ hd ih => exact ih.visits (.inl hd)

namespace ImportSetLattice

variable {l : ImportSetLattice} {i j : ℕ}

theorem mainImport_mem (l : ImportSetLattice) : l.mainImport ∈ l.mainSet := by
  rw [mainSet, mem_setOfImportsToImportSet]
  exact .head _

section
variable (hj : j ∈ l.allDeferredImports)
include hj

theorem mem_initialSetOf (hi : i ∈ l.initialSetOf j) : i ∈ l.allDeferredImports := by
  rw [initialSetOf] at hi
  split at hi
  next imports him =>
    rw [mem_setOfImportsToImportSet] at hi
    exact l.transitions_subset j imports him hi
  next =>
    rw [mem_setOfImportsToImportSet, List.mem_singleton] at hi
    rw [hi]
    exact hj

/-- The main set contains the sets of the deferred imports. -/
theorem initialSetOf_le : l.initialSetOf j ≤ l.mainSet := by
  intro i hi
  rw [mainSet, mem_setOfImportsToImportSet]
  exact .tail _ (mem_initialSetOf hj hi)

/-- None of them has the import of the main output unit. -/
theorem mainImport_notMem_initialSetOf : l.mainImport ∉ l.initialSetOf j :=
  fun hi => l.mainImport_notMem (mem_initialSetOf hj hi)

end

end ImportSetLattice

namespace AlgorithmState

variable [DecidableEq Entity] {queue : List (WorkItem Entity)} {item : WorkItem Entity}
  {B : Entity → Prop}

/-! ## The order of the queue -/

/-- The first `k` items are for the main output unit, and no other item is. -/
structure Phased (p : Program Entity) (k : ℕ) (s : AlgorithmState Entity) : Prop where
  le_length : k ≤ s.queue.length
  first : ∀ item ∈ s.queue.take k, item.importsToAdd = p.importSets.mainSet
  later : ∀ item ∈ s.queue.drop k, p.importSets.mainImport ∉ item.importsToAdd

theorem forall_addToItem (P : ImportSet → Prop) {set : ImportSet}
    (h : ∀ item ∈ queue, P item.importsToAdd) (ha : ∀ old, P old → P (old ⊔ set)) :
    ∀ item ∈ queue.map (addToItem e set), P item.importsToAdd := by
  rw [List.forall_mem_map]
  intro item hi
  rw [addToItem]
  split
  · exact ha _ (h item hi)
  · exact h item hi

theorem Phased.addEntityData {k : ℕ} {set : ImportSet} (h : Phased p k s)
    (hst : set ≤ p.importSets.mainSet) (hm : p.importSets.mainImport ∉ set) (e : Entity) :
    Phased p k (s.addEntityData e set) := by
  obtain ⟨hk, hf, hl⟩ := h
  rcases queue_addEntityData s e set with ⟨-, hq⟩ | ⟨-, hq⟩
  · refine ⟨?_, ?_, ?_⟩
    · rw [hq, length_map]
      exact hk
    · rw [hq, ← map_take]
      refine forall_addToItem (· = _) hf fun old hold => ?_
      rw [hold, sup_eq_left]
      exact hst
    · rw [hq, ← map_drop]
      refine forall_addToItem (_ ∉ ·) hl fun old hold => ?_
      rw [mem_sup, not_or]
      exact ⟨hold, hm⟩
  · refine ⟨?_, ?_, ?_⟩
    · rw [hq, length_append]
      omega
    · rw [hq, take_append_of_le_length hk]
      exact hf
    rw [hq, drop_append_of_le_length hk]
    intro item hi
    rcases mem_append.mp hi with hi | hi
    · exact hl item hi
    · rw [List.mem_singleton.mp hi]
      exact hm

theorem exists_item (h : Queued s x) :
    ∃ item ∈ s.queue, item.entityData = x ∧ s.pending x = item.importsToAdd := by
  rw [Queued] at h
  rw [pending]
  generalize s.queue = queue at h ⊢
  induction queue with
  | nil => cases h
  | cons item queue ih =>
    by_cases hi : item.entityData = x
    · refine ⟨item, .head _, hi, ?_⟩
      rw [itemSet_cons, if_pos hi]
    rw [List.map_cons, List.mem_cons] at h
    obtain ⟨item', hm, hx, hst⟩ := ih (h.resolve_left (Ne.symm hi))
    refine ⟨item', .tail _ hm, hx, ?_⟩
    rw [itemSet_cons, if_neg hi, hst]

theorem pending_eq_bot (h : ¬ Queued s x) : s.pending x = ⊥ := itemSet_eq_bot h

/-- If each entity has one item, that is the one. -/
theorem Keys.pending_eq (h : Keys s) (hi : item ∈ s.queue) :
    s.pending item.entityData = item.importsToAdd := by
  rw [Keys] at h
  rw [pending]
  generalize s.queue = queue at h hi ⊢
  induction queue with
  | nil => cases hi
  | cons head queue ih =>
    rw [List.map_cons, nodup_cons] at h
    rw [itemSet_cons]
    rcases List.mem_cons.mp hi with rfl | hi
    · rw [if_pos rfl]
    · rw [if_neg, ih h.2 hi]
      intro heq
      exact h.1 (heq ▸ List.mem_map_of_mem hi)

/-! ## Processing an entity -/

def Processed (s : AlgorithmState Entity) (x : Entity) : Prop :=
  (s.directDependencies x).isSome = true

instance : DecidablePred (Processed s) := fun _ => inferInstanceAs (Decidable (_ = true))

/-- What processing entities in the region `B` does. -/
structure Visited (p : Program Entity) (B : Entity → Prop) (s s' : AlgorithmState Entity) :
    Prop where
  value_eq : s'.entityToSet = s.entityToSet
  processed_le : ∀ x, Processed s x → Processed s' x
  processed_in : ∀ x, Processed s' x → Processed s x ∨ B x
  dependencies : (∀ x ds, s.directDependencies x = some ds → ds = p.directDependencies x) →
    ∀ x ds, s'.directDependencies x = some ds → ds = p.directDependencies x
  closed : ∀ x, Processed s' x → ¬ Processed s x → ∀ y, p.Visits x y → Processed s' y
  pending_le : ∀ x, s.pending x ≤ s'.pending x
  pending_in : ∀ x i, i ∈ s'.pending x → i ∈ s.pending x ∨
    ∃ y imports j, B y ∧ (x, imports) ∈ p.deferredRoots y ∧ j ∈ imports ∧
      i ∈ p.importSets.initialSetOf j
  deferred : ∀ x, Processed s' x → ¬ Processed s x → ∀ r imports, (r, imports) ∈ p.deferredRoots x →
    ∀ j ∈ imports, p.importSets.initialSetOf j ≤ s'.pending r
  queued_le : ∀ x, Queued s x → Queued s' x
  queued_in : ∀ x, Queued s' x → Queued s x ∨ ∃ y, B y ∧ p.Visits y x
  keys : Keys s → Keys s'
  phased : ∀ k, Phased p k s → Phased p k s'

theorem Visited.currentSet_eq (h : Visited p B s s') (x : Entity) :
    s'.currentSet x = s.currentSet x := by
  rw [currentSet, currentSet, h.value_eq]

theorem Visited.refl (p : Program Entity) (B : Entity → Prop) (s : AlgorithmState Entity) :
    Visited p B s s where
  value_eq := rfl
  processed_le _ h := h
  processed_in _ h := .inl h
  dependencies h := h
  closed _ h hn := absurd h hn
  pending_le _ := le_rfl
  pending_in _ _ h := .inl h
  deferred _ h hn := absurd h hn
  queued_le _ h := h
  queued_in _ h := .inl h
  keys h := h
  phased _ h := h

theorem Visited.trans (h : Visited p B s s') (h' : Visited p B s' t) : Visited p B s t where
  value_eq := h'.value_eq.trans h.value_eq
  processed_le x hx := h'.processed_le x (h.processed_le x hx)
  processed_in x hx := (h'.processed_in x hx).elim (h.processed_in x) .inr
  dependencies hs := h'.dependencies (h.dependencies hs)
  closed x hx hn y hy := by
    by_cases hx' : Processed s' x
    · exact h'.processed_le y (h.closed x hx' hn y hy)
    · exact h'.closed x hx hx' y hy
  pending_le x := (h.pending_le x).trans (h'.pending_le x)
  pending_in x i hi := (h'.pending_in x i hi).elim (h.pending_in x i) .inr
  deferred x hx hn r imports hr j hj := by
    by_cases hx' : Processed s' x
    · exact (h.deferred x hx' hn r imports hr j hj).trans (h'.pending_le r)
    · exact h'.deferred x hx hx' r imports hr j hj
  queued_le x hx := h'.queued_le x (h.queued_le x hx)
  queued_in x hx := (h'.queued_in x hx).elim (h.queued_in x) .inr
  keys hs := h'.keys (h.keys hs)
  phased k hs := h'.phased k (h.phased k hs)

/-- A deferred root of an entity in the region is queued. -/
theorem Visited.addEntityData {is : List ℕ} {j : ℕ} (hy : B y)
    (hr : (r, is) ∈ p.deferredRoots y) (hj : j ∈ is) (s : AlgorithmState Entity) :
    Visited p B s (s.addEntityData r (p.importSets.initialSetOf j)) where
  value_eq := entityToSet_addEntityData
  processed_le x hx := by
    rw [Processed, directDependencies_addEntityData]
    exact hx
  processed_in x hx := by
    rw [Processed, directDependencies_addEntityData] at hx
    exact .inl hx
  dependencies hs := by
    rw [directDependencies_addEntityData]
    exact hs
  closed x hx hn := by
    rw [Processed, directDependencies_addEntityData] at hx
    exact absurd hx hn
  pending_le x := by
    rw [pending_addEntityData]
    exact le_sup_left
  pending_in x i hi := by
    rw [pending_addEntityData, mem_sup] at hi
    rcases hi with hi | hi
    · exact .inl hi
    split at hi
    next hx =>
      subst hx
      exact .inr ⟨y, is, j, hy, hr, hj, hi⟩
    next => exact absurd hi not_mem_bot
  deferred x hx hn := by
    rw [Processed, directDependencies_addEntityData] at hx
    exact absurd hx hn
  queued_le x hx := queued_addEntityData.mpr (.inl hx)
  queued_in x hx := by
    rcases queued_addEntityData.mp hx with hx | rfl
    · exact .inl hx
    · exact .inr ⟨y, hy, .inr ⟨is, hr⟩⟩
  keys hs := hs.addEntityData _ _
  phased k hs := by
    have hd := p.deferred_imports y r is hr hj
    exact hs.addEntityData (ImportSetLattice.initialSetOf_le hd)
      (ImportSetLattice.mainImport_notMem_initialSetOf hd) r

theorem addDeferredRoot_spec {is : List ℕ} (hy : B y) (hr : (r, is) ∈ p.deferredRoots y)
    (s : AlgorithmState Entity) :
    Visited p B s (addDeferredRoot p s r is) ∧
      (∀ j ∈ is, p.importSets.initialSetOf j ≤ (addDeferredRoot p s r is).pending r) ∧
      (addDeferredRoot p s r is).queue.length ≤ s.queue.length + is.length ∧
      (addDeferredRoot p s r is).directDependencies = s.directDependencies := by
  rw [addDeferredRoot]
  suffices ha : ∀ js, js ⊆ is → ∀ s,
      let s' := js.foldl (fun s i => s.addEntityData r (p.importSets.initialSetOf i)) s
      Visited p B s s' ∧ (∀ j ∈ js, p.importSets.initialSetOf j ≤ s'.pending r) ∧
        s'.queue.length ≤ s.queue.length + js.length ∧
        s'.directDependencies = s.directDependencies from
    ha is (List.Subset.refl _) s
  intro js
  induction js with
  | nil =>
    intro _ s
    exact ⟨.refl _ _ _, by simp, le_rfl, rfl⟩
  | cons j js ih =>
    intro hsb s
    have hh := Visited.addEntityData hy hr (hsb List.mem_cons_self) s
    obtain ⟨hv, hpn, hl, hd⟩ :=
      ih (subset_of_cons_subset hsb) (s.addEntityData r (p.importSets.initialSetOf j))
    have hl' := length_addEntityData s r (p.importSets.initialSetOf j)
    refine ⟨hh.trans hv, ?_, ?_, ?_⟩
    · intro j' hj'
      rcases List.mem_cons.mp hj' with rfl | hj'
      · refine le_trans ?_ (hv.pending_le r)
        rw [pending_addEntityData, if_pos rfl]
        exact le_sup_right
      · exact hpn j' hj'
    · rw [foldl_cons, length_cons]
      omega
    · rw [foldl_cons, hd, directDependencies_addEntityData]

/-- `directDependencies[entityData] = info.directDependencies`. -/
def mark (p : Program Entity) (s : AlgorithmState Entity) (e : Entity) : AlgorithmState Entity :=
  { s with directDependencies := fun x =>
      if x = e then some (p.directDependencies x) else s.directDependencies x }

theorem processed_mark : Processed (mark p s e) x ↔ x = e ∨ Processed s x := by
  show (if x = e then some (p.directDependencies x) else s.directDependencies x).isSome = true ↔ _
  by_cases h : x = e
  · simp [h]
  · simp [h, Processed]

/-- An entity is marked first, and what it leads to is processed afterwards. -/
theorem Visited.of_mark (he : B e) (h : Visited p B (mark p s e) s')
    (hc : ∀ y, p.Visits e y → Processed s' y)
    (hd : ∀ r imports, (r, imports) ∈ p.deferredRoots e → ∀ j ∈ imports,
      p.importSets.initialSetOf j ≤ s'.pending r) : Visited p B s s' where
  value_eq := h.value_eq
  processed_le x hx := h.processed_le x (processed_mark.mpr (.inr hx))
  processed_in x hx := by
    rcases h.processed_in x hx with hx | hx
    · rcases processed_mark.mp hx with rfl | hx
      · exact .inr he
      · exact .inl hx
    · exact .inr hx
  dependencies hs := by
    apply h.dependencies
    intro x ds hds
    change (if x = e then some (p.directDependencies x) else s.directDependencies x) = some ds at hds
    split at hds
    · exact (Option.some.inj hds).symm
    · exact hs x ds hds
  closed x hx hn y hy := by
    by_cases hxe : x = e
    · rw [hxe] at hy
      exact hc y hy
    · exact h.closed x hx (fun hm => (processed_mark.mp hm).elim hxe hn) y hy
  pending_le := h.pending_le
  pending_in := h.pending_in
  deferred x hx hn r imports hr j hj := by
    by_cases hxe : x = e
    · rw [hxe] at hr
      exact hd r imports hr j hj
    · exact h.deferred x hx (fun hm => (processed_mark.mp hm).elim hxe hn) r imports hr j hj
  queued_le := h.queued_le
  queued_in := h.queued_in
  keys := h.keys
  phased k hs := h.phased k ⟨hs.le_length, hs.first, hs.later⟩

section

variable [Fintype Entity] {fuel : ℕ}

def unprocessed (s : AlgorithmState Entity) : ℕ :=
  (Finset.univ.filter fun x => ¬ Processed s x).card

theorem Visited.unprocessed_le (h : Visited p B s s') : s'.unprocessed ≤ s.unprocessed := by
  apply card_le_card
  intro x hx
  rw [Finset.mem_filter] at hx ⊢
  exact ⟨hx.1, mt (h.processed_le x) hx.2⟩

theorem unprocessed_mark_lt (he : ¬ Processed s e) : (mark p s e).unprocessed < s.unprocessed := by
  apply card_lt_card
  refine ⟨?_, ?_⟩
  · intro x hx
    rw [Finset.mem_filter, processed_mark, not_or] at hx
    exact Finset.mem_filter.mpr ⟨hx.1, hx.2.2⟩
  intro hsb
  have hm := hsb (Finset.mem_filter.mpr ⟨mem_univ e, he⟩)
  rw [Finset.mem_filter, processed_mark] at hm
  exact hm.2 (.inl rfl)

/-- The number of items that processing an entity may add. -/
def deferredCount (p : Program Entity) (x : Entity) : ℕ :=
  ((p.deferredRoots x).map fun root => root.2.length).sum

/-- The items in the queue, and those that processing entities may add. -/
def visitBound (p : Program Entity) (s : AlgorithmState Entity) : ℕ :=
  s.queue.length + ∑ x ∈ Finset.univ.filter fun x => ¬ Processed s x, deferredCount p x

theorem visitBound_mark (he : ¬ Processed s e) :
    visitBound p (mark p s e) + deferredCount p e ≤ visitBound p s := by
  have hf : Finset.univ.filter (fun x => ¬ Processed s x) =
      insert e (Finset.univ.filter fun x => ¬ Processed (mark p s e) x) := by
    ext x
    simp only [Finset.mem_filter, mem_univ, true_and, mem_insert, processed_mark]
    by_cases hx : x = e
    · simp [hx, he]
    · simp [hx]
  have hn : e ∉ Finset.univ.filter fun x => ¬ Processed (mark p s e) x := by
    rw [Finset.mem_filter, processed_mark]
    exact fun h => h.2 (.inl rfl)
  rw [visitBound, visitBound, hf, sum_insert hn]
  rw [show (mark p s e).queue = s.queue from rfl]
  omega

/-- What processing `e` leads to. -/
structure VisitedEntity (p : Program Entity) (B : Entity → Prop) (s : AlgorithmState Entity)
    (e : Entity) (s' : AlgorithmState Entity) : Prop extends Visited p B s s' where
  processed : Processed s' e
  visitBound_le : visitBound p s' ≤ visitBound p s

section
variable (hprocess : ∀ s d, s.unprocessed < fuel → B d →
  Succeeds (processEntity p fuel s d) (VisitedEntity p B s d)) (hfuel : s.unprocessed < fuel)
include hprocess hfuel

theorem processAll_spec {ds : List Entity} (hds : ∀ d ∈ ds, B d) :
    Succeeds (ds.foldlM (fun s d => processEntity p fuel s d) s) (fun s' =>
      Visited p B s s' ∧ (∀ d ∈ ds, Processed s' d) ∧ visitBound p s' ≤ visitBound p s) := by
  induction ds generalizing s with
  | nil =>
    refine .pure ⟨.refl _ _ _, ?_, le_rfl⟩
    intro d hd
    cases hd
  | cons d ds ih =>
    rw [foldlM_cons]
    apply (hprocess s d hfuel (hds d List.mem_cons_self)).bind
    intro s₁ h1
    apply (ih (h1.unprocessed_le.trans_lt hfuel) (fun d' hd' => hds d' (.tail _ hd'))).imp
    rintro s₂ ⟨h2, hpr, hb⟩
    refine ⟨h1.toVisited.trans h2, ?_, hb.trans h1.visitBound_le⟩
    intro d' hd'
    rcases List.mem_cons.mp hd' with rfl | hd'
    · exact h2.processed_le d' h1.processed
    · exact hpr d' hd'

theorem processRoots_spec {roots : List (Entity × List ℕ)} (he : B e)
    (hrt : roots ⊆ p.deferredRoots e) (hB : ∀ r imports, (r, imports) ∈ roots → B r) :
    Succeeds (roots.foldlM (fun s root => do
        let s ← processEntity p fuel s root.1
        return addDeferredRoot p s root.1 root.2) s) (fun s' =>
      Visited p B s s' ∧ (∀ r imports, (r, imports) ∈ roots → Processed s' r ∧
          ∀ j ∈ imports, p.importSets.initialSetOf j ≤ s'.pending r) ∧
        visitBound p s' ≤ visitBound p s + (roots.map fun root => root.2.length).sum) := by
  induction roots generalizing s with
  | nil =>
    refine .pure ⟨.refl _ _ _, ?_, le_rfl⟩
    intro r imports hr
    cases hr
  | cons root roots ih =>
    obtain ⟨r, imports⟩ := root
    rw [foldlM_cons, bind_assoc]
    apply (hprocess s r hfuel (hB r imports List.mem_cons_self)).bind
    intro s₁ h1
    rw [pure_bind]
    obtain ⟨h2, hpn, hl, hd⟩ := addDeferredRoot_spec he (hrt List.mem_cons_self) s₁
    have h12 := h1.toVisited.trans h2
    apply (ih (h12.unprocessed_le.trans_lt hfuel) (subset_of_cons_subset hrt)
      (fun r' imports' hr' => hB r' imports' (.tail _ hr'))).imp
    rintro s3 ⟨h3, ha, hb⟩
    refine ⟨h12.trans h3, ?_, ?_⟩
    · intro r' imports' hr'
      rcases List.mem_cons.mp hr' with heq | hr'
      · obtain ⟨rfl, rfl⟩ := Prod.mk.inj heq
        refine ⟨h3.processed_le _ (h2.processed_le _ h1.processed), ?_⟩
        intro j hj
        exact (hpn j hj).trans (h3.pending_le _)
      · exact ha r' imports' hr'
    · have hle := h1.visitBound_le
      have had : visitBound p (addDeferredRoot p s₁ r imports) ≤
          visitBound p s₁ + imports.length := by
        have hsm : ∀ x, Processed (addDeferredRoot p s₁ r imports) x ↔ Processed s₁ x := by
          intro x
          rw [Processed, Processed, hd]
        rw [visitBound, visitBound]
        simp only [hsm]
        omega
      rw [List.map_cons, List.sum_cons]
      dsimp only at hb ⊢
      omega

end

/-- **Processing an entity** succeeds, and all that it leads to is processed. -/
theorem processEntity_spec (hB : ∀ x y, B x → p.Visits x y → B y)
    (hfuel : s.unprocessed < fuel) (he : B e) :
    Succeeds (processEntity p fuel s e) (VisitedEntity p B s e) := by
  induction fuel generalizing s e with
  | zero => exact absurd hfuel (Nat.not_lt_zero _)
  | succ fuel ih =>
    rw [processEntity]
    by_cases hpr : Processed s e
    · rw [Processed] at hpr
      rw [if_pos hpr]
      exact .pure ⟨.refl _ _ _, hpr, le_rfl⟩
    have hm := unprocessed_mark_lt (p := p) hpr
    rw [Processed] at hpr
    rw [if_neg hpr]
    apply (processRoots_spec (s := mark p s e) (fun s d h1 h2 => ih h1 h2) (by omega) he
      (List.Subset.refl _) (fun r imports hr => hB e r he (.inr ⟨imports, hr⟩))).bind
    rintro s₁ ⟨h1, hrt, hb1⟩
    apply (processAll_spec (fun s d h1 h2 => ih h1 h2) (h1.unprocessed_le.trans_lt (by omega))
      (fun d hd => hB e d he (.inl hd))).imp
    rintro s₂ ⟨h2, hdp, hb2⟩
    refine ⟨.of_mark he (h1.trans h2) ?_ ?_, ?_, ?_⟩
    · rintro y (hy | ⟨imports, hy⟩)
      · exact hdp y hy
      · exact h2.processed_le y (hrt y imports hy).1
    · intro r imports hr j hj
      exact ((hrt r imports hr).2 j hj).trans (h2.pending_le r)
    · exact h2.processed_le e (h1.processed_le e (processed_mark.mpr (.inl rfl)))
    · have hm' := visitBound_mark (p := p) hpr
      rw [deferredCount] at hm'
      omega

end

/-! ## The loop -/

/-- The state between two items, with `k` items left for the main output unit. -/
structure Inv (p : Program Entity) (k : ℕ) (s : AlgorithmState Entity) : Prop where
  dependencies : ∀ x ds, s.directDependencies x = some ds → ds = p.directDependencies x
  closed : ∀ x, Processed s x → ∀ y, p.Visits x y → Processed s y
  processed_occurs : ∀ x, Processed s x → p.Occurs x
  queued_occurs : ∀ x, Queued s x → p.Occurs x
  roots_started : ∀ r ∈ p.roots, Processed s r ∨ Queued s r
  bounded : ∀ x, s.promised x ≤ p.importSets.mainSet
  covered : ∀ x, Covered p s x
  roots_promised : ∀ r ∈ p.roots, p.importSets.mainSet ≤ s.promised r
  deferred_promised : ∀ x, Processed s x → ∀ r imports, (r, imports) ∈ p.deferredRoots x →
    ∀ j ∈ imports, p.importSets.initialSetOf j ≤ s.promised r
  sound : ∀ x, ∀ i ∈ s.promised x, i ∈ p.assigned x
  main_of_mem : ∀ x, p.importSets.mainImport ∈ s.currentSet x →
    s.currentSet x = p.importSets.mainSet
  keys : Keys s
  phased : Phased p k s
  uniform : 0 < k → Uniform p s

section

variable {k : ℕ} {s₁ s₂ : AlgorithmState Entity} {old new : ImportSet}

theorem Inv.occurs (h : Inv p k s) (hq : s.queue = item :: queue) : p.Occurs item.entityData := by
  apply h.queued_occurs
  rw [Queued, hq]
  exact .head _

/-- The state with the first item removed. -/
theorem Inv.pop (h : Inv p k s) (hq : s.queue = item :: queue) :
    Keys { s with queue } ∧ Phased p (k - 1) { s with queue } ∧
      s.pending item.entityData = item.importsToAdd ∧
      (∀ x, x ≠ item.entityData → s.pending x = AlgorithmState.pending { s with queue } x) ∧
      AlgorithmState.pending { s with queue } item.entityData = ⊥ := by
  have hky := h.keys
  rw [Keys, hq, List.map_cons, nodup_cons] at hky
  obtain ⟨hk, hf, hl⟩ := h.phased
  rw [hq] at hk hf hl
  refine ⟨hky.2, ?_, ?_, ?_, itemSet_eq_bot hky.1⟩
  · cases k with
    | zero => exact ⟨Nat.zero_le _, by simp, fun it hit => hl it (.tail _ hit)⟩
    | succ k =>
      refine ⟨?_, ?_, ?_⟩
      · rw [length_cons] at hk
        exact le_of_succ_le_succ hk
      · intro it hit
        exact hf it (by rw [take_succ_cons]; exact .tail _ hit)
      · intro it hit
        exact hl it (by rwa [drop_succ_cons])
  · rw [pending, hq, itemSet_cons, if_pos rfl]
  · intro x hx
    rw [pending, hq, itemSet_cons, if_neg (Ne.symm hx)]
    rfl

/-- The step from one item to the next one: its entity is processed and updated. -/
structure ItemStep (p : Program Entity) (s : AlgorithmState Entity) (item : WorkItem Entity)
    (queue : List (WorkItem Entity)) (s₁ s₂ : AlgorithmState Entity) (new : ImportSet) : Prop where
  queue_eq : s.queue = item :: queue
  visited : Visited p p.Occurs { s with queue } s₁
  processed : Processed s₁ item.entityData
  new_eq : new = s.currentSet item.entityData ⊔ item.importsToAdd
  updates : Updates p (s.currentSet item.entityData) new (ReflTransGen p.Depends item.entityData)
    s₁ s₂
  promised : new ≤ s₂.promised item.entityData
  same : new = s.currentSet item.entityData → s₂ = s₁

variable (h : ItemStep p s item queue s₁ s₂ new)
include h

theorem ItemStep.currentSet_eq (x : Entity) : s₁.currentSet x = s.currentSet x :=
  h.visited.currentSet_eq x

theorem ItemStep.processed_iff (x : Entity) : Processed s₂ x ↔ Processed s₁ x := by
  rw [Processed, Processed, h.updates.processed]

theorem ItemStep.new_le (hs : Inv p k s) : new ≤ s.promised item.entityData := by
  obtain ⟨-, -, hi, -, -⟩ := hs.pop h.queue_eq
  rw [h.new_eq, AlgorithmState.promised, hi]

/-- After the items for the main output unit, no update is one to the main set. -/
theorem ItemStep.mainImport_notMem (hs : Inv p 0 s)
    (hne : new ≠ s.currentSet item.entityData) : p.importSets.mainImport ∉ new := by
  have hi : p.importSets.mainImport ∉ item.importsToAdd := by
    apply hs.phased.later
    rw [h.queue_eq, drop_zero]
    exact .head _
  rw [h.new_eq, mem_sup, not_or]
  refine ⟨?_, hi⟩
  intro hme
  have hm := hs.main_of_mem _ hme
  apply hne
  have hle := (h.new_le hs).trans (hs.bounded _)
  rw [h.new_eq, ← hm] at hle
  rw [h.new_eq]
  exact le_antisymm hle le_sup_left

variable (hs : Inv p k s)
include hs

/-- No promise is lost. -/
theorem ItemStep.promised_le (x : Entity) : s.promised x ≤ s₂.promised x := by
  obtain ⟨-, -, hi, ho, -⟩ := hs.pop h.queue_eq
  by_cases hx : x = item.entityData
  · rw [hx]
    refine le_trans ?_ h.promised
    rw [AlgorithmState.promised, hi, h.new_eq]
  refine le_trans ?_ (h.updates.promised_le x)
  apply sup_le_sup (h.currentSet_eq x).ge
  rw [ho x hx]
  exact h.visited.pending_le x

/-- Before the update, the queue has the other items and deferred roots. -/
theorem ItemStep.mem_pending {i : ℕ} (hi : i ∈ s₁.pending x) : i ∈ s.pending x ∨
      ∃ y imports j, p.Occurs y ∧ (x, imports) ∈ p.deferredRoots y ∧ j ∈ imports ∧
        i ∈ p.importSets.initialSetOf j := by
  obtain ⟨-, -, -, ho, hb⟩ := hs.pop h.queue_eq
  rcases h.visited.pending_in x i hi with hi | hi
  · by_cases hx : x = item.entityData
    · rw [hx, hb] at hi
      exact absurd hi not_mem_bot
    · rw [ho x hx]
      exact .inl hi
  · exact .inr hi

theorem ItemStep.sound (x : Entity) : ∀ i ∈ s₂.promised x, i ∈ p.assigned x := by
  have hn : ∀ x, ReflTransGen p.Depends item.entityData x → ∀ i ∈ new, i ∈ p.assigned x := by
    intro x hx i hi
    have hi' := hs.sound _ i (h.new_le hs i hi)
    induction hx with
    | refl => exact hi'
    | tail _ hd ih => exact collected_mono_edge hd ih
  intro i hi
  rcases mem_sup.mp hi with hi | hi
  · by_cases heq : s₂.currentSet x = s₁.currentSet x
    · rw [heq, h.currentSet_eq] at hi
      exact hs.sound x i (mem_sup.mpr (.inl hi))
    rcases mem_sup.mp (h.updates.value_ge x i hi) with hi | hi
    · rw [h.currentSet_eq] at hi
      exact hs.sound x i (mem_sup.mpr (.inl hi))
    · exact hn x (h.updates.value_in x heq) i hi
  · have hpn : ∀ i ∈ s₁.pending x, i ∈ p.assigned x := by
      intro i hi
      rcases h.mem_pending hs hi with hi | hi
      · exact hs.sound x i (mem_sup.mpr (.inr hi))
      · exact subset_collected (.inr hi)
    by_cases heq : s₂.pending x = s₁.pending x
    · rw [heq] at hi
      exact hpn i hi
    · rcases mem_sup.mp (h.updates.pending_ge x i hi) with hi | hi
      · exact hpn i hi
      · exact hn x (h.updates.pending_in x heq) i hi

theorem ItemStep.bounded (x : Entity) : s₂.promised x ≤ p.importSets.mainSet := by
  have hn : new ≤ p.importSets.mainSet := (h.new_le hs).trans (hs.bounded _)
  apply sup_le
  · apply (h.updates.value_ge x).trans (sup_le _ hn)
    rw [h.currentSet_eq]
    exact le_sup_left.trans (hs.bounded x)
  apply (h.updates.pending_ge x).trans (sup_le _ hn)
  intro i hi
  rcases h.mem_pending hs hi with hi | ⟨y, imports, j, -, hr, hj, hi⟩
  · exact hs.bounded x i (mem_sup.mpr (.inr hi))
  · exact ImportSetLattice.initialSetOf_le (p.deferred_imports y x imports hr hj) i hi

/-- As long as there are items for the main output unit, the update is one to the main set. -/
theorem ItemStep.new_eq_main (hk : 0 < k) :
    new = p.importSets.mainSet ∧
      (s.currentSet item.entityData = ⊥ ∨ new = s.currentSet item.entityData) := by
  have hi : item.importsToAdd = p.importSets.mainSet := by
    apply hs.phased.first
    obtain ⟨k, rfl⟩ := exists_eq_succ_of_ne_zero hk.ne'
    rw [h.queue_eq, take_succ_cons]
    exact .head _
  rcases hs.uniform hk item.entityData with hold | hold
  · rw [h.new_eq, hold, hi, bot_sup_eq]
    exact ⟨rfl, .inl rfl⟩
  · rw [h.new_eq, hold, hi, sup_idem]
    exact ⟨rfl, .inr rfl⟩

theorem ItemStep.uniform_visited (hk : 0 < k) : Uniform p s₁ := by
  intro x
  rw [h.currentSet_eq]
  exact hs.uniform hk x

theorem ItemStep.uniform (hk : 0 < k) : Uniform p s₂ :=
  h.updates.uniform (h.new_eq_main hs hk).1 (h.uniform_visited hs hk)

theorem ItemStep.main_of_mem (x : Entity)
    (hx : p.importSets.mainImport ∈ s₂.currentSet x) : s₂.currentSet x = p.importSets.mainSet := by
  cases k with
  | zero =>
    by_cases hsm : new = s.currentSet item.entityData
    · rw [h.same hsm, h.currentSet_eq] at hx ⊢
      exact hs.main_of_mem x hx
    have hme := (mem_sup.mp (h.updates.value_ge x _ hx)).resolve_right (h.mainImport_notMem hs hsm)
    have hle := h.updates.value_le x
    rw [h.currentSet_eq] at hme hle
    rw [hs.main_of_mem x hme] at hle
    exact le_antisymm (le_sup_left.trans (h.bounded hs x)) hle
  | succ k =>
    rcases h.uniform hs (succ_pos k) x with hb | hm
    · rw [hb] at hx
      exact absurd hx not_mem_bot
    · exact hm

theorem ItemStep.phased : Phased p (k - 1) s₂ := by
  obtain ⟨hky, hph, -, -, -⟩ := hs.pop h.queue_eq
  have hph1 := h.visited.phased _ hph
  by_cases hsm : new = s.currentSet item.entityData
  · rw [h.same hsm]
    exact hph1
  cases k with
  | zero =>
    refine ⟨Nat.zero_le _, by simp, ?_⟩
    intro it hit hm
    have hit' := (h.updates.keys (h.visited.keys hky)).pending_eq (mem_of_mem_drop hit)
    rw [← hit'] at hm
    have hm1 := (mem_sup.mp (h.updates.pending_ge _ _ hm)).resolve_right
      (h.mainImport_notMem hs hsm)
    by_cases hq : Queued s₁ it.entityData
    · obtain ⟨it1, hit1, -, hst⟩ := exists_item hq
      rw [hst] at hm1
      exact hph1.later it1 hit1 hm1
    · rw [pending_eq_bot hq] at hm1
      exact not_mem_bot hm1
  | succ k =>
    obtain ⟨hn, hb⟩ := h.new_eq_main hs (succ_pos k)
    have hqu := h.updates.queue_eq (hb.resolve_right hsm) hn (h.uniform_visited hs (succ_pos k))
    obtain ⟨h1, h2, h3⟩ := hph1
    rw [← hqu] at h1 h2 h3
    exact ⟨h1, h2, h3⟩

/-- **The invariant is kept**. -/
theorem ItemStep.inv : Inv p (k - 1) s₂ := by
  have hm := h.promised_le hs
  refine
    { dependencies := ?_, closed := ?_, processed_occurs := ?_, queued_occurs := ?_,
      roots_started := ?_, bounded := h.bounded hs, covered := ?_, roots_promised := ?_,
      deferred_promised := ?_, sound := h.sound hs, main_of_mem := h.main_of_mem hs,
      keys := h.updates.keys (h.visited.keys (hs.pop h.queue_eq).1), phased := h.phased hs,
      uniform := fun hk => h.uniform hs (by omega) }
  · rw [h.updates.processed]
    exact h.visited.dependencies hs.dependencies
  · intro x hx y hy
    rw [h.processed_iff] at hx ⊢
    by_cases hx' : Processed s x
    · exact h.visited.processed_le y (hs.closed x hx' y hy)
    · exact h.visited.closed x hx hx' y hy
  · intro x hx
    rw [h.processed_iff] at hx
    exact (h.visited.processed_in x hx).elim (hs.processed_occurs x) id
  · intro x hx
    rcases h.updates.queued_in x hx with hx | hx
    · rcases h.visited.queued_in x hx with hx | ⟨y, hy, hyx⟩
      · apply hs.queued_occurs
        rw [Queued, h.queue_eq]
        exact .tail _ hx
      · exact hy.visits hyx
    · exact (hs.occurs h.queue_eq).depends hx
  · intro r hr
    rw [h.processed_iff]
    rcases hs.roots_started r hr with hr | hr
    · exact .inl (h.visited.processed_le r hr)
    rw [Queued, h.queue_eq, List.map_cons, List.mem_cons] at hr
    rcases hr with rfl | hr
    · exact .inl h.processed
    · exact .inr (h.updates.queued_le r (h.visited.queued_le r hr))
  · intro x
    by_cases heq : s₂.currentSet x = s₁.currentSet x
    · intro d hd
      rw [heq, h.currentSet_eq]
      exact (hs.covered x d hd).trans (hm d)
    · exact h.updates.changed x heq
  · intro r hr
    exact (hs.roots_promised r hr).trans (hm r)
  intro x hx r imports hr j hj
  rw [h.processed_iff] at hx
  by_cases hx' : Processed s x
  · exact (hs.deferred_promised x hx' r imports hr j hj).trans (hm r)
  · exact (h.visited.deferred x hx hx' r imports hr j hj).trans
      ((h.updates.pending_le r).trans le_sup_right)

end

section

variable [Fintype Entity] {k fuel : ℕ}

/-- A bound for the number of items still to process. -/
def bound (p : Program Entity) (s : AlgorithmState Entity) : ℕ :=
  potential p s + ∑ x ∈ Finset.univ.filter fun x => ¬ Processed s x, deferredCount p x

/-- **An item is processed**, and there are fewer left. -/
theorem processNextItem_spec
    (hs : Inv p k s) (hq : s.queue = item :: queue) (hfuel : Fintype.card Entity < fuel) :
    Succeeds (processNextItem p fuel { s with queue } item)
      (fun s' => Inv p (k - 1) s' ∧ bound p s' < bound p s) := by
  have hu : ∀ s : AlgorithmState Entity, s.unprocessed < fuel :=
    fun _ => (card_le_univ _).trans_lt hfuel
  apply (processEntity_spec (fun x y hx hxy => hx.visits hxy) (hu _) (hs.occurs hq)).bind
  intro s₁ h1
  have hv := h1.currentSet_eq
  have hb1 : bound p s₁ + 1 ≤ bound p s := by
    have hvs := h1.visitBound_le
    have hr : ∀ x, room p s₁ x = room p s x := by
      intro x
      rw [room, room, hv]
      rfl
    have hl : s.queue.length = queue.length + 1 := by rw [hq, length_cons]
    rw [visitBound, visitBound] at hvs
    change _ ≤ queue.length + ∑ x ∈ Finset.univ.filter fun x => ¬ Processed s x, _ at hvs
    rw [bound, bound, potential, potential]
    simp only [hr]
    omega
  have hold : s₁.currentSet item.entityData = s.currentSet item.entityData := hv _
  dsimp only
  rw [union_eq_sup, hold]
  -- Nothing to do, or a proper update.
  by_cases hsm : s.currentSet item.entityData ⊔ item.importsToAdd = s.currentSet item.entityData
  · obtain _ | fuel := fuel
    · omega
    rw [update, if_pos (hold.trans hsm.symm)]
    have hst : ItemStep p s item queue s₁ s₁ (s.currentSet item.entityData ⊔ item.importsToAdd) :=
      ⟨hq, h1.toVisited, h1.processed, rfl, .refl _ _ _ _ _,
        by rw [hsm, ← hold]; exact le_sup_left, fun _ => rfl⟩
    exact .pure ⟨hst.inv hs, by omega⟩
  · have hlt : s.currentSet item.entityData < s.currentSet item.entityData ⊔ item.importsToAdd :=
      lt_of_le_of_ne le_sup_left (Ne.symm hsm)
    obtain ⟨-, -, hi, -, -⟩ := hs.pop hq
    have hm : s.currentSet item.entityData ⊔ item.importsToAdd ≤ p.importSets.mainSet := by
      rw [← hi]
      exact hs.bounded _
    have hrd : Ready p (s.currentSet item.entityData)
        (s.currentSet item.entityData ⊔ item.importsToAdd) fuel s₁ := by
      refine ⟨h1.dependencies hs.dependencies, ?_, ?_, ?_, ?_⟩
      · intro x hx d hd
        by_cases hx' : Processed s x
        · exact h1.processed_le d (hs.closed x hx' d (.inl hd))
        · exact h1.closed x hx hx' d (.inl hd)
      · intro x
        rw [hv]
        exact le_sup_left.trans (hs.bounded x)
      · intro hb hn x
        rw [hv]
        rcases Nat.eq_zero_or_pos k with rfl | hk
        · -- An item that is not for the main output unit does not give the main set.
          have hnt := hs.phased.later item (by rw [hq]; exact .head _)
          rw [hb, bot_sup_eq] at hn
          rw [hn] at hnt
          exact absurd (p.importSets.mainImport_mem) hnt
        · exact hs.uniform hk x
      · exact (card_le_univ _).trans_lt hfuel
    apply (update_spec (A := ReflTransGen p.Depends item.entityData) hlt hm
      (fun x hx d hd => hx.tail hd) hrd h1.processed .refl).imp
    intro s₂ h2
    have hst : ItemStep p s item queue s₁ s₂ (s.currentSet item.entityData ⊔ item.importsToAdd) :=
      ⟨hq, h1.toVisited, h1.processed, rfl, h2.toUpdates, h2.promised, fun h => absurd h hsm⟩
    refine ⟨hst.inv hs, ?_⟩
    have hpt := h2.potential_le
    rw [if_pos hold] at hpt
    rw [bound] at hb1 ⊢
    simp only [hst.processed_iff]
    omega

/-- **The queue is emptied**. -/
theorem emptyQueue_spec {n : ℕ} (hs : Inv p k s) (hfuel : Fintype.card Entity < fuel)
    (hn : bound p s < n) :
    Succeeds (emptyQueue p fuel n s) (fun s' => s'.queue = [] ∧ ∃ k, Inv p k s') := by
  induction n generalizing s k with
  | zero => exact absurd hn (Nat.not_lt_zero _)
  | succ n ih =>
    rw [emptyQueue]
    split
    next hq => exact .pure ⟨hq, k, hs⟩
    next item queue hq =>
      apply (processNextItem_spec hs hq hfuel).bind
      rintro s' ⟨hs', hb⟩
      exact ih hs' (by omega)

end

/-! ## The start -/

/-- Only roots of the main output unit have been queued. -/
structure Starting (p : Program Entity) (s : AlgorithmState Entity) : Prop where
  entityToSet_eq : s.entityToSet = fun _ => none
  directDependencies_eq : s.directDependencies = fun _ => none
  keys : Keys s
  items : ∀ item ∈ s.queue, item.importsToAdd = p.importSets.mainSet ∧ item.entityData ∈ p.roots

theorem Starting.addEntityData (h : Starting p s) (hr : r ∈ p.roots) :
    Starting p (s.addEntityData r p.importSets.mainSet) := by
  refine ⟨entityToSet_addEntityData.trans h.entityToSet_eq,
    directDependencies_addEntityData.trans h.directDependencies_eq, h.keys.addEntityData _ _, ?_⟩
  intro item hi
  rcases queue_addEntityData s r p.importSets.mainSet with ⟨-, hq⟩ | ⟨-, hq⟩
  · rw [hq] at hi
    refine ⟨forall_addToItem (· = _) (fun item hi => (h.items item hi).1)
      (fun old hold => by rw [hold, sup_idem]) item hi, ?_⟩
    obtain ⟨item', hi', rfl⟩ := List.mem_map.mp hi
    rw [addToItem_entityData]
    exact (h.items item' hi').2
  · rw [hq, mem_append, List.mem_singleton] at hi
    rcases hi with hi | rfl
    · exact h.items item hi
    · exact ⟨rfl, hr⟩

theorem start_starting (p : Program Entity) :
    Starting p (start p) ∧ ∀ r ∈ p.roots, Queued (start p) r := by
  suffices ha : ∀ rs, rs ⊆ p.roots → ∀ s, Starting p s →
      let s' := rs.foldl (fun s e => s.addEntityData e p.importSets.mainSet) s
      Starting p s' ∧ (∀ r ∈ rs, Queued s' r) ∧ ∀ x, Queued s x → Queued s' x by
    obtain ⟨hst, hq, -⟩ := ha p.roots (List.Subset.refl _) empty
      ⟨rfl, rfl, nodup_nil, fun _ h => absurd h not_mem_nil⟩
    exact ⟨hst, hq⟩
  intro rs
  induction rs with
  | nil =>
    intro _ s hs
    exact ⟨hs, fun _ h => absurd h not_mem_nil, fun _ h => h⟩
  | cons r rs ih =>
    intro hsb s hs
    obtain ⟨hst, hq, hm⟩ := ih (subset_of_cons_subset hsb)
      (s.addEntityData r p.importSets.mainSet) (hs.addEntityData (hsb List.mem_cons_self))
    refine ⟨hst, ?_, ?_⟩
    · intro r' hr'
      rcases List.mem_cons.mp hr' with rfl | hr'
      · exact hm r' (queued_addEntityData.mpr (.inr rfl))
      · exact hq r' hr'
    · intro x hx
      exact hm x (queued_addEntityData.mpr (.inl hx))

theorem start_inv (p : Program Entity) : Inv p (start p).queue.length (start p) := by
  obtain ⟨hst, hq⟩ := start_starting p
  have hv : ∀ x, (start p).currentSet x = ⊥ := by
    intro x
    rw [currentSet, hst.entityToSet_eq]
    rfl
  have hpr : ∀ x, ¬ Processed (start p) x := by
    intro x hx
    rw [Processed, hst.directDependencies_eq] at hx
    cases hx
  have hpn : ∀ x, Queued (start p) x →
      (start p).pending x = p.importSets.mainSet ∧ x ∈ p.roots := by
    intro x hx
    obtain ⟨item, hit, rfl, hse⟩ := exists_item hx
    rw [hse]
    exact hst.items item hit
  have hpm : ∀ x, Queued (start p) x → (start p).promised x = p.importSets.mainSet := by
    intro x hx
    rw [promised, hv, bot_sup_eq, (hpn x hx).1]
  have ho : ∀ x, ¬ Queued (start p) x → (start p).promised x = ⊥ := by
    intro x hx
    rw [promised, hv, bot_sup_eq, pending_eq_bot hx]
  refine
    { dependencies := ?_, closed := fun x hx => absurd hx (hpr x),
      processed_occurs := fun x hx => absurd hx (hpr x),
      queued_occurs := fun x hx => ⟨x, (hpn x hx).2, .refl⟩,
      roots_started := fun r hr => .inr (hq r hr), bounded := ?_, covered := ?_,
      roots_promised := fun r hr => (hpm r (hq r hr)).ge,
      deferred_promised := fun x hx => absurd hx (hpr x), sound := ?_, main_of_mem := ?_,
      keys := hst.keys, phased := ?_, uniform := fun _ x => .inl (hv x) }
  · intro x ds hds
    rw [hst.directDependencies_eq] at hds
    cases hds
  · intro x
    by_cases hx : Queued (start p) x
    · exact (hpm x hx).le
    · rw [ho x hx]
      exact bot_le
  · intro x d _
    rw [hv]
    exact bot_le
  · intro x i hi
    by_cases hx : Queued (start p) x
    · rw [hpm x hx] at hi
      exact subset_collected (.inl ⟨(hpn x hx).2, hi⟩)
    · rw [ho x hx] at hi
      exact absurd hi not_mem_bot
  · intro x hx
    rw [hv] at hx
    exact absurd hx not_mem_bot
  refine ⟨le_rfl, ?_, ?_⟩
  · intro item hit
    rw [take_length] at hit
    exact (hst.items item hit).1
  · intro item hit
    rw [drop_length] at hit
    cases hit

/-! ## The end -/

/-- With an empty queue, the promises are kept, and all that occurs has been processed. -/
theorem Inv.exact {k : ℕ} (hs : Inv p k s) (hq : s.queue = []) (x : Entity) (i : ℕ) :
    i ∈ s.currentSet x ↔ i ∈ p.assigned x := by
  have hpr : ∀ x, s.promised x = s.currentSet x := by
    intro x
    rw [promised, pending, hq, itemSet_nil, sup_bot_eq]
  have hpc : ∀ x, p.Occurs x → Processed s x := by
    rintro x ⟨r, hr, hrx⟩
    induction hrx with
    | refl =>
      refine (hs.roots_started r hr).resolve_right ?_
      rw [Queued, hq]
      exact not_mem_nil
    | tail _ hxy ih => exact hs.closed _ ih _ hxy
  constructor
  · intro hi
    rw [← hpr] at hi
    exact hs.sound x i hi
  intro hi
  apply collected_subset _ _ hi
  · rintro y j (⟨hy, hj⟩ | ⟨z, imports, l, hz, hy, hl, hj⟩)
    · exact hpr y ▸ hs.roots_promised y hy j hj
    · exact hpr y ▸ hs.deferred_promised z (hpc z hz) y imports hy l hl j hj
  · intro y z hyz j hj
    exact hpr z ▸ hs.covered y z hyz j hj

end AlgorithmState

/-- Two programs with the same imports, roots and edges, listed in any order. -/
structure Program.SameGraph (p q : Program Entity) : Prop where
  importSets : p.importSets = q.importSets
  roots : ∀ x, x ∈ p.roots ↔ x ∈ q.roots
  dependencies : ∀ x y, y ∈ p.directDependencies x ↔ y ∈ q.directDependencies x
  deferredRoots : ∀ x r, (∃ imports, (r, imports) ∈ p.deferredRoots x) ↔
    ∃ imports, (r, imports) ∈ q.deferredRoots x
  deferredImports : ∀ x r j, (∃ imports, (r, imports) ∈ p.deferredRoots x ∧ j ∈ imports) ↔
    ∃ imports, (r, imports) ∈ q.deferredRoots x ∧ j ∈ imports

theorem Program.mem_rootImports {i : ℕ} : i ∈ p.rootImports x ↔
    x ∈ p.roots ∧ i ∈ p.importSets.mainSet ∨
      ∃ y j, p.Occurs y ∧ (∃ imports, (x, imports) ∈ p.deferredRoots y ∧ j ∈ imports) ∧
        i ∈ p.importSets.initialSetOf j := by
  refine or_congr Iff.rfl ⟨?_, ?_⟩
  · rintro ⟨y, imports, j, hy, hx, hj, hi⟩
    exact ⟨y, j, hy, ⟨imports, hx, hj⟩, hi⟩
  · rintro ⟨y, j, hy, ⟨imports, hx, hj⟩, hi⟩
    exact ⟨y, imports, j, hy, hx, hj, hi⟩

theorem Program.SameGraph.assigned_eq {q : Program Entity} (h : p.SameGraph q) (x : Entity) :
    p.assigned x = q.assigned x := by
  have hd : p.Depends = q.Depends := by
    funext x y
    exact propext (h.dependencies x y)
  have hv : p.Visits = q.Visits := by
    funext x y
    exact propext (or_congr (h.dependencies x y) (h.deferredRoots x y))
  have ho : ∀ y, p.Occurs y ↔ q.Occurs y := by
    intro y
    rw [Program.Occurs, Program.Occurs, hv]
    simp only [h.roots]
  have hr : p.rootImports = q.rootImports := by
    ext y i
    simp only [Program.mem_rootImports, h.roots, h.importSets, ho, h.deferredImports]
  rw [Program.assigned, Program.assigned, hd, hr]

section

variable [DecidableEq Entity] [Fintype Entity]

theorem create_assigned (p : Program Entity) {fuel n : ℕ} (hfuel : Fintype.card Entity < fuel)
    (hn : bound p (start p) < n) :
    Succeeds (create p fuel n) (fun s => ∀ x i, i ∈ s.currentSet x ↔ i ∈ p.assigned x) := by
  apply (emptyQueue_spec (start_inv p) hfuel hn).imp
  rintro s ⟨hq, k, hs⟩
  exact hs.exact hq

/-- **The deferred loading algorithm** ends for every program, without a failed assertion, and
assigns to each entity the imports of all roots from which it can be reached. The order in which
roots, dependencies and deferred roots are listed does not matter. -/
theorem deferredLoad_spec (p : Program Entity) :
    (∃ n, ∀ fuel > Fintype.card Entity, ∀ m ≥ n,
      ∃ s, create p fuel m = .ok s ∧ ∀ x i, i ∈ s.currentSet x ↔ i ∈ p.assigned x) ∧
    ∀ q, p.SameGraph q → ∃ n, ∀ fuel > Fintype.card Entity, ∀ m ≥ n,
      ∃ s s', create p fuel m = .ok s ∧ create q fuel m = .ok s' ∧
        ∀ x, s.currentSet x = s'.currentSet x := by
  constructor
  · refine ⟨bound p (start p) + 1, ?_⟩
    intro fuel hfuel m hm
    exact create_assigned p hfuel hm
  intro q hq
  refine ⟨max (bound p (start p)) (bound q (start q)) + 1, ?_⟩
  intro fuel hfuel m hm
  obtain ⟨s, hs, ha⟩ := create_assigned p hfuel (n := m) (by omega)
  obtain ⟨s', hs', ha'⟩ := create_assigned q hfuel (n := m) (by omega)
  refine ⟨s, s', hs, hs', ?_⟩
  intro x
  apply eq_of_mem_iff
  intro i
  rw [ha, ha', hq.assigned_eq]

end

/-- `main` loads `1` and `2`, which depend on each other, with two imports. -/
def cyclic (dependencies : List (Fin 4)) : Program (Fin 4) where
  importSets :=
    { mainImport := 0, allDeferredImports := [1, 2], singletonTransitions := fun _ => none,
      mainImport_notMem := by decide, transitions_subset := fun _ _ h => nomatch h }
  roots := [0]
  directDependencies e := if e = 1 then dependencies else if e = 2 then [1] else []
  deferredRoots e := if e = 0 then [(1, [1]), (2, [2])] else []
  needsRecursiveUpdate _ := true
  local_dependencies := fun _ h => nomatch h
  deferred_imports := by
    intro e r imports h
    split at h
    · simp only [List.mem_cons, Prod.mk.injEq, not_mem_nil, or_false] at h
      rcases h with ⟨-, rfl⟩ | ⟨-, rfl⟩ <;> decide
    · cases h

theorem deferredLoad_spec_cyclic :
    (cyclic [2, 3]).SameGraph (cyclic [3, 2]) ∧
      ∃ n, ∀ fuel > Fintype.card (Fin 4), ∀ m ≥ n,
        ∃ s s', create (cyclic [2, 3]) fuel m = .ok s ∧ create (cyclic [3, 2]) fuel m = .ok s' ∧
          ∀ x, s.currentSet x = s'.currentSet x := by
  have hsm : (cyclic [2, 3]).SameGraph (cyclic [3, 2]) :=
    ⟨rfl, fun _ => Iff.rfl, by decide, fun _ _ => Iff.rfl, fun _ _ _ => Iff.rfl⟩
  exact ⟨hsm, (deferredLoad_spec (cyclic [2, 3])).2 _ hsm⟩

end Compiler.DeferredLoad
