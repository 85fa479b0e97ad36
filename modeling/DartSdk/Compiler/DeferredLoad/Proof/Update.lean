import DartSdk.Compiler.DeferredLoad.AlgorithmState
import DartSdk.Compiler.DeferredLoad.Proof.ImportSet
import DartSdk.Lib.Fallible
import Mathlib.Algebra.Order.BigOperators.Group.Finset

/-!
# One update

An entity is promised its set and what its item in the queue adds (`promised`). An update to
`newSet` raises sets to `newSet`, and wherever it raises a set, the dependencies of the entity are
promised it (`Updates.changed`).

* `update_spec`: **an update succeeds** and promises the entity its `newSet`.
-/

namespace Compiler.DeferredLoad.AlgorithmState

open Fallible WorkItem List Finset Function

variable {Entity : Type} [DecidableEq Entity] {p : Program Entity} {s s' t : AlgorithmState Entity}
  {e x d : Entity} {set old new : ImportSet} {qu : List (WorkItem Entity)} {A : Entity → Prop}

/-! ## Assignments and the queue -/

theorem currentSet_assign (s : AlgorithmState Entity) (e x : Entity) (set : ImportSet) :
    (s.assign e set).currentSet x = if x = e then set else s.currentSet x := by
  show (if x = e then some set else s.entityToSet x).getD .emptySet = _
  split <;> rfl

@[simp] theorem currentSet_assign_self : (s.assign e set).currentSet e = set := by
  rw [currentSet_assign, if_pos rfl]

theorem currentSet_assign_of_ne (h : x ≠ e) : (s.assign e set).currentSet x = s.currentSet x := by
  rw [currentSet_assign, if_neg h]

/-- The imports of the item for an entity in a queue. -/
def itemSet (qu : List (WorkItem Entity)) (e : Entity) : ImportSet :=
  ((qu.find? fun item => item.entityData = e).map importsToAdd).getD ⊥

def pending (s : AlgorithmState Entity) (e : Entity) : ImportSet := itemSet s.queue e

/-- What an entity has, or will have from the queue. -/
def promised (s : AlgorithmState Entity) (e : Entity) : ImportSet := s.currentSet e ⊔ s.pending e

/-- Each entity has one item in the queue. -/
def Keys (s : AlgorithmState Entity) : Prop := (s.queue.map entityData).Nodup

/-- There is an item for the entity in the queue. -/
def Queued (s : AlgorithmState Entity) (e : Entity) : Prop := e ∈ s.queue.map entityData

theorem itemSet_nil : itemSet ([] : List (WorkItem Entity)) e = ⊥ := rfl

theorem itemSet_cons (it : WorkItem Entity) (qu : List (WorkItem Entity)) :
    itemSet (it :: qu) e = if it.entityData = e then it.importsToAdd else itemSet qu e := by
  rw [itemSet, find?_cons]
  by_cases h : it.entityData = e
  · rw [if_pos h, decide_eq_true h]
    rfl
  · rw [if_neg h, decide_eq_false h]
    rfl

theorem itemSet_eq_bot (h : e ∉ qu.map entityData) : itemSet qu e = ⊥ := by
  induction qu with
  | nil => rfl
  | cons item qu ih =>
    rw [List.map_cons, List.mem_cons, not_or] at h
    rw [itemSet_cons, if_neg (Ne.symm h.1), ih h.2]

theorem itemSet_append_single (qu : List (WorkItem Entity)) (it : WorkItem Entity)
    (h : it.entityData ∉ qu.map entityData) :
    itemSet (qu ++ [it]) e = itemSet qu e ⊔ (if e = it.entityData then it.importsToAdd else ⊥) := by
  induction qu with
  | nil =>
    rw [nil_append, itemSet_cons, itemSet_nil, bot_sup_eq]
    simp only [eq_comm]
  | cons head qu ih =>
    rw [List.map_cons, List.mem_cons, not_or] at h
    rw [cons_append, itemSet_cons, itemSet_cons, ih h.2]
    split
    next heq =>
      rw [if_neg (by rw [← heq]; exact Ne.symm h.1), sup_bot_eq]
    next => rfl

/-- The queue with a set added to the item of `e`. -/
def addToItem (e : Entity) (set : ImportSet) (item : WorkItem Entity) : WorkItem Entity :=
  if item.entityData = e then { item with importsToAdd := item.importsToAdd.union set } else item

theorem addToItem_entityData (it : WorkItem Entity) :
    (addToItem e set it).entityData = it.entityData := by
  rw [addToItem]
  split <;> rfl

theorem itemSet_map_addToItem_of_ne (qu : List (WorkItem Entity)) (h : x ≠ e) :
    itemSet (qu.map (addToItem e set)) x = itemSet qu x := by
  induction qu with
  | nil => rfl
  | cons item qu ih =>
    rw [List.map_cons, itemSet_cons, itemSet_cons, ih, addToItem_entityData]
    split
    next hi => rw [addToItem, if_neg (by rw [hi]; exact h)]
    next => rfl

theorem itemSet_map_addToItem_self (h : e ∈ qu.map entityData) :
    itemSet (qu.map (addToItem e set)) e = itemSet qu e ⊔ set := by
  induction qu with
  | nil => cases h
  | cons item qu ih =>
    rw [List.map_cons, itemSet_cons, itemSet_cons, addToItem_entityData]
    by_cases hi : item.entityData = e
    · rw [if_pos hi, if_pos hi, addToItem, if_pos hi]
      rfl
    rw [if_neg hi, if_neg hi]
    apply ih
    rw [List.map_cons, List.mem_cons] at h
    exact h.resolve_left (Ne.symm hi)

/-- The two ways in which an item is added. -/
theorem queue_addEntityData (s : AlgorithmState Entity) (e : Entity) (set : ImportSet) :
    e ∈ s.queue.map entityData ∧ (s.addEntityData e set).queue = s.queue.map (addToItem e set) ∨
      e ∉ s.queue.map entityData ∧ (s.addEntityData e set).queue = s.queue ++ [⟨e, set⟩] := by
  have ha : s.queue.any (fun item => item.entityData = e) = true ↔ e ∈ s.queue.map entityData := by
    simp [any_eq_true, List.mem_map]
  rw [addEntityData]
  by_cases h : e ∈ s.queue.map entityData
  · rw [if_pos (ha.mpr h)]
    exact .inl ⟨h, rfl⟩
  · rw [if_neg (mt ha.mp h)]
    exact .inr ⟨h, rfl⟩

@[simp] theorem currentSet_addEntityData : (s.addEntityData e set).currentSet x = s.currentSet x := by
  rw [addEntityData]
  split <;> rfl

theorem entityToSet_addEntityData : (s.addEntityData e set).entityToSet = s.entityToSet := by
  rw [addEntityData]
  split <;> rfl

@[simp] theorem directDependencies_addEntityData :
    (s.addEntityData e set).directDependencies = s.directDependencies := by
  rw [addEntityData]
  split <;> rfl

theorem pending_addEntityData (s : AlgorithmState Entity) (e x : Entity) (set : ImportSet) :
    (s.addEntityData e set).pending x = s.pending x ⊔ (if x = e then set else ⊥) := by
  rw [pending, pending]
  rcases queue_addEntityData s e set with ⟨hm, hq⟩ | ⟨hm, hq⟩
  · rw [hq]
    split
    next h =>
      rw [h]
      exact itemSet_map_addToItem_self hm
    next h => rw [itemSet_map_addToItem_of_ne _ h, sup_bot_eq]
  · rw [hq, itemSet_append_single _ _ hm]

theorem Keys.addEntityData (h : Keys s) (e : Entity) (set : ImportSet) :
    Keys (s.addEntityData e set) := by
  rw [Keys] at h ⊢
  rcases queue_addEntityData s e set with ⟨-, hq⟩ | ⟨hm, hq⟩
  · rw [hq, List.map_map]
    simpa only [comp_def, addToItem_entityData] using h
  · rw [hq, map_append, List.map_singleton]
    exact h.append (nodup_singleton e) (by simpa [List.disjoint_singleton] using hm)

theorem queued_addEntityData : Queued (s.addEntityData e set) x ↔ Queued s x ∨ x = e := by
  rw [Queued, Queued]
  rcases queue_addEntityData s e set with ⟨hm, hq⟩ | ⟨-, hq⟩
  · rw [hq, List.map_map]
    simp only [comp_def, addToItem_entityData]
    refine ⟨.inl, ?_⟩
    rintro (h | rfl)
    · exact h
    · exact hm
  · rw [hq, map_append, List.map_singleton, mem_append, List.mem_singleton]

theorem length_addEntityData (s : AlgorithmState Entity) (e : Entity) (set : ImportSet) :
    (s.addEntityData e set).queue.length ≤ s.queue.length + 1 := by
  rcases queue_addEntityData s e set with ⟨-, hq⟩ | ⟨-, hq⟩
  · rw [hq, length_map]
    omega
  · rw [hq, length_append, length_singleton]

/-! ## What updates do -/

/-- The dependencies of an entity are promised its set. -/
def Covered (p : Program Entity) (s : AlgorithmState Entity) (x : Entity) : Prop :=
  ∀ d ∈ p.directDependencies x, s.currentSet x ≤ s.promised d

/-- Every set is empty or the main set. -/
def Uniform (p : Program Entity) (s : AlgorithmState Entity) : Prop :=
  ∀ x, s.currentSet x = ⊥ ∨ s.currentSet x = p.importSets.mainSet

/-- What updates from `old` to `new` do to entities in the region `A`. -/
structure Updates (p : Program Entity) (old new : ImportSet) (A : Entity → Prop)
    (s s' : AlgorithmState Entity) : Prop where
  processed : s'.directDependencies = s.directDependencies
  value_le : ∀ x, s.currentSet x ≤ s'.currentSet x
  value_ge : ∀ x, s'.currentSet x ≤ s.currentSet x ⊔ new
  pending_le : ∀ x, s.pending x ≤ s'.pending x
  pending_ge : ∀ x, s'.pending x ≤ s.pending x ⊔ new
  raised : ∀ x, s'.currentSet x ≠ s.currentSet x → new ≤ s'.currentSet x
  changed : ∀ x, s'.currentSet x ≠ s.currentSet x → Covered p s' x
  value_in : ∀ x, s'.currentSet x ≠ s.currentSet x → A x
  pending_in : ∀ x, s'.pending x ≠ s.pending x → A x
  queued_le : ∀ x, Queued s x → Queued s' x
  queued_in : ∀ x, Queued s' x → Queued s x ∨ A x
  keys : Keys s → Keys s'
  queue_eq : old = ⊥ → new = p.importSets.mainSet → Uniform p s → s'.queue = s.queue

theorem Updates.promised_le (h : Updates p old new A s s') (x : Entity) :
    s.promised x ≤ s'.promised x :=
  sup_le_sup (h.value_le x) (h.pending_le x)

theorem Updates.covered (h : Updates p old new A s s') (hx : Covered p s x) : Covered p s' x := by
  by_cases heq : s'.currentSet x = s.currentSet x
  · intro d hd
    rw [heq]
    exact (hx d hd).trans (h.promised_le d)
  · exact h.changed x heq

/-- A set that is raised to the main set is the main set. -/
theorem Updates.uniform (h : Updates p old new A s s') (hn : new = p.importSets.mainSet)
    (hs : Uniform p s) : Uniform p s' := by
  intro x
  by_cases heq : s'.currentSet x = s.currentSet x
  · rw [heq]
    exact hs x
  right
  apply le_antisymm
  · apply (h.value_ge x).trans
    rw [hn]
    rcases hs x with hx | hx <;> rw [hx] <;> simp
  · rw [← hn]
    exact h.raised x heq

theorem Updates.refl (p : Program Entity) (old new : ImportSet) (A : Entity → Prop)
    (s : AlgorithmState Entity) : Updates p old new A s s where
  processed := rfl
  value_le _ := le_rfl
  value_ge _ := le_sup_left
  pending_le _ := le_rfl
  pending_ge _ := le_sup_left
  raised _ h := absurd rfl h
  changed _ h := absurd rfl h
  value_in _ h := absurd rfl h
  pending_in _ h := absurd rfl h
  queued_le _ h := h
  queued_in _ h := .inl h
  keys h := h
  queue_eq _ _ _ := rfl

theorem Updates.trans (h : Updates p old new A s s') (h' : Updates p old new A s' t) :
    Updates p old new A s t where
  processed := h'.processed.trans h.processed
  value_le x := (h.value_le x).trans (h'.value_le x)
  value_ge x := (h'.value_ge x).trans (sup_le (h.value_ge x) le_sup_right)
  pending_le x := (h.pending_le x).trans (h'.pending_le x)
  pending_ge x := (h'.pending_ge x).trans (sup_le (h.pending_ge x) le_sup_right)
  raised x hx := by
    by_cases heq : t.currentSet x = s'.currentSet x
    · rw [heq] at hx ⊢
      exact h.raised x hx
    · exact h'.raised x heq
  changed x hx := by
    by_cases heq : t.currentSet x = s'.currentSet x
    · rw [heq] at hx
      exact h'.covered (h.changed x hx)
    · exact h'.changed x heq
  value_in x hx := by
    by_cases heq : t.currentSet x = s'.currentSet x
    · rw [heq] at hx
      exact h.value_in x hx
    · exact h'.value_in x heq
  pending_in x hx := by
    by_cases heq : t.pending x = s'.pending x
    · rw [heq] at hx
      exact h.pending_in x hx
    · exact h'.pending_in x heq
  queued_le x hx := h'.queued_le x (h.queued_le x hx)
  queued_in x hx := (h'.queued_in x hx).elim (h.queued_in x) .inr
  keys hs := h'.keys (h.keys hs)
  queue_eq hold hn hs := (h'.queue_eq hold hn (h.uniform hn hs)).trans (h.queue_eq hold hn hs)

theorem Updates.addEntityData (he : A e) (hne : s.currentSet e ≠ old)
    (hm : s.currentSet e ≠ p.importSets.mainSet) :
    Updates p old new A s (s.addEntityData e new) where
  processed := directDependencies_addEntityData
  value_le _ := currentSet_addEntityData.ge
  value_ge _ := currentSet_addEntityData.le.trans le_sup_left
  pending_le x := by
    rw [pending_addEntityData]
    exact le_sup_left
  pending_ge x := by
    rw [pending_addEntityData]
    apply sup_le_sup_left
    split <;> simp
  raised _ h := absurd currentSet_addEntityData h
  changed _ h := absurd currentSet_addEntityData h
  value_in _ h := absurd currentSet_addEntityData h
  pending_in x h := by
    rw [pending_addEntityData] at h
    by_cases hx : x = e
    · rw [hx]
      exact he
    · rw [if_neg hx, sup_bot_eq] at h
      exact absurd rfl h
  queued_le x h := queued_addEntityData.mpr (.inl h)
  queued_in x h := by
    rcases queued_addEntityData.mp h with h | rfl
    · exact .inl h
    · exact .inr he
  keys h := h.addEntityData e new
  queue_eq hold _ hs := by
    rcases hs e with h | h
    · exact absurd (h.trans hold.symm) hne
    · exact absurd h hm

/-- An entity without dependencies is raised in place. -/
theorem Updates.assign (he : A e) (hst : set = s.currentSet e ⊔ new)
    (hdp : p.directDependencies e = []) : Updates p old new A s (s.assign e set) where
  processed := rfl
  value_le x := by
    rw [currentSet_assign]
    split
    next h => rw [h, hst]; exact le_sup_left
    next => exact le_rfl
  value_ge x := by
    rw [currentSet_assign]
    split
    next h => rw [h, hst]
    next => exact le_sup_left
  pending_le _ := le_rfl
  pending_ge _ := le_sup_left
  raised x hx := by
    rw [currentSet_assign] at hx ⊢
    split
    next h => rw [hst]; exact le_sup_right
    next h => exact absurd (if_neg h) hx
  changed x hx := by
    rw [currentSet_assign] at hx
    by_cases h : x = e
    · intro d hd
      rw [h, hdp] at hd
      cases hd
    · exact absurd (if_neg h) hx
  value_in x hx := by
    rw [currentSet_assign] at hx
    by_cases h : x = e
    · rw [h]
      exact he
    · exact absurd (if_neg h) hx
  pending_in _ h := absurd rfl h
  queued_le _ h := h
  queued_in _ h := .inl h
  keys h := h
  queue_eq _ _ _ := rfl

/-- An entity is raised first, and its dependencies afterwards. -/
theorem Updates.of_assign (he : A e) (hold : s.currentSet e = old) (hlt : old < new)
    (h : Updates p old new A (s.assign e new) s')
    (hdp : ∀ d ∈ p.directDependencies e, new ≤ s'.promised d) : Updates p old new A s s' where
  processed := h.processed
  value_le x := by
    refine le_trans ?_ (h.value_le x)
    rw [currentSet_assign]
    split
    next hx => rw [hx, hold]; exact hlt.le
    next => exact le_rfl
  value_ge x := by
    apply (h.value_ge x).trans
    rw [currentSet_assign]
    split
    next => simp
    next => exact le_rfl
  pending_le := h.pending_le
  pending_ge := h.pending_ge
  raised x hx := by
    by_cases hxe : x = e
    · rw [hxe]
      have hle := h.value_le e
      rwa [currentSet_assign_self] at hle
    · apply h.raised x
      rwa [currentSet_assign_of_ne hxe]
  changed x hx := by
    by_cases hxe : x = e
    · intro d hd
      rw [hxe] at hd ⊢
      apply ((h.value_ge e).trans _).trans (hdp d hd)
      simp
    · apply h.changed x
      rwa [currentSet_assign_of_ne hxe]
  value_in x hx := by
    by_cases hxe : x = e
    · rw [hxe]
      exact he
    · apply h.value_in x
      rwa [currentSet_assign_of_ne hxe]
  pending_in := h.pending_in
  queued_le := h.queued_le
  queued_in := h.queued_in
  keys := h.keys
  queue_eq hb hn hs := by
    apply h.queue_eq hb hn
    intro x
    rw [currentSet_assign]
    split
    next => exact .inr hn
    next => exact hs x

/-! ## Termination -/

/-- The imports that an entity can still get. -/
def room (p : Program Entity) (s : AlgorithmState Entity) (x : Entity) : ℕ :=
  p.importSets.mainSet.length - (s.currentSet x).length

theorem room_assign_le (hle : s.currentSet e ≤ set) (x : Entity) :
    room p (s.assign e set) x ≤ room p s x := by
  rw [room, room, currentSet_assign]
  split
  next h =>
    rw [h]
    have := ImportSet.length_le hle
    omega
  next => exact le_rfl

section

variable [Fintype Entity] {fuel : ℕ}

/-- The entities that an update may still raise. -/
def remaining (s : AlgorithmState Entity) (old : ImportSet) : ℕ :=
  (Finset.univ.filter fun x => s.currentSet x = old).card

theorem Updates.remaining_le (h : Updates p old new A s s') (hlt : old < new) :
    s'.remaining old ≤ s.remaining old := by
  apply card_le_card
  intro x hx
  rw [Finset.mem_filter] at hx ⊢
  refine ⟨hx.1, ?_⟩
  by_contra hne
  have hr := h.raised x (by rw [hx.2]; exact Ne.symm hne)
  rw [hx.2] at hr
  exact hlt.not_ge hr

theorem remaining_assign_lt (hold : s.currentSet e = old) (hlt : old < new) :
    (s.assign e new).remaining old < s.remaining old := by
  apply card_lt_card
  refine ⟨?_, ?_⟩
  · intro x hx
    rw [Finset.mem_filter, currentSet_assign] at hx
    rw [Finset.mem_filter]
    by_cases hxe : x = e
    · rw [hxe]
      exact ⟨mem_univ e, hold⟩
    · rw [if_neg hxe] at hx
      exact hx
  · intro hsb
    have he := hsb (Finset.mem_filter.mpr ⟨mem_univ e, hold⟩)
    rw [Finset.mem_filter, currentSet_assign_self] at he
    exact hlt.ne' he.2

/-- A bound for the items that are and will be in the queue: when a set grows, there may be an item
for each of the dependencies. -/
def potential (p : Program Entity) (s : AlgorithmState Entity) : ℕ :=
  s.queue.length + ∑ x, (p.directDependencies x).length * room p s x

theorem potential_addEntityData (p : Program Entity) (s : AlgorithmState Entity) (e : Entity)
    (set : ImportSet) : potential p (s.addEntityData e set) ≤ potential p s + 1 := by
  have hr : ∀ x, room p (s.addEntityData e set) x = room p s x := by
    intro x
    rw [room, room, currentSet_addEntityData]
  have hl := length_addEntityData s e set
  simp only [potential, hr]
  omega

theorem potential_assign (hle : s.currentSet e ≤ set) :
    potential p (s.assign e set) ≤ potential p s := by
  apply Nat.add_le_add_left
  apply Finset.sum_le_sum
  intro x _
  exact Nat.mul_le_mul_left _ (room_assign_le hle x)

theorem potential_assign_lt (hlt : s.currentSet e < set) (hm : set ≤ p.importSets.mainSet) :
    potential p (s.assign e set) + (p.directDependencies e).length ≤ potential p s := by
  have hr : room p (s.assign e set) e + 1 ≤ room p s e := by
    have h1 := ImportSet.length_lt hlt
    have h2 := ImportSet.length_le hm
    rw [room, room, currentSet_assign_self]
    omega
  rw [potential, potential, ← add_sum_erase _ _ (mem_univ e), ← add_sum_erase _ _ (mem_univ e)]
  have hrs : ∑ x ∈ Finset.univ.erase e, (p.directDependencies x).length * room p (s.assign e set) x ≤
      ∑ x ∈ Finset.univ.erase e, (p.directDependencies x).length * room p s x := by
    apply Finset.sum_le_sum
    intro x _
    exact Nat.mul_le_mul_left _ (room_assign_le hlt.le x)
  have hml := Nat.mul_le_mul_left (p.directDependencies e).length hr
  rw [Nat.mul_add, Nat.mul_one] at hml
  rw [show (s.assign e set).queue = s.queue from rfl]
  omega

/-! ## Success -/

/-- The states in which an update to `new` succeeds with calls of depth `fuel`. -/
structure Ready (p : Program Entity) (old new : ImportSet) (fuel : ℕ) (s : AlgorithmState Entity) :
    Prop where
  dependencies : ∀ x ds, s.directDependencies x = some ds → ds = p.directDependencies x
  closed : ∀ x, (s.directDependencies x).isSome → ∀ d ∈ p.directDependencies x,
    (s.directDependencies d).isSome
  bounded : ∀ x, s.currentSet x ≤ p.importSets.mainSet
  uniform : old = ⊥ → new = p.importSets.mainSet → Uniform p s
  fuel_lt : s.remaining old < fuel

theorem Ready.updates (hs : Ready p old new fuel s) (h : Updates p old new A s s')
    (hlt : old < new) (hm : new ≤ p.importSets.mainSet) : Ready p old new fuel s' where
  dependencies := by
    rw [h.processed]
    exact hs.dependencies
  closed := by
    rw [h.processed]
    exact hs.closed
  bounded x := (h.value_ge x).trans (sup_le (hs.bounded x) hm)
  uniform hold hn := h.uniform hn (hs.uniform hold hn)
  fuel_lt := (h.remaining_le hlt).trans_lt hs.fuel_lt

theorem Ready.assign (hs : Ready p old new (fuel + 1) s) (hold : s.currentSet e = old)
    (hlt : old < new) (hm : new ≤ p.importSets.mainSet) :
    Ready p old new fuel (s.assign e new) where
  dependencies := hs.dependencies
  closed := hs.closed
  bounded x := by
    rw [currentSet_assign]
    split
    next => exact hm
    next => exact hs.bounded x
  uniform hb hn x := by
    rw [currentSet_assign]
    split
    next => exact .inr hn
    next => exact hs.uniform hb hn x
  fuel_lt := by
    have hr := remaining_assign_lt hold hlt
    have hf := hs.fuel_lt
    omega

/-- What an update of `e` leads to. -/
structure Updated (p : Program Entity) (old new : ImportSet) (A : Entity → Prop)
    (s : AlgorithmState Entity) (e : Entity) (s' : AlgorithmState Entity) : Prop
    extends Updates p old new A s s' where
  promised : new ≤ s'.promised e
  potential_le : potential p s' ≤ potential p s + (if s.currentSet e = old then 0 else 1)

theorem updateAll_spec {ds : List Entity} (hlt : old < new) (hm : new ≤ p.importSets.mainSet)
    (hu : ∀ s d, Ready p old new fuel s → (s.directDependencies d).isSome → A d →
      Succeeds (update p fuel s d old new) (Updated p old new A s d))
    (hs : Ready p old new fuel s) (hds : ∀ d ∈ ds, (s.directDependencies d).isSome ∧ A d) :
    Succeeds (ds.foldlM (fun s d => update p fuel s d old new) s) (fun s' =>
      Updates p old new A s s' ∧ (∀ d ∈ ds, new ≤ s'.promised d) ∧
        potential p s' ≤ potential p s + ds.length) := by
  induction ds generalizing s with
  | nil =>
    refine .pure ⟨.refl _ _ _ _ _, ?_, le_rfl⟩
    intro d hd
    cases hd
  | cons d ds ih =>
    rw [foldlM_cons]
    obtain ⟨hd, hA⟩ := hds d List.mem_cons_self
    apply (hu s d hs hd hA).bind
    intro s1 h1
    have hds1 : ∀ d ∈ ds, (s1.directDependencies d).isSome ∧ A d := by
      rw [h1.processed]
      exact fun d hd => hds d (.tail _ hd)
    apply (ih (hs.updates h1.toUpdates hlt hm) hds1).imp
    rintro s2 ⟨h2, hpr, hpt⟩
    refine ⟨h1.toUpdates.trans h2, ?_, ?_⟩
    · intro d' hd'
      rcases List.mem_cons.mp hd' with rfl | hd'
      · exact h1.promised.trans (h2.promised_le d')
      · exact hpr d' hd'
    · have hle := h1.potential_le
      rw [length_cons]
      split at hle <;> omega

/-- **An update succeeds** and promises the entity the new set. -/
theorem update_spec (hlt : old < new) (hmn : new ≤ p.importSets.mainSet)
    (hA : ∀ x, A x → ∀ d ∈ p.directDependencies x, A d) (hs : Ready p old new fuel s)
    (he : (s.directDependencies e).isSome) (hAe : A e) :
    Succeeds (update p fuel s e old new) (Updated p old new A s e) := by
  induction fuel generalizing s e with
  | zero => exact absurd hs.fuel_lt (Nat.not_lt_zero _)
  | succ fuel ih =>
    rw [update]
    have hsm (h : new ≤ s.currentSet e) : Updated p old new A s e s :=
      ⟨.refl _ _ _ _ _, h.trans le_sup_left, Nat.le_add_right _ _⟩
    refine .ite (fun hnw => ?_) fun hnw => ?_
    · exact .pure (hsm hnw.ge)
    refine .ite (fun hm => ?_) fun hm => ?_
    · exact .pure (hsm (hm ▸ hmn))
    refine .ite (fun hold => ?_) fun hold => ?_
    · obtain ⟨ds, hds⟩ := Option.isSome_iff_exists.mp he
      obtain rfl := hs.dependencies e ds hds
      rw [hds]
      apply (updateAll_spec hlt hmn (fun s d h1 h2 h3 => ih h1 h2 h3)
        (hs.assign hold hlt hmn) (fun d hd => ⟨hs.closed e he d hd, hA e hAe d hd⟩)).imp
      rintro s' ⟨h, hpr, hpt⟩
      refine ⟨.of_assign hAe hold hlt h hpr, ?_, ?_⟩
      · have hle := h.value_le e
        rw [currentSet_assign_self] at hle
        exact hle.trans le_sup_left
      · have has := potential_assign_lt (hold ▸ hlt) hmn
        rw [if_pos hold]
        omega
    · by_cases hl : p.needsRecursiveUpdate e = true
      · have ha : new ≠ p.importSets.mainSet ∨ old ≠ ImportSet.emptySet := by
          by_contra hn
          rw [not_or, not_not, not_not] at hn
          rcases hs.uniform hn.2 hn.1 e with h | h
          · exact hold (h.trans hn.2.symm)
          · exact hm h
        rw [if_pos hl, if_pos ha]
        refine .pure ⟨.addEntityData hAe hold hm, ?_, ?_⟩
        · rw [promised, pending_addEntityData, if_pos rfl]
          exact le_sup_right.trans le_sup_right
        · rw [if_neg hold]
          exact potential_addEntityData p s e new
      · rw [if_neg hl]
        rw [Bool.not_eq_true] at hl
        refine .pure ⟨.assign hAe rfl (p.local_dependencies e hl), ?_, ?_⟩
        · rw [promised, currentSet_assign_self]
          exact le_sup_right.trans le_sup_left
        · exact (potential_assign le_sup_left).trans (Nat.le_add_right _ _)

end

end Compiler.DeferredLoad.AlgorithmState
