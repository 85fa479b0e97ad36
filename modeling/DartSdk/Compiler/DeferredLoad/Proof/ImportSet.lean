import DartSdk.Compiler.DeferredLoad.ImportSet

/-!
# The lattice of import sets

Import sets are ordered by inclusion, `union` is the least upper bound and `emptySet` the least set.
A set is determined by its imports.
-/

namespace Compiler.DeferredLoad

open List

namespace ImportSet

variable {a b c : ImportSet} {i : ℕ}

instance : Membership ℕ ImportSet := ⟨fun a i => i ∈ a.imports⟩

theorem mem_def : i ∈ a ↔ i ∈ a.imports := Iff.rfl

/-- The canonical order leaves one list for each set. -/
theorem eq_of_mem_iff (h : ∀ i, i ∈ a ↔ i ∈ b) : a = b := by
  obtain ⟨as, ha⟩ := a
  obtain ⟨bs, hb⟩ := b
  have hp : as.Perm bs := by
    rw [perm_ext_iff_of_nodup (ha.imp Nat.ne_of_gt) (hb.imp Nat.ne_of_gt)]
    exact h
  have heq : as = bs := hp.eq_of_pairwise (fun x y _ _ hxy hyx => absurd hxy (Nat.lt_asymm hyx)) ha hb
  subst heq
  rfl

@[simp] theorem not_mem_emptySet : i ∉ emptySet := not_mem_nil

@[simp] theorem mem_union : i ∈ a.union b ↔ i ∈ a ∨ i ∈ b := by
  rw [union]
  split
  next h => simp [h]
  next =>
    split
    next h => simp [h]
    next => exact (unionImports_spec a.sorted b.sorted).2 i

@[simp] theorem mem_setOfImportsToImportSet {l : List ℕ} :
    i ∈ setOfImportsToImportSet l ↔ i ∈ l := by
  rw [mem_def, setOfImportsToImportSet, Finset.mem_sort, mem_toFinset]

instance : SemilatticeSup ImportSet where
  le a b := ∀ i ∈ a, i ∈ b
  le_refl _ _ h := h
  le_trans _ _ _ hab hbc i hi := hbc i (hab i hi)
  le_antisymm a b hab hba := eq_of_mem_iff fun i => ⟨hab i, hba i⟩
  sup := union
  le_sup_left _ _ _ hi := mem_union.mpr (.inl hi)
  le_sup_right _ _ _ hi := mem_union.mpr (.inr hi)
  sup_le _ _ _ hac hbc i hi := (mem_union.mp hi).elim (hac i) (hbc i)

instance : OrderBot ImportSet where
  bot := emptySet
  bot_le _ _ hi := absurd hi not_mem_emptySet

theorem le_def : a ≤ b ↔ ∀ i ∈ a, i ∈ b := Iff.rfl

theorem union_eq_sup : a.union b = a ⊔ b := rfl

@[simp] theorem mem_sup : i ∈ a ⊔ b ↔ i ∈ a ∨ i ∈ b := mem_union

@[simp] theorem not_mem_bot : i ∉ (⊥ : ImportSet) := not_mem_emptySet

/-- The size of a set. -/
def length (a : ImportSet) : ℕ := a.imports.length

theorem length_le (h : a ≤ b) : a.length ≤ b.length :=
  (subperm_of_subset (a.sorted.imp Nat.ne_of_gt) h).length_le

theorem length_lt (h : a < b) : a.length < b.length := by
  apply lt_of_le_of_ne (length_le h.le)
  intro heq
  apply h.not_ge
  have hp := (subperm_of_subset (a.sorted.imp Nat.ne_of_gt) h.le).perm_of_length_le heq.ge
  exact fun i hi => hp.mem_iff.mpr hi

end ImportSet

end Compiler.DeferredLoad
