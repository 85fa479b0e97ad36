import Mathlib.Data.Finset.Sort

/-!
# Import sets

`ImportSet` and `ImportSetLattice` of `pkg/compiler/lib/src/deferred_load/import_set.dart`. The
canonical order gives each import an index, which names it here. The links of a set lead from its
last import to the first one, so a set is the list of its imports in decreasing order; since `_add`
keeps the sets it has built, two sets with the same imports are the same object, and comparing
objects is comparing lists.
-/

namespace Compiler.DeferredLoad

structure ImportSet where
  imports : List Nat
  sorted : imports.Pairwise (· > ·)
  deriving DecidableEq, Repr

namespace ImportSet

def emptySet : ImportSet := ⟨[], .nil⟩

/-- The scan of `union`: the common rest, and the imports before it in decreasing order. -/
def unionLoop : List Nat → List Nat → List Nat → List Nat × List Nat
  | [], b, imports => (b, imports)
  | a, [], imports => (a, imports)
  | x :: a, y :: b, imports =>
    if x :: a = y :: b then (x :: a, imports)
    else if x > y then unionLoop a (y :: b) (imports ++ [x])
    else if y > x then unionLoop (x :: a) b (imports ++ [y])
    else unionLoop a b (imports ++ [x])
  termination_by a b => a.length + b.length

/-- The imports of the union: those of the scan are added back to the common rest. -/
def unionImports (a b : List Nat) : List Nat :=
  let (result, imports) := unionLoop a b []
  imports.foldr (fun i result => i :: result) result

/-- `r` is what is left of two lists and, after `imports`, what is merged of them. -/
def Merges (a b imports : List Nat) (r : List Nat × List Nat) : Prop :=
  ∃ merged, r.2 = imports ++ merged ∧ (merged ++ r.1).Pairwise (· > ·) ∧
    ∀ i, i ∈ merged ++ r.1 ↔ i ∈ a ∨ i ∈ b

theorem Merges.cons {a b a' b' imports : List Nat} {x : Nat} {r : List Nat × List Nat}
    (h : Merges a b (imports ++ [x]) r) (hx : ∀ i, i ∈ a ∨ i ∈ b → x > i)
    (hme : ∀ i, i = x ∨ i ∈ a ∨ i ∈ b ↔ i ∈ a' ∨ i ∈ b') : Merges a' b' imports r := by
  obtain ⟨merged, him, hsr, hm⟩ := h
  refine ⟨x :: merged, by simp [him], ?_, ?_⟩
  · rw [List.cons_append, List.pairwise_cons]
    exact ⟨fun i hi => hx i ((hm i).mp hi), hsr⟩
  · intro i
    rw [List.cons_append, List.mem_cons, hm, hme]

theorem unionLoop_spec (a b imports : List Nat) (ha : a.Pairwise (· > ·)) (hb : b.Pairwise (· > ·)) :
    Merges a b imports (unionLoop a b imports) := by
  fun_induction unionLoop a b imports with
  | case1 b imports => exact ⟨[], by simp, by simpa using hb, by simp⟩
  | case2 a imports => exact ⟨[], by simp, by simpa using ha, by simp⟩
  | case3 x a y b imports heq => exact ⟨[], by simp, by simpa using ha, by simp [← heq]⟩
  | case4 x a y b imports hne hgt ih =>
    have hx := (List.pairwise_cons.mp ha).1
    have hy := (List.pairwise_cons.mp hb).1
    exact (ih ha.of_cons hb).cons (by grind) (by simp [or_assoc])
  | case5 x a y b imports hne hgt hlt ih =>
    have hx := (List.pairwise_cons.mp ha).1
    have hy := (List.pairwise_cons.mp hb).1
    exact (ih ha hb.of_cons).cons (by grind) (by grind)
  | case6 x a y b imports hne hgt hlt ih =>
    obtain rfl : x = y := by omega
    have hx := (List.pairwise_cons.mp ha).1
    have hy := (List.pairwise_cons.mp hb).1
    exact (ih ha.of_cons hb.of_cons).cons (by grind) (by grind)

theorem unionImports_spec {a b : List Nat} (ha : a.Pairwise (· > ·)) (hb : b.Pairwise (· > ·)) :
    (unionImports a b).Pairwise (· > ·) ∧ ∀ i, i ∈ unionImports a b ↔ i ∈ a ∨ i ∈ b := by
  obtain ⟨merged, him, hsr, hm⟩ := unionLoop_spec a b [] ha hb
  have heq : unionImports a b = merged ++ (unionLoop a b []).1 := by
    show (unionLoop a b []).2.foldr _ (unionLoop a b []).1 = _
    rw [him, List.nil_append, List.foldr_cons_eq_append, List.map_id']
  rw [heq]
  exact ⟨hsr, hm⟩

def union (a b : ImportSet) : ImportSet :=
  if a = emptySet then b
  else if b = emptySet then a
  else ⟨unionImports a.imports b.imports, (unionImports_spec a.sorted b.sorted).1⟩

/-- The imports are sorted and added one by one. -/
def setOfImportsToImportSet (setOfImports : List Nat) : ImportSet :=
  ⟨setOfImports.toFinset.sort (· ≥ ·), (Finset.sortedGT_sort _).pairwise⟩

end ImportSet

end Compiler.DeferredLoad
