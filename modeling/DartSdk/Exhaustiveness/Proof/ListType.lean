import DartSdk.Exhaustiveness.ListType
import Mathlib.Data.List.Range

/-!
# The types of lists that the exhaustiveness check tells apart

* `getSubtypes_exact`: **the types partition the lengths**, and no pattern of a case cuts one of
  them, except for a pattern without a rest that has as many elements as there are keys.
-/

namespace Exhaustiveness

open ListTypeRestriction List

variable {Ty : Type} {ops : TypeOperations Ty}

namespace ListTypeRestriction

/-- A list of `n` elements satisfies the restriction. -/
def allows (r : ListTypeRestriction Ty) (n : Nat) : Bool :=
  if r.hasRest then r.size ≤ n else n == r.size

@[simp] theorem allows_exact {e : Ty} {text : String} {k n : Nat} :
    allows ⟨e, text, k, false⟩ n ↔ n = k := by simp [allows]

@[simp] theorem allows_rest {e : Ty} {text : String} {k n : Nat} :
    allows ⟨e, text, k, true⟩ n ↔ k ≤ n := by simp [allows]

theorem isSubtypeOf_iff {r s : ListTypeRestriction Ty}
    (h : ops.isSubtypeOf r.elementType s.elementType) :
    r.isSubtypeOf ops (.list s) = true ↔ ∀ n, r.allows n → s.allows n := by
  obtain ⟨_, _, k, b⟩ := r
  obtain ⟨_, _, m, c⟩ := s
  have h0 : ∃ n, k ≤ n ∧ n ≠ m := ⟨k + m + 1, by omega, by omega⟩
  cases b <;> cases c <;> simp_all [isSubtypeOf, isUnrestricted]
  exact ⟨fun h n hn => h.elim (by omega) (by omega), fun h => .inr (h k (Nat.le_refl k))⟩

end ListTypeRestriction

theorem maxSizes_le {keys : List Key} :
    (∀ i, .headKey i ∈ keys → i < (maxSizes keys).1) ∧
    ∀ i, .tailKey i ∈ keys → i < (maxSizes keys).2 := by
  unfold maxSizes
  induction keys using List.reverseRecOn with
  | nil => simp
  | append_singleton keys k ih =>
    rw [List.foldl_append, foldl_cons, foldl_nil]
    generalize List.foldl _ _ keys = m at ih
    obtain ⟨h1, h2⟩ := ih
    constructor <;> intro i hi <;> rw [mem_append, mem_singleton] at hi <;> cases k <;> grind

theorem size_le_maxSize {keys : List Key} {hs ts : Nat} (hh : ∀ i < hs, .headKey i ∈ keys)
    (ht : ∀ i < ts, .tailKey i ∈ keys) : hs + ts ≤ maxSize keys := by
  have h1 := fun h : hs ≠ 0 => maxSizes_le.1 (hs - 1) (hh (hs - 1) (by omega))
  have h2 := fun h : ts ≠ 0 => maxSizes_le.2 (ts - 1) (ht (ts - 1) (by omega))
  unfold maxSize
  omega

/-- The lengths below the largest size, and all others. -/
theorem getSubtypes_eq {type e : Ty} (he : ops.getListElementType type = some e) (keys : List Key) :
    ∃ ts text, getSubtypes ops type keys = some ts ∧ ts.map (·.restriction) =
      (List.range (maxSize keys)).map (⟨e, text, ·, false⟩) ++ [⟨e, text, maxSize keys, true⟩] := by
  unfold getSubtypes
  rw [he]
  exact ⟨_, _, rfl, by rw [map_append, map_map]; rfl⟩

theorem countP_range (n m : Nat) : (List.range m).countP (n == ·) = if n < m then 1 else 0 := by
  induction m with
  | zero => rfl
  | succ m ih =>
    rw [range_succ, countP_append, ih, countP_singleton]
    grind

/-- **The types of the lengths**, for a reflexive subtype relation. -/
theorem getSubtypes_exact {type e : Ty} {keys : List Key} (hr : ∀ t, ops.isSubtypeOf t t)
    (he : ops.getListElementType type = some e) :
    (∃ ts, getSubtypes ops type keys = some ts ∧ (∀ n, ts.countP (·.restriction.allows n) = 1) ∧
      ∀ hs tl : Nat, ∀ rest text e', (∀ i < hs, .headKey i ∈ keys) → (∀ i < tl, .tailKey i ∈ keys) →
        (rest = true ∨ hs + tl < maxSize keys) → ops.isSubtypeOf e e' →
        let p := ListTypeRestriction.ofPattern e' text hs tl rest
        ∀ t ∈ ts, t.restriction.isSubtypeOf ops (.list p) = true ∨
          ∀ n, ¬(t.restriction.allows n ∧ p.allows n)) ∧
    ∀ r s : ListTypeRestriction Ty, r.elementType = s.elementType →
      (r.isSubtypeOf ops (.list s) = true ↔ ∀ n, r.allows n → s.allows n) := by
  refine ⟨?_, fun r s h => isSubtypeOf_iff (h ▸ hr _)⟩
  obtain ⟨ts, text, h0, h⟩ := getSubtypes_eq he keys
  refine ⟨ts, h0, fun n => ?_, ?_⟩
  · have hn : ts.countP (·.restriction.allows n) = (ts.map (·.restriction)).countP (·.allows n) := by
      rw [countP_map]; rfl
    rw [hn, h, countP_append, countP_map, countP_singleton]
    refine (congrArg (· + _) (countP_range n _)).trans ?_
    grind [allows]
  · intro hs tl rest text' e' hh ht hc hee p t hm
    have hsz := size_le_maxSize hh ht
    replace hm := mem_map_of_mem (f := (·.restriction)) hm
    rw [h, mem_append, mem_map, mem_singleton] at hm
    generalize t.restriction = r at hm
    obtain ⟨k, -, rfl⟩ | rfl := hm <;> rw [isSubtypeOf_iff hee]
    · by_cases hp : p.allows k
      · exact .inl fun n hn => allows_exact.mp hn ▸ hp
      · exact .inr fun n hn => hp (allows_exact.mp hn.1 ▸ hn.2)
    cases rest with
    | true =>
      refine .inl fun n hn => allows_rest.mpr ?_
      exact hsz.trans (allows_rest.mp hn)
    | false =>
      refine .inr fun n hn => ?_
      have h1 := allows_rest.mp hn.1
      have h2 := allows_exact.mp hn.2
      have := hc.resolve_left (by decide)
      omega

def unitOperations : TypeOperations Unit :=
  { isSubtypeOf := fun _ _ => true, getListElementType := some
    isDynamic := fun _ => false, typeToString := fun _ => "Object" }

/-- The pattern `[_, ...]` beside `[]`. -/
theorem getSubtypes_exact_rest : ∃ ts, getSubtypes unitOperations () [.headKey 0] = some ts ∧
    ∀ t ∈ ts, t.restriction.isSubtypeOf unitOperations (.list (.ofPattern () "" 1 0 true)) = true ∨
      ∀ n, ¬(t.restriction.allows n ∧ (ListTypeRestriction.ofPattern () "" 1 0 true).allows n) :=
  have ⟨⟨ts, h, _, hp⟩, _⟩ := @getSubtypes_exact Unit unitOperations () () [.headKey 0]
    (fun _ => rfl) rfl
  ⟨ts, h, hp 1 0 true "" () (by decide) (by decide) (.inl rfl) rfl⟩

/-- The pattern `[_]` alone cuts the type of the lists of one or more elements. -/
theorem getSubtypes_cut : ∃ ts, getSubtypes unitOperations () [.headKey 0] = some ts ∧ ∃ t ∈ ts,
    t.restriction.isSubtypeOf unitOperations (.list (.ofPattern () "" 1 0 false)) = false ∧
    t.restriction.allows 1 ∧ (ListTypeRestriction.ofPattern () "" 1 0 false).allows 1 :=
  ⟨_, rfl, _, mem_append_right _ mem_cons_self, rfl, rfl, rfl⟩

end Exhaustiveness
