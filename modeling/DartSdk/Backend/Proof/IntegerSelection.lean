import DartSdk.Backend.IntegerSelection
import DartSdk.Backend.Proof.RangeArithmetic

/-!
# The ranges of 32-bit operations

* `select_spec`: the range of a replacement contains the low 32 bits of every value of the old
  range exactly if the old range has no positive lower bound or is within 32 bits.
* `select_masked`: a range above is kept and does not contain the value.
-/

namespace Backend.Proof

open RangeBoundary FlowGraph Int64Graph Option

variable {g : Int64Graph} {n fuel : Nat} {d : DefId} {l u : Int} {stored : Option Range}
  {replaced : List (DefId × Option Range)}

theorem replacementRange_of_select (h : g.select n fuel = some replaced)
    (hd : (d, stored) ∈ replaced) : g.replacementRange n d = some stored := by
  obtain ⟨narrowing, -, h⟩ := bind_eq_some_iff.1 h
  obtain ⟨selected, -, h⟩ := bind_eq_some_iff.1 h
  obtain ⟨d', -, h⟩ := Loops.exists_of_mem_mapM h hd
  obtain ⟨r, hr, h⟩ := bind_eq_some_iff.1 h
  cases h
  exact hr

theorem replacementRange_constant (h : g.range d = some (constantRange l u)) :
    g.replacementRange (n + 1) d =
      some (some (if 0 ≤ l then constantRange l u else constantRange 0 kMaxUint32)) := by
  have hk : Range.isUnknown (some (constantRange l u)) = false := rfl
  simp only [replacementRange, h, hk, isPositive, onlyGreaterThanOrEqualTo_constant]
  by_cases hl : 0 ≤ l
  · simp [hl]
  · simp [hl]
    rfl

/-- **The range of a replacement**, for a definition with a constant range. -/
theorem select_spec (hrange : IsRange l u) (hd : g.range d = some (constantRange l u))
    (h : g.select (n + 1) fuel = some replaced) (hmem : (d, stored) ∈ replaced) :
    (∀ v x, l ≤ x → x ≤ u → ∃ r, stored = some r ∧ Contains v r.min r.max (x % 2 ^ 32)) ↔
      l ≤ 0 ∨ u < 2 ^ 32 := by
  have hle := hrange.le
  have hst := replacementRange_of_select h hmem
  rw [replacementRange_constant hd] at hst
  cases hst
  constructor
  · intro ha
    by_contra hng
    obtain ⟨r, hr, lo, hi, hlo, -, hge, -⟩ := ha (fun _ => 0) (max l (2 ^ 32)) (by omega) (by omega)
    rw [if_pos (by omega)] at hr
    cases hr
    cases hlo
    omega
  · intro hc v x hl hu
    refine ⟨_, rfl, ?_⟩
    split_ifs with hp
    · exact ⟨l, u, rfl, rfl, by omega, by omega⟩
    · exact ⟨0, kMaxUint32, rfl, rfl, by omega, by rw [kMaxUint32]; omega⟩

/-- A value with the range, used only by a mask that keeps its low byte. -/
def masked (l u : Int) : Int64Graph where
  target := ⟨62⟩
  definition _ := .other 0 0 [] true none
  range d := if d = 0 then some (constantRange l u) else some (constantRange 0 255)
  definitions := [0, 1]
  instr d := if d = 0 then .unboxInt64 else .binaryInt64Op .kBIT_AND
  inputUses d := if d = 0 then [⟨some 1, false⟩] else []
  envUses _ := []

theorem select_spec_masked :
    (∀ v x, 0 ≤ x → x ≤ 9 → ∃ r, some (constantRange 0 9) = some r ∧
      Contains v r.min r.max (x % 2 ^ 32)) ↔ (0 : Int) ≤ 0 ∨ (9 : Int) < 2 ^ 32 :=
  @select_spec (masked 0 9) 0 3 0 0 9 _ _ ⟨by decide, by decide, by decide⟩ rfl rfl
    List.mem_cons_self

/-- **A range above 32 bits is kept.** The low bits of its first value are not in it. -/
theorem select_masked : ∃ r, (masked (2 ^ 32) (2 ^ 33)).select 1 3 =
      some [(0, some r), (1, some (constantRange 0 255))] ∧
    ∀ v, ¬ Contains v r.min r.max (2 ^ 32 % 2 ^ 32) := by
  refine ⟨constantRange (2 ^ 32) (2 ^ 33), rfl, ?_⟩
  rintro v ⟨lo, hi, hlo, -, hle, -⟩
  cases hlo
  omega

end Backend.Proof
