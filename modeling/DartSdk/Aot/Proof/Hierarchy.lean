import DartSdk.Aot.Proof.Intervals

/-!
# The class hierarchy

What the loops over superclasses compute, and which class ids the class ranges of a selector cover.

* `Program.inRange_iff`: the search among the superclasses finds the subclasses.
* `Program.cidDepth_eq`: the depth is the number of classes of the chain, as an `int16_t`.
* `classRanges_laminar`, `covers_classRanges`: the class ranges of a selector are disjoint or nested,
  and cover the concrete classes with an implementation.
-/

namespace Aot

open Aot.Interval List

variable {Code : Type}

namespace Program

variable (p : Program Code) {a b c n m sid : Nat}

/-- `c` is `a` or a subclass of it. -/
inductive Subclass (p : Program Code) (a : Nat) : Nat → Prop
  | refl : Subclass p a a
  | step {c : Nat} : c ≠ 0 → Subclass p a (p.parent c) → Subclass p a c

/-- The number of classes of the chain from a class to the top. -/
inductive Depth (p : Program Code) : Nat → Nat → Prop
  | zero : Depth p 0 0
  | succ {c n : Nat} : c ≠ 0 → Depth p (p.parent c) n → Depth p c (n + 1)

variable {p}

theorem depth_of_iterate (h : p.parent^[n] c = 0) : ∃ k ≤ n, Depth p c k := by
  induction n generalizing c with
  | zero =>
    obtain rfl : c = 0 := h
    exact ⟨0, le_rfl, .zero⟩
  | succ n ih =>
    by_cases hc : c = 0
    · subst hc
      exact ⟨0, Nat.zero_le _, .zero⟩
    · obtain ⟨k, hk, hd⟩ := ih h
      exact ⟨k + 1, by omega, .succ hc hd⟩

variable (p) in
theorem exists_depth (c : Nat) : ∃ n ≤ p.numClasses, Depth p c n :=
  depth_of_iterate (p.acyclic c)

theorem Depth.unique (h : Depth p c n) (h' : Depth p c m) : n = m := by
  induction h generalizing m with
  | zero =>
    cases h' with
    | zero => rfl
    | succ hc _ => exact absurd rfl hc
  | succ hc _ ih =>
    cases h' with
    | zero => exact absurd rfl hc
    | succ _ h' => rw [ih h']

theorem subclass_zero (h : Subclass p a 0) : a = 0 := by
  cases h with
  | refl => rfl
  | step hc _ => exact absurd rfl hc

theorem Subclass.trans (h : Subclass p a b) (h' : Subclass p b c) : Subclass p a c := by
  induction h' with
  | refl => exact h
  | step hc _ ih => exact .step hc ih

/-- The superclasses of a class are a chain. -/
theorem Subclass.linear (h : Subclass p a c) (h' : Subclass p b c) :
    Subclass p a b ∨ Subclass p b a := by
  induction h with
  | refl => exact .inr h'
  | @step c hc h ih =>
    cases h' with
    | refl => exact .inl (.step hc h)
    | step _ h' => exact ih h'

theorem Subclass.depth_le (h : Subclass p a c) (ha : Depth p a m) (hc : Depth p c n) : m ≤ n := by
  induction h generalizing n with
  | refl => exact (ha.unique hc).le
  | step h0 _ ih =>
    cases hc with
    | zero => exact absurd rfl h0
    | succ _ hc => exact Nat.le_succ_of_le (ih hc)

/-! ## The loops -/

theorem searchLoop_iff {fuel : Nat} (hc : Depth p c n) (hn : n ≤ fuel) (ha : a ≠ 0) :
    a = searchLoop p a fuel c ↔ Subclass p a c := by
  induction hc generalizing fuel with
  | zero =>
    have h0 : searchLoop p a fuel 0 = 0 := by
      cases fuel <;> simp [searchLoop]
    rw [h0]
    exact ⟨fun h => absurd h ha, fun h => subclass_zero h⟩
  | @succ c n hc0 hd ih =>
    obtain _ | fuel := fuel
    · omega
    rw [searchLoop]
    by_cases hca : c = a
    · subst hca
      rw [if_neg (by simp)]
      exact ⟨fun _ => .refl, fun _ => rfl⟩
    rw [if_pos ⟨hc0, hca⟩, ih (by omega)]
    refine ⟨.step hc0, fun h => ?_⟩
    cases h with
    | refl => exact absurd rfl hca
    | step _ h => exact h

/-- **The classes in range** of a class are its concrete subclasses. -/
theorem inRange_iff (ha : a ≠ 0) :
    p.inRange a c = true ↔ Subclass p a c ∧ p.isConcreteClass c = true := by
  obtain ⟨n, hn, hd⟩ := p.exists_depth c
  rw [inRange, Bool.and_eq_true, beq_iff_eq, searchLoop_iff hd hn ha]

theorem toInt16_add {i : Int} {k : Nat} : toInt16 (toInt16 i + k) = toInt16 (i + k) := by
  simp only [toInt16]
  omega

theorem toInt16_of_lt (h : n < 2 ^ 15) : toInt16 n = n := by
  simp only [toInt16]
  omega

theorem depthLoop_eq {fuel : Nat} {i : Int} (hc : Depth p c n) (hn : n ≤ fuel)
    (hi : toInt16 i = i) : depthLoop p fuel c i = toInt16 (i + n) := by
  induction hc generalizing fuel i with
  | zero =>
    rw [show i + ((0 : Nat) : Int) = i by omega, hi]
    cases fuel <;> simp [depthLoop]
  | @succ c n hc0 hd ih =>
    obtain _ | fuel := fuel
    · omega
    have hsl : toInt16 (toInt16 (i + 1)) = toInt16 (i + 1) := by
      simp only [toInt16]
      omega
    rw [depthLoop, if_pos hc0, ih (by omega) hsl, toInt16_add]
    congr 1
    omega

/-- **The depth of a class.** -/
theorem cidDepth_eq (hc : Depth p c n) : p.cidDepth c = toInt16 n := by
  obtain ⟨k, hk, hd⟩ := p.exists_depth c
  rw [hd.unique hc] at hk
  rw [cidDepth, depthLoop_eq hc hk (by decide), Int.zero_add]

/-! ## Implementations -/

theorem implementations_of_none (h : p.classAt c = none) : p.implementations sid c = [] := by
  simp [implementations, functionsOf, h]

theorem mem_implementations_bounds {code : Option Code} (h : code ∈ p.implementations sid c) :
    0 < c ∧ c < p.numClasses := by
  constructor
  · apply Nat.pos_of_ne_zero
    intro h0
    rw [h0, implementations_of_none p.classAt_illegal] at h
    cases h
  · by_contra hlt
    rw [implementations_of_none (p.classAt_of_le (Nat.le_of_not_lt hlt))] at h
    cases h

/-- The selector may be called on null, and null does not have it. -/
def NullCalled (p : Program Code) (sid : Nat) : Prop :=
  ((p.selectors[sid]?).any TableSelector.calledOnNull && !p.onNullInterface sid) = true

/-- A class has an implementation of the selector, or inherits one. -/
def Implements (p : Program Code) (sid c : Nat) : Prop :=
  ∃ a code, Subclass p a c ∧ code ∈ p.implementations sid a

/-- The class ids that the row of a selector covers. -/
def Covered (p : Program Code) (sid c : Nat) : Prop :=
  (NullCalled p sid ∧ c = p.nullCid) ∨ (p.isConcreteClass c = true ∧ Implements p sid c)

theorem Covered.lt (h : Covered p sid c) : c < p.numClasses := by
  rcases h with ⟨-, rfl⟩ | ⟨h, -⟩
  · exact p.nullCid_lt
  · by_contra hlt
    rw [isConcreteClass, p.classAt_of_le (Nat.le_of_not_lt hlt)] at h
    cases h

end Program

namespace DispatchTableGenerator

open Program

variable {p : Program Code} {sid : Nat} {r r' : CidInterval Code}

/-- **The class ranges of a selector**: of null, or of a class with an implementation. -/
theorem mem_classRanges : r ∈ classRanges p sid ↔
    (NullCalled p sid ∧ r = ⟨p.nullCid, 0, ⟨p.nullCid, p.nullCid + 1⟩, none⟩) ∨
      ∃ cid, ∃ code ∈ p.implementations sid cid, ∃ I ∈ p.cidSubclassRanges cid,
        r = ⟨cid, p.cidDepth cid, I, some code⟩ := by
  rw [classRanges, mem_append]
  refine or_congr ?_ ?_
  · rw [NullCalled]
    split_ifs with h
    · exact ⟨fun hr => ⟨h, mem_singleton.1 hr⟩, fun hr => mem_singleton.2 hr.2⟩
    · exact ⟨fun hr => absurd hr not_mem_nil, fun hr => absurd hr.1 h⟩
  · simp only [mem_flatMap, mem_map, mem_range'_1]
    constructor
    · rintro ⟨cid, -, code, hc, I, hI, rfl⟩
      exact ⟨cid, code, hc, I, hI, rfl⟩
    · rintro ⟨cid, code, hc, I, hI, rfl⟩
      have := mem_implementations_bounds hc
      exact ⟨cid, by omega, code, hc, I, hI, rfl⟩

theorem classRanges_nonempty (h : r ∈ classRanges p sid) : r.range.Nonempty := by
  rcases mem_classRanges.1 h with ⟨-, rfl⟩ | ⟨cid, code, hc, I, hI, rfl⟩
  · exact Nat.lt_succ_self _
  · exact (p.cidSubclassRanges_spec.1 I hI).nonempty

/-- The runs of two classes: one is a subclass of the other, or they have no common subclass. -/
theorem laminar_of_mem {a b : Nat} {I J : Interval} (ha : a ≠ 0) (hb : b ≠ 0)
    (hI : I ∈ p.cidSubclassRanges a) (hJ : J ∈ p.cidSubclassRanges b) : I.Laminar J := by
  have hI' := p.cidSubclassRanges_spec.1 I hI
  have hJ' := p.cidSubclassRanges_spec.1 J hJ
  by_cases hab : Subclass p a b
  · refine (hJ'.laminar_of_imp hI' fun x hx => ?_).symm
    rw [inRange_iff hb] at hx
    exact (inRange_iff ha).2 ⟨hab.trans hx.1, hx.2⟩
  by_cases hba : Subclass p b a
  · refine hI'.laminar_of_imp hJ' fun x hx => ?_
    rw [inRange_iff ha] at hx
    exact (inRange_iff hb).2 ⟨hba.trans hx.1, hx.2⟩
  refine laminar_of_disjoint hI' hJ' fun x hx hx' => ?_
  rw [inRange_iff ha] at hx
  rw [inRange_iff hb] at hx'
  rcases hx.1.linear hx'.1 with h | h
  · exact hab h
  · exact hba h

/-- **Any two class ranges are disjoint or nested.** -/
theorem classRanges_laminar (h : r ∈ classRanges p sid) (h' : r' ∈ classRanges p sid) :
    r.range.Laminar r'.range := by
  rcases mem_classRanges.1 h with ⟨-, rfl⟩ | ⟨cid, code, hc, I, hI, rfl⟩
  · exact laminar_singleton
  rcases mem_classRanges.1 h' with ⟨-, rfl⟩ | ⟨cid', code', hc', J, hJ, rfl⟩
  · exact laminar_singleton.symm
  · exact laminar_of_mem (Nat.pos_iff_ne_zero.1 (mem_implementations_bounds hc).1)
      (Nat.pos_iff_ne_zero.1 (mem_implementations_bounds hc').1) hI hJ

/-- **What the class ranges cover.** -/
theorem covers_classRanges {c : Nat} :
    Covers ((classRanges p sid).map CidInterval.range) c ↔ Covered p sid c := by
  simp only [Covers, mem_map, exists_exists_and_eq_and]
  constructor
  · rintro ⟨r, hr, hc⟩
    rcases mem_classRanges.1 hr with ⟨hn, rfl⟩ | ⟨cid, code, hcd, I, hI, rfl⟩
    · refine .inl ⟨hn, ?_⟩
      simp only [Has] at hc
      omega
    · have hin := (p.cidSubclassRanges_spec.1 I hI).inside c hc
      rw [inRange_iff (Nat.pos_iff_ne_zero.1 (mem_implementations_bounds hcd).1)] at hin
      exact .inr ⟨hin.2, cid, code, hin.1, hcd⟩
  · rintro (⟨hn, rfl⟩ | ⟨hcn, cid, code, hsb, hcd⟩)
    · exact ⟨_, mem_classRanges.2 (.inl ⟨hn, rfl⟩), le_rfl, Nat.lt_succ_self _⟩
    · have hps := Nat.pos_iff_ne_zero.1 (mem_implementations_bounds hcd).1
      obtain ⟨I, hI, hIc⟩ := p.cidSubclassRanges_spec.2 c ((inRange_iff hps).2 ⟨hsb, hcn⟩)
      exact ⟨_, mem_classRanges.2 (.inr ⟨cid, code, hcd, I, hI, rfl⟩), hIc⟩

end DispatchTableGenerator

end Aot
