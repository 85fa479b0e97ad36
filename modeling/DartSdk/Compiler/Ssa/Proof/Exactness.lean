import DartSdk.Compiler.Ssa.Proof.Termination

/-!
# The operators on symbolic values are exact

A valuation gives each instruction an integer. `maxInt` and `minInt` have no value; in a bound of a
range they stand for an infinity, so an upper bound has `maxInt` where it is added and `minInt`
where it is subtracted (`Sided`). Constants below `2 ^ 53` are folded without rounding.

* `Computes.exact`: **a result has the value** that the operator asks for.
* `Sided.sign`: what the sign of a bound says.
-/

namespace Compiler.Ssa

open Value Bool ConstantSystem

variable {Instruction : Type}

inductive Bound where
  | lower
  | upper
  deriving DecidableEq

def Bound.flip : Bound → Bound
  | lower => upper
  | upper => lower

@[simp]
theorem Bound.flip_flip (b : Bound) : b.flip.flip = b := by cases b <;> rfl

theorem Bound.flip_ne (b : Bound) : b.flip ≠ b := by cases b <;> exact nofun

/-- `x` is not beyond `y`, on the side of the bound. -/
@[simp]
def Bound.le : Bound → ℤ → ℤ → Prop
  | lower, x, y => x ≤ y
  | upper, x, y => y ≤ x

namespace Value

/-- The sign of the infinity of a bound. -/
def onSide : Bound → Value Instruction → Bool
  | .lower, a => a.isNegative
  | .upper, a => a.isPositive

/-- No infinity, and known. -/
@[simp]
def Finite : Value Instruction → Prop
  | maxInt | minInt | unknown => False
  | add left right | subtract left right => left.Finite ∧ right.Finite
  | negate value => value.Finite
  | _ => True

/-- The value, where `μ` has the values of the markers. -/
@[simp]
def eval (ρ : Instruction → ℤ) (a : Value Instruction) (μ : Bool → ℤ := fun _ => 0) : ℤ :=
  match a with
  | int value => value
  | marker isLower _ => μ isLower
  | instruction i _ => ρ i
  | add left right => left.eval ρ μ + right.eval ρ μ
  | subtract left right => left.eval ρ μ - right.eval ρ μ
  | negate value => -value.eval ρ μ
  | _ => 0

/-- The sum of the absolute values of all constants. -/
@[simp]
def magnitude : Value Instruction → ℕ
  | int value => value.natAbs
  | add left right | subtract left right => left.magnitude + right.magnitude
  | negate value => value.magnitude
  | _ => 0

/-- Infinities are on the side of the bound, and positive instructions are not negative. -/
@[simp]
def Sided (ρ : Instruction → ℤ) (b : Bound) (a : Value Instruction)
    (μ : Bool → ℤ := fun _ => 0) : Prop :=
  match a with
  | int _ => True
  | maxInt => b = .upper
  | minInt => b = .lower
  | unknown => False
  | marker isLower isPositive => isPositive = true → 0 ≤ μ isLower
  | instruction i isPositive => isPositive = true → 0 ≤ ρ i
  | add left right => left.Sided ρ b μ ∧ right.Sided ρ b μ
  | subtract left right => left.Sided ρ b μ ∧ right.Sided ρ b.flip μ
  | negate value => value.Sided ρ b.flip μ

end Value

/-- The pairs of values for which `operator ==` holds. -/
inductive Same : Value Instruction → Value Instruction → Prop
  | int (c) : Same (int c) (int c)
  | maxInt : Same maxInt maxInt
  | minInt : Same minInt minInt
  | unknown : Same unknown unknown
  | marker (l p p') : Same (marker l p) (marker l p')
  | instruction (i p p') : Same (instruction i p) (instruction i p')
  | add {l r l' r'} (hl : Same l l') (hr : Same r r') : Same (add l r) (add l' r')
  | addSwap {l r l' r'} (hl : Same l r') (hr : Same r l') : Same (add l r) (add l' r')
  | subtract {l r l' r'} (hl : Same l l') (hr : Same r r') : Same (subtract l r) (subtract l' r')
  | negate {a b} (h : Same a b) : Same (negate a) (negate b)

variable {ρ : Instruction → ℤ} {μ : Bool → ℤ} {a b v w : Value Instruction} {s : Bound}

/-- A finite value could bound either side. -/
theorem Sided.of_finite (h : a.Sided ρ s μ) (ha : a.Finite) (s' : Bound) : a.Sided ρ s' μ := by
  induction a generalizing s s' with
  | maxInt | minInt | unknown => exact ha.elim
  | add l r ihl ihr | subtract l r ihl ihr => exact ⟨ihl h.1 ha.1 _, ihr h.2 ha.2 _⟩
  | negate a ih => exact ih h ha _
  | _ => exact h

/-! ## Signs -/

/-- **What the sign of a value says**: it is not strict, and shows that a bound is no infinity where
an infinity would have the other sign. -/
theorem Sided.sign (t : Bound) (h : a.Sided ρ s μ) (hsg : a.onSide t = true) :
    (a.Finite → t.le (a.eval ρ μ) 0) ∧ (s = t.flip → a.Finite) := by
  induction a generalizing s t with
  | int c => cases t <;> simp_all [onSide, isPositive, isNegative]; omega
  | maxInt | minInt | instruction i p | marker l p =>
    cases t <;> simp_all [onSide, isPositive, isNegative, Bound.flip]
  | unknown => exact h.elim
  | add l r ihl ihr =>
    have han : l.onSide t = true ∧ r.onSide t = true := by
      cases t <;> exact and_eq_true_iff.mp hsg
    obtain ⟨hl, hl'⟩ := ihl t h.1 han.1
    obtain ⟨hr, hr'⟩ := ihr t h.2 han.2
    refine ⟨fun hf => ?_, fun hs => ⟨hl' hs, hr' hs⟩⟩
    have := hl hf.1
    have := hr hf.2
    cases t <;> simp at * <;> omega
  | subtract l r ihl ihr =>
    have han : l.onSide t = true ∧ r.onSide t.flip = true := by
      cases t <;> exact and_eq_true_iff.mp hsg
    obtain ⟨hl, hl'⟩ := ihl t h.1 han.1
    obtain ⟨hr, hr'⟩ := ihr t.flip h.2 han.2
    refine ⟨fun hf => ?_, ?_⟩
    · have := hl hf.1
      have := hr hf.2
      cases t <;> simp [Bound.flip] at * <;> omega
    · rintro rfl
      exact ⟨hl' rfl, hr' rfl⟩
  | negate a ih =>
    obtain ⟨hle, hfn⟩ := ih t.flip h (by cases t <;> exact hsg)
    refine ⟨fun hf => ?_, ?_⟩
    · have := hle hf
      cases t <;> simp [Bound.flip] at * <;> omega
    · rintro rfl
      exact hfn rfl

/-! ## Equality -/

theorem Same.eval_eq (h : Same a b) : a.eval ρ μ = b.eval ρ μ := by
  induction h with
  | add _ _ ihl ihr | subtract _ _ ihl ihr => rw [eval, eval, ihl, ihr]
  | addSwap _ _ ihl ihr => rw [eval, eval, ihl, ihr, add_comm]
  | negate _ ih => rw [eval, eval, ih]
  | _ => rfl

theorem Same.finite_iff (h : Same a b) : a.Finite ↔ b.Finite := by
  induction h with
  | add _ _ ihl ihr | subtract _ _ ihl ihr => exact and_congr ihl ihr
  | addSwap _ _ ihl ihr => exact (and_congr ihl ihr).trans and_comm
  | negate _ ih => exact ih
  | _ => exact Iff.rfl

/-- Bounds of different sides that are equal have no infinity. -/
theorem Same.finite (h : Same a b) (ha : a.Sided ρ s μ) (hb : b.Sided ρ s.flip μ) : a.Finite := by
  induction h generalizing s with
  | maxInt | minInt => exact (s.flip_ne (hb.trans ha.symm)).elim
  | unknown => exact ha.elim
  | add _ _ ihl ihr | subtract _ _ ihl ihr => exact ⟨ihl ha.1 hb.1, ihr ha.2 hb.2⟩
  | addSwap _ _ ihl ihr => exact ⟨ihl ha.1 hb.2, ihr ha.2 hb.1⟩
  | negate _ ih => exact ih ha hb
  | _ => trivial

section

variable [DecidableEq Instruction]

theorem equals_comm (a b : Value Instruction) : (a == b) = (b == a) := by
  change a.equals b = b.equals a
  induction a generalizing b with
  | add l r ihl ihr =>
    cases b with
    | add l' r' =>
      simp only [equals, ihl, ihr]
      rw [Bool.and_comm (r'.equals l)]
    | _ => rfl
  | subtract l r ihl ihr => cases b <;> simp only [equals, ihl, ihr]
  | negate a ih => cases b <;> simp only [equals, ih]
  | int c | marker l p | instruction i p =>
    cases b <;> try rfl
    exact beq_comm
  | _ => cases b <;> rfl

theorem equals_refl (a : Value Instruction) : (a == a) = true := by
  change a.equals a = true
  induction a with
  | add l r ihl ihr => simp [equals, ihl, ihr]
  | subtract l r ihl ihr => simp [equals, ihl, ihr]
  | negate a ih => exact ih
  | _ => simp [equals]

theorem same_of_equals (h : (a == b) = true) : Same a b := by
  change a.equals b = true at h
  induction a generalizing b with
  | add l r ihl ihr =>
    cases b with
    | add l' r' =>
      simp only [equals, or_eq_true, and_eq_true] at h
      rcases h with ⟨hl, hr⟩ | ⟨hl, hr⟩
      · exact .add (ihl hl) (ihr hr)
      · exact .addSwap (ihl hl) (ihr hr)
    | _ => cases h
  | subtract l r ihl ihr =>
    cases b with
    | subtract l' r' =>
      simp only [equals, and_eq_true] at h
      exact .subtract (ihl h.1) (ihr h.2)
    | _ => cases h
  | negate a ih =>
    cases b with
    | negate b => exact .negate (ih (by simpa only [equals] using h))
    | _ => cases h
  | int c =>
    cases b with
    | int d => rw [eq_of_beq h]; exact .int d
    | _ => cases h
  | marker l p =>
    cases b with
    | marker l' p' => rw [eq_of_beq h]; exact .marker l' p p'
    | _ => cases h
  | instruction i p =>
    cases b with
    | instruction i' p' => rw [eq_of_beq h]; exact .instruction i' p p'
    | _ => cases h
  | maxInt => cases b <;> first | exact .maxInt | cases h
  | minInt => cases b <;> first | exact .minInt | cases h
  | unknown => cases b <;> first | exact .unknown | cases h

end

/-! ## Constants -/

/-- A constant that folding does not change. -/
def IsDouble (c : ℤ) : Prop := toDouble c = some c

section

variable {c : ℤ}

theorem isDouble_of_lt (h : c.natAbs < 2 ^ 53) : IsDouble c := by
  rw [IsDouble, toDouble]
  exact if_pos h

theorem toDouble_neg (c : ℤ) : toDouble (-c) = (toDouble c).map (-·) := by
  simp only [toDouble, Int.natAbs_neg, Int.sign_neg]
  split
  · rfl
  · split
    · simp [neg_mul]
    · rfl

theorem IsDouble.neg (h : IsDouble c) : IsDouble (-c) := by
  rw [IsDouble, toDouble_neg, h]
  rfl

theorem IsDouble.negateInt (h : IsDouble c) : (negateInt c : Value Instruction) = int (-c) := by
  rw [IsDouble] at h
  rw [Value.negateInt]
  split
  next hc => rw [hc, neg_zero]
  next =>
    have hn : toDouble (-c) = some (-c) := IsDouble.neg h
    simp only [ConstantSystem.negate, ConstantSystem.createInt, h, Option.bind_eq_bind,
      Option.bind_some, hn]
    rfl

end

theorem fold_of_lt {f : ℤ → ℤ → ℤ} {c d : ℤ} (hc : c.natAbs < 2 ^ 53) (hd : d.natAbs < 2 ^ 53)
    (hf : (f c d).natAbs < 2 ^ 53) : fold f c d = some (f c d) := by
  simp only [fold, ConstantSystem.createInt]
  rw [isDouble_of_lt hc, isDouble_of_lt hd]
  exact isDouble_of_lt hf

/-! ## The operators -/

namespace Call

/-- Operands that are bounds. The other operand may be unknown. -/
def Sided (ρ : Instruction → ℤ) (s : Bound) (call : Call Instruction)
    (μ : Bool → ℤ := fun _ => 0) : Prop :=
  match call with
  | neg a => a.Sided ρ s.flip μ
  | add a b => a.Sided ρ s μ ∧ (b = unknown ∨ b.Sided ρ s μ)
  | sub a b => a.Sided ρ s μ ∧ (b = unknown ∨ b.Sided ρ s.flip μ)

@[simp]
def Finite : Call Instruction → Prop
  | neg a => a.Finite
  | add a b | sub a b => a.Finite ∧ b.Finite

@[simp]
def eval (ρ : Instruction → ℤ) (call : Call Instruction) (μ : Bool → ℤ := fun _ => 0) : ℤ :=
  match call with
  | neg a => -a.eval ρ μ
  | add a b => a.eval ρ μ + b.eval ρ μ
  | sub a b => a.eval ρ μ - b.eval ρ μ

@[simp]
def magnitude : Call Instruction → ℕ
  | neg a => a.magnitude
  | add a b | sub a b => a.magnitude + b.magnitude

end Call

/-- A result which has the value of a call. -/
structure Denotes (ρ : Instruction → ℤ) (s : Bound) (call : Call Instruction)
    (v : Value Instruction) (μ : Bool → ℤ := fun _ => 0) : Prop where
  sided : v.Sided ρ s μ
  finite_iff : v.Finite ↔ call.Finite
  eval_eq : v.Finite → v.eval ρ μ = call.eval ρ μ
  magnitude_le : v.magnitude ≤ call.magnitude

theorem Denotes.of_call {call c' : Call Instruction} (h : Denotes ρ s c' v μ)
    (hf : c'.Finite ↔ call.Finite) (he : call.Finite → c'.eval ρ μ = call.eval ρ μ)
    (hm : c'.magnitude ≤ call.magnitude) : Denotes ρ s call v μ where
  sided := h.sided
  finite_iff := h.finite_iff.trans hf
  eval_eq hv := (h.eval_eq hv).trans (he ((h.finite_iff.trans hf).mp hv))
  magnitude_le := h.magnitude_le.trans hm

theorem Same.denotes_zero (h : Same a b) (ha : a.Sided ρ s μ) (hb : b.Sided ρ s.flip μ) :
    Denotes ρ s (.sub a b) (.int 0) μ := by
  have hfa := h.finite ha hb
  have hfb := h.finite_iff.mp hfa
  exact ⟨trivial, by simp [hfa, hfb], fun _ => by simp [h.eval_eq (ρ := ρ) (μ := μ)], by simp⟩

variable {call : Call Instruction}

/-- A call with the result of another call has the value of the whole. -/
theorem Denotes.of_two {fst sn : Call Instruction} {s' : Bound} (hv : Denotes ρ s' fst v μ)
    (hm : call.magnitude < 2 ^ 53)
    (hw : sn.Sided ρ s μ → sn.magnitude < 2 ^ 53 → w = unknown ∨ Denotes ρ s sn w μ)
    (hs : sn.Sided ρ s μ)
    (h : (v.Finite ↔ fst.Finite) → v.magnitude ≤ fst.magnitude →
      (sn.Finite ↔ call.Finite) ∧ (v.eval ρ μ = fst.eval ρ μ → sn.eval ρ μ = call.eval ρ μ) ∧
        (call.Finite → fst.Finite) ∧ sn.magnitude ≤ call.magnitude) :
    w = unknown ∨ Denotes ρ s call w μ := by
  obtain ⟨hf, he, hc, hle⟩ := h hv.finite_iff hv.magnitude_le
  rcases hw hs (by omega) with rfl | hw
  · exact .inl rfl
  · refine .inr (hw.of_call hf ?_ hle)
    intro h
    exact he (hv.eval_eq (hv.finite_iff.mpr (hc h)))

theorem ne_unknown (h : v.isSimple = true) : v ≠ unknown := by
  rintro rfl
  cases h

variable [DecidableEq Instruction]

theorem Computes.add_unknown (h : Computes (.add unknown b) v) : v = unknown := by
  cases h with
  | addSwap ha => rcases ha with ha | ⟨ha, -⟩ <;> cases ha
  | addVariableNegative ha | addVariable ha => cases ha
  | _ => rfl

theorem Computes.sub_unknown (h : Computes (.sub unknown b) v) : v = unknown := by
  cases h with
  | subSwap ha => rcases ha with ha | ⟨ha, -⟩ <;> cases ha
  | subVariableSame ha | subVariableNegative ha | subVariable ha => cases ha
  | _ => rfl

theorem Computes.neg_unknown (h : Computes (.neg unknown) v) : v = unknown := by
  cases h with
  | negUnknown => rfl
  | negVariable ha => cases ha

/-- **A result has the value that the operator asks for.** -/
theorem Computes.exact (h : Computes call v) (hs : call.Sided ρ s μ)
    (hm : call.magnitude < 2 ^ 53) : v = unknown ∨ Denotes ρ s call v μ := by
  induction h generalizing s with
  | negInt c =>
    rw [(isDouble_of_lt hm).negateInt]
    exact .inr ⟨trivial, Iff.rfl, fun _ => rfl, by simp⟩
  | negMaxInt | negMinInt =>
    refine .inr ⟨?_, Iff.rfl, fun h => h.elim, le_rfl⟩
    cases s <;> first | rfl | cases hs
  | negUnknown | addUnknown | subUnknown => exact .inl rfl
  | negVariable ha => exact .inr ⟨hs, Iff.rfl, fun _ => rfl, le_rfl⟩
  | @negAdd l r l' v _ hv ihl ihv =>
    obtain ⟨hl, hr⟩ := hs
    rcases ihl hl (by simp at hm ⊢; omega) with rfl | hl'
    · exact .inl hv.sub_unknown
    exact hl'.of_two hm ihv ⟨hl'.sided, .inr hr⟩ (by simp; grind)
  | @negSubtract l r v _ ih =>
    obtain ⟨hl, hr⟩ := hs
    rcases ih ⟨by simpa using hr, .inr hl⟩ (by simp at hm ⊢; omega) with rfl | hv
    · exact .inl rfl
    exact .inr (hv.of_call and_comm (by simp) (Nat.add_comm _ _).le)
  | negNegate a =>
    simp only [Call.Sided, Sided, Bound.flip_flip] at hs
    exact .inr ⟨hs, Iff.rfl, fun _ => by simp, le_rfl⟩
  | @addZero a b hb | @subZero a b hb =>
    cases b with
    | int c =>
      have hc : c = 0 := by simpa [isZero] using hb
      subst hc
      exact .inr ⟨hs.1, by simp, by simp, by simp⟩
    | _ => cases hb
  | @addAbsorbing a b ha | @subAbsorbing a b ha =>
    have hf : ¬ a.Finite := by cases a <;> first | exact id | cases ha
    exact .inr ⟨hs.1, ⟨fun h => absurd h hf, fun h => absurd h.1 hf⟩,
      fun h => absurd h hf, Nat.le_add_right _ _⟩
  | addInts c d | subInts c d =>
    simp only [Call.magnitude, magnitude] at hm
    rw [fold_of_lt (by omega) (by omega) (by omega)]
    refine .inr ⟨trivial, by simp [ofConstant], fun _ => rfl, ?_⟩
    simp only [ofConstant, Call.magnitude, magnitude]
    omega
  | @addSwap a b v _ _ hv ih =>
    obtain ⟨ha, rfl | hb⟩ := hs
    · exact .inl hv.add_unknown
    rcases ih ⟨hb, .inr ha⟩ (by simp at hm ⊢; omega) with rfl | hv
    · exact .inl rfl
    exact .inr (hv.of_call and_comm (fun _ => add_comm _ _) (Nat.add_comm _ _).le)
  | @addVariableNegative a c ha hc | @addNegateNegative a c hc =>
    simp only [Call.magnitude, magnitude] at hm
    rw [(isDouble_of_lt (by omega)).negateInt]
    exact .inr ⟨⟨hs.1, trivial⟩, Iff.rfl, fun _ => by simp, by simp⟩
  | @addVariable a b ha hb | @subVariable a b ha hb | @subNegate a b hb =>
    obtain ⟨ha, rfl | hb'⟩ := hs
    · rcases hb with hb | hb <;> cases hb
    exact .inr ⟨⟨ha, hb'⟩, Iff.rfl, fun _ => rfl, le_rfl⟩
  | @addAddLeft l r b v w _ _ hsm _ ihv ihw
  | @addSubtractLeft l r b v w _ _ hsm _ ihv ihw
  | @subAddLeft l r b v w _ _ hsm _ ihv ihw
  | @subSubtractLeft l r b v w _ _ hsm _ ihv ihw =>
    obtain ⟨⟨hl, hr⟩, hb⟩ := hs
    have hv := (ihv ⟨hl, hb⟩ (by simp at hm ⊢; omega)).resolve_left (ne_unknown hsm)
    exact hv.of_two hm ihw ⟨hv.sided, .inr hr⟩ (by simp; grind)
  | @addAddRight l r b v w _ _ hsm _ ihv ihw | @subAddRight l r b v w _ _ hsm _ ihv ihw
  | @subSubtractRight l r b v w _ _ hsm _ ihv ihw =>
    obtain ⟨⟨hl, hr⟩, hb⟩ := hs
    have hv := (ihv ⟨hr, hb⟩ (by simp at hm ⊢; omega)).resolve_left (ne_unknown hsm)
    exact hv.of_two hm ihw ⟨hl, .inr hv.sided⟩ (by simp; grind)
  | @addSubtractRight l r b v w _ hv' hsm _ ihv ihw =>
    obtain ⟨⟨hl, hr⟩, rfl | hb⟩ := hs
    · exact absurd hv'.sub_unknown (ne_unknown hsm)
    have hv := (ihv ⟨hb, .inr hr⟩ (by simp at hm ⊢; omega)).resolve_left (ne_unknown hsm)
    exact hv.of_two hm ihw ⟨hl, .inr hv.sided⟩ (by simp; grind)
  | @addNegateSame a b h =>
    obtain ⟨ha, rfl | hb⟩ := hs
    · cases same_of_equals h
      exact ha.elim
    refine .inr (((same_of_equals h).denotes_zero hb ha).of_call and_comm ?_ (Nat.add_comm _ _).le)
    intro _
    simp [sub_eq_neg_add]
  | @addNegates a b v _ ih | @subNegates a b v _ ih =>
    obtain ⟨ha, hb | hb⟩ := hs
    · cases hb
    simp only [Sided, Bound.flip_flip] at hb
    rcases ih ⟨ha, .inr hb⟩ hm with rfl | hv
    · exact .inl rfl
    · exact .inr (hv.of_call Iff.rfl (fun _ => by simp [sub_eq_add_neg]) le_rfl)
  | @addNegate a b hb =>
    obtain ⟨ha, rfl | hb'⟩ := hs
    · rcases hb with hb | hb <;> cases hb
    exact .inr ⟨⟨hb', ha⟩, and_comm, fun _ => by simp [sub_eq_neg_add], (Nat.add_comm _ _).le⟩
  | @addNegateOther a b v _ _ hv ih =>
    obtain ⟨ha, rfl | hb⟩ := hs
    · exact .inl hv.sub_unknown
    rcases ih ⟨hb, .inr ha⟩ (by simp at hm ⊢; omega) with rfl | hv
    · exact .inl rfl
    exact .inr (hv.of_call and_comm (fun _ => by simp [sub_eq_neg_add]) (Nat.add_comm _ _).le)
  | @subSwap a b b' v _ _ hn hv ihb ihv =>
    obtain ⟨ha, rfl | hb⟩ := hs
    · cases hn.neg_unknown
      exact .inl hv.add_unknown
    rcases ihb hb (by simp at hm ⊢; omega) with rfl | hb'
    · exact .inl hv.add_unknown
    exact hb'.of_two hm ihv ⟨hb'.sided, .inr ha⟩ (by simp; grind)
  | @subVariableSame a b ha h =>
    obtain ⟨ha, rfl | hb⟩ := hs
    · cases same_of_equals h
      exact ha.elim
    exact .inr ((same_of_equals h).denotes_zero ha hb)
  | @subVariableNegative a c ha hc =>
    simp only [Call.magnitude, magnitude] at hm
    rw [(isDouble_of_lt (by omega)).negateInt]
    exact .inr ⟨⟨hs.1, trivial⟩, Iff.rfl, fun _ => by simp [sub_eq_add_neg], by simp⟩
  | @subNegateNegative a c hc =>
    simp only [Call.magnitude, magnitude] at hm
    rw [(isDouble_of_lt (by omega)).negateInt]
    exact .inr ⟨⟨trivial, hs.1⟩, by simp, fun _ => by simp; omega, by simp; omega⟩
  | @subNegateOther a b b' v _ hn hv ihb ihv =>
    obtain ⟨ha, rfl | hb⟩ := hs
    · cases hn.neg_unknown
      exact .inl hv.sub_unknown
    rcases ihb hb (by simp at hm ⊢; omega) with rfl | hb'
    · exact .inl hv.sub_unknown
    exact hb'.of_two hm ihv ⟨hb'.sided, .inr ha⟩ (by simp; grind)

end Compiler.Ssa
