import DartSdk.Compiler.Ssa.Proof.Exactness

/-!
# The bounds which the analysis builds

In a lower bound, a positive instruction is never added, and in an upper bound none is subtracted:
the range of such an instruction has the lower bound `0`. This is why a sign is strict where it
decides a comparison.

* `Computes.bounds`: the operators keep the form of bounds.
* `Conforms.strict`: **a negative upper bound is below zero**, and a positive lower bound that is no
  constant is above zero.
* `extreme_chosen`: what `min` and `max` choose, and why.
* `extreme_le`: what follows if `min` or `max` of bounds of two sides is the first one.
-/

namespace Compiler.Ssa

open Value Nat Bool Int

variable {I : Type} {c : ℤ} {positive : I → Prop} {mks : Bool} {s : Bound}
  {ρ : I → ℤ} {μ : Bool → ℤ} {a b v w : Value I} {call : Call I}

/-! ## Constants -/

theorem round_bounds {m : ℕ} (hm : 2 ^ 53 ≤ m) : 0 < (round m).1 ∧ (round m).1 ≤ 2 ^ 53 := by
  have hl : 53 ≤ m.log2 := (le_log2 (by omega)).mpr hm
  have hlw : 2 ^ 52 ≤ m / 2 ^ (m.log2 - 52) := by
    rw [Nat.le_div_iff_mul_le (by positivity), ← pow_add, show 52 + (m.log2 - 52) = m.log2 by omega]
    exact log2_self_le (by omega)
  have hh : m / 2 ^ (m.log2 - 52) < 2 ^ 53 := by
    rw [Nat.div_lt_iff_lt_mul (by positivity), ← pow_add,
      show 53 + (m.log2 - 52) = m.log2 + 1 by omega]
    exact lt_log2_self
  rw [round]
  constructor <;> split <;> omega

/-- A multiple of the unit in the last place is not rounded. -/
theorem round_of_dvd {m : ℕ} (hd : 2 ^ (m.log2 - 52) ∣ m) : (round m).1 * 2 ^ (round m).2 = m := by
  have hh : 0 < 2 ^ (m.log2 - 52 - 1) := by positivity
  rw [round]
  rw [if_neg (by omega), Nat.div_mul_cancel hd]

theorem dvd_of_significand {q e : ℕ} (hq : 0 < q) (hq' : q ≤ 2 ^ 53) :
    2 ^ ((q * 2 ^ e).log2 - 52) ∣ q * 2 ^ e := by
  have hp : q * 2 ^ e ≠ 0 := by positivity
  rcases hq'.lt_or_eq with hlt | rfl
  · have hl : (q * 2 ^ e).log2 < 53 + e := by
      rw [log2_lt hp, pow_add]
      exact Nat.mul_lt_mul_of_pos_right hlt (by positivity)
    exact (pow_dvd_pow 2 (by omega)).trans (dvd_mul_left _ _)
  · have hl : (2 ^ 53 * 2 ^ e).log2 < 54 + e := by
      rw [log2_lt hp, pow_add]
      exact Nat.mul_lt_mul_of_pos_right (by norm_num) (by positivity)
    rw [← pow_add] at hl ⊢
    exact pow_dvd_pow 2 (by omega)

theorem isDouble_toDouble {d : ℤ} (h : toDouble c = some d) : IsDouble d := by
  rw [toDouble] at h
  split at h
  next hlt =>
    cases h
    exact isDouble_of_lt hlt
  next hge =>
    obtain ⟨hp, hle⟩ := round_bounds (not_lt.mp hge)
    dsimp only at h
    generalize hm : (round c.natAbs).1 * 2 ^ (round c.natAbs).2 = m at h
    have hdv : 2 ^ (m.log2 - 52) ∣ m := hm ▸ dvd_of_significand hp hle
    split at h
    next hlt =>
      cases h
      have ha : (c.sign * (m : ℤ)).natAbs = m := by
        rw [natAbs_mul, natAbs_sign_of_ne_zero (by omega), one_mul, natAbs_natCast]
      rw [IsDouble, toDouble, ha]
      split
      · rfl
      dsimp only
      rw [round_of_dvd hdv, if_pos hlt, Int.sign_mul, sign_sign]
      congr 1
      rw [mul_assoc, sign_mul_self_eq_natAbs, natAbs_natCast]
    next => cases h

/-! ## Bounds -/

namespace Value

def isMarker : Value I → Bool
  | marker _ _ => true
  | _ => false

def isNegate : Value I → Bool
  | negate _ => true
  | _ => false

/-- The form of a bound. Markers may be in the bounds of the update of a loop only. -/
def Conforms (positive : I → Prop) (mks : Bool) : Bound → Value I → Prop
  | _, int c => IsDouble c
  | s, maxInt => s = .upper
  | s, minInt => s = .lower
  | _, unknown => False
  | s, marker isLower _ => mks = true ∧ (isLower = true ↔ s = .lower)
  | s, instruction i isPositive => isPositive = true → s = .upper ∧ positive i
  | s, add l r => l.Conforms positive mks s ∧ r.Conforms positive mks s ∧
    l.isVariable = true ∧ (r.isVariable = true ∨ r.isInt = true)
  | s, subtract l r => l.Conforms positive mks s ∧ r.Conforms positive mks s.flip ∧
    (s = .lower → (l.isVariable = true ∨ l.isInt = true ∨ l.isNegate = true) ∧
      (r.isVariable = true ∨ r.isInt = true ∧ l.isInt = false))
  | s, negate a => a.Conforms positive mks s.flip ∧ (s = .lower → a.isVariable = true) ∧
    (s = .upper → a.isPositive = true → a.isMarker = true)

def infinity : Bound → Value I
  | .lower => minInt
  | .upper => maxInt

end Value

/-- A bound that may be unknown. -/
def Value.Bounds (positive : I → Prop) (mks : Bool) (s : Bound)
    (v : Value I) : Prop :=
  v = unknown ∨ v.Conforms positive mks s

def Call.Bounds (positive : I → Prop) (mks : Bool) (s : Bound) :
    Call I → Prop
  | neg a => a.Bounds positive mks s.flip
  | add a b => a.Bounds positive mks s ∧ b.Bounds positive mks s
  | sub a b => a.Bounds positive mks s ∧ b.Bounds positive mks s.flip

theorem Value.Conforms.int_zero : (int 0 : Value I).Conforms positive mks s :=
  isDouble_of_lt (by norm_num)

theorem Value.Conforms.sided (h : a.Conforms positive false s) (hρ : ∀ i, positive i → 0 ≤ ρ i) :
    a.Sided ρ s := by
  induction a generalizing s with
  | int c => trivial
  | marker l p => exact fun _ => le_rfl
  | maxInt | minInt | unknown => exact h
  | instruction i p => exact fun hp => hρ i (h hp).2
  | add l r ihl ihr | subtract l r ihl ihr => exact ⟨ihl h.1, ihr h.2.1⟩
  | negate a ih => exact ih h.1

/-- A variable of a lower bound is not positive. -/
theorem Value.Conforms.not_isPositive (h : a.Conforms positive false .lower) (ha : a.isVariable = true) :
    a.isPositive = false := by
  cases a with
  | marker l p => cases h.1
  | instruction i p =>
    cases p with
    | false => rfl
    | true => cases (h rfl).1
  | _ => cases ha

/-- **Where a sign is strict.** -/
theorem Value.Conforms.strict (hρ : ∀ i, positive i → 0 ≤ ρ i) :
    (a.Conforms positive false .upper → a.isNegative = true → a.eval ρ < 0) ∧
      (a.Conforms positive false .lower → a.isPositive = true → a.isInt = true ∨ 0 < a.eval ρ) := by
  induction a with
  | int c => exact ⟨fun _ h => by simpa [isNegative] using h, fun _ _ => .inl rfl⟩
  | maxInt => exact ⟨fun _ h => (by cases h), fun h => (by cases h)⟩
  | minInt => exact ⟨fun h => (by cases h), fun _ h => (by cases h)⟩
  | unknown => exact ⟨fun h => h.elim, fun h => h.elim⟩
  | marker l p => exact ⟨fun h => (Bool.false_ne_true h.1).elim, fun h => (Bool.false_ne_true h.1).elim⟩
  | instruction i p =>
    refine ⟨fun _ h => (by cases h), fun h hp => ?_⟩
    rw [Conforms.not_isPositive h rfl] at hp
    cases hp
  | add l r ihl ihr =>
    refine ⟨fun h hn => ?_, fun h hp => ?_⟩
    · simp only [isNegative, and_eq_true] at hn
      exact add_neg (ihl.1 h.1 hn.1) (ihr.1 h.2.1 hn.2)
    · simp only [isPositive, and_eq_true] at hp
      rw [Conforms.not_isPositive h.1 h.2.2.1] at hp
      cases hp.1
  | subtract l r ihl ihr =>
    refine ⟨fun h hn => ?_, fun h hp => ?_⟩
    · simp only [isNegative, and_eq_true] at hn
      have hl := ihl.1 h.1 hn.1
      obtain ⟨hr, hf⟩ := Sided.sign .upper (h.2.1.sided hρ) hn.2
      have : 0 ≤ r.eval ρ := hr (hf rfl)
      simp only [eval]
      omega
    · simp only [isPositive, and_eq_true] at hp
      have hr := ihr.1 h.2.1 hp.2
      obtain ⟨hl, hf⟩ := Sided.sign .upper (h.1.sided hρ) hp.1
      have : 0 ≤ l.eval ρ := hl (hf rfl)
      simp only [eval]
      omega
  | negate a ih =>
    refine ⟨fun h hn => ?_, fun h hp => ?_⟩
    · have hm := h.2.2 rfl hn
      cases a with
      | marker => cases h.1.1
      | _ => cases hm
    · have := ih.1 h.1 hp
      simp only [eval]
      omega

/-! ## The operators keep the form -/

theorem bounds_ofConstant {f : ℤ → ℤ → ℤ} {d : ℤ} :
    (ofConstant (ConstantSystem.fold f c d) : Value I).Bounds positive mks s := by
  cases h : ConstantSystem.fold f c d with
  | none => exact .inl rfl
  | some e =>
    obtain ⟨c', -, h⟩ := Option.bind_eq_some_iff.mp h
    obtain ⟨d', -, h⟩ := Option.bind_eq_some_iff.mp h
    exact .inr (isDouble_toDouble h)

theorem Value.Bounds.conforms (h : a.Bounds positive mks s) (ha : a ≠ unknown) :
    a.Conforms positive mks s :=
  h.resolve_left ha

theorem ne_unknown_of_isVariable (h : a.isVariable = true) : a ≠ unknown := by
  rintro rfl
  cases h

theorem ne_unknown_of_onSide (h : a.onSide s = true) : a ≠ unknown := by
  rintro rfl
  cases s <;> cases h

theorem ne_unknown_of_isInt (h : a.isInt = true) : a ≠ unknown := by
  rintro rfl
  cases h

theorem conforms_negateInt (h : IsDouble c) : (negateInt c : Value I).Conforms positive mks s := by
  rw [h.negateInt]
  exact h.neg

theorem isInt_negateInt (h : IsDouble c) : (negateInt c : Value I).isInt = true := by
  rw [h.negateInt]
  rfl

theorem isInt_eq_false (h : a.isVariable = true) : a.isInt = false := by
  cases a <;> first | rfl | cases h

theorem eq_int_of_ofConstant {e : Option ℤ} (h : (ofConstant e : Value I).isSimple = true) :
    ∃ d, (ofConstant e : Value I) = int d := by
  cases e with
  | none => cases h
  | some d => exact ⟨d, rfl⟩

variable [DecidableEq I]

/-- **The operators keep the form of bounds.** -/
theorem Computes.bounds (h : Computes call v) (hc : call.Bounds positive mks s) :
    v.Bounds positive mks s := by
  induction h generalizing s with
  | negInt c => exact .inr (conforms_negateInt (hc.conforms nofun))
  | negMaxInt | negMinInt =>
    have := hc.conforms nofun
    refine .inr ?_
    cases s <;> first | rfl | cases this
  | negUnknown | addUnknown | subUnknown => exact .inl rfl
  | @negVariable a ha =>
    have hc := hc.conforms (ne_unknown_of_isVariable ha)
    refine .inr ⟨hc, fun _ => ha, ?_⟩
    rintro rfl hp
    cases a with
    | marker => rfl
    | instruction i p => cases (hc hp).1
    | _ => cases ha
  | negAdd _ _ ihl ihv =>
    have hc := hc.conforms nofun
    exact ihv ⟨ihl (.inr hc.1), .inr hc.2.1⟩
  | negSubtract _ ih =>
    have hc := hc.conforms nofun
    exact ih ⟨.inr (by simpa only [Bound.flip_flip] using hc.2.1), .inr hc.1⟩
  | negNegate a =>
    have hc := hc.conforms nofun
    exact .inr (by simpa only [Bound.flip_flip] using hc.1)
  | addZero | subZero | addAbsorbing | subAbsorbing => exact hc.1
  | addInts | subInts => exact bounds_ofConstant
  | addSwap _ _ _ ih => exact ih hc.symm
  | addVariableNegative ha =>
    have hd := hc.2.conforms nofun
    exact .inr ⟨hc.1.conforms (ne_unknown_of_isVariable ha), conforms_negateInt hd,
      fun _ => ⟨.inl ha, .inr ⟨isInt_negateInt hd, isInt_eq_false ha⟩⟩⟩
  | addVariable ha hb =>
    refine .inr ⟨hc.1.conforms (ne_unknown_of_isVariable ha), hc.2.conforms ?_, ha, hb⟩
    exact hb.elim ne_unknown_of_isVariable ne_unknown_of_isInt
  | addAddLeft _ _ _ _ ihv ihw | subAddLeft _ _ _ _ ihv ihw
  | addSubtractLeft _ _ _ _ ihv ihw | subSubtractLeft _ _ _ _ ihv ihw =>
    have ha := hc.1.conforms nofun
    exact ihw ⟨ihv ⟨.inr ha.1, hc.2⟩, .inr ha.2.1⟩
  | addAddRight _ _ _ _ ihv ihw | subAddRight _ _ _ _ ihv ihw =>
    have ha := hc.1.conforms nofun
    exact ihw ⟨.inr ha.1, ihv ⟨.inr ha.2.1, hc.2⟩⟩
  | addSubtractRight _ _ _ _ ihv ihw =>
    have ha := hc.1.conforms nofun
    exact ihw ⟨.inr ha.1, ihv ⟨hc.2, .inr ha.2.1⟩⟩
  | subSubtractRight _ _ _ _ ihv ihw =>
    have ha := hc.1.conforms nofun
    exact ihw ⟨.inr ha.1, ihv ⟨.inr ha.2.1, hc.2⟩⟩
  | addNegateSame | subVariableSame => exact .inr Value.Conforms.int_zero
  | addNegates _ ih => exact ih ⟨hc.1, .inr (hc.2.conforms nofun).1⟩
  | addNegateNegative =>
    have hd := hc.2.conforms nofun
    exact .inr ⟨hc.1.conforms nofun, conforms_negateInt hd,
      fun _ => ⟨.inr (.inr rfl), .inr ⟨isInt_negateInt hd, rfl⟩⟩⟩
  | addNegate hb =>
    have ha := hc.1.conforms nofun
    have hd := hc.2.conforms (hb.elim ne_unknown_of_isVariable ne_unknown_of_isInt)
    refine .inr ⟨hd, ha.1, fun hs => ⟨?_, .inl (ha.2.1 hs)⟩⟩
    rcases hb with hb | hb
    · exact .inl hb
    · exact .inr (.inl hb)
  | addNegateOther _ _ _ ih => exact ih ⟨hc.2, .inr (hc.1.conforms nofun).1⟩
  | subSwap _ _ _ _ ihb ihv => exact ihv ⟨ihb hc.2, hc.1⟩
  | subVariableNegative ha =>
    have hd := hc.2.conforms nofun
    exact .inr ⟨hc.1.conforms (ne_unknown_of_isVariable ha), conforms_negateInt hd, ha,
      .inr (isInt_negateInt hd)⟩
  | subVariable ha hb =>
    have hd := hc.2.conforms (hb.elim ne_unknown_of_isVariable ne_unknown_of_isInt)
    refine .inr ⟨hc.1.conforms (ne_unknown_of_isVariable ha), hd, fun _ => ⟨.inl ha, ?_⟩⟩
    rcases hb with hb | hb
    · exact .inl hb
    · exact .inr ⟨hb, isInt_eq_false ha⟩
  | subNegateNegative =>
    have ha := hc.1.conforms nofun
    have hd := hc.2.conforms nofun
    exact .inr ⟨conforms_negateInt hd, ha.1,
      fun hs => ⟨.inr (.inl (isInt_negateInt hd)), .inl (ha.2.1 hs)⟩⟩
  | subNegate hb =>
    have hd := hc.2.conforms (hb.elim ne_unknown_of_isVariable ne_unknown_of_isInt)
    refine .inr ⟨hc.1.conforms nofun, hd, fun _ => ⟨.inr (.inr rfl), ?_⟩⟩
    rcases hb with hb | hb
    · exact .inl hb
    · exact .inr ⟨hb, rfl⟩
  | subNegates _ ih =>
    have hd := hc.2.conforms nofun
    exact ih ⟨hc.1, .inr (by simpa only [Bound.flip_flip] using hd.1)⟩
  | subNegateOther _ _ _ ihb ihv =>
    exact ihv ⟨ihb hc.2, .inr (hc.1.conforms nofun).1⟩

/-! ## A constant is subtracted from a bound -/

section

variable {d : ℤ}

/-- A variable and a constant make no constant, and nothing simple unless the constant is zero. -/
theorem Computes.sub_variable_int (h : Computes (.sub a (int c)) v) (ha : a.isVariable = true) :
    v.isInt = false ∧ (v.isSimple = true → c = 0) := by
  cases h with
  | subZero _ hc => exact ⟨isInt_eq_false ha, fun _ => by simpa [isZero] using hc⟩
  | subAbsorbing _ ha' => cases a <;> first | cases ha; done | cases ha'
  | subInts | subAddLeft | subAddRight | subSubtractLeft | subSubtractRight
  | subNegateNegative | subNegate | subNegateOther => cases ha
  | subSwap _ hb => cases hb
  | subVariableSame _ hsm => cases a <;> first | cases ha; done | cases hsm
  | subVariableNegative | subVariable | subUnknown => exact ⟨rfl, by rintro ⟨⟩⟩

theorem Computes.add_variable_int (h : Computes (.add a (int c)) v) (ha : a.isVariable = true) :
    v.isInt = false ∧ (v.isSimple = true → c = 0) := by
  cases h with
  | addZero _ hc => exact ⟨isInt_eq_false ha, fun _ => by simpa [isZero] using hc⟩
  | addAbsorbing _ ha' => cases a <;> first | cases ha; done | cases ha'
  | addInts | addAddLeft | addAddRight | addSubtractLeft | addSubtractRight
  | addNegateSame | addNegateNegative | addNegate | addNegateOther => cases ha
  | addSwap _ hb => cases hb
  | addVariableNegative | addVariable | addUnknown => exact ⟨rfl, by rintro ⟨⟩⟩

theorem Computes.sub_negate_int (h : Computes (.sub (negate a) (int c)) v) :
    v.isInt = false ∧ (v.isSimple = true → c = 0) := by
  cases h with
  | subZero _ hc => exact ⟨rfl, fun _ => by simpa [isZero] using hc⟩
  | subAbsorbing _ ha | subVariableSame ha | subVariableNegative ha | subVariable ha => cases ha
  | subSwap _ hb | subNegateOther hb => cases hb
  | subNegateNegative | subNegate | subUnknown => exact ⟨rfl, by rintro ⟨⟩⟩

theorem Computes.sub_ints (h : Computes (.sub (int c) (int d)) v) (hs : v.isSimple = true) :
    ∃ e, v = int e := by
  cases h with
  | subZero => exact ⟨c, rfl⟩
  | subInts => exact eq_int_of_ofConstant hs
  | subAbsorbing _ ha | subVariableSame ha | subVariableNegative ha | subVariable ha => cases ha
  | subSwap _ hb => cases hb
  | subUnknown => cases hs

theorem Computes.add_ints (h : Computes (.add (int c) (int d)) v) (hs : v.isSimple = true) :
    ∃ e, v = int e := by
  cases h with
  | addZero => exact ⟨c, rfl⟩
  | addInts => exact eq_int_of_ofConstant hs
  | addAbsorbing _ ha | addVariableNegative ha | addVariable ha => cases ha
  | addSwap _ hb => cases hb
  | addUnknown => cases hs

theorem Computes.neg_variable (h : Computes (.neg a) v) (ha : a.isVariable = true) :
    v = negate a := by
  cases h with
  | negVariable => rfl
  | _ => cases ha

theorem Computes.sub_int_variable (h : Computes (.sub (int c) a) v) (ha : a.isVariable = true) :
    v.isInt = false := by
  cases h with
  | subZero _ hb => cases a <;> first | cases ha; done | cases hb
  | subAbsorbing _ hc | subVariableSame hc | subVariableNegative hc | subVariable hc => cases hc
  | subInts => cases ha
  | subUnknown => rfl
  | subSwap _ _ hn had =>
    rw [hn.neg_variable ha] at had
    cases had with
    | addAbsorbing _ h | addVariableNegative h | addVariable h => cases h
    | addSwap _ hb | addNegateOther hb => cases hb
    | addNegateSame hsm => cases a <;> first | cases ha; done | cases hsm
    | addZero | addUnknown | addNegateNegative | addNegate => rfl

/-- **Subtracting a constant from a lower bound that is no constant gives none.** -/
theorem Computes.sub_int (h : Computes (.sub a (int c)) v)
    (ha : a.Conforms positive false .lower) (hi : a.isInt = false) : v.isInt = false := by
  cases h with
  | subZero | subAbsorbing => exact hi
  | subInts => cases hi
  | subSwap _ hb | subNegateOther hb => cases hb
  | subVariableSame hvr hsm => cases a <;> first | cases hvr; done | cases hsm
  | subVariableNegative | subVariable | subUnknown | subNegateNegative | subNegate => rfl
  | @subAddLeft l r _ v _ hc hv hs =>
    exact absurd ((hv.sub_variable_int ha.2.2.1).2 hs) (by simpa [isZero] using hc)
  | @subAddRight l r _ v _ hc hv hs hw =>
    rcases ha.2.2.2 with hr | hr
    · exact absurd ((hv.sub_variable_int hr).2 hs) (by simpa [isZero] using hc)
    cases r with
    | int d =>
      obtain ⟨e, rfl⟩ := hv.sub_ints hs
      exact (hw.add_variable_int ha.2.2.1).1
    | _ => cases hr
  | @subSubtractLeft l r _ v _ hc hv hs hw =>
    obtain ⟨hl, hr⟩ := ha.2.2 rfl
    have hz : c ≠ 0 := by simpa [isZero] using hc
    rcases hl with hl | hl | hl
    · exact absurd ((hv.sub_variable_int hl).2 hs) hz
    · cases l with
      | int d =>
        obtain ⟨e, rfl⟩ := hv.sub_ints hs
        rcases hr with hr | ⟨-, hl⟩
        · exact hw.sub_int_variable hr
        · cases hl
      | _ => cases hl
    · cases l with
      | negate l => exact absurd (hv.sub_negate_int.2 hs) hz
      | _ => cases hl
  | @subSubtractRight l r _ v _ hc hv hs hw =>
    obtain ⟨hl, hr⟩ := ha.2.2 rfl
    have hz : c ≠ 0 := by simpa [isZero] using hc
    rcases hr with hr | ⟨hr, hl'⟩
    · exact absurd ((hv.add_variable_int hr).2 hs) hz
    cases r with
    | int d =>
      obtain ⟨e, rfl⟩ := hv.add_ints hs
      rcases hl with hl | hl | hl
      · exact (hw.sub_variable_int hl).1
      · rw [hl] at hl'
        cases hl'
      · cases l with
        | negate l => exact hw.sub_negate_int.1
        | _ => cases hl
    | _ => cases hr

end

/-! ## Comparing bounds -/

namespace Value

/-- `min` or `max`, towards the infinity of the bound. -/
def extreme : Bound → Value I → Value I → Value I
  | .lower => Value.min
  | .upper => Value.max

def symbolicExtreme : Bound → Value I → Value I → Value I
  | .lower => symbolicMin
  | .upper => symbolicMax

end Value

theorem symbolicExtreme_cases (s : Bound) (a b : Value I) :
    (a == b) = true ∧ a.symbolicExtreme s b = a ∨
    (a == b) = false ∧ ((b == infinity s) = true ∧ a.symbolicExtreme s b = b ∨
      (b == infinity s.flip) = true ∧ a.symbolicExtreme s b = a ∨
      (a - b).onSide s.flip = true ∧ a.symbolicExtreme s b = b ∨
      (a - b).onSide s = true ∧ a.symbolicExtreme s b = a ∨ a.symbolicExtreme s b = unknown) := by
  cases s with
  | lower =>
    rw [symbolicExtreme, symbolicMin]
    grind [infinity, onSide, Bound.flip]
  | upper =>
    rw [symbolicExtreme, symbolicMax]
    grind [infinity, onSide, Bound.flip]

theorem equals_unknown_of_sided (ha : a.Sided ρ s) : (a == unknown) = false := by
  cases a <;> first | rfl | exact ha.elim

theorem eq_of_equals_infinity (h : (a == infinity s) = true) : a = infinity s := by
  cases s <;> cases a <;> first | rfl | cases h

/-- Why `a` is not inside of `b`, on the side of a bound. -/
inductive Value.Beyond (s : Bound) : Value I → Value I → Prop
  | same {a b : Value I} (h : (a == b) = true) : Beyond s a b
  | infinite (b : Value I) : Beyond s (infinity s) b
  | inside (a : Value I) : Beyond s a (infinity s.flip)
  | ints {c d : ℤ} (h : s.le c d) : Beyond s (int c) (int d)
  | sub {a b : Value I} (h : (a - b).onSide s = true) : Beyond s a b

/-- A choice between two bounds. The difference decides for either of them. -/
inductive Value.Chosen (s : Bound) (a b : Value I) : Value I → Prop
  | unknown : Chosen s a b unknown
  | first (h : a.Beyond s b) : Chosen s a b a
  | other (h : b.Beyond s a ∨ (a - b).onSide s.flip = true) : Chosen s a b b

theorem symbolicExtreme_chosen (s : Bound) (a b : Value I) :
    Chosen s a b (a.symbolicExtreme s b) := by
  rcases symbolicExtreme_cases s a b with
    ⟨h, hr⟩ | ⟨-, ⟨h, hr⟩ | ⟨h, hr⟩ | ⟨h, hr⟩ | ⟨h, hr⟩ | hr⟩ <;> rw [hr]
  · exact .first (.same h)
  · exact .other (.inl (eq_of_equals_infinity h ▸ .infinite a))
  · exact .first (eq_of_equals_infinity h ▸ .inside a)
  · exact .other (.inr h)
  · exact .first (.sub h)
  · exact .unknown

/-- **What `min` and `max` choose.** A constant is compared by the method of the other one. -/
theorem extreme_chosen (s : Bound) (a b : Value I) : Chosen s a b (a.extreme s b) ∨
    a.isInt = true ∧ b.isInt = false ∧ Chosen s b a (a.extreme s b) := by
  have hab := symbolicExtreme_chosen s a b
  have hba := symbolicExtreme_chosen s b a
  cases a with
  | int c =>
    cases b with
    | int d =>
      left
      cases s <;> simp only [extreme, Value.min, Value.max] <;> split
      next h => exact .first (.ints h.le)
      next h => exact .other (.inl (.ints (not_lt.mp h)))
      next h => exact .other (.inl (.ints h.le))
      next h => exact .first (.ints (not_lt.mp h))
    | maxInt | minInt =>
      cases s <;> first | exact .inl (.first (.inside _)) | exact .inl (.other (.inl (.infinite _)))
    | unknown => cases s <;> exact .inl .unknown
    | _ => cases s <;> exact .inr ⟨rfl, rfl, hba⟩
  | maxInt | minInt =>
    cases s <;> first | exact .inl (.first (.infinite b)) | exact .inl (.other (.inl (.inside b)))
  | unknown => cases s <;> exact .inl .unknown
  | _ => cases s <;> exact .inl hab

/-! ## Values of compared bounds -/

/-- The difference of bounds of two sides, if it has a sign. -/
theorem denotes_sub {t : Bound} (ha : a.Sided ρ s.flip μ) (hb : b.Sided ρ s μ)
    (hm : a.magnitude + b.magnitude < 2 ^ 53) (h : (a - b).onSide t = true) :
    Denotes ρ s.flip (.sub a b) (a - b) μ :=
  ((computes_sub a b).exact ⟨ha, .inr (by simpa using hb)⟩ hm).resolve_left (ne_unknown_of_onSide h)

theorem le_of_onSide_sub (ha : a.Sided ρ s.flip μ) (hb : b.Sided ρ s μ)
    (hm : a.magnitude + b.magnitude < 2 ^ 53) (h : (a - b).onSide s = true) :
    a.Finite ∧ b.Finite ∧ s.le (a.eval ρ μ) (b.eval ρ μ) := by
  have hd := denotes_sub ha hb hm h
  obtain ⟨hle, hfn⟩ := Sided.sign s hd.sided h
  have hf := hfn rfl
  obtain ⟨hfa, hfb⟩ := hd.finite_iff.mp hf
  have := hle hf
  rw [hd.eval_eq hf, Call.eval] at this
  exact ⟨hfa, hfb, by cases s <;> simp at this ⊢ <;> omega⟩

theorem le_of_equals (ha : a.Sided ρ s μ) (hb : b.Sided ρ s.flip μ) (h : (a == b) = true) :
    a.Finite ∧ b.Finite ∧ a.eval ρ μ = b.eval ρ μ := by
  have hsm := same_of_equals h
  have hf := hsm.finite ha hb
  exact ⟨hf, hsm.finite_iff.mp hf, hsm.eval_eq⟩

theorem Value.Beyond.le (h : a.Beyond s b) (ha : a.Sided ρ s.flip μ) (hb : b.Sided ρ s μ)
    (hm : a.magnitude + b.magnitude < 2 ^ 53) :
    a.Finite ∧ b.Finite ∧ s.le (a.eval ρ μ) (b.eval ρ μ) := by
  cases h with
  | same h =>
    obtain ⟨hfa, hfb, he⟩ := le_of_equals ha (by simpa using hb) h
    exact ⟨hfa, hfb, by cases s <;> simp [he]⟩
  | infinite => cases s <;> cases ha
  | inside => cases s <;> cases hb
  | ints h => exact ⟨trivial, trivial, h⟩
  | sub h => exact le_of_onSide_sub ha hb hm h

/-- The difference the other way round. -/
theorem le_of_onSide_flip (ha : a.Sided ρ s.flip μ) (hb : b.Sided ρ s μ)
    (hm : a.magnitude + b.magnitude < 2 ^ 53) (h : (b - a).onSide s.flip = true) :
    a.Finite ∧ b.Finite ∧ s.le (a.eval ρ μ) (b.eval ρ μ) := by
  obtain ⟨hfb, hfa, hle⟩ := le_of_onSide_sub (by simpa using hb) ha (by omega) h
  exact ⟨hfa, hfb, by cases s <;> exact hle⟩

/-- Why the first one is chosen. -/
theorem extreme_first (s : Bound) (ha : (a == unknown) = false) (h : (a.extreme s b == a) = true) :
    a.Beyond s b ∨ a.isInt = true ∧ b.isInt = false ∧ (b - a).onSide s.flip = true := by
  rw [equals_comm] at ha
  rcases extreme_chosen s a b with hc | ⟨hia, hib, hc⟩ <;>
    generalize a.extreme s b = v at hc h <;> cases hc
  case inl.unknown | inr.unknown => exact absurd (ha.symm.trans h) nofun
  case inl.first hb => exact .inl hb
  case inl.other | inr.first => exact .inl (.same (equals_comm b a ▸ h))
  case inr.other hb => exact hb.imp_right fun h => ⟨hia, hib, h⟩

/-- Nothing is rounded when two values are compared. The difference of constants is not taken. -/
def Unrounded (a b : Value I) : Prop :=
  a.isInt = true ∧ b.isInt = true ∨ a.magnitude + b.magnitude < 2 ^ 53

theorem extreme_ints (s : Bound) {d : ℤ}
    (h : ((int c : Value I).extreme s (int d) == int c) = true) : s.le c d := by
  have hd : (int d : Value I) == int c → s.le c d := fun h => by
    cases same_of_equals h
    cases s <;> exact le_rfl
  cases s <;> simp only [extreme, Value.min, Value.max] at h <;> split at h
  next hlt => exact hlt.le
  next => exact hd h
  next => exact hd h
  next hlt => exact not_lt.mp hlt

/-- **The upper bound of one value and the lower bound of another**, or the other way round. -/
theorem extreme_le (s : Bound) (ha : a.Sided ρ s.flip) (hb : b.Sided ρ s) (hm : Unrounded a b)
    (h : (a.extreme s b == a) = true) : a.Finite ∧ b.Finite ∧ s.le (a.eval ρ) (b.eval ρ) := by
  rcases hm with ⟨hia, hib⟩ | hm
  · cases a with
    | int c =>
      cases b with
      | int d => exact ⟨trivial, trivial, extreme_ints s h⟩
      | _ => cases hib
    | _ => cases hia
  rcases extreme_first s (equals_unknown_of_sided ha) h with h | ⟨-, -, h⟩
  · exact h.le ha hb hm
  · exact le_of_onSide_flip ha hb hm h

/-- The comparison is strict if the bounds are not equal as symbolic values. -/
theorem min_lower_strict (hρ : ∀ i, positive i → 0 ≤ ρ i) (ha : a.Conforms positive false .upper)
    (hb : b.Conforms positive false .lower) (hm : Unrounded a b)
    (h : (a.min b == a) = true) (hne : (a == b) = false) : a.eval ρ < b.eval ρ := by
  have hsa := ha.sided hρ
  have hsb := hb.sided hρ
  rcases hm with ⟨hia, hib⟩ | hm
  · cases a with
    | int c =>
      cases b with
      | int d =>
        refine lt_of_le_of_ne (extreme_ints .lower h) ?_
        rintro (rfl : c = d)
        rw [equals_refl] at hne
        cases hne
      | _ => cases hib
    | _ => cases hia
  rcases extreme_first .lower (equals_unknown_of_sided hsa) h with h | ⟨hia, hib, hp⟩
  · cases h with
    | same h => exact absurd (hne.symm.trans h) nofun
    | infinite => cases hsa
    | inside => cases hsb
    | @ints c d hle =>
      refine lt_of_le_of_ne hle ?_
      rintro (rfl : c = d)
      rw [equals_refl] at hne
      cases hne
    | sub hn =>
      have hd := denotes_sub hsa hsb hm hn
      have hf := (Sided.sign .lower hd.sided hn).2 rfl
      have hc := ((computes_sub a b).bounds ⟨.inr ha, .inr hb⟩).conforms (ne_unknown_of_onSide hn)
      have hlt := (Value.Conforms.strict hρ).1 hc hn
      rw [hd.eval_eq hf, Call.eval] at hlt
      omega
  · have hd := denotes_sub hsb hsa (by omega) hp
    have hf := (Sided.sign .upper hd.sided hp).2 rfl
    have hc := ((computes_sub b a).bounds ⟨.inr hb, .inr ha⟩).conforms (ne_unknown_of_onSide hp)
    rcases (Value.Conforms.strict hρ).2 hc hp with hi | hlt
    · cases a with
      | int c =>
        rw [(computes_sub b (int c)).sub_int hb hib] at hi
        cases hi
      | _ => cases hia
    · rw [hd.eval_eq hf, Call.eval] at hlt
      omega

end Compiler.Ssa
