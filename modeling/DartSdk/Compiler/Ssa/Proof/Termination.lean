import DartSdk.Compiler.Ssa.Proof.Operators

/-!
# The operators on symbolic values end

The operators call each other with swapped operands and with results of other calls.

* `Computes.lighter`: a result is not heavier than its operands, and lighter if it is simple.
* `run_total`: **the operators end**, with calls as deep as `measure` says.
* `computes_neg`, `computes_add`, `computes_sub`: the operators as `-a`, `a + b` and `a - b`.
-/

namespace Compiler.Ssa

open Value Option Nat Bool

variable {Instruction : Type} {a : Value Instruction}

def Value.weight : Value Instruction → ℕ
  | add left right | subtract left right => left.weight + right.weight
  | negate value => if value.isVariable then 1 else value.weight + 1
  | _ => 1

theorem Value.weight_pos (a : Value Instruction) : 0 < a.weight := by
  induction a with
  | add l r ihl ihr | subtract l r ihl ihr => exact Nat.add_pos_left ihl _
  | negate a ih =>
    rw [weight]
    split <;> omega
  | _ => exact Nat.one_pos

theorem Value.weight_of_isVariable (h : a.isVariable = true) : a.weight = 1 := by
  cases a <;> first | rfl | cases h

theorem Value.weight_negate (h : a.isVariable = true) : (negate a).weight = 1 := by
  rw [weight, if_pos h]

theorem Value.weight_negate_of_not (h : a.isVariable = false) :
    (negate a).weight = a.weight + 1 := by
  rw [weight, h]
  rfl

theorem Value.weight_le_negate (a : Value Instruction) : a.weight ≤ (negate a).weight := by
  by_cases h : a.isVariable = true
  · rw [weight_of_isVariable h, weight_negate h]
  · rw [weight_negate_of_not (eq_false_of_not_eq_true h)]
    omega

theorem Value.weight_le_size (a : Value Instruction) : a.weight ≤ a.size := by
  induction a with
  | add l r ihl ihr | subtract l r ihl ihr => exact Nat.add_le_add ihl ihr
  | negate a ih =>
    rw [weight, size]
    split <;> omega
  | _ => exact le_rfl

theorem Value.weight_negateInt (c : ℤ) : (negateInt c : Value Instruction).weight = 1 := by
  rw [negateInt]
  split
  · rfl
  · cases ConstantSystem.negate c <;> rfl

theorem Value.weight_ofConstant (c : Option ℤ) : (ofConstant c : Value Instruction).weight = 1 := by
  cases c <;> rfl

/-- The weight of the operands. -/
def Call.weight : Call Instruction → ℕ
  | .neg a => a.weight
  | .add a b | .sub a b => a.weight + b.weight

/-- The result is made of two operands. -/
def Call.isBinary : Call Instruction → Bool
  | .neg a => !a.isSimple
  | _ => true

/-- Why a call is not immediate. -/
def Call.rank : Call Instruction → ℕ
  | .neg _ => 7
  | .sub a b =>
    match a with
    | int _ | marker _ _ | instruction _ _ => 5
    | negate _ => if b.isInt || b.isVariable then 0 else 6
    | _ => 1
  | .add a _ =>
    match a with
    | int _ => 4
    | marker _ _ | instruction _ _ => 3
    | negate _ => 2
    | _ => 0

def Call.measure (call : Call Instruction) : ℕ := 8 * call.weight + call.rank

theorem Call.rank_sub_le (a b : Value Instruction) : (Call.sub a b).rank ≤ 6 := by
  cases a with
  | negate a =>
    rw [rank]
    split <;> omega
  | _ => simp [rank]

theorem Call.rank_add_le (a b : Value Instruction) : (Call.add a b).rank ≤ 4 := by
  cases a <;> simp [rank]

theorem Call.rank_le (call : Call Instruction) : call.rank ≤ 7 := by
  cases call with
  | neg a => exact le_rfl
  | add a b => exact (rank_add_le a b).trans (by omega)
  | sub a b => exact (rank_sub_le a b).trans (by omega)

theorem Call.measure_lt {call c' : Call Instruction} (h : call.weight < c'.weight) :
    call.measure < c'.measure := by
  have := call.rank_le
  rw [measure, measure]
  omega

variable {b v : Value Instruction} {call : Call Instruction} {fuel : ℕ}

/-- Not heavier than the operands, and lighter for a simple result of two operands. -/
structure Lighter (call : Call Instruction) (v : Value Instruction) : Prop where
  le : v.weight ≤ call.weight
  lt : call.isBinary = true → v.isSimple = true → v.weight < call.weight

theorem Lighter.of_lt (h : v.weight < call.weight) : Lighter call v := ⟨h.le, fun _ _ => h⟩

theorem Lighter.of_not_simple (h : v.weight ≤ call.weight) (hv : v.isSimple = false) :
    Lighter call v := by
  refine ⟨h, fun _ hs => ?_⟩
  rw [hv] at hs
  cases hs

/-- The result of a call with operands that are not heavier. -/
theorem Lighter.of_call {c' : Call Instruction} (h : Lighter c' v)
    (hb : c'.isBinary = true) (hle : c'.weight ≤ call.weight) : Lighter call v :=
  ⟨h.le.trans hle, fun _ hs => (h.lt hb hs).trans_le hle⟩

theorem measure_lt_fuel (hw : call.weight ≤ a.weight + b.weight) :
    call.measure < Value.fuel a b := by
  have := a.weight_le_size
  have := b.weight_le_size
  have := call.rank_le
  rw [Value.fuel, Call.measure]
  omega

variable [DecidableEq Instruction]

/-- **A result is not heavier than the operands**, and a simple one made of two operands is
lighter. -/
theorem Computes.lighter (h : Computes call v) : Lighter call v := by
  induction h with
  | negInt c => exact ⟨(weight_negateInt c).le, fun h => nomatch h⟩
  | negMaxInt | negMinInt => exact ⟨le_rfl, fun h => nomatch h⟩
  | negUnknown | addVariable | subVariable | subNegate => exact .of_not_simple le_rfl rfl
  | @negVariable a ha =>
    refine ⟨by rw [Call.weight, weight_negate ha, weight_of_isVariable ha], ?_⟩
    intro h
    cases a <;> first | cases ha; done | exact nomatch h
  | negAdd _ _ ihl ihv =>
    refine ihv.of_call rfl ?_
    have := ihl.le
    simp only [Call.weight, weight] at this ⊢
    omega
  | negSubtract _ ih =>
    refine ih.of_call rfl ?_
    simp only [Call.weight, weight]
    omega
  | negNegate a => exact ⟨weight_le_negate a, fun h => nomatch h⟩
  | addZero | subZero | addAbsorbing | subAbsorbing =>
    exact .of_lt (Nat.lt_add_of_pos_right (weight_pos _))
  | addInts c d | subInts c d =>
    refine .of_lt ?_
    rw [weight_ofConstant]
    exact Nat.one_lt_two
  | addSwap _ _ _ ih =>
    refine ih.of_call rfl ?_
    simp only [Call.weight]
    omega
  | addVariableNegative | addNegateNegative | subVariableNegative =>
    refine .of_not_simple ?_ rfl
    rw [weight, weight_negateInt]
    exact le_rfl
  | addAddLeft _ _ hs _ ihv ihw | addAddRight _ _ hs _ ihv ihw | addSubtractLeft _ _ hs _ ihv ihw
  | addSubtractRight _ _ hs _ ihv ihw | subAddLeft _ _ hs _ ihv ihw | subAddRight _ _ hs _ ihv ihw
  | subSubtractLeft _ _ hs _ ihv ihw | subSubtractRight _ _ hs _ ihv ihw =>
    refine ihw.of_call rfl ?_
    have := ihv.lt rfl hs
    simp only [Call.weight, weight] at this ⊢
    omega
  | addUnknown a b | subUnknown a b =>
    refine .of_not_simple ?_ rfl
    exact (Nat.succ_le_of_lt a.weight_pos).trans (Nat.le_add_right _ _)
  | addNegateSame | subVariableSame => exact .of_lt (Nat.add_le_add (weight_pos _) (weight_pos _))
  | @addNegates a b v _ ih | @subNegates a b v _ ih =>
    refine ih.of_call rfl ?_
    exact Nat.add_le_add_left b.weight_le_negate _
  | @addNegate a b hb =>
    refine .of_not_simple ?_ rfl
    rw [weight, Nat.add_comm]
    exact Nat.add_le_add_right a.weight_le_negate _
  | @addNegateOther a b v _ _ _ ih =>
    refine ih.of_call rfl ?_
    have := a.weight_le_negate
    simp only [Call.weight]
    omega
  | subSwap _ _ _ _ ihb ihv =>
    refine ihv.of_call rfl ?_
    have := ihb.le
    simp only [Call.weight] at this ⊢
    omega
  | @subNegateNegative a c hc =>
    refine .of_not_simple ?_ rfl
    rw [weight, weight_negateInt, Nat.add_comm]
    exact Nat.add_le_add_right a.weight_le_negate _
  | @subNegateOther a b b' v _ _ _ ihb ihv =>
    refine ihv.of_call rfl ?_
    have := ihb.le
    have := a.weight_le_negate
    simp only [Call.weight] at *
    omega

/-! ## Enough fuel -/

/-- The call has a result, which is in the relation. -/
def Ends (fuel : ℕ) (call : Call Instruction) : Prop :=
  ∃ v, run fuel call = some v ∧ Computes call v

section

variable (ih : ∀ call : Call Instruction, call.measure < fuel → Ends fuel call)
  (hfuel : call.measure ≤ fuel)

include ih hfuel

theorem ends_lighter (c' : Call Instruction) (h : c'.weight < call.weight) : Ends fuel c' :=
  ih c' ((Call.measure_lt h).trans_le hfuel)

/-- A call with operands that are not heavier, and of a lower rank. -/
theorem ends_lower (c' : Call Instruction) (h : c'.weight ≤ call.weight)
    (hr : c'.rank < call.rank) : Ends fuel c' := by
  apply ih c'
  rw [Call.measure] at hfuel ⊢
  omega

omit ih hfuel in
/-- Nothing is done for zero as the second operand. -/
theorem exists_of_zero {x : Option (Value Instruction)} (hz : b.isZero = true → Computes call a)
    (h : b.isZero = false → ∃ v, x = some v ∧ Computes call v) :
    ∃ v, (if b.isZero then some a else x) = some v ∧ Computes call v := by
  split
  next hb => exact ⟨a, rfl, hz hb⟩
  next hb => exact h (eq_false_of_not_eq_true hb)

/-- Trying one operand after the other. -/
theorem exists_try (fst sn : Call Instruction) (k k' : Value Instruction → Call Instruction)
    (hb : fst.isBinary = true) (hb' : sn.isBinary = true)
    (left : ∀ {v w}, Computes fst v → v.isSimple = true → Computes (k v) w → Computes call w)
    (rt : ∀ {v w}, Computes sn v → v.isSimple = true → Computes (k' v) w → Computes call w)
    (neither : Computes call unknown)
    (hf : fst.weight < call.weight) (hsc : sn.weight < call.weight)
    (hk : ∀ w : Value Instruction, w.weight < fst.weight → (k w).weight < call.weight)
    (hk' : ∀ w : Value Instruction, w.weight < sn.weight → (k' w).weight < call.weight) :
    ∃ v, (do
      let value ← run fuel fst
      if value.isSimple then run fuel (k value)
      else
        let value ← run fuel sn
        if value.isSimple then run fuel (k' value) else return unknown) = some v ∧
      Computes call v := by
  obtain ⟨w, hw, hc⟩ := ends_lighter ih hfuel fst hf
  rw [hw, bind_eq_bind, bind_some]
  split
  next hs =>
    obtain ⟨v, hv, hcv⟩ := ends_lighter ih hfuel _ (hk w (hc.lighter.lt hb hs))
    exact ⟨v, hv, left hc hs hcv⟩
  next =>
    obtain ⟨w', hw', hc'⟩ := ends_lighter ih hfuel sn hsc
    rw [hw', bind_some]
    split
    next hs =>
      obtain ⟨v, hv, hcv⟩ := ends_lighter ih hfuel _ (hk' w' (hc'.lighter.lt hb' hs))
      exact ⟨v, hv, rt hc' hs hcv⟩
    next => exact ⟨_, rfl, neither⟩

end

section

variable (ih : ∀ call : Call Instruction, call.measure < fuel → Ends fuel call)

include ih

theorem negF_ends (hfuel : (Call.neg a).measure ≤ fuel) : Ends (fuel + 1) (.neg a) := by
  cases a with
  | int c => exact ⟨_, rfl, .negInt c⟩
  | maxInt => exact ⟨_, rfl, .negMaxInt⟩
  | minInt => exact ⟨_, rfl, .negMinInt⟩
  | unknown => exact ⟨_, rfl, .negUnknown⟩
  | marker | instruction => exact ⟨_, rfl, .negVariable rfl⟩
  | add l r =>
    obtain ⟨l', hl, hc⟩ := ends_lighter ih hfuel (.neg l) (Nat.lt_add_of_pos_right r.weight_pos)
    obtain ⟨v, hv, hcv⟩ := ends_lower ih hfuel (.sub l' r)
      (Nat.add_le_add_right hc.lighter.le _) (lt_succ_of_le (Call.rank_sub_le l' r))
    refine ⟨v, ?_, .negAdd hc hcv⟩
    change (run fuel (.neg l)).bind (fun l' => run fuel (.sub l' r)) = some v
    rw [hl, bind_some, hv]
  | subtract l r =>
    obtain ⟨v, hv, hc⟩ := ends_lower ih hfuel (.sub r l) (Nat.add_comm _ _).le
      (lt_succ_of_le (Call.rank_sub_le r l))
    exact ⟨v, hv, .negSubtract hc⟩
  | negate => exact ⟨_, rfl, .negNegate _⟩

/-- The operands of a sum in the other order. -/
theorem addF_swap (ha : a.isInt = true ∨ a.isVariable = true ∧ b.isVariable = false)
    (hb : b.isInt = false) (hr : (Call.add b a).rank < (Call.add a b).rank)
    (hfuel : (Call.add a b).measure ≤ fuel) :
    ∃ v, addF fuel b a = some v ∧ Computes (.add a b) v := by
  obtain ⟨v, hv, hc⟩ := ends_lower ih hfuel (.add b a) (Nat.add_comm _ _).le hr
  exact ⟨v, hv, .addSwap ha hb hc⟩

theorem addF_variable (hfuel : (Call.add a b).measure ≤ fuel) (ha : a.isVariable = true)
    (hr : (Call.add a b).rank = 3) :
    ∃ v, (if b.isZero then some a
      else match b with
      | int value =>
        if value < 0 then some (subtract a (negateInt value)) else some (add a b)
      | marker _ _ | instruction _ _ => some (add a b)
      | _ => addF fuel b a) = some v ∧ Computes (.add a b) v := by
  refine exists_of_zero (.addZero a) fun _ => ?_
  cases b with
  | int c =>
    dsimp only
    split
    next hc => exact ⟨_, rfl, .addVariableNegative ha hc⟩
    exact ⟨_, rfl, .addVariable ha (.inr rfl)⟩
  | marker | instruction => exact ⟨_, rfl, .addVariable ha (.inl rfl)⟩
  | _ => exact addF_swap ih (.inr ⟨ha, rfl⟩) rfl (by rw [hr]; simp [Call.rank]) hfuel

theorem addF_ends (hfuel : (Call.add a b).measure ≤ fuel) : Ends (fuel + 1) (.add a b) := by
  rw [Ends, run, addF.eq_def]
  have hb := b.weight_pos
  cases a with
  | maxInt | minInt | unknown => exact ⟨_, rfl, .addAbsorbing _ rfl⟩
  | marker | instruction => exact addF_variable ih hfuel rfl rfl
  | int c =>
    refine exists_of_zero (.addZero _) fun _ => ?_
    cases b with
    | int d => exact ⟨_, rfl, .addInts c d⟩
    | _ => exact addF_swap ih (.inl rfl) rfl (by simp [Call.rank]) hfuel
  | add l r =>
    have hl := l.weight_pos
    have hr := r.weight_pos
    refine exists_of_zero (.addZero _) fun hz => ?_
    apply exists_try ih hfuel (.add l b) (.add r b) (fun w => .add w r) (fun w => .add l w)
      rfl rfl (.addAddLeft hz) (.addAddRight hz) (.addUnknown _ _)
    all_goals simp only [Call.weight, weight]; omega
  | subtract l r =>
    have hl := l.weight_pos
    have hr := r.weight_pos
    refine exists_of_zero (.addZero _) fun hz => ?_
    apply exists_try ih hfuel (.add l b) (.sub b r) (fun w => .sub w r) (fun w => .add l w)
      rfl rfl (.addSubtractLeft hz) (.addSubtractRight hz) (.addUnknown _ _)
    all_goals simp only [Call.weight, weight]; omega
  | negate a =>
    have ha := a.weight_le_negate
    refine exists_of_zero (.addZero _) fun _ => ?_
    split
    next hsm => exact ⟨_, rfl, .addNegateSame hsm⟩
    have ho (hi : b.isInt = false) (hvr : b.isVariable = false) (hrn : (Call.sub b a).rank < 2) :
        ∃ v, subF fuel b a = some v ∧ Computes (.add (negate a) b) v := by
      obtain ⟨v, hv, hc⟩ := ends_lower ih hfuel (.sub b a)
        (by simp only [Call.weight]; omega) hrn
      exact ⟨v, hv, .addNegateOther hi hvr hc⟩
    cases b with
    | int c =>
      dsimp only
      split
      next hc => exact ⟨_, rfl, .addNegateNegative hc⟩
      exact ⟨_, rfl, .addNegate (.inr rfl)⟩
    | marker | instruction => exact ⟨_, rfl, .addNegate (.inl rfl)⟩
    | negate b =>
      have hle := Nat.add_le_add_left b.weight_le_negate (negate a).weight
      obtain ⟨v, hv, hc⟩ : Ends fuel (.sub (negate a) b) := by
        by_cases hvr : b.isVariable = true
        · exact ends_lower ih hfuel _ hle (by simp [Call.rank, hvr])
        refine ends_lighter ih hfuel _ ?_
        have := weight_negate_of_not (eq_false_of_not_eq_true hvr)
        simp only [Call.weight]
        omega
      exact ⟨v, hv, .addNegates hc⟩
    | _ => exact ho rfl rfl (by simp [Call.rank])

theorem subF_swap (ha : a.isInt = true ∨ a.isVariable = true ∧ b.isVariable = false)
    (hb : b.isInt = false) (hr : (Call.sub a b).rank = 5)
    (hfuel : (Call.sub a b).measure ≤ fuel) :
    ∃ v, (do addF fuel (← negF fuel b) a) = some v ∧ Computes (.sub a b) v := by
  obtain ⟨b', hb', hc⟩ := ends_lighter ih hfuel (.neg b) (Nat.lt_add_of_pos_left a.weight_pos)
  have hle := hc.lighter.le
  obtain ⟨v, hv, hcv⟩ := ends_lower ih hfuel (.add b' a)
    (by simp only [Call.weight] at hle ⊢; omega) (by have := Call.rank_add_le b' a; omega)
  refine ⟨v, ?_, .subSwap ha hb hc hcv⟩
  change (run fuel (.neg b)).bind (fun b' => run fuel (.add b' a)) = some v
  rw [hb', bind_some, hv]

theorem subF_variable (hfuel : (Call.sub a b).measure ≤ fuel) (ha : a.isVariable = true)
    (hr : (Call.sub a b).rank = 5) :
    ∃ v, (if b.isZero then some a
      else if a == b then some (int 0)
      else match b with
      | int value =>
        if value < 0 then some (add a (negateInt value)) else some (subtract a b)
      | marker _ _ | instruction _ _ => some (subtract a b)
      | _ => do addF fuel (← negF fuel b) a) = some v ∧ Computes (.sub a b) v := by
  refine exists_of_zero (.subZero a) fun _ => ?_
  split
  next hsm => exact ⟨_, rfl, .subVariableSame ha hsm⟩
  cases b with
  | int c =>
    dsimp only
    split
    next hc => exact ⟨_, rfl, .subVariableNegative ha hc⟩
    exact ⟨_, rfl, .subVariable ha (.inr rfl)⟩
  | marker | instruction => exact ⟨_, rfl, .subVariable ha (.inl rfl)⟩
  | _ => exact subF_swap ih (.inr ⟨ha, rfl⟩) rfl hr hfuel

/-- An operand that is neither an integer nor a variable is negated, and not heavier after it. -/
theorem subF_negate (hi : b.isInt = false) (hvr : b.isVariable = false)
    (hn : ∀ b', Computes (.neg b) b' → b'.isSimple = true →
      b'.weight < b.weight ∨ (Call.sub b' a).rank = 1)
    (hfuel : (Call.sub (negate a) b).measure ≤ fuel) :
    ∃ v, (do subF fuel (← negF fuel b) a) = some v ∧ Computes (.sub (negate a) b) v := by
  have hr : (Call.sub (negate a) b).rank = 6 := by simp [Call.rank, hi, hvr]
  obtain ⟨b', hb', hc⟩ := ends_lighter ih hfuel (.neg b)
    (Nat.lt_add_of_pos_left (negate a).weight_pos)
  have hle := hc.lighter.le
  have ha := a.weight_le_negate
  rw [Call.weight] at hle
  have hcs : b'.weight < b.weight ∨ (Call.sub b' a).rank = 1 := by
    by_cases hs : b'.isSimple = true
    · exact hn b' hc hs
    · cases b' <;> first | exact .inr rfl | exact absurd rfl hs
  obtain ⟨v, hv, hcv⟩ : Ends fuel (.sub b' a) := by
    rcases hcs with hlt | hr'
    · exact ends_lighter ih hfuel _ (by simp only [Call.weight]; omega)
    · exact ends_lower ih hfuel _ (by simp only [Call.weight]; omega) (by omega)
  refine ⟨v, ?_, .subNegateOther hi hc hcv⟩
  change (run fuel (.neg b)).bind (fun b' => run fuel (.sub b' a)) = some v
  rw [hb', bind_some, hv]

theorem subF_ends (hfuel : (Call.sub a b).measure ≤ fuel) : Ends (fuel + 1) (.sub a b) := by
  rw [Ends, run, subF.eq_def]
  have hb := b.weight_pos
  cases a with
  | maxInt | minInt | unknown => exact ⟨_, rfl, .subAbsorbing _ rfl⟩
  | marker | instruction => exact subF_variable ih hfuel rfl rfl
  | int c =>
    refine exists_of_zero (.subZero _) fun _ => ?_
    cases b with
    | int d => exact ⟨_, rfl, .subInts c d⟩
    | _ => exact subF_swap ih (.inl rfl) rfl rfl hfuel
  | add l r =>
    have hl := l.weight_pos
    have hr := r.weight_pos
    refine exists_of_zero (.subZero _) fun hz => ?_
    apply exists_try ih hfuel (.sub l b) (.sub r b) (fun w => .add w r) (fun w => .add l w)
      rfl rfl (.subAddLeft hz) (.subAddRight hz) (.subUnknown _ _)
    all_goals simp only [Call.weight, weight]; omega
  | subtract l r =>
    have hl := l.weight_pos
    have hr := r.weight_pos
    refine exists_of_zero (.subZero _) fun hz => ?_
    apply exists_try ih hfuel (.sub l b) (.add r b) (fun w => .sub w r) (fun w => .sub l w)
      rfl rfl (.subSubtractLeft hz) (.subSubtractRight hz) (.subUnknown _ _)
    all_goals simp only [Call.weight, weight]; omega
  | negate a =>
    refine exists_of_zero (.subZero _) fun _ => ?_
    cases b with
    | int c =>
      dsimp only
      split
      next hc => exact ⟨_, rfl, .subNegateNegative hc⟩
      exact ⟨_, rfl, .subNegate (.inr rfl)⟩
    | marker | instruction => exact ⟨_, rfl, .subNegate (.inl rfl)⟩
    | negate b =>
      obtain ⟨v, hv, hc⟩ := ends_lower ih hfuel (.add (negate a) b)
        (Nat.add_le_add_left b.weight_le_negate _) (by simp [Call.rank, isInt, isVariable])
      exact ⟨v, hv, .subNegates hc⟩
    | maxInt | minInt | unknown =>
      refine subF_negate ih rfl rfl ?_ hfuel
      intro b' hb' _
      cases hb' <;> first | exact .inr rfl | contradiction
    | add | subtract =>
      refine subF_negate ih rfl rfl ?_ hfuel
      intro b' hb' hs
      exact .inl (hb'.lighter.lt rfl hs)

end

/-- **The operators end**, and what they compute is in the relation. -/
theorem run_total (call : Call Instruction) (h : call.measure < fuel) : Ends fuel call := by
  induction fuel generalizing call with
  | zero => exact absurd h (Nat.not_lt_zero _)
  | succ fuel ih =>
    cases call with
    | neg a => exact negF_ends ih (le_of_lt_succ h)
    | add a b => exact addF_ends ih (le_of_lt_succ h)
    | sub a b => exact subF_ends ih (le_of_lt_succ h)

theorem computes_getD (call : Call Instruction) (h : call.measure < fuel) :
    Computes call ((run fuel call).getD unknown) := by
  obtain ⟨v, hv, hc⟩ := run_total call h
  rwa [hv]

theorem computes_neg (a : Value Instruction) : Computes (.neg a) (-a) :=
  computes_getD _ (measure_lt_fuel (Nat.le_add_right _ _))

theorem computes_add (a b : Value Instruction) : Computes (.add a b) (a + b) :=
  computes_getD _ (measure_lt_fuel le_rfl)

theorem computes_sub (a b : Value Instruction) : Computes (.sub a b) (a - b) :=
  computes_getD _ (measure_lt_fuel le_rfl)

end Compiler.Ssa
