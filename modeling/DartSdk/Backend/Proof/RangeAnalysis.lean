import DartSdk.Backend.RangeAnalysis
import DartSdk.Lib.Loops
import Mathlib.Tactic

/-!
# Redundant bounds checks are redundant

A valuation of the definitions is `Consistent` with a flow graph when constants, constraints,
redefinitions and the Smi additions and subtractions that do not truncate have their values,
instructions that common subexpression elimination may merge agree, and every range holds. In such a
valuation:

* `constantBound_holds`: a boundary's constant bound still bounds what the boundary bounds, if the
  boundary's symbol has a Smi value;
* `canonicalizeBoundary_holds`: so does its canonical form, if no truncating operation wraps around;
* `isRedundant_sound`: a bounds check found redundant cannot fail.

The conditions are needed: `CanonicalizeBoundary` does not look at `is_truncating`, and in the graph
of `isRedundant_mintSymbol` the check that is dropped would fail.
-/

namespace Backend.Proof

open Loops RangeBoundary FlowGraph Option Bool

/-! ## Valuations -/

/-- The boundary `b` bounds `x` on a side. Infinities and unknown boundaries say nothing. -/
def Holds (side : Side) (v : DefId → Int) : RangeBoundary → Int → Prop
  | symbol s offs, x => side.Bounds (v s + offs) x
  | constant c, x => side.Bounds c x
  | _, _ => True

/-- The values of an execution. -/
structure Consistent (g : FlowGraph) (v : DefId → Int) : Prop where
  smi : ∀ {d c}, (g.definition d).asSmiConstant = some c → v d = c
  constraint : ∀ {d x}, g.definition d = .constraint x → v d = v x
  redefined : ∀ {d x}, (g.definition d).redefinedValue = some x → v d = v x
  add : ∀ {d l r o}, g.definition d = .binarySmiOp .kADD l r o false → v d = v l + v r
  sub : ∀ {d l r o}, g.definition d = .binarySmiOp .kSUB l r o false → v d = v l - v r
  cse : ∀ {a b}, (g.definition a).allowsCSE = true → (g.definition b).allowsCSE = true →
    (g.definition a).equals (g.definition b) = true → v a = v b
  range : ∀ {d r}, g.range d = some r → ∀ side, Holds side v (r.boundary side) (v d)

/-- The truncating Smi additions and subtractions have their values, too. -/
structure NoWrapAround (g : FlowGraph) (v : DefId → Int) : Prop where
  add : ∀ {d l r o}, g.definition d = .binarySmiOp .kADD l r o true → v d = v l + v r
  sub : ∀ {d l r o}, g.definition d = .binarySmiOp .kSUB l r o true → v d = v l - v r

section
variable {g : FlowGraph} {v : DefId → Int} {d l r : DefId} {o t : Bool}

theorem Consistent.add_eq (hv : Consistent g v) (hw : NoWrapAround g v)
    (hd : g.definition d = .binarySmiOp .kADD l r o t) : v d = v l + v r := by
  cases t with
  | false => exact hv.add hd
  | true => exact hw.add hd

theorem Consistent.sub_eq (hv : Consistent g v) (hw : NoWrapAround g v)
    (hd : g.definition d = .binarySmiOp .kSUB l r o t) : v d = v l - v r := by
  cases t with
  | false => exact hv.sub hd
  | true => exact hw.sub hd

end

/-- The symbols of range boundaries are Smis: they come from Smi comparisons, bounds checks and
array lengths. -/
def SmiSymbols (g : FlowGraph) (v : DefId → Int) : Prop :=
  ∀ {d r side s offs}, g.range d = some r → r.boundary side = symbol s offs →
    g.target.isSmi (v s) = true

/-! ## Clamping -/

/-- The nearest Smi. -/
def saturate (t : Target) (x : Int) : Int := max t.kSmiMin (min x t.kSmiMax)

theorem kSmiMin_neg (t : Target) : t.kSmiMin < 0 := by
  have : (0 : Int) < 2 ^ t.kSmiBits := Int.pow_pos (by decide)
  unfold Target.kSmiMin
  omega

theorem kSmiMax_nonneg (t : Target) : 0 ≤ t.kSmiMax := by
  have : (0 : Int) < 2 ^ t.kSmiBits := Int.pow_pos (by decide)
  unfold Target.kSmiMax
  omega

theorem saturate_mono (t : Target) : Monotone (saturate t) := by
  intro x y h
  unfold saturate
  omega

variable {t : Target} {x c : Int} {side : Side} {b ov : RangeBoundary} {d : DefId}
  {fuel : Nat}

theorem saturate_smi (h : t.isSmi x = true) : saturate t x = x := by
  simp only [Target.isSmi, and_eq_true, decide_eq_true_eq] at h
  unfold saturate
  omega

theorem saturate_nonneg (h : 0 ≤ saturate t x) : 0 ≤ x := by
  have := kSmiMin_neg t
  unfold saturate at h
  omega

/-- What `LowerBound` and `UpperBound` return: a constant that bounds, or no bound. -/
def IsBound (side : Side) (b : RangeBoundary) (x : Int) : Prop :=
  b = infinity side ∨ ∃ c, b = constant c ∧ side.Bounds c x

theorem isBound_constantValue (h : IsBound side b x) (hc : b.constantValue = some c) :
    side.Bounds c x := by
  rcases h with rfl | ⟨c', rfl, hb⟩
  · cases side <;> cases hc
  · cases hc; exact hb

theorem clampSmi_constant (t : Target) (c : Int) :
    clampSmi t (constant c) = constant (saturate t c) := by
  have := kSmiMin_neg t
  have := kSmiMax_nonneg t
  simp only [clampSmi, saturate]
  split
  · congr 1; omega
  · split
    · congr 1; omega
    · congr 1; omega

theorem smiConstant_bounds (t : Target) (side : Side) (x : Int) :
    ∃ c, smiConstant t side = constant c ∧ side.Bounds c (saturate t x) := by
  have := kSmiMin_neg t
  have := kSmiMax_nonneg t
  cases side with
  | lower => exact ⟨_, rfl, show t.kSmiMin ≤ saturate t x by unfold saturate; omega⟩
  | upper => exact ⟨_, rfl, show saturate t x ≤ t.kSmiMax by unfold saturate; omega⟩

theorem clampSmi_isBound (h : IsBound side b x) :
    ∃ c, clampSmi t b = constant c ∧ side.Bounds c (saturate t x) := by
  rcases h with rfl | ⟨c, rfl, hc⟩
  · obtain ⟨c, hc, hb⟩ := smiConstant_bounds t side x
    exact ⟨c, by cases side <;> exact hc, hb⟩
  · exact ⟨_, clampSmi_constant t c, hc.map (saturate_mono t)⟩

theorem add_isBound {offs : Int} (h : side.Bounds c x)
    (hb : (constant c).add (constant offs) (infinity side) = some b) :
    IsBound side b (x + offs) := by
  simp only [RangeBoundary.add, isInfinity, Bool.or_self, false_eq_true, ↓reduceIte,
    constantValue, pure_def, some_bind] at hb
  split at hb
  · cases hb; exact .inl rfl
  · cases hb; exact .inr ⟨_, rfl, h.add_right offs⟩

/-! ## Constant bounds -/

theorem asSmiConstant_isSmi {d : Definition t} (h : d.asSmiConstant = some c) :
    t.isSmi c = true := by
  cases d with
  | constant value rep =>
    cases value with
    | smi c' => cases h; exact c'.2
    | object ptr => cases h
  | _ => cases h

variable {s next s' ix length e : DefId}

section
variable {g : FlowGraph} {v : DefId → Int} {side : Side}

/-- A boundary made from a definition bounds what the definition's value bounds. -/
theorem fromDefinition_holds (hv : Consistent g v) {offs x : Int}
    (h : side.Bounds (v d + offs) x) : Holds side v (g.fromDefinition d offs) x := by
  unfold fromDefinition
  split
  · rename_i c hc
    rw [hv.smi hc] at h
    exact h
  · exact h

/-- One step through a symbol: its constant bound bounds its value as clamped to the Smis. -/
theorem constantBound_step {n : Nat} {offs : Int}
    (hrc : ∀ {r b'}, g.range s = some r → g.constantBound side n (r.boundary side) = some b' →
      IsBound side b' (v s))
    (h : g.constantBound side (n + 1) (symbol s offs) = some b) :
    IsBound side b (saturate g.target (v s) + offs) := by
  simp only [constantBound, bind_eq_bind] at h
  cases hr : g.range s with
  | none =>
    obtain ⟨c, hc, hb⟩ := smiConstant_bounds g.target side (v s)
    rw [hr, hc] at h
    exact add_isBound hb h
  | some r =>
    simp only [hr, Option.map_eq_map, bind_eq_some_iff, map_eq_some_iff] at h
    obtain ⟨_, ⟨b', hb', rfl⟩, ha⟩ := h
    obtain ⟨c, hc, hb⟩ := clampSmi_isBound (hrc hr hb')
    rw [hc] at ha
    exact add_isBound hb ha

variable (hv : Consistent g v) (hs : SmiSymbols g v)
include hv hs

/-- **The constant bound of a range's boundary bounds the definition.** -/
theorem constantBound_holds : ∀ {n : Nat} {d : DefId} {r : Range} {b : RangeBoundary},
    g.range d = some r → g.constantBound side n (r.boundary side) = some b → IsBound side b (v d)
  | 0, _, _, _, _, h => by cases h
  | n + 1, d, r, b, hr, h => by
    have hrn := hv.range hr side
    have hsm := @hs d r side
    generalize r.boundary side = br at h hrn hsm
    cases br with
    | unknown => cases h
    | negativeInfinity | positiveInfinity => cases h; exact .inl rfl
    | constant c => cases h; exact .inr ⟨c, rfl, hrn⟩
    | symbol s offs =>
      have hb := constantBound_step constantBound_holds h
      rw [saturate_smi (hsm hr rfl)] at hb
      rcases hb with rfl | ⟨c, rfl, hc⟩
      · exact .inl rfl
      · exact .inr ⟨c, rfl, hc.trans hrn⟩

/-- The constant bound of a definition's own boundary. The definition need not be a Smi. -/
theorem constantBound_fromDefinition {n : Nat}
    (h : g.constantBound side n (g.fromDefinition d 0) = some b) :
    IsBound side b (saturate g.target (v d)) := by
  cases n with
  | zero => cases h
  | succ n =>
    unfold fromDefinition at h
    split at h
    · rename_i c hc
      cases h
      rw [Int.add_zero, hv.smi hc, saturate_smi (asSmiConstant_isSmi hc)]
      exact .inr ⟨c, rfl, .refl _ _⟩
    · have := constantBound_step (constantBound_holds hv hs) h
      rwa [Int.add_zero] at this

end

/-! ## Canonicalisation -/

section
variable {g : FlowGraph} {v : DefId → Int} (hv : Consistent g v)
include hv

variable {n : Nat} {a : RangeBoundary} {r : Range}

theorem addConstant_eq {rhs : ConstantObject g.target} {rep : Nat}
    {off off' : Int} (hd : g.definition d = .constant rhs rep)
    (h : addConstant rhs next off = some (.changed s' off')) :
    v s' + off' = v next + v d + off := by
  cases rhs with
  | object ptr => cases h
  | smi c =>
    have hc : v d = c.1 := hv.smi (by rw [hd]; rfl)
    simp only [addConstant] at h
    split at h
    · cases h
    · cases h; omega

section
variable (hw : NoWrapAround g v)
include hw

/-- An iteration of `CanonicalizeBoundary` keeps the value of symbol and offset. -/
theorem canonicalizeStep_eq {off off' : Int}
    (h : g.canonicalizeStep s off = some (.changed s' off')) : v s' + off' = v s + off := by
  unfold canonicalizeStep at h
  split at h
  · rename_i value hd
    cases h
    rw [hv.constraint hd]
  · rename_i left right o t hd
    rw [hv.add_eq hw hd]
    split at h
    · exact addConstant_eq hv ‹_› h
    · have := addConstant_eq hv ‹_› h
      omega
    · cases h
  · rename_i left right o t hd
    rw [hv.sub_eq hw hd]
    split at h
    · rename_i c rep hr
      have hc : v right = c.1 := hv.smi (by rw [hr]; rfl)
      split at h
      · cases h
      · cases h; omega
    · cases h
    · cases h
  · cases h

theorem canonicalizeLoop_eq : ∀ {n : Nat} {s s' : DefId} {off off' : Int},
    g.canonicalizeLoop n s off = some (some (s', off')) → v s' + off' = v s + off
  | 0, _, _, _, _, h => by cases h
  | n + 1, s, s', off, off', h => by
    simp only [canonicalizeLoop, bind_eq_bind, bind_eq_some_iff] at h
    obtain ⟨step, hst, h⟩ := h
    cases step with
    | unchanged => cases h; rfl
    | overflow => cases h
    | changed s1 offset1 => rw [canonicalizeLoop_eq h, canonicalizeStep_eq hv hw hst]

/-- **Canonical boundaries bound what the boundary bounds.** -/
theorem canonicalizeBoundary_holds {side : Side}
    (ho : ov.isInfinity = true) (ha : Holds side v a x)
    (h : g.canonicalizeBoundary n a ov = some b) : Holds side v b x := by
  have hov : Holds side v ov x := by
    cases ov with
    | symbol _ _ | constant _ => cases ho
    | _ => trivial
  cases a with
  | unknown => cases h
  | negativeInfinity | positiveInfinity | constant c => cases h; exact ha
  | symbol s offs =>
    simp only [canonicalizeBoundary, bind_eq_bind, bind_eq_some_iff] at h
    obtain ⟨res, hl, h⟩ := h
    cases res with
    | none => cases h; exact hov
    | some res =>
      obtain ⟨s', offset⟩ := res
      simp only at h
      split at h
      · cases h; exact hov
      cases h
      refine fromDefinition_holds hv ?_
      rw [canonicalizeLoop_eq hv hw hl]
      exact ha

/-- **A symbol's own boundary bounds what the symbol bounds.** -/
theorem canonicalizeOn_holds {side : Side} (ha : Holds side v a x)
    (h : g.canonicalizeOn side n a = some (some b)) : Holds side v b x := by
  have hi : Holds side v (infinity side) x := by cases side <;> trivial
  cases a with
  | symbol s offs =>
    simp only [canonicalizeOn] at h
    split at h
    · rename_i s' offs' hr
      obtain ⟨r, hr, hb⟩ := map_eq_some_iff.1 hr
      split at h
      · cases h; exact hi
      split at h
      · cases h; exact hi
      simp only [Option.map_eq_map, map_eq_some_iff, some.injEq] at h
      obtain ⟨_, hc, rfl⟩ := h
      refine canonicalizeBoundary_holds hv hw (by cases side <;> rfl) ?_ hc
      have hs := hv.range hr side
      rw [hb] at hs
      have hx : side.Bounds (v s' + (offs' + offs)) x := by
        rw [← Int.add_assoc]
        exact (Side.Bounds.add_right hs offs).trans ha
      exact fromDefinition_holds hv hx
    · cases h
  | _ => cases h

end

theorem unwrapConstraint_eq : ∀ {n : Nat} {d d' : DefId},
    g.unwrapConstraint n d = some d' → v d' = v d
  | 0, _, _, h => by cases h
  | n + 1, d, d', h => by
    unfold unwrapConstraint at h
    split at h
    · rename_i value hdf
      rw [unwrapConstraint_eq h, hv.constraint hdf]
    · cases h; rfl

theorem originalDefinition_eq : ∀ {n : Nat} {d d' : DefId},
    g.originalDefinition n d = some d' → v d' = v d
  | 0, _, _, h => by cases h
  | n + 1, d, d', h => by
    unfold originalDefinition at h
    split at h
    · rename_i value hdf
      rw [originalDefinition_eq h, hv.redefined hdf]
    · cases h; rfl

theorem boundSmiConstant_eq (h : g.boundSmiConstant n d = some (some c)) : v d = c := by
  simp only [boundSmiConstant, Option.map_eq_map, map_eq_some_iff] at h
  obtain ⟨d', hd', hc⟩ := h
  rw [← originalDefinition_eq hv hd', hv.smi hc]

/-- Boundaries that depend on the same symbol differ by their offsets. -/
theorem dependOnSameSymbol_eq (h : g.dependOnSameSymbol n a b = some true) :
    ∃ s offs s' offs', a = symbol s offs ∧ b = symbol s' offs' ∧ v s = v s' := by
  cases a with
  | symbol s offs =>
    cases b with
    | symbol s' offs' =>
      simp only [dependOnSameSymbol, areEqualDefinitions, pure_def, bind_eq_bind,
        bind_eq_some_iff, some.injEq, or_eq_true, and_eq_true, beq_iff_eq] at h
      obtain ⟨u, hu, u', hu', heq⟩ := h
      have hvl : v u = v u' := by
        rcases heq with rfl | ⟨⟨hc, hc'⟩, heq⟩
        · rfl
        · exact hv.cse hc hc' heq
      rw [unwrapConstraint_eq hv hu, unwrapConstraint_eq hv hu'] at hvl
      exact ⟨s, offs, s', offs', rfl, rfl, hvl⟩
    | _ => cases h
  | _ => cases h

theorem dependOnSameSymbol_lt {y : Int} (h : g.dependOnSameSymbol n a b = some true)
    (hlt : a.offset < b.offset) (ha : Holds .upper v a x) (hb : Holds .lower v b y) : x < y := by
  obtain ⟨s, offs, s', offs', rfl, rfl, hvl⟩ := dependOnSameSymbol_eq hv h
  have hx : x ≤ v s + offs := ha
  have hy : v s' + offs' ≤ y := hb
  have hlt : offs < offs' := hlt
  omega

/-! ## The check -/

section
variable (hw : NoWrapAround g v)
include hw

theorem compareSymbolic_sound {y : Int} : ∀ {n : Nat} {a b : RangeBoundary},
    Holds .upper v a x → Holds .lower v b y → g.compareSymbolic fuel n a b = some true → x < y
  | 0, _, _, _, _, h => by cases h
  | n + 1, a, b, ha, hb, h => by
    simp only [compareSymbolic, pure_def, bind_eq_bind, bind_eq_some_iff] at h
    obtain ⟨same, hsm, h⟩ := h
    cases same with
    | true =>
      simp only [↓reduceIte, some.injEq, decide_eq_true_eq] at h
      exact dependOnSameSymbol_lt hv hsm h ha hb
    | false =>
      simp only [false_eq_true, ↓reduceIte, bind_eq_some_iff] at h
      obtain ⟨a', ha', h⟩ := h
      cases a' with
      | some a' => exact compareSymbolic_sound (canonicalizeOn_holds hv hw ha ha') hb h
      | none =>
        simp only [bind_eq_some_iff] at h
        obtain ⟨b', hb', h⟩ := h
        cases b' with
        | some b' => exact compareSymbolic_sound ha (canonicalizeOn_holds hv hw hb hb') h
        | none => cases h

/-- The check of an index whose range is known. -/
theorem isRedundantBasedOnRange_sound (hs : SmiSymbols g v) (hr : g.range ix = some r)
    (h : g.isRedundantBasedOnRange fuel ix r length = some true) : 0 ≤ v ix ∧ v ix < v length := by
  simp only [isRedundantBasedOnRange, constantMinSmi, Option.map_eq_map, pure_def,
    bind_eq_bind, bind_eq_some_iff, map_eq_some_iff] at h
  obtain ⟨_, ⟨lower, hlw, rfl⟩, min, hm, h⟩ := h
  obtain ⟨c, hc, hcb⟩ := clampSmi_isBound (@constantBound_holds _ _ .lower hv hs _ _ _ _ hr hlw)
  rw [hc] at hm
  cases hm
  split at h
  · cases h
  rename_i hm
  refine ⟨saturate_nonneg (le_trans (by omega) hcb), ?_⟩
  simp only [bind_eq_some_iff] at h
  obtain ⟨upper, hup, len, hln, h⟩ := h
  split at h
  · cases h
  simp only [bind_eq_some_iff] at h
  obtain ⟨u, hu, l, hl, h⟩ := h
  split at h
  · -- the constant bounds are apart, so the clamped values are
    have hub : saturate g.target (v ix) ≤ u :=
      isBound_constantValue (constantBound_fromDefinition hv hs hup) hu
    have hlb : l ≤ saturate g.target (v length) :=
      isBound_constantValue (constantBound_fromDefinition hv hs hln) hl
    exact (saturate_mono g.target).reflect_lt (by omega)
  · simp only [bind_eq_some_iff] at h
    obtain ⟨can, hcn, h⟩ := h
    split at h
    · cases h
    have ho : ∀ side d, Holds side v (g.fromDefinition d 0) (v d) := fun side d =>
      fromDefinition_holds hv (by rw [Int.add_zero]; exact .refl _ _)
    exact compareSymbolic_sound hv hw (ho .upper ix)
      (canonicalizeBoundary_holds hv hw rfl (ho .lower length) hcn) h

end

omit hv in
theorem range_setRange {r' : Range} (hm : r.min = constant c) (hmx : r.max = constant c)
    (h : (g.setRange d r).range e = some r') : (e = d ∧ ∀ side, r'.boundary side = constant c) ∨
    g.range e = some r' := by
  simp only [setRange] at h
  split at h
  · cases h
    exact .inl ⟨‹_›, fun side => by cases side <;> assumption⟩
  · exact .inr h

/-- The range of a constant, set when it is missing, holds. -/
theorem consistent_setRange (hc : v d = c) (hm : r.min = constant c) (hmx : r.max = constant c) :
    Consistent (g.setRange d r) v where
  smi := hv.smi
  constraint := hv.constraint
  redefined := hv.redefined
  add := hv.add
  sub := hv.sub
  cse := hv.cse
  range := by
    intro e r' hr side
    rcases range_setRange hm hmx hr with ⟨rfl, hb⟩ | hr
    · rw [hb side, hc]; exact .refl side c
    · exact hv.range hr side

end

theorem smiSymbols_setRange {g : FlowGraph} {v : DefId → Int} (hs : SmiSymbols g v)
    {r : Range} (hm : r.min = constant c) (hmx : r.max = constant c) :
    SmiSymbols (g.setRange d r) v := by
  intro e r' side s offs hr hb
  rcases range_setRange hm hmx hr with ⟨-, hb'⟩ | hr
  · rw [hb' side] at hb; cases hb
  · exact hs hr hb

/-- **A bounds check found redundant cannot fail.** In every valuation consistent with the ranges
and with the definitions, where no Smi operation wraps around and the symbols of range boundaries
are Smis, the index is within the length. -/
theorem isRedundant_sound {g : FlowGraph} {v : DefId → Int} (hv : Consistent g v)
    (hw : NoWrapAround g v) (hs : SmiSymbols g v) {fuel : Nat} {index length : DefId}
    (h : g.isRedundantBasedOnRangeInformation fuel index length = some true) :
    0 ≤ v index ∧ v index < v length := by
  simp only [isRedundantBasedOnRangeInformation, pure_def, bind_eq_bind, bind_eq_some_iff] at h
  obtain ⟨ic, hic, lc, hlc, h⟩ := h
  split at h
  · rename_i i l
    simp only [some.injEq, and_eq_true, decide_eq_true_eq] at h
    rw [boundSmiConstant_eq hv hic, boundSmiConstant_eq hv hlc]
    exact h
  · split at h
    · exact isRedundantBasedOnRange_sound hv hw hs ‹_› h
    · cases h
    simp only [bind_eq_some_iff] at h
    obtain ⟨d, hd, h⟩ := h
    have hvl : v d = v index := originalDefinition_eq hv hd
    have hc := hvl.trans (boundSmiConstant_eq hv hic)
    rw [← hvl]
    exact isRedundantBasedOnRange_sound (consistent_setRange hv hc rfl rfl)
      ⟨hw.add, hw.sub⟩ (smiSymbols_setRange hs rfl rfl) (by simp [setRange]) h

/-- `if (i < a.length) a[i]`: the two loads 0 and 1 of the length are equal definitions, and 3
constrains the index 2 to be below the first. -/
def guardedAccess : FlowGraph where
  target := ⟨62⟩
  definition
    | 0 => .other 7 0 [9] true none
    | 1 => .other 7 0 [9] true none
    | 3 => .constraint 2
    | d => .other d 0 [] false none
  range
    | 0 => some ⟨constant 0, constant 100, rfl, rfl⟩
    | 3 => some ⟨constant 0, symbol 0 (-1), rfl, rfl⟩
    | _ => none

def guardedAccessValue : DefId → Int
  | 0 => 4
  | 1 => 4
  | 2 => 3
  | 3 => 3
  | _ => 0

theorem guardedAccess_consistent : Consistent guardedAccess guardedAccessValue where
  smi := by
    intro d c h
    simp only [guardedAccess] at h
    split at h <;> cases h
  constraint := by
    intro d x h
    simp only [guardedAccess] at h
    split at h <;> cases h
    rfl
  redefined := by
    intro d x h
    simp only [guardedAccess] at h
    split at h <;> cases h
  add := by
    intro d l r o h
    simp only [guardedAccess] at h
    split at h <;> cases h
  sub := by
    intro d l r o h
    simp only [guardedAccess] at h
    split at h <;> cases h
  cse := by
    intro a b ha hb _
    simp only [guardedAccess] at ha hb
    split at ha <;> split at hb <;> simp_all [Definition.allowsCSE, guardedAccessValue]
  range := by
    intro d r h side
    simp only [guardedAccess] at h
    split at h <;> cases h <;> cases side <;> simp [Holds, Range.boundary, Side.Bounds,
      guardedAccessValue]

theorem guardedAccess_noWrapAround : NoWrapAround guardedAccess guardedAccessValue := by
  constructor <;>
  · intro d l r o h
    simp only [guardedAccess] at h
    split at h <;> cases h

theorem isRedundant_guardedAccess :
    guardedAccess.isRedundantBasedOnRangeInformation 4 3 1 = some true ∧
      0 ≤ guardedAccessValue 3 ∧ guardedAccessValue 3 < guardedAccessValue 1 := by
  have h : guardedAccess.isRedundantBasedOnRangeInformation 4 3 1 = some true := by decide
  refine ⟨h, isRedundant_sound guardedAccess_consistent guardedAccess_noWrapAround ?_ h⟩
  intro d r side s offs hr hb
  simp only [guardedAccess] at hr
  split at hr <;> cases hr <;> cases side <;> cases hb
  decide

/-- A symbol that is no Smi: the range of the index 1 starts at `s + 2^62`, for the definition `s`
(0) of an unknown 64-bit integer. -/
def mintSymbol : FlowGraph where
  target := ⟨62⟩
  definition
    | 2 => .constant (.smi ⟨10, by decide⟩) 0
    | d => .other d 0 [] false none
  range
    | 1 => some ⟨symbol 0 (2 ^ 62), constant 5, rfl, rfl⟩
    | _ => none

def mintSymbolValue : DefId → Int
  | 0 => -2 ^ 62 - 5
  | 1 => -5
  | 2 => 10
  | _ => 0

/-- `LowerBound` takes the least Smi for the least value of `s`, so that the index looks
non-negative. -/
theorem isRedundant_mintSymbol :
    Consistent mintSymbol mintSymbolValue ∧
      mintSymbol.isRedundantBasedOnRangeInformation 4 1 2 = some true ∧
      ¬ (0 ≤ mintSymbolValue 1 ∧ mintSymbolValue 1 < mintSymbolValue 2) := by
  refine ⟨⟨?_, ?_, ?_, ?_, ?_, ?_, ?_⟩, by decide, by decide⟩
  · intro d c h
    simp only [mintSymbol] at h
    split at h <;> cases h
    rfl
  · intro d x h
    simp only [mintSymbol] at h
    split at h <;> cases h
  · intro d x h
    simp only [mintSymbol] at h
    split at h <;> cases h
  · intro d l r o h
    simp only [mintSymbol] at h
    split at h <;> cases h
  · intro d l r o h
    simp only [mintSymbol] at h
    split at h <;> cases h
  · intro a b ha hb _
    simp only [mintSymbol] at ha hb
    split at ha <;> split at hb <;> simp_all [Definition.allowsCSE]
  intro d r h side
  simp only [mintSymbol] at h
  split at h <;> cases h
  cases side <;> simp [Holds, Range.boundary, Side.Bounds, mintSymbolValue]

/-! ## Termination -/

/-- Ranges and definitions are acyclic, with a rank that goes down along them; the boundaries of
ranges are known, and constant operands of Smi operations are Smis. -/
structure Acyclic (g : FlowGraph) (rank : DefId → Nat) : Prop where
  constraint : ∀ {d x}, g.definition d = .constraint x → rank x < rank d
  redefined : ∀ {d x}, (g.definition d).redefinedValue = some x → rank x < rank d
  operand : ∀ {d k l r o t}, g.definition d = .binarySmiOp k l r o t →
    rank l < rank d ∧ rank r < rank d
  smiOperand : ∀ {d k l r o t x p rep}, g.definition d = .binarySmiOp k l r o t → x = l ∨ x = r →
    g.definition x ≠ .constant (.object p) rep
  symbol : ∀ {d r side s offs}, g.range d = some r → r.boundary side = symbol s offs →
    rank s < rank d
  known : ∀ {d r}, g.range d = some r → ∀ side, r.boundary side ≠ unknown

/-- The rank of a boundary's symbol. -/
def boundaryRank (rank : DefId → Nat) : RangeBoundary → Nat
  | symbol s _ => rank s + 1
  | _ => 0

section
variable {g : FlowGraph} {rank : DefId → Nat} {n : Nat} {a : RangeBoundary}

theorem boundaryRank_fromDefinition_le (d : DefId) (offs : Int) :
    boundaryRank rank (g.fromDefinition d offs) ≤ rank d + 1 := by
  unfold fromDefinition
  split
  · exact Nat.zero_le _
  · exact le_rfl

theorem fromDefinition_known (d : DefId) (offs : Int) : g.fromDefinition d offs ≠ unknown := by
  unfold fromDefinition
  split <;> nofun

theorem clampSmi_const {t : Target}
    (h : b = infinity side ∨ ∃ c, b = constant c) : ∃ c, clampSmi t b = constant c := by
  rcases h with rfl | ⟨c, rfl⟩
  · cases side
    · exact ⟨_, rfl⟩
    · exact ⟨_, rfl⟩
  · exact ⟨_, clampSmi_constant t c⟩

theorem add_const (side : Side) (c offs : Int) :
    ∃ b, (constant c).add (constant offs) (infinity side) = some b ∧
      (b = infinity side ∨ ∃ c, b = constant c) := by
  simp only [RangeBoundary.add, isInfinity, Bool.or_self, false_eq_true, ↓reduceIte,
    constantValue, pure_def, some_bind]
  split
  · exact ⟨_, rfl, .inl rfl⟩
  · exact ⟨_, rfl, .inr ⟨_, rfl⟩⟩

theorem addConstant_terminates {off : Int} {rhs : ConstantObject g.target} {rep : Nat}
    (hd : g.definition d = .constant rhs rep)
    (hne : ∀ {p rep}, g.definition d ≠ .constant (.object p) rep) (hn : rank next < rank s) : ∃
    step, addConstant rhs next off = some step ∧ ∀ s' offset', step = .changed s' offset' → rank s'
    < rank s := by
  cases rhs with
  | object p => exact absurd hd hne
  | smi c =>
    simp only [addConstant]
    split
    · exact ⟨_, rfl, nofun⟩
    · exact ⟨_, rfl, fun s' offset' h => by cases h; exact hn⟩

variable (hg : Acyclic g rank)
include hg

theorem boundaryRank_boundary_le {r : Range} (hr : g.range d = some r) (side : Side) :
    boundaryRank rank (r.boundary side) ≤ rank d := by
  have hsy := @hg.symbol d r side
  generalize r.boundary side = b at hsy
  cases b with
  | symbol s offs => exact hsy hr rfl
  | _ => exact Nat.zero_le _

theorem unwrapConstraint_terminates : ∀ {n : Nat} {d : DefId}, rank d < n →
    ∃ d', g.unwrapConstraint n d = some d'
  | 0, _, h => absurd h (Nat.not_lt_zero _)
  | n + 1, d, h => by
    unfold unwrapConstraint
    split
    · rename_i value hdf
      have := hg.constraint hdf
      exact unwrapConstraint_terminates (by omega)
    · exact ⟨d, rfl⟩

theorem constantBound_terminates : ∀ {n : Nat} {b : RangeBoundary}, b ≠ unknown →
    boundaryRank rank b < n →
    ∃ b', g.constantBound side n b = some b' ∧ (b' = infinity side ∨ ∃ c, b' = constant c)
  | 0, _, _, h => absurd h (Nat.not_lt_zero _)
  | n + 1, b, hb, h => by
    cases b with
    | unknown => exact absurd rfl hb
    | negativeInfinity | positiveInfinity => exact ⟨_, rfl, .inl rfl⟩
    | constant c => exact ⟨_, rfl, .inr ⟨c, rfl⟩⟩
    | symbol s offs =>
      simp only [constantBound, bind_eq_bind]
      cases hr : g.range s with
      | none => cases side <;> exact add_const _ _ _
      | some r =>
        have hrn : boundaryRank rank (r.boundary side) < n :=
          Nat.lt_of_le_of_lt (boundaryRank_boundary_le hg hr side) (Nat.lt_of_succ_lt_succ h)
        obtain ⟨b', hb', hf⟩ : ∃ b', g.constantBound side n (r.boundary side) = some b' ∧
          (b' = infinity side ∨ ∃ c, b' = constant c) :=
          constantBound_terminates (hg.known hr side) hrn
        obtain ⟨c, hc⟩ := clampSmi_const (t := g.target) hf
        simp only [hb', Option.map_eq_map, map_some, bind_some, hc]
        exact add_const _ _ _

theorem canonicalizeStep_terminates (s : DefId) (off : Int) :
    ∃ step, g.canonicalizeStep s off = some step ∧
      ∀ s' offset', step = .changed s' offset' → rank s' < rank s := by
  unfold canonicalizeStep
  split
  · rename_i value hd
    exact ⟨_, rfl, fun s' offset' h => by cases h; exact hg.constraint hd⟩
  · rename_i left right o t hd
    have hr := hg.operand hd
    split
    · exact addConstant_terminates ‹_› (hg.smiOperand hd (.inr rfl)) hr.1
    · exact addConstant_terminates ‹_› (hg.smiOperand hd (.inl rfl)) hr.2
    · exact ⟨_, rfl, nofun⟩
  · rename_i left right o t hd
    split
    · split
      · exact ⟨_, rfl, nofun⟩
      · exact ⟨_, rfl, fun s' offset' h => by cases h; exact (hg.operand hd).1⟩
    · exact absurd ‹_› (hg.smiOperand hd (.inr rfl))
    · exact ⟨_, rfl, nofun⟩
  · exact ⟨_, rfl, nofun⟩

theorem canonicalizeLoop_terminates : ∀ {n : Nat} {s : DefId} {off : Int}, rank s < n →
    ∃ res, g.canonicalizeLoop n s off = some res ∧
      ∀ s' offset', res = some (s', offset') → rank s' ≤ rank s
  | 0, _, _, h => absurd h (Nat.not_lt_zero _)
  | n + 1, s, off, h => by
    obtain ⟨step, hst, hr⟩ := canonicalizeStep_terminates hg s off
    simp only [canonicalizeLoop, hst, some_bind]
    cases step with
    | unchanged => exact ⟨_, rfl, fun s' offset' h => by cases h; exact le_rfl⟩
    | overflow => exact ⟨_, rfl, nofun⟩
    | changed s1 offset1 =>
      have hlt := hr _ _ rfl
      obtain ⟨res, hrs, hle⟩ := canonicalizeLoop_terminates (n := n) (s := s1) (by omega)
      exact ⟨res, hrs, fun s' offset' h => by have := hle _ _ h; omega⟩

theorem canonicalizeBoundary_terminates (ho : ov.isInfinity = true)
    (ha : a ≠ unknown) (h : boundaryRank rank a ≤ n) :
    ∃ b, g.canonicalizeBoundary n a ov = some b ∧ boundaryRank rank b ≤ boundaryRank rank a := by
  have hov : ∀ k, boundaryRank rank ov ≤ k := by
    cases ov with
    | symbol _ _ => cases ho
    | _ => exact fun k => Nat.zero_le k
  cases a with
  | unknown => exact absurd rfl ha
  | symbol s offs =>
    obtain ⟨res, hr, hle⟩ := @canonicalizeLoop_terminates g rank hg n s offs h
    simp only [canonicalizeBoundary, hr, some_bind]
    cases res with
    | none => exact ⟨_, rfl, hov _⟩
    | some res =>
      obtain ⟨s', offset⟩ := res
      simp only
      split
      · exact ⟨_, rfl, hov _⟩
      · refine ⟨_, rfl, (boundaryRank_fromDefinition_le s' offset).trans ?_⟩
        exact Nat.succ_le_succ (hle _ _ rfl)
  | _ => exact ⟨_, rfl, le_rfl⟩

/-- A symbol's own boundary has a lower rank. -/
theorem canonicalizeOn_terminates (h : boundaryRank rank a ≤ n) :
    ∃ res, g.canonicalizeOn side n a = some res ∧
      ∀ b, res = some b → boundaryRank rank b < boundaryRank rank a := by
  cases a with
  | symbol s offs =>
    have hi : boundaryRank rank (infinity side) < rank s + 1 := by
      cases side <;> exact Nat.succ_pos _
    simp only [canonicalizeOn]
    split
    · rename_i s' offs' hr
      obtain ⟨r, hr, hb⟩ := map_eq_some_iff.1 hr
      have hlt := hg.symbol hr hb
      split
      · exact ⟨_, rfl, fun b h => by cases h; exact hi⟩
      split
      · exact ⟨_, rfl, fun b h => by cases h; exact hi⟩
      have ho := @boundaryRank_fromDefinition_le g rank s' (offs' + offs)
      simp only [boundaryRank] at h
      obtain ⟨b, hc, hle⟩ := canonicalizeBoundary_terminates hg (n := n)
        (show (infinity side).isInfinity = true by cases side <;> rfl)
        (@fromDefinition_known g s' (offs' + offs)) (by omega)
      refine ⟨some b, by rw [hc]; rfl, fun b' h => ?_⟩
      cases h
      show boundaryRank rank b < rank s + 1
      omega
    · exact ⟨none, rfl, by simp⟩
  | _ => exact ⟨none, rfl, by simp⟩

theorem dependOnSameSymbol_terminates (ha : boundaryRank rank a ≤ n)
    (hb : boundaryRank rank b ≤ n) : ∃ same, g.dependOnSameSymbol n a b = some same := by
  cases a with
  | symbol s offs =>
    cases b with
    | symbol s' offs' =>
      obtain ⟨u, hu⟩ := unwrapConstraint_terminates hg ha
      obtain ⟨u', hu'⟩ := unwrapConstraint_terminates hg hb
      simp only [dependOnSameSymbol, areEqualDefinitions, hu, hu', some_bind]
      exact ⟨_, rfl⟩
    | _ => exact ⟨false, rfl⟩
  | _ => exact ⟨false, rfl⟩

end

end Backend.Proof
