import DartSdk.Backend.Proof.RangeJoin

/-!
# Widening ends and covers

* `widenOn_height`: a widened boundary is the old one or has a lower height.
* `inferRange_stabilizes`: so the range of a phi changes finitely often, whatever ranges are
  inferred and however the ranges of its symbols change in between.
* `widenOn_covers`: a widened boundary bounds the values of the size that the old one bounds, and,
  if the old one reaches the size, those that the new one bounds.
* `widen_spec`: both together.
-/

namespace Backend.Proof

open Loops RangeBoundary FlowGraph Option

section
variable {g : FlowGraph} {v : DefId → Int} {n : Nat} {side : Side} {size : RangeSize}
  {range inferred : Range} {c b : RangeBoundary}

/-! ## What a widening returns -/

/-- The comparison of the constant bounds. -/
def WidensByConstants (g : FlowGraph) (n : Nat) (side : Side) (size : RangeSize)
    (b new c : RangeBoundary) : Prop :=
  ∃ k k', g.boundOn n side b size = some k ∧ g.boundOn n side new size = some k' ∧
    c = if side.Bounds k k' then constant k else constant (limit g.target side size)

/-- The limit, the old boundary, or one found by comparing constants. -/
theorem widenOn_cases (h : g.widenOn n side range inferred size = some c) :
    c = constant (limit g.target side size) ∨
      (c = range.boundary side ∧ c.isSymbol = true ∧
        ((g.dependOnSameSymbol n c (inferred.boundary side) = some true ∧
            side.Bounds c.offset (inferred.boundary side).offset) ∨
          ∃ far near, g.boundOn n side.opposite c size = some far ∧
            g.boundOn n side (inferred.boundary side) size = some near ∧ side.Bounds far near)) ∨
      WidensByConstants g n side size (range.boundary side) (inferred.boundary side) c := by
  have hcn : ∀ {c}, (do
      let k ← g.boundOn n side (range.boundary side) size
      let k' ← g.boundOn n side (inferred.boundary side) size
      return if side.Bounds k k' then constant k
        else constant (limit g.target side size)) = some c →
      WidensByConstants g n side size (range.boundary side) (inferred.boundary side) c := by
    intro c h
    simp only [bind_eq_bind, bind_eq_some_iff, pure_def, some.injEq] at h
    obtain ⟨k, hk, k', hk', rfl⟩ := h
    exact ⟨k, k', hk, hk', rfl⟩
  rw [widenOn] at h
  split at h
  · rename_i hsy
    simp only [bind_eq_bind, bind_eq_some_iff] at h
    obtain ⟨bound, hb, overflowed, ho, h⟩ := h
    split at h
    · cases h
      exact .inl rfl
    simp only [bind_eq_some_iff] at h
    obtain ⟨same, hsm, h⟩ := h
    split at h
    · rename_i hs
      subst hs
      split at h
      · cases h
        exact .inr (.inl ⟨rfl, hsy, .inl ⟨hsm, ‹_›⟩⟩)
      · cases h
        exact .inl rfl
    · simp only [bind_eq_some_iff] at h
      obtain ⟨far, hf, near, hnr, h⟩ := h
      split at h
      · cases h
        exact .inr (.inl ⟨rfl, hsy, .inr ⟨far, near, hf, hnr, ‹_›⟩⟩)
      · exact .inr (.inr (hcn h))
  · exact .inr (.inr (hcn h))

/-! ## Widening ends -/

instance (t : Target) (size : RangeSize) (x : Int) : Decidable (InSize t size x) :=
  inferInstanceAs (Decidable (_ ∧ _))

/-- How often a boundary can still be widened. -/
def height (t : Target) (size : RangeSize) (side : Side) : RangeBoundary → Nat
  | symbol _ _ => 3
  | constant c => if ¬ InSize t size c then 2 else if c = limit t side size then 0 else 1
  | unknown => 4
  | negativeInfinity => 4
  | positiveInfinity => 4

theorem height_constant_le {t : Target} {k : Int} (hk : InSize t size k) :
    height t size side (constant k) ≤ 1 := by
  rw [height, if_neg (not_not_intro hk)]
  split_ifs <;> omega

theorem height_limit (t : Target) : height t size side (constant (limit t side size)) = 0 := by
  rw [height, if_neg (not_not_intro (inSize_limit t side size)), if_pos rfl]

theorem boundOn_constant {k k' : Int} (h : g.boundOn n side (constant k) size = some k') :
    k' = saturateTo g.target size k := by
  obtain ⟨b', hb', hk⟩ := boundOn_eq h
  cases n with
  | zero => cases hb'
  | succ n =>
    cases hb'
    rw [clamp_constant] at hk
    cases hk
    rfl

/-- The limit is the only boundary of height zero. -/
theorem limit_or_lower (t : Target) (b : RangeBoundary) :
    constant (limit t side size) = b ∨
      height t size side (constant (limit t side size)) < height t size side b := by
  rw [height_limit]
  cases b with
  | constant k =>
    by_cases hk : k = limit t side size
    · exact .inl (by rw [hk])
    · refine .inr ?_
      rw [height]
      split_ifs <;> omega
  | _ => exact .inr (by rw [height]; omega)

/-- **A widened boundary is the old one, or it is lower.** -/
theorem widenOn_height (h : g.widenOn n side range inferred size = some c) :
    c = range.boundary side ∨
      height g.target size side c < height g.target size side (range.boundary side) := by
  rcases widenOn_cases h with rfl | ⟨rfl, -, -⟩ | ⟨k, k', hk, hk', rfl⟩
  · exact limit_or_lower _ _
  · exact .inl rfl
  split_ifs
  · have hle := @height_constant_le side size g.target k (boundOn_inSize hk)
    generalize range.boundary side = b at hk ⊢
    cases b with
    | constant k0 =>
      have hk0 := boundOn_constant hk
      by_cases hin : InSize g.target size k0
      · rw [saturateTo_of_inSize hin] at hk0
        exact .inl (by rw [hk0])
      · refine .inr (lt_of_le_of_lt hle ?_)
        rw [height, if_pos hin]
        omega
    | symbol s offs => exact .inr (lt_of_le_of_lt hle (by rw [height]; omega))
    | _ => exact .inr (lt_of_le_of_lt hle (by rw [height]; omega))
  · exact limit_or_lower _ _

/-- A widened boundary is a constant or a symbol. -/
theorem widenOn_finite (h : g.widenOn n side range inferred size = some c) :
    c.isInfinity = false ∧ c ≠ unknown := by
  have hsy : c.isSymbol = true → c.isInfinity = false ∧ c ≠ unknown := by
    intro hc
    cases c with
    | symbol s offs => exact ⟨rfl, nofun⟩
    | _ => cases hc
  rcases widenOn_cases h with rfl | ⟨-, hsm, -⟩ | ⟨k, k', -, -, rfl⟩
  · exact ⟨rfl, nofun⟩
  · exact hsy hsm
  · split_ifs
    · exact ⟨rfl, nofun⟩
    · exact ⟨rfl, nofun⟩

/-- How often the boundaries of a range can still be widened. -/
def rangeHeight (t : Target) (size : RangeSize) (r : Range) : Nat :=
  height t size .lower r.min + height t size .upper r.max

theorem range_ext {r r' : Range} (hm : r.min = r'.min) (hmx : r.max = r'.max) : r = r' := by
  cases r
  cases r'
  cases hm
  cases hmx
  rfl

theorem combine_widen_height {r : Range} (h : g.combine n .WIDEN size range inferred = some r) :
    r.min ≠ unknown ∧
      (r = range ∨ rangeHeight g.target size r < rangeHeight g.target size range) := by
  simp only [combine, bind_eq_bind, bind_eq_some_iff, pure_def, some.injEq] at h
  obtain ⟨min, hmn, max, hm, rfl⟩ := h
  have hf : min.isInfinity = false ∧ max.isInfinity = false :=
    ⟨(widenOn_finite hmn).1, (widenOn_finite hm).1⟩
  rw [Range.new, dif_pos hf]
  refine ⟨(widenOn_finite hmn).2, ?_⟩
  rcases widenOn_height hmn with hmn | hmn
  · rcases widenOn_height hm with hm | hm
    · exact .inl (range_ext hmn hm)
    · exact .inr (Nat.add_lt_add_of_le_of_lt (congrArg (height _ size .lower) hmn).le hm)
  refine .inr (Nat.add_lt_add_of_lt_of_le hmn ?_)
  rcases widenOn_height hm with hm | hm
  · exact (congrArg (height _ size .upper) hm).le
  · exact hm.le

theorem equals_self {r : Bool} (h : g.equals n b b = some r) : r = true := by
  cases b with
  | symbol s offs =>
    rw [FlowGraph.equals, if_pos rfl, dependOnSameSymbol] at h
    simp only [areEqualDefinitions, pure_def, bind_eq_bind, bind_eq_some_iff, some.injEq] at h
    obtain ⟨u, hu, u', hu', rfl⟩ := h
    rw [hu] at hu'
    cases hu'
    simp
  | constant c => simpa [FlowGraph.equals] using h.symm
  | _ => cases h; rfl

/-- A step of the widening phase keeps the range of the phi, or lowers it. -/
theorem inferRange_widen {r : Range} {r' : Option Range} {changed : Bool} (hr : r.min ≠ unknown)
    (h : g.inferRange n .WIDEN (some size) (some r) inferred = some (r', changed)) :
    ∃ r1, r' = some r1 ∧ r1.min ≠ unknown ∧ ((changed = false ∧ r1 = r) ∨
      rangeHeight g.target size r1 < rangeHeight g.target size r) := by
  simp only [inferRange, if_neg hr, bind_eq_bind, pure_def] at h
  split_ifs at h with hu
  · cases h
    exact ⟨r, rfl, hr, .inl ⟨rfl, rfl⟩⟩
  simp only [bind_eq_some_iff] at h
  obtain ⟨new, hnw, eq, heq, h⟩ := h
  obtain ⟨hk, hhg⟩ := combine_widen_height hnw
  cases eq with
  | true =>
    cases h
    exact ⟨r, rfl, hr, .inl ⟨rfl, rfl⟩⟩
  | false =>
    cases h
    refine ⟨new, rfl, hk, .inr (hhg.resolve_left ?_)⟩
    rintro rfl
    simp only [rangeEquals, bind_eq_bind, bind_eq_some_iff, pure_def, some.injEq] at heq
    obtain ⟨e1, he1, e2, he2, heq⟩ := heq
    rw [equals_self he1, equals_self he2] at heq
    cases heq

/-- **The range of a phi changes finitely often.** -/
theorem inferRange_stabilizes {rs : Nat → DefId → Option Range} {fuel : Nat → Nat}
    {inferred r : Nat → Range} {changed : Nat → Bool} (h0 : (r 0).min ≠ unknown)
    (hst : ∀ i, FlowGraph.inferRange { g with range := rs i } (fuel i) .WIDEN (some size)
      (some (r i)) (inferred i) = some (some (r (i + 1)), changed i)) :
    ∃ N, ∀ i, N ≤ i → r i = r N ∧ changed i = false := by
  have hk : ∀ i, (r i).min ≠ unknown := by
    intro i
    induction i with
    | zero => exact h0
    | succ i ih =>
      obtain ⟨r1, heq, hr1, -⟩ := inferRange_widen ih (hst i)
      cases heq
      exact hr1
  have hor : ∀ i, (changed i = false ∧ r (i + 1) = r i) ∨
      rangeHeight g.target size (r (i + 1)) < rangeHeight g.target size (r i) := by
    intro i
    obtain ⟨r1, heq, -, hor⟩ := inferRange_widen (hk i) (hst i)
    cases heq
    exact hor
  obtain ⟨N, hN⟩ := eventually_constant (rangeHeight g.target size)
    fun i => (hor i).imp And.right id
  refine ⟨N, fun i hi => ⟨hN i hi, ?_⟩⟩
  rcases hor i with h | h
  · exact h.1
  · rw [hN i hi, hN (i + 1) (by omega)] at h
    omega

/-! ## Widening covers -/

theorem sameSymbol_bounds (hv : Consistent g v) {a : RangeBoundary} {k k' : Int}
    (h : g.dependOnSameSymbol n a b = some true) (ho : side.Bounds a.offset b.offset)
    (ha : value v a = some k) (hb : value v b = some k') : side.Bounds k k' := by
  obtain ⟨s, offs, s', offs', rfl, rfl, hvl⟩ := dependOnSameSymbol_eq hv h
  cases ha
  cases hb
  rw [hvl, Int.add_comm, Int.add_comm (v s')]
  exact ho.add_right (v s')

section
variable {rank : DefId → Nat} (hg : Acyclic g rank)
  (hn : boundaryRank rank (range.boundary side) + boundaryRank rank (inferred.boundary side) < n)
include hg hn

theorem widenOn_terminates (hb : range.boundary side ≠ unknown)
    (hb' : inferred.boundary side ≠ unknown) :
    ∃ c, g.widenOn n side range inferred size = some c := by
  obtain ⟨near, hnr⟩ := boundOn_terminates hg n side size hb
  obtain ⟨near', hnr'⟩ := boundOn_terminates hg n side size hb'
  obtain ⟨far, hf⟩ := boundOn_terminates hg n side.opposite size hb
  obtain ⟨bound, o, hbn, ho⟩ := overflowed_terminates hg n side size hb
  obtain ⟨same, hsm⟩ := dependOnSameSymbol_terminates hg (n := n) (a := range.boundary side)
    (b := inferred.boundary side) (by omega) (by omega)
  simp only [widenOn, hnr, hnr', hf, hbn, ho, hsm, some_bind, pure_def]
  split_ifs <;> exact ⟨_, rfl⟩

/-- A widened boundary bounds what the old one bounds, and what the new one bounds if the old one
reaches the size. -/
theorem widenOn_covers (hv : Consistent g v) (hs : SmiSymbols g v) {k k' : Int}
    (hb : Valued g v (range.boundary side) k) (hb' : Valued g v (inferred.boundary side) k') :
    ∃ c kc, g.widenOn n side range inferred size = some c ∧ value v c = some kc ∧
      ∀ x, InSize g.target size x →
        (side.Bounds k x ∨ (side.Bounds k' x ∧ Reaches g.target size side k x)) →
        side.Bounds kc x := by
  obtain ⟨c, hc⟩ := @widenOn_terminates g n side size range inferred rank hg hn
    (value_known hb.value) (value_known hb'.value)
  refine ⟨c, ?_⟩
  rcases widenOn_cases hc with rfl | ⟨heq, -, hkp⟩ | ⟨near, near', hnr, hnr', rfl⟩
  · exact ⟨_, hc, rfl, fun x hx _ => hx.limit_bounds side⟩
  · subst heq
    refine ⟨k, hc, hb.value, fun x hx hor => ?_⟩
    rcases hor with h | ⟨h, hr⟩
    · exact h
    rcases hkp with ⟨hsm, ho⟩ | ⟨far, near', hf, hnr', hle⟩
    · exact (sameSymbol_bounds hv hsm ho hb.value hb'.value).trans h
    · exact boundOn_far hv hs hb hx hf (hle.trans (boundOn_near hv hs hb' hx h hnr')) hr
  · split_ifs at hc ⊢ with hle
    · refine ⟨near, hc, rfl, fun x hx hor => ?_⟩
      rcases hor with h | ⟨h, -⟩
      · exact boundOn_near hv hs hb hx h hnr
      · exact hle.trans (boundOn_near hv hs hb' hx h hnr')
    · exact ⟨_, hc, rfl, fun x hx _ => hx.limit_bounds side⟩

end

end

/-- **The widening phase ends and covers.** The range of a phi changes finitely often in an infinite
run of widening steps, whatever is inferred and however the ranges of symbols change. On acyclic
ranges, and in every valuation within them, each widened range contains the values of the size of
the range it replaces, and those of the inferred range wherever the replaced range contains a value
of the size. -/
theorem widen_spec (g : FlowGraph) (size : RangeSize) :
    (∀ (ranges : Nat → DefId → Option Range) (fuel : Nat → Nat) (inferred r : Nat → Range)
      (changed : Nat → Bool), (r 0).min ≠ unknown →
      (∀ i, FlowGraph.inferRange { g with range := ranges i } (fuel i) .WIDEN (some size)
        (some (r i)) (inferred i) = some (some (r (i + 1)), changed i)) →
      ∃ N, ∀ i, N ≤ i → r i = r N ∧ changed i = false) ∧
    ∀ (rank : DefId → Nat) (v : DefId → Int), Acyclic g rank → Consistent g v → SmiSymbols g v →
      ∀ n range inferred lo hi lo' hi', ValuedRange g v range lo hi →
        ValuedRange g v inferred lo' hi' →
        boundaryRank rank range.min + boundaryRank rank inferred.min < n →
        boundaryRank rank range.max + boundaryRank rank inferred.max < n →
        ∃ r, g.combine n .WIDEN size range inferred = some r ∧ ContainsAll g.target size v r lo hi ∧
          ((∃ w, InSize g.target size w ∧ lo ≤ w ∧ w ≤ hi) →
            ContainsAll g.target size v r lo' hi') := by
  constructor
  · intro ranges fuel inferred r changed h0 hst
    exact inferRange_stabilizes h0 hst
  intro rank v hg hv hs n range inferred lo hi lo' hi' hr hi1 hn hn'
  obtain ⟨cmin, kmin, hm, hk, hc⟩ :=
    @widenOn_covers g v n .lower size range inferred rank hg hn hv hs _ _ hr.min hi1.min
  obtain ⟨cmax, kmax, hmx, hkm, hcm⟩ :=
    @widenOn_covers g v n .upper size range inferred rank hg hn' hv hs _ _ hr.max hi1.max
  refine ⟨Range.new cmin cmax, by rw [combine, hm, hmx]; rfl,
    (containsAll_new_iff hk hkm).2 fun x hx h1 h2 => ⟨hc x hx (.inl h1), hcm x hx (.inl h2)⟩, ?_⟩
  rintro ⟨w, hw, hlo, hhi⟩
  exact (containsAll_new_iff hk hkm).2 fun x hx h1 h2 =>
    ⟨hc x hx (.inr ⟨h1, .inl (hlo.trans hw.2)⟩), hcm x hx (.inr ⟨h2, .inl (hw.1.trans hhi)⟩)⟩

/-- A range with the minimum `s + 1`. -/
def aboveSymbol : Range := ⟨symbol 0 1, constant (2 ^ 62 - 1), rfl, rfl⟩

/-- The old range `[s + 1, ...)` contains no Smi if `s` is the greatest one. Its minimum is kept
although that Smi has been inferred. -/
theorem widen_empty :
    (Acyclic plainDefinitions fun _ => 0) ∧ Consistent plainDefinitions greatestSymbol ∧
      ValuedRange plainDefinitions greatestSymbol aboveSymbol (2 ^ 62) (2 ^ 62 - 1) ∧
      InSize ⟨62⟩ .smi (2 ^ 62 - 1) ∧
      ∃ r, plainDefinitions.combine 2 .WIDEN .smi aboveSymbol
          (constantRange (2 ^ 62 - 1) (2 ^ 62 - 1)) = some r ∧
        ¬ Contains greatestSymbol r.min r.max (2 ^ 62 - 1) := by
  refine ⟨plainDefinitions_acyclic, plainDefinitions_consistent _,
    ⟨⟨by decide, fun h => by cases h; decide⟩, ⟨rfl, fun h => by cases h⟩⟩,
    ⟨by decide, by decide⟩, aboveSymbol, rfl, ?_⟩
  rintro ⟨lo, hi, hlo, -, h, -⟩
  cases hlo
  exact absurd h (by decide)

/-- The range of a counter from zero: it is widened once. -/
def counter (i : Nat) : Range := if i = 0 then constantRange 0 0 else constantRange 0 (2 ^ 62 - 1)

theorem widen_spec_counter :
    (∃ N, ∀ i, N ≤ i → counter i = counter N ∧ decide (i = 0) = false) ∧
      ∃ r, plainDefinitions.combine 4 .WIDEN .smi checkedIndex (constantRange 3 3) = some r ∧
        Contains (fun d => if d = 0 then 9 else 3) r.min r.max 7 ∧
        Contains (fun d => if d = 0 then 9 else 3) r.min r.max 3 := by
  obtain ⟨hst, hc⟩ := widen_spec plainDefinitions .smi
  refine ⟨hst (fun _ _ => none) (fun _ => 1) (fun _ => constantRange 0 1) counter
    (fun i => decide (i = 0)) nofun ?_, ?_⟩
  · intro i
    cases i with
    | zero | succ i => rfl
  obtain ⟨r, hr, hold, hnw⟩ := hc (fun _ => 0) (fun d => if d = 0 then 9 else 3)
    plainDefinitions_acyclic (plainDefinitions_consistent _) (fun h => by cases h) 4 checkedIndex
    (constantRange 3 3) 5 8 3 3 ⟨⟨rfl, fun h => by cases h⟩, ⟨rfl, fun h => by cases h; decide⟩⟩
    ⟨⟨rfl, fun h => by cases h⟩, ⟨rfl, fun h => by cases h⟩⟩ (by decide) (by decide)
  exact ⟨r, hr, hold 7 ⟨by decide, by decide⟩ (by decide) (by decide),
    hnw ⟨7, ⟨by decide, by decide⟩, by decide, by decide⟩ 3 ⟨by decide, by decide⟩ (by decide)
      (by decide)⟩

end Backend.Proof
