import DartSdk.FlowAnalysis.PromotionModel
import Mathlib.Order.Lattice

/-!
# The join of promotion chains

* `joinPromotedTypes_eq_iff`: **the join is the intersection** exactly if the types of the two
  chains that are above a common one are comparable.
* `joinPromotedTypes_gives_up`: it is not for two chains that part and meet again.
-/

namespace FlowAnalysis.PromotionModel

open List

variable {T : Type} [PartialOrder T] {ops : FlowAnalysisTypeOperations T} {a b t : T}
  {l l1 l2 : List T} {chain1 chain2 : Option (List T)}

/-- The order of the types, which are taken up to `isSameType`. -/
structure Orders (ops : FlowAnalysisTypeOperations T) : Prop where
  isSubtypeOf a b : ops.isSubtypeOf a b ↔ a ≤ b
  isSameType a b : ops.isSameType a b ↔ a = b

abbrev Decreasing (l : List T) : Prop := l.Pairwise (· > ·)

def IsChain (chain : Option (List T)) : Prop := ∀ l ∈ chain, l ≠ [] ∧ Decreasing l

/-- The chains do not part above a common type. -/
def Comparable (l1 l2 : List T) : Prop :=
  ∀ t ∈ l1, t ∈ l2 → ∀ a ∈ l1, ∀ b ∈ l2, t ≤ a → t ≤ b → a ≤ b ∨ b ≤ a

theorem Comparable.mono {l1' l2' : List T} (h : Comparable l1 l2) (h1 : l1' ⊆ l1) (h2 : l2' ⊆ l2) :
    Comparable l1' l2' :=
  fun t ht1 ht2 a ha b hb => h t (h1 ht1) (h2 ht2) a (h1 ha) b (h2 hb)

theorem Comparable.cons_left (h : Comparable l1 l2) (ha : ∀ b ∈ l2, b ≤ a) :
    Comparable (a :: l1) l2 := by
  intro t ht1 ht2 c hc b hb htc htb
  rcases mem_cons.mp hc with rfl | hc
  · exact .inr (ha b hb)
  rcases mem_cons.mp ht1 with rfl | ht1
  · exact .inr ((ha b hb).trans htc)
  · exact h t ht1 ht2 c hc b hb htc htb

theorem Comparable.symm (h : Comparable l1 l2) : Comparable l2 l1 :=
  fun t ht2 ht1 b hb a ha htb hta => (h t ht1 ht2 a ha b hb hta htb).symm

theorem Decreasing.le (hl : Decreasing (a :: l)) (h : t ∈ a :: l) : t ≤ a := by
  rcases mem_cons.mp h with rfl | h
  · exact le_rfl
  · exact (rel_of_pairwise_cons hl h).le

theorem IsChain.decreasing (h : IsChain chain1) : Decreasing (chain1.getD []) := by
  cases chain1 with
  | none => exact .nil
  | some l => exact (h l rfl).2

section
variable [DecidableEq T]

/-- The types of the first chain that are in the second one. -/
def intersection (chain1 chain2 : Option (List T)) : Option (List T) :=
  let types := (chain1.getD []).filter (· ∈ chain2.getD [])
  if types = [] then none else some types

theorem filter_cons_common (h : Decreasing (a :: l1)) :
    (a :: l1).filter (· ∈ a :: l2) = a :: l1.filter (· ∈ l2) := by
  rw [filter_cons_of_pos (by simp)]
  refine congrArg _ (filter_congr fun t ht => ?_)
  simp [(rel_of_pairwise_cons h ht).ne]

theorem filter_cons_above (hs : a ≠ b) (hab : a ≤ b) (h : Decreasing (a :: l1)) :
    (a :: l1).filter (· ∈ b :: l2) = (a :: l1).filter (· ∈ l2) := by
  refine filter_congr fun t ht => ?_
  have htb : t ≠ b := fun he => hs (hab.antisymm (he ▸ h.le ht))
  simp [htb]

/-- What the loop adds to the result, and what is known of a chain that is matched to its end. -/
structure Joins (l1 l2 : List T) (skipped1 skipped2 : Bool) (r : Option (List T))
    (s : JoinState T) : Prop where
  result : s.result = if l1.filter (· ∈ l2) = [] then r
    else some (r.getD [] ++ l1.filter (· ∈ l2))
  left : s.chain1 = [] → s.skipped1 = false → skipped1 = false ∧ l1 ⊆ l2
  right : s.chain2 = [] → s.skipped2 = false → skipped2 = false ∧ l2 ⊆ l1

theorem joinLoop_joins (ho : Orders ops) (skipped1 skipped2 : Bool) (r : Option (List T))
    (h1 : Decreasing l1) (h2 : Decreasing l2) (hc : Comparable l1 l2) :
    Joins l1 l2 skipped1 skipped2 r (joinLoop ops l1 l2 skipped1 skipped2 r) := by
  fun_induction joinLoop ops l1 l2 skipped1 skipped2 r with
  | case1 a l1 b l2 s1 s2 r hs ih =>
    obtain rfl := (ho.isSameType a b).mp hs
    obtain ⟨hr, hlf, hrt⟩ := ih h1.of_cons h2.of_cons
      (hc.mono (subset_cons_self ..) (subset_cons_self ..))
    refine ⟨?_, fun hn hk => ?_, fun hn hk => ?_⟩
    · rw [hr, filter_cons_common h1]
      split <;> simp [*]
    · exact ⟨(hlf hn hk).1, cons_subset_cons a (hlf hn hk).2⟩
    · exact ⟨(hrt hn hk).1, cons_subset_cons a (hrt hn hk).2⟩
  | case2 a l1 b l2 s1 s2 r hs hba ih =>
    rw [ho.isSameType] at hs
    rw [ho.isSubtypeOf] at hba
    obtain ⟨hr, hlf, hrt⟩ := ih h1.of_cons h2 (hc.mono (subset_cons_self ..) (Subset.refl _))
    have ha : a ∉ b :: l2 := fun ha => hs ((h2.le ha).antisymm hba)
    refine ⟨?_, fun hn hk => absurd (hlf hn hk).1 nofun, fun hn hk => ?_⟩
    · rw [filter_cons_of_neg (by simpa using ha), hr]
    · exact ⟨(hrt hn hk).1, subset_cons_of_subset a (hrt hn hk).2⟩
  | case3 a l1 b l2 s1 s2 r hs _ hab ih =>
    rw [ho.isSameType] at hs
    rw [ho.isSubtypeOf] at hab
    obtain ⟨hr, hlf, hrt⟩ := ih h1 h2.of_cons (hc.mono (Subset.refl _) (subset_cons_self ..))
    refine ⟨by rw [filter_cons_above hs hab h1, hr], fun hn hk => ?_,
      fun hn hk => absurd (hrt hn hk).1 nofun⟩
    exact ⟨(hlf hn hk).1, subset_cons_of_subset b (hlf hn hk).2⟩
  | case4 a l1 b l2 s1 s2 r hs hba hab =>
    rw [ho.isSubtypeOf] at hba hab
    refine ⟨?_, nofun, nofun⟩
    rw [if_pos (filter_eq_nil_iff.mpr fun t ht1 ht2 => ?_)]
    rw [decide_eq_true_iff] at ht2
    exact (hc t ht1 ht2 a mem_cons_self b mem_cons_self (h1.le ht1) (h2.le ht2)).elim hab hba
  | case5 l1 l2 s1 s2 r hne =>
    refine ⟨?_, ?_, ?_⟩
    · match l1, l2, hne with
      | [], _, _ => rfl
      | _ :: _, [], _ => simp
      | a :: l1, b :: l2, hne => exact absurd rfl (hne a l1 b l2 rfl)
    · rintro rfl h
      exact ⟨h, nil_subset _⟩
    · rintro rfl h
      exact ⟨h, nil_subset _⟩

/-- A loop that uses up a chain or finds all common types has compared what is above them: a type
that it skips is above all the types of the other chain that are still to come. -/
theorem joinLoop_comparable (ho : Orders ops) (skipped1 skipped2 : Bool) (r : Option (List T))
    (h1 : Decreasing l1) (h2 : Decreasing l2)
    (h : (joinLoop ops l1 l2 skipped1 skipped2 r).chain1 = [] ∨
      (joinLoop ops l1 l2 skipped1 skipped2 r).chain2 = [] ∨
      (joinLoop ops l1 l2 skipped1 skipped2 r).result =
        if l1.filter (· ∈ l2) = [] then r else some (r.getD [] ++ l1.filter (· ∈ l2))) :
    Comparable l1 l2 := by
  fun_induction joinLoop ops l1 l2 skipped1 skipped2 r with
  | case1 a l1 b l2 s1 s2 r hs ih =>
    obtain rfl := (ho.isSameType a b).mp hs
    rw [filter_cons_common h1, if_neg (cons_ne_nil _ _)] at h
    have hc := ih h1.of_cons h2.of_cons (h.imp_right (.imp_right fun h => by
      rw [h]
      split <;> simp [*]))
    have hl := hc.cons_left fun b hb => (rel_of_pairwise_cons h2 hb).le
    exact (hl.symm.cons_left fun b hb => h1.le hb).symm
  | case2 a l1 b l2 s1 s2 r hs hba ih =>
    rw [ho.isSameType] at hs
    rw [ho.isSubtypeOf] at hba
    have ha : a ∉ b :: l2 := fun ha => hs ((h2.le ha).antisymm hba)
    rw [filter_cons_of_neg (by simpa using ha)] at h
    exact (ih h1.of_cons h2 h).cons_left fun t ht => (h2.le ht).trans hba
  | case3 a l1 b l2 s1 s2 r hs _ hab ih =>
    rw [ho.isSameType] at hs
    rw [ho.isSubtypeOf] at hab
    rw [filter_cons_above hs hab h1] at h
    exact ((ih h1 h2.of_cons h).symm.cons_left fun t ht => (h1.le ht).trans hab).symm
  | case4 a l1 b l2 s1 s2 r hs hba hab =>
    intro t ht1 ht2
    obtain h | h | h := h
    · cases h
    · cases h
    have hf : t ∈ (a :: l1).filter (· ∈ b :: l2) := mem_filter.mpr ⟨ht1, by simpa using ht2⟩
    rw [if_neg (ne_nil_of_mem hf)] at h
    have hr := congrArg (·.getD []) h
    simp only [Option.getD_some, self_eq_append_right] at hr
    exact absurd hr (ne_nil_of_mem hf)
  | case5 l1 l2 s1 s2 r hne =>
    intro t ht1 ht2
    match l1, l2, ht1, ht2, hne with
    | a :: l1, b :: l2, _, _, hne => exact absurd rfl (hne a l1 b l2 rfl)
/-- A decreasing list is determined by its types. -/
theorem filter_mem_comm (h1 : Decreasing l1) (h2 : Decreasing l2) :
    l1.filter (· ∈ l2) = l2.filter (· ∈ l1) := by
  have hp : l1.filter (· ∈ l2) ~ l2.filter (· ∈ l1) := by
    rw [perm_ext_iff_of_nodup ((h1.filter _).imp ne_of_gt) ((h2.filter _).imp ne_of_gt)]
    simp [and_comm]
  exact hp.eq_of_pairwise (fun a b _ _ h h' => absurd h h'.not_gt) (h1.filter _) (h2.filter _)

theorem intersection_comm (h1 : IsChain chain1) (h2 : IsChain chain2) :
    intersection chain1 chain2 = intersection chain2 chain1 := by
  rw [intersection, intersection, filter_mem_comm h1.decreasing h2.decreasing]

theorem intersection_of_subset (h1 : IsChain (some l1)) (h : l1 ⊆ l2) :
    intersection (some l1) (some l2) = some l1 := by
  have hf : l1.filter (· ∈ l2) = l1 := filter_eq_self.mpr fun t ht => by simpa using h ht
  simp [intersection, hf, (h1 l1 rfl).1]

theorem join_eq (ho : Orders ops) (h1 : IsChain chain1) (h2 : IsChain chain2)
    (hc : Comparable (chain1.getD []) (chain2.getD [])) :
    joinPromotedTypes ops chain1 chain2 = intersection chain1 chain2 := by
  match chain1, chain2 with
  | none, _ => simp [joinPromotedTypes, intersection]
  | some l1, none => simp [joinPromotedTypes, intersection]
  | some l1, some l2 =>
    obtain ⟨hr, hlf, hrt⟩ := joinLoop_joins ho false false none h1.decreasing h2.decreasing hc
    simp only [Option.getD_some] at hr hlf hrt
    simp only [joinPromotedTypes, Bool.and_eq_true, List.isEmpty_iff, Bool.not_eq_true']
    split
    next h => rw [intersection_of_subset h1 (hlf h.1 h.2).2]
    next =>
      split
      next h => rw [intersection_comm h1 h2, intersection_of_subset h2 (hrt h.1 h.2).2]
      next => exact hr

theorem comparable_of_join_eq (ho : Orders ops) (h1 : IsChain chain1) (h2 : IsChain chain2)
    (h : joinPromotedTypes ops chain1 chain2 = intersection chain1 chain2) :
    Comparable (chain1.getD []) (chain2.getD []) := by
  match chain1, chain2 with
  | none, _ => exact fun t ht => absurd ht not_mem_nil
  | some l1, none => exact fun t _ ht => absurd ht not_mem_nil
  | some l1, some l2 =>
    apply joinLoop_comparable ho false false none h1.decreasing h2.decreasing
    simp only [joinPromotedTypes, Bool.and_eq_true, List.isEmpty_iff] at h
    split at h
    next hl => exact .inl hl.1
    next =>
      split at h
      next hr => exact .inr (.inl hr.1)
      next => exact .inr (.inr h)

/-- **The join is the intersection**, whichever chain is the first one, exactly for chains that do
not part above a common type. -/
theorem joinPromotedTypes_eq_iff (ho : Orders ops) (h1 : IsChain chain1) (h2 : IsChain chain2) :
    (joinPromotedTypes ops chain1 chain2 = intersection chain1 chain2 ∧
      joinPromotedTypes ops chain2 chain1 = joinPromotedTypes ops chain1 chain2) ↔
    Comparable (chain1.getD []) (chain2.getD []) := by
  refine ⟨fun h => comparable_of_join_eq ho h1 h2 h.1, fun hc => ?_⟩
  rw [join_eq ho h1 h2 hc, join_eq ho h2 h1 hc.symm]
  exact ⟨rfl, intersection_comm h2 h1⟩

end

/-- The subsets of two elements. -/
def pairs : FlowAnalysisTypeOperations (Bool × Bool) := ⟨(· == ·), (decide <| · ≤ ·)⟩

theorem orders_pairs : Orders pairs := ⟨fun _ _ => decide_eq_true_iff, fun _ _ => beq_iff_eq⟩

abbrev chain (type : Bool × Bool) : Option (List (Bool × Bool)) := some [type, (false, false)]

theorem isChain_chain {type : Bool × Bool} (h : type ≠ (false, false)) : IsChain (chain type) := by
  have hle : (false, false) ≤ type := ⟨Bool.false_le _, Bool.false_le _⟩
  simp [IsChain, hle.lt_of_ne h.symm]

theorem joinPromotedTypes_eq_pairs : joinPromotedTypes pairs (chain (true, true))
    (chain (true, false)) = intersection (chain (true, true)) (chain (true, false)) :=
  ((joinPromotedTypes_eq_iff orders_pairs (isChain_chain (by decide))
    (isChain_chain (by decide))).2 (by simp [Comparable])).1

theorem joinPromotedTypes_gives_up : Orders pairs ∧ IsChain (chain (true, false)) ∧
    IsChain (chain (false, true)) ∧
    joinPromotedTypes pairs (chain (true, false)) (chain (false, true)) = none ∧
    intersection (chain (true, false)) (chain (false, true)) = some [(false, false)] := by
  have h : ¬ true ≤ false := by decide
  refine ⟨orders_pairs, isChain_chain (by decide), isChain_chain (by decide), ?_, rfl⟩
  simp [joinPromotedTypes, joinLoop, pairs, h]

end FlowAnalysis.PromotionModel
