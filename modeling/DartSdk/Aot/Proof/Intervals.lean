import DartSdk.Aot.DispatchTableGenerator
import DartSdk.Lib.Fallible

/-!
# Lists of intervals

The class ids that a list of intervals covers, for lists where a gap stands between any two
intervals (`Separated`).

* `finalize_spec`: the ranges of a row are separated and cover what its class ranges cover, if any
  two class ranges are nested or disjoint.
* `cidSubclassRanges_spec`: the ranges of a class are the runs of its
  concrete subclasses.
-/

namespace Aot

open List Nat

/-! ## Intervals -/

namespace Interval

variable {I J : Interval} {x : Nat}

/-- The class id is in the interval. -/
abbrev Has (I : Interval) (x : Nat) : Prop := I.begin_ ≤ x ∧ x < I.end_

abbrev Nonempty (I : Interval) : Prop := I.begin_ < I.end_

/-- Two intervals are disjoint, or one contains the other. -/
def Laminar (I J : Interval) : Prop :=
  (∀ x, I.Has x → ¬ J.Has x) ∨ (I.begin_ ≤ J.begin_ ∧ J.end_ ≤ I.end_) ∨
    (J.begin_ ≤ I.begin_ ∧ I.end_ ≤ J.end_)

theorem has_withOffset {o : Nat} : (I.withOffset o).Has (o + x) ↔ I.Has x := by
  simp only [Has, withOffset]
  omega

theorem Nonempty.has_begin (h : I.Nonempty) : I.Has I.begin_ := ⟨le_rfl, h⟩

theorem contains_eq_true : I.contains J = true ↔
    (I.begin_ ≤ J.begin_ ∧ J.begin_ ≤ I.end_) ∧ I.begin_ ≤ J.end_ ∧ J.end_ ≤ I.end_ := by
  simp [contains, containsBeginOf, containsEndOf]

end Interval

open Aot.Interval

/-- Some interval of the list has the class id. -/
def Covers (l : List Interval) (x : Nat) : Prop := ∃ I ∈ l, I.Has x

variable {J I : Interval} {S : Nat → Bool}

section

variable {l l' : List Interval} {x : Nat}

theorem covers_nil : ¬ Covers [] x := by
  simp [Covers]

theorem covers_cons : Covers (I :: l) x ↔ I.Has x ∨ Covers l x := by
  simp [Covers]

theorem covers_append : Covers (l ++ l') x ↔ Covers l x ∨ Covers l' x := by
  simp only [Covers, mem_append, or_and_right, exists_or]

theorem covers_of_perm (h : l.Perm l') : Covers l x ↔ Covers l' x := by
  simp only [Covers, h.mem_iff]

/-- There is a gap between any two intervals, and none is empty. -/
structure Separated (l : List Interval) : Prop where
  nonempty : ∀ I ∈ l, I.Nonempty
  gap : l.Pairwise fun I J => I.end_ < J.begin_

theorem Separated.append (h : Separated l) (h' : Separated l')
    (hg : ∀ I ∈ l, ∀ J ∈ l', I.end_ < J.begin_) : Separated (l ++ l') := by
  constructor
  · intro I hI
    rcases mem_append.1 hI with hI | hI
    · exact h.nonempty I hI
    · exact h'.nonempty I hI
  · exact pairwise_append.2 ⟨h.gap, h'.gap, hg⟩

theorem Separated.left (h : Separated (l ++ l')) : Separated l :=
  ⟨fun I hI => h.nonempty I (mem_append_left _ hI), (pairwise_append.1 h.gap).1⟩

theorem Separated.right (h : Separated (l ++ l')) : Separated l' :=
  ⟨fun I hI => h.nonempty I (mem_append_right _ hI), (pairwise_append.1 h.gap).2.1⟩

theorem Separated.between (h : Separated (l ++ l')) : ∀ I ∈ l, ∀ J ∈ l', I.end_ < J.begin_ :=
  (pairwise_append.1 h.gap).2.2

theorem separated_singleton (h : I.Nonempty) : Separated [I] :=
  ⟨by simpa using h, pairwise_singleton ..⟩

theorem Separated.cons (h : Separated l) (hI : I.Nonempty) (hg : ∀ J ∈ l, I.end_ < J.begin_) :
    Separated (I :: l) :=
  (separated_singleton hI).append h (by simpa using hg)

theorem Separated.end_lt (h : Separated (I :: l)) (hJ : J ∈ l) : I.end_ < J.end_ := by
  have h1 := (pairwise_cons.1 h.gap).1 J hJ
  have h2 := h.nonempty J (.tail _ hJ)
  omega

end

/-! ## Merging -/

namespace SelectorRow

variable {Code : Type}

/-- What the merging in place computes, from the current range on. -/
def mergeFrom (current : Interval) : List Interval → List Interval
  | [] => [current]
  | next :: rest =>
    if current.contains next then mergeFrom current rest
    else if current.end_ = next.begin_ then mergeFrom (current.extendToIncludeInterval next) rest
    else current :: mergeFrom next rest

variable {done junk rest l : List Interval}

/-- The ranges before `current_index` are done, those before `read_index` dropped. -/
theorem mergeLoop_eq {cur : Interval} {fuel : Nat} (hf : rest.length < fuel) : mergeLoop fuel
    (done ++ cur :: (junk ++ rest)) done.length (done.length + 1) (done.length + 1 + junk.length) =
    .ok (done ++ mergeFrom cur rest) := by
  induction rest generalizing done junk cur fuel with
  | nil =>
    obtain _ | fuel := fuel
    · omega
    simp only [mergeLoop, mergeFrom]
    rw [if_neg (by simp; omega), take_append, take_of_length_le (by omega)]
    simp
  | cons next rest ih =>
    obtain ⟨fuel, rfl⟩ : ∃ n, fuel = n + 1 := ⟨fuel - 1, by simp at hf; omega⟩
    have hlt : rest.length < fuel := by simp at hf; omega
    have hcr : (done ++ cur :: (junk ++ next :: rest))[done.length]? = some cur := by
      simp
    have hnx : (done ++ cur :: (junk ++ next :: rest))[done.length + 1 + junk.length]? =
        some next := by
      rw [getElem?_append_right (by omega),
        show done.length + 1 + junk.length - done.length = junk.length + 1 by omega]
      simp
    -- The entry that was read joins those that are dropped.
    have hd : ∀ c : Interval, mergeLoop fuel (done ++ c :: (junk ++ next :: rest)) done.length
        (done.length + 1) (done.length + 1 + junk.length + 1) = .ok (done ++ mergeFrom c rest) := by
      intro c
      have h := @ih done (junk ++ [next]) c fuel hlt
      simpa [Nat.add_assoc] using h
    simp only [mergeLoop, mergeFrom]
    rw [if_pos (by simp; omega), hcr, hnx]
    dsimp only
    split_ifs with hcn ha hi
    · exact hd cur
    · rw [set_append_right _ _ le_rfl, Nat.sub_self, set_cons_zero]
      exact hd _
    · obtain ⟨x, junk', rfl⟩ : ∃ x junk', junk = x :: junk' := by
        cases junk with
        | nil => simp at hi
        | cons x junk' => exact ⟨x, junk', rfl⟩
      have h := @ih (done ++ [cur]) (junk' ++ [next]) next fuel hlt
      simp only [length_append, length_cons, length_nil, append_assoc,
        cons_append, nil_append] at h ⊢
      rw [set_append_right _ _ (by omega), Nat.add_sub_cancel_left, set_cons_succ, set_cons_zero]
      rw [show done.length + 1 + (junk'.length + 1) + 1 =
        done.length + (0 + 1) + 1 + (junk'.length + (0 + 1)) by omega]
      exact h
    · obtain rfl : junk = [] := length_eq_zero_iff.1 (by omega)
      have h := @ih (done ++ [cur]) [] next fuel hlt
      simpa [Nat.add_assoc] using h

/-- The order of the ranges to be merged: a later range begins later, and is inside if it begins
inside. -/
def Ordered (I J : Interval) : Prop := I.begin_ ≤ J.begin_ ∧ (J.begin_ < I.end_ → J.end_ ≤ I.end_)

/-- **Merging** keeps what is covered and leaves gaps. -/
theorem mergeFrom_spec {cur : Interval} (hne : ∀ I ∈ cur :: rest, I.Nonempty)
    (ho : (cur :: rest).Pairwise Ordered) : Separated (mergeFrom cur rest) ∧
    (∀ x, Covers (mergeFrom cur rest) x ↔ Covers (cur :: rest) x) ∧ ∀ J ∈ mergeFrom cur rest,
    cur.begin_ ≤ J.begin_ := by
  induction rest generalizing cur with
  | nil => exact ⟨separated_singleton (hne _ (by simp)), fun x => Iff.rfl, by simp [mergeFrom]⟩
  | cons next rest ih =>
    obtain ⟨hcr, hr⟩ := pairwise_cons.1 ho
    obtain ⟨hn, hr'⟩ := pairwise_cons.1 hr
    have hcn := hcr next mem_cons_self
    have hne1 : cur.Nonempty := hne _ (by simp)
    have hne2 : next.Nonempty := hne _ (by simp)
    have hne3 : ∀ I ∈ rest, I.Nonempty := fun I hI => hne I (by simp [hI])
    simp only [mergeFrom]
    split_ifs with hc ha
    · obtain ⟨h1, h2, h3⟩ := @ih cur
        (by simpa [Interval.Nonempty, hne1] using hne3)
        (pairwise_cons.2 ⟨fun J hJ => hcr J (.tail _ hJ), hr'⟩)
      refine ⟨h1, fun x => ?_, h3⟩
      rw [h2 x]
      rw [contains_eq_true] at hc
      simp only [covers_cons, Has]
      constructor
      · rintro (h | h)
        · exact .inl h
        · exact .inr (.inr h)
      rintro (h | h | h)
      · exact .inl h
      · exact .inl (by omega)
      · exact .inr h
    · have he : cur.extendToIncludeInterval next = ⟨cur.begin_, next.end_⟩ := by
        simp only [extendToIncludeInterval]
        rw [if_neg (by omega), if_pos (by omega)]
      rw [he]
      obtain ⟨h1, h2, h3⟩ := @ih ⟨cur.begin_, next.end_⟩
        (by
          simp only [mem_cons, forall_eq_or_imp, Interval.Nonempty]
          exact ⟨by omega, hne3⟩)
        (pairwise_cons.2 ⟨fun J hJ => ⟨(hcr J (.tail _ hJ)).1, (hn J hJ).2⟩, hr'⟩)
      refine ⟨h1, fun x => ?_, h3⟩
      rw [h2 x]
      simp only [covers_cons, Has, ← or_assoc]
      refine or_congr_left ⟨fun h => ?_, fun h => ?_⟩ <;> omega
    · obtain ⟨h1, h2, h3⟩ := ih (fun I hI => hne I (.tail _ hI)) hr
      have hg : cur.end_ < next.begin_ := by
        by_contra h
        refine hc (contains_eq_true.2 ?_)
        have := hcn.1
        have := hcn.2 (by omega)
        omega
      refine ⟨h1.cons hne1 fun J hJ => lt_of_lt_of_le hg (h3 J hJ), fun x => ?_, ?_⟩
      · rw [covers_cons, h2 x, covers_cons (I := cur)]
      intro J hJ
      rcases mem_cons.1 hJ with rfl | hJ
      · exact le_rfl
      · exact hcn.1.trans (h3 J hJ)

theorem compareIntervals_ordered (hI : I.Nonempty) (hJ : J.Nonempty)
    (hl : I.Laminar J) (h : compareIntervals I J ≤ 0) : Ordered I J := by
  simp only [compareIntervals, Interval.length] at h
  have hb : I.begin_ ≤ J.begin_ := by
    split at h <;> omega
  refine ⟨hb, fun hlt => ?_⟩
  rcases hl with hd | hIJ | hJI
  · exact absurd (Interval.Nonempty.has_begin hJ) (hd _ ⟨hb, hlt⟩)
  · exact hIJ.2
  · split at h <;> omega

theorem sort_compareIntervals (s : SortRoutine) (hne : ∀ I ∈ l, I.Nonempty)
    (hlm : ∀ I ∈ l, ∀ J ∈ l, I.Laminar J) : (s.sort compareIntervals l).Pairwise Ordered := by
  have hsr := s.sorted compareIntervals l
    (by intro a b c hab hbc; simp only [compareIntervals] at *; split_ifs at * <;> omega)
    (by intro a b; simp only [compareIntervals]; split_ifs <;> omega)
  refine hsr.imp_of_mem fun {I J} hI hJ h => ?_
  rw [(s.perm _ _).mem_iff] at hI hJ
  exact compareIntervals_ordered (hne I hI) (hne J hJ) (hlm I hI J hJ) h

/-- A row is finished: its ranges leave gaps and cover what its class ranges cover. -/
structure Finished (row : SelectorRow Code) : Prop where
  separated : Separated row.ranges
  covers : ∀ x, Covers row.ranges x ↔ Covers (row.classRanges.map CidInterval.range) x
  ne_nil : row.ranges ≠ []

theorem mergeFrom_ne_nil {cur : Interval} : mergeFrom cur rest ≠ [] := by
  induction rest generalizing cur with
  | nil => simp [mergeFrom]
  | cons next rest ih =>
    simp only [mergeFrom]
    split_ifs
    · exact ih
    · exact ih
    · simp

/-- **The ranges of a row.** -/
theorem finalize_spec (s : SortRoutine) {row : SelectorRow Code} (hrw : row.classRanges ≠ [])
    (hne : ∀ r ∈ row.classRanges, r.range.Nonempty)
    (hlm : ∀ r ∈ row.classRanges, ∀ r' ∈ row.classRanges, r.range.Laminar r'.range) :
    Fallible.Succeeds (finalize s row) fun row' =>
      Finished row' ∧ row'.selector = row.selector ∧ row'.classRanges = row.classRanges ∧
        row'.offset = row.offset := by
  have hp := s.perm compareIntervals (row.classRanges.map CidInterval.range)
  have ho := sort_compareIntervals s (l := row.classRanges.map CidInterval.range)
    (by simpa using hne) (by simpa using hlm)
  have hne' : ∀ I ∈ s.sort compareIntervals (row.classRanges.map CidInterval.range),
      I.Nonempty := by
    intro I hI
    rw [hp.mem_iff] at hI
    obtain ⟨r, hr, rfl⟩ := mem_map.1 hI
    exact hne r hr
  have hc := fun x => covers_of_perm (x := x) hp
  simp only [finalize]
  revert ho hne' hc
  cases hsr : s.sort compareIntervals (row.classRanges.map CidInterval.range) with
  | nil =>
    rw [hsr] at hp
    exact absurd (map_eq_nil_iff.1 (nil_perm.1 hp)) hrw
  | cons current rest =>
    intro ho hne' hc
    obtain ⟨h1, h2, -⟩ := mergeFrom_spec hne' ho
    have hm := @mergeLoop_eq [] [] rest current _
      (by omega : rest.length < rest.length + 1 + 1)
    simp only [nil_append, length_nil, Nat.zero_add, Nat.add_zero] at hm
    rw [length_cons, hm]
    exact ⟨_, rfl, ⟨h1, fun x => (h2 x).trans (hc x), mergeFrom_ne_nil⟩, rfl, rfl, rfl⟩

end SelectorRow

/-! ## Runs of subclasses -/

/-- A maximal stretch of class ids with a property. -/
structure IsRun (S : Nat → Bool) (I : Interval) : Prop where
  nonempty : I.Nonempty
  inside : ∀ x, I.Has x → S x = true
  left : S (I.begin_ - 1) = false
  right : S I.end_ = false

/-- Two runs of comparable properties are disjoint or nested. -/
theorem IsRun.laminar_of_imp {T : Nat → Bool} (hI : IsRun S I) (hJ : IsRun T J)
    (hST : ∀ x, S x = true → T x = true) : I.Laminar J := by
  by_cases hd : ∀ x, I.Has x → ¬ J.Has x
  · exact .inl hd
  push Not at hd
  obtain ⟨x, hIx, hJx⟩ := hd
  refine .inr (.inr ⟨?_, ?_⟩)
  · -- Otherwise the property of `J` holds just before `J`.
    by_contra h
    have hT := hST _ (hI.inside (J.begin_ - 1) ⟨by omega, by have := hIx.2; have := hJx.1; omega⟩)
    rw [hJ.left] at hT
    cases hT
  · by_contra h
    have hT := hST _ (hI.inside J.end_ ⟨by have := hIx.1; have := hJx.2; omega, by omega⟩)
    rw [hJ.right] at hT
    cases hT

theorem laminar_of_disjoint {T : Nat → Bool} (hI : IsRun S I) (hJ : IsRun T J)
    (hST : ∀ x, S x = true → T x = true → False) : I.Laminar J :=
  .inl fun x hIx hJx => hST x (hI.inside x hIx) (hJ.inside x hJx)

theorem Interval.Laminar.symm (h : I.Laminar J) : J.Laminar I := by
  rcases h with h | h | h
  · exact .inl fun x hJ hI => h x hI hJ
  · exact .inr (.inr h)
  · exact .inr (.inl h)

theorem laminar_singleton {n : Nat} : Interval.Laminar ⟨n, n + 1⟩ J := by
  by_cases h : J.Has n
  · exact .inr (.inr ⟨h.1, h.2⟩)
  · refine .inl fun x hx => ?_
    obtain rfl : x = n := by simp only [Has] at hx; omega
    exact h

namespace Program

/-- The state of the search after the class ids up to `k`. -/
structure Searched (S : Nat → Bool) (k : Nat) (st : Nat × List Interval) : Prop where
  runs : ∀ I ∈ st.2, IsRun S I
  found : ∀ x ≤ k, S x = true → Covers st.2 x ∨ st.1 ≠ 0 ∧ st.1 ≤ x
  begun : st.1 ≠ 0 → st.1 ≤ k ∧ S (st.1 - 1) = false ∧ ∀ x, st.1 ≤ x → x ≤ k → S x = true
  outside : st.1 = 0 → S k = false

theorem Searched.addSubclass {k : Nat} {st : Nat × List Interval}
    (h : Searched S k st) : Searched S (k + 1) (addSubclass S st (k + 1)) := by
  obtain ⟨start, ranges⟩ := st
  obtain ⟨hr, hf, hb, ho⟩ := h
  have hl : ∀ {x}, x ≤ k + 1 → x ≤ k ∨ x = k + 1 := fun hx => by omega
  simp only [Program.addSubclass]
  split_ifs with h1 h2
  · obtain ⟨h0, hS⟩ := h1
    refine ⟨hr, fun x hx hSx => ?_, fun _ => ⟨le_rfl, ho h0, ?_⟩, by simp⟩
    · rcases hl hx with hx | rfl
      · rcases hf x hx hSx with h | h
        · exact .inl h
        · exact absurd h0 h.1
      · exact .inr ⟨by simp, le_rfl⟩
    · intro x h1 h2
      obtain rfl : x = k + 1 := by simp only at h1; omega
      exact hS
  · obtain ⟨h0, hS⟩ := h2
    obtain ⟨hle, hlf, hin⟩ := hb h0
    have hS' : S (k + 1) = false := by simpa using hS
    refine ⟨fun I hI => ?_, fun x hx hSx => .inl ?_, fun h => absurd rfl h, fun _ => hS'⟩
    · rcases mem_append.1 hI with hI | hI
      · exact hr I hI
      · obtain rfl := mem_singleton.1 hI
        exact ⟨lt_succ_of_le hle, fun x hx => hin x hx.1 (le_of_lt_succ hx.2), hlf, hS'⟩
    · rw [covers_append]
      rcases hl hx with hx | rfl
      · rcases hf x hx hSx with h | h
        · exact .inl h
        · exact .inr ⟨_, mem_singleton_self _, h.2, lt_succ_of_le hx⟩
      · exact absurd hSx hS
  · refine ⟨hr, fun x hx hSx => ?_, fun h0 => ?_, fun h0 => ?_⟩
    · rcases hl hx with hx | rfl
      · exact hf x hx hSx
      · have h0 : start ≠ 0 := fun h0 => h1 ⟨h0, hSx⟩
        exact .inr ⟨h0, le_succ_of_le (hb h0).1⟩
    · obtain ⟨hle, hlf, hin⟩ := hb h0
      refine ⟨le_succ_of_le hle, hlf, fun x hx1 hx2 => ?_⟩
      rcases hl hx2 with hx2 | rfl
      · exact hin x hx1 hx2
      · by_contra hS
        exact h2 ⟨h0, hS⟩
    · by_contra hS
      exact h1 ⟨h0, by simpa using hS⟩

theorem searched_foldl (hS : S 0 = false) (k : Nat) :
    Searched S k ((List.range' 1 k).foldl (Program.addSubclass S) (0, [])) := by
  induction k with
  | zero =>
    refine ⟨by simp, fun x hx hSx => ?_, fun h => absurd rfl h, fun _ => hS⟩
    obtain rfl := le_zero.1 hx
    rw [hS] at hSx
    cases hSx
  | succ k ih =>
    rw [range'_1_concat, List.foldl_append, Nat.add_comm 1 k]
    exact ih.addSubclass

variable {Code : Type} (p : Program Code) {cid : Nat}

theorem inRange_of_le {x : Nat} (h : p.numClasses ≤ x) : p.inRange cid x = false := by
  simp [inRange, isConcreteClass, p.classAt_of_le h]

theorem inRange_zero : p.inRange cid 0 = false := by
  simp [inRange, isConcreteClass, p.classAt_illegal]

/-- **The ranges of a class are runs of its concrete subclasses.** -/
theorem cidSubclassRanges_spec :
    (∀ I ∈ p.cidSubclassRanges cid, IsRun (p.inRange cid) I) ∧
      ∀ x, p.inRange cid x = true → Covers (p.cidSubclassRanges cid) x := by
  have hps : p.numClasses - 1 + 1 = p.numClasses := by
    have := p.nullCid_lt
    omega
  have h := searched_foldl (@inRange_zero _ p cid) (p.numClasses - 1)
  simp only [cidSubclassRanges]
  generalize (List.range' 1 (p.numClasses - 1)).foldl
    (Program.addSubclass (p.inRange cid)) (0, []) = st at h
  obtain ⟨start, ranges⟩ := st
  have hle : ∀ {x}, p.inRange cid x = true → x ≤ p.numClasses - 1 := by
    intro x hx
    by_contra hlt
    rw [inRange_of_le p (by omega)] at hx
    cases hx
  split_ifs with h0
  · refine ⟨fun I hI => ?_, fun x hx => ?_⟩
    · rcases mem_append.1 hI with hI | hI
      · exact h.runs I hI
      obtain rfl := mem_singleton.1 hI
      obtain ⟨h1, h2, h3⟩ := h.begun h0
      refine ⟨?_, fun x hx => h3 x hx.1 ?_, h2, p.inRange_of_le le_rfl⟩
      · simp only [Interval.Nonempty]
        omega
      · have := hx.2
        simp only at this
        omega
    · rw [covers_append]
      rcases h.found x (hle hx) hx with h' | h'
      · exact .inl h'
      refine .inr ⟨_, mem_singleton_self _, h'.2, ?_⟩
      have := hle hx
      simp only
      omega
  · refine ⟨h.runs, fun x hx => ?_⟩
    rcases h.found x (hle hx) hx with h' | h'
    · exact h'
    · exact absurd h'.1 h0

end Program

end Aot
