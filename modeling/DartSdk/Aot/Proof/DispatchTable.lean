import DartSdk.Aot.Proof.Hierarchy
import DartSdk.Aot.Proof.RowFitter
import DartSdk.Lib.Related

/-!
# The dispatch table is right

* `fillTable_spec`: an entry is the code of the last class range with code that has the class.
* `setupSelectorRows_spec`, `computeSelectorOffsets_spec`: the rows, and their offsets.
* `dispatchTable_spec`: the table has, for each used selector and concrete class with an
  implementation, the code of the nearest superclass that has one.
* `dispatchTable_deep`: this is not so for a chain of 32768 classes, where the depth of the last
  class is negative.
-/

namespace Aot

open Aot.Interval Fallible RowDisplacement List Option

variable {Code : Type}

/-! ## Filling -/

namespace SelectorRow

/-- The entry of a class after a class range was written. -/
def override (c : Nat) (old : Option Code) (r : CidInterval Code) : Option Code :=
  match r.function with
  | some (some code) => if r.range.begin_ ≤ c ∧ c < r.range.end_ then some code else old
  | _ => old

/-- The class range writes the code for the class. -/
def Writes (c : Nat) (r : CidInterval Code) (code : Code) : Prop :=
  r.function = some (some code) ∧ r.range.Has c

variable {r : CidInterval Code} {code : Code} {old : Option Code} {l : List (CidInterval Code)}
  {c : Nat} {entries e : List (Option Code)} {g g' : Nat → Option Code → Option Code}

theorem override_of_writes {c : Nat} (h : Writes c r code) : override c old r = some code := by
  rw [override, h.1]
  exact if_pos h.2

theorem override_of_not {c : Nat} (h : ∀ code, ¬ Writes c r code) : override c old r = old := by
  rw [override]
  split
  · rename_i code hcd
    exact if_neg fun hc => h code ⟨hcd, hc⟩
  · rfl

theorem foldl_override_of_not (h : ∀ r ∈ l, ∀ code, ¬ Writes c r code) :
    l.foldl (override c) old = old := by
  refine List.foldlRecOn l _ (motive := (· = old)) rfl fun _ hold r hr => ?_
  rw [override_of_not (h r hr), hold]

/-- **The deepest class range with code wins.** -/
theorem foldl_override (c : Nat) (old : Option Code)
    (hsr : l.Pairwise fun a b => a.depth ≤ b.depth) :
    (l.foldl (override c) old = old ∧ ∀ r ∈ l, ∀ code, ¬ Writes c r code) ∨
      ∃ m ∈ l, ∃ code, Writes c m code ∧ l.foldl (override c) old = some code ∧
        ∀ r ∈ l, ∀ code', Writes c r code' → r.depth ≤ m.depth := by
  induction l generalizing old with
  | nil => exact .inl ⟨rfl, by simp⟩
  | cons r l ih =>
    obtain ⟨hle, hsr⟩ := pairwise_cons.1 hsr
    rw [foldl_cons]
    rcases ih (override c old r) hsr with ⟨heq, hno⟩ | ⟨m, hm, code, hw, heq, hmx⟩
    · by_cases hr : ∃ code, Writes c r code
      · obtain ⟨code, hr⟩ := hr
        refine .inr ⟨r, mem_cons_self, code, hr, heq.trans (override_of_writes hr), ?_⟩
        exact forall_mem_cons.2 ⟨fun _ _ => le_rfl, fun r' hr' code' hw => absurd hw (hno r' hr' _)⟩
      · have hr : ∀ code, ¬ Writes c r code := not_exists.1 hr
        exact .inl ⟨heq.trans (override_of_not hr), forall_mem_cons.2 ⟨hr, hno⟩⟩
    · exact .inr ⟨m, .tail _ hm, code, hw, heq, forall_mem_cons.2 ⟨fun _ _ => hle m hm, hmx⟩⟩

theorem sort_compareDepths (s : SortRoutine) :
    (s.sort compareDepths l).Pairwise fun a b => a.depth ≤ b.depth := by
  refine (s.sorted compareDepths l ?_ ?_).imp fun {a b} h => ?_
  · intro a b c hab hbc
    simp only [compareDepths] at *
    omega
  · intro a b
    simp only [compareDepths]
    omega
  · simp only [compareDepths] at h
    omega

/-- The table with each entry changed. -/
def Changed (entries entries' : List (Option Code)) (g : Nat → Option Code → Option Code) : Prop :=
  ∀ x, entries'[x]? = (entries[x]?).map (g x)

variable {es' e' e'' : List (Option Code)}

theorem Changed.length (h : Changed entries es' g) : es'.length = entries.length := by
  apply Nat.le_antisymm
  · have := h entries.length
    rw [getElem?_eq_none le_rfl] at this
    exact List.getElem?_eq_none_iff.1 this
  · have := h es'.length
    rw [getElem?_eq_none le_rfl] at this
    exact List.getElem?_eq_none_iff.1 (map_eq_none_iff.1 this.symm)

theorem Changed.trans (h : Changed e e' g) (h' : Changed e' e'' g') : Changed e e'' fun x old => g'
    x (g x old) := by
  intro x
  rw [h' x, h x, Option.map_map]
  rfl

theorem changed_self (h : ∀ x old, g x old = old) : Changed e e g := by
  intro x
  rw [funext (h x), Option.map_id']

theorem Changed.congr
    (h : Changed e e' g) (hg : ∀ x old, g x old = g' x old) : Changed e e' g' := by
  intro x
  rw [h x, funext (hg x)]

/-- The stretch of a class range gets its code. -/
theorem fillStretch_spec {off st n : Nat}
    (hl : ∀ c, st ≤ c → c < st + n → off + c < entries.length) :
    Succeeds ((List.range' st n).foldlM
      (fun entries cid => setAt entries (off + cid) code) entries) fun entries' =>
      Changed entries entries' fun x old =>
        if off + st ≤ x ∧ x < off + st + n then some code else old := by
  induction n generalizing entries st with
  | zero =>
    exact ⟨entries, rfl, changed_self fun x old => if_neg (by omega)⟩
  | succ n ih =>
    have hst : setAt entries (off + st) code = .ok (entries.set (off + st) (some code)) := by
      rw [setAt, if_pos (hl st le_rfl (by omega))]
    have hf : Changed entries (entries.set (off + st) (some code)) fun x old =>
        if x = off + st then some code else old := by
      intro x
      have := hl st le_rfl (by omega)
      rw [getElem?_set]
      by_cases hx : off + st = x
      · subst hx
        simp [this]
      · rw [if_neg hx]
        simp [Ne.symm hx]
    obtain ⟨entries', he, hch⟩ :=
      @ih (entries.set (off + st) (some code)) (st + 1) (by
        intro c h1 h2
        rw [length_set]
        exact hl c (by omega) (by omega))
    refine ⟨entries', ?_, (hf.trans hch).congr fun x old => ?_⟩
    · rw [range'_succ, foldlM_cons, hst]
      exact he
    · split_ifs <;> first | rfl | omega

theorem fillRange_spec {off : Nat} (hne : r.range.Nonempty)
    (hl : ∀ c, r.range.Has c → off + c < entries.length) :
    Succeeds (fillRange off entries r) fun entries' =>
      Changed entries entries' fun x old =>
        if off ≤ x then override (x - off) old r else old := by
  rw [fillRange]
  split
  · rename_i code hcd
    refine (fillStretch_spec fun c h1 h2 => hl c ?_).imp fun entries' h => h.congr fun x old => ?_
    · simp only [Interval.length] at h2
      exact ⟨h1, by omega⟩
    by_cases hx : off ≤ x
    · simp only [if_pos hx, override, hcd]
      refine if_congr ?_ rfl rfl
      simp only [Interval.length]
      omega
    · rw [if_neg hx, if_neg (by omega)]
  · rename_i hno
    refine ⟨entries, rfl, changed_self fun x old => ?_⟩
    rw [override_of_not fun code hw => hno code hw.1, ite_self]

/-- **Filling the entries of a row.** -/
theorem fillTable_spec (s : SortRoutine) {row : SelectorRow Code} {o : Nat}
    (ho : row.offset = some o) (hne : ∀ r ∈ row.classRanges, r.range.Nonempty)
    (hln : ∀ c, Covers (row.classRanges.map CidInterval.range) c → o + c < entries.length) :
    Succeeds (fillTable s entries row) fun entries' =>
      Changed entries entries' fun x old => if o ≤ x then
        (s.sort compareDepths row.classRanges).foldl (override (x - o)) old else old := by
  rw [fillTable, ho]
  dsimp only
  have hm : ∀ r ∈ s.sort compareDepths row.classRanges, r ∈ row.classRanges :=
    fun r hr => (s.perm _ _).mem_iff.1 hr
  generalize s.sort compareDepths row.classRanges = l at hm
  induction l generalizing entries with
  | nil => exact ⟨entries, rfl, changed_self fun x old => ite_self _⟩
  | cons r l ih =>
    have hr := hm r mem_cons_self
    obtain ⟨e', he', hch⟩ := @fillRange_spec _ r entries o (hne r hr)
      fun c hc => hln c ⟨r.range, List.mem_map.2 ⟨r, hr, rfl⟩, hc⟩
    obtain ⟨e'', he'', hch'⟩ := @ih e' (by rwa [hch.length])
      fun r hr => hm r (.tail _ hr)
    refine ⟨e'', ?_, (hch.trans hch').congr fun x old => ?_⟩
    · rw [foldlM_cons, he']
      exact he''
    · split_ifs <;> rfl

end SelectorRow

namespace DispatchTableGenerator

open Program RowFitter SelectorRow

variable {p : Program Code} {s : SortRoutine} {arch : Arch} {sid c cid : Nat}
  {row : SelectorRow Code} {rows rows' : List (SelectorRow Code)} {P : Nat → Option Nat}
  {entries : List (Option Code)} {code : Code}

/-! ## The rows -/

/-- The row of a selector before or after its placement. -/
structure RowOf (p : Program Code) (row : SelectorRow Code) : Prop where
  finished : Finished row
  classRanges : row.classRanges = classRanges p row.selector

/-- A selector with call sites. -/
def Used (p : Program Code) (sid : Nat) : Prop :=
  ∃ selector, p.selectors[sid]? = some selector ∧ 0 < selector.callCount

theorem selectorRow_eq_some (h : selectorRow p sid = some row) :
    row.selector = sid ∧ row.classRanges = classRanges p sid ∧
      row.offset = none ∧ row.classRanges ≠ [] := by
  rw [selectorRow] at h
  split at h
  · split_ifs at h with hc
    cases h
    exact ⟨rfl, rfl, rfl, fun h0 => hc.2 (length_eq_zero_iff.2 h0)⟩
  · cases h

theorem selectorRow_isSome (hu : Used p sid) (hne : classRanges p sid ≠ []) :
    ∃ row, selectorRow p sid = some row := by
  obtain ⟨selector, hsl, hps⟩ := hu
  rw [selectorRow, hsl]
  dsimp only
  rw [if_pos ⟨hps, fun h => hne (length_eq_zero_iff.1 h)⟩]
  exact ⟨_, rfl⟩

/-- The rows that are to be placed. -/
structure RowsOf (p : Program Code) (rows : List (SelectorRow Code)) : Prop where
  rowOf : ∀ row ∈ rows, RowOf p row
  nodup : (rows.map selector).Nodup
  used : ∀ sid c, Used p sid → Covered p sid c → sid ∈ rows.map selector
  length : rows.length ≤ p.selectors.length

/-- **The rows**: one for each used selector that covers a class. -/
theorem setupSelectorRows_spec (p : Program Code) (s : SortRoutine) :
    Succeeds (setupSelectorRows p s) fun rows =>
      RowsOf p rows ∧ ∀ row ∈ rows, row.offset = none := by
  let R : SelectorRow Code → SelectorRow Code → Prop := fun row row' =>
    Finished row' ∧ row'.selector = row.selector ∧ row'.classRanges = row.classRanges ∧
      row'.offset = row.offset
  have hm : ∀ {row}, row ∈ (List.range p.selectors.length).filterMap (selectorRow p) →
      selectorRow p row.selector = some row := by
    intro row hro
    obtain ⟨sid, -, hsi⟩ := mem_filterMap.1 hro
    rw [(selectorRow_eq_some hsi).1, hsi]
  rw [setupSelectorRows]
  refine (Succeeds.mapM (R := R) fun row hro => ?_).imp fun rows hrw => ?_
  · obtain ⟨-, hcr, -, hne⟩ := selectorRow_eq_some (hm hro)
    refine finalize_spec s hne ?_ ?_
    · rw [hcr]
      exact fun r hr => classRanges_nonempty hr
    · rw [hcr]
      exact fun r hr r' hr' => classRanges_laminar hr hr'
  · have hsl : rows.map selector =
        ((List.range p.selectors.length).filterMap (selectorRow p)).map selector :=
      Related.map_eq_map (hrw.imp fun _ _ h => h.2.1)
    have hsd : ((List.range p.selectors.length).filterMap (selectorRow p)).map
        selector = (List.range p.selectors.length).filter
          fun sid => (selectorRow p sid).isSome := by
      rw [map_filterMap, ← filterMap_eq_filter]
      refine filterMap_congr fun sid _ => ?_
      cases hsi : selectorRow p sid with
      | none => simp [Option.guard, hsi]
      | some row => simp [Option.guard, hsi, (selectorRow_eq_some hsi).1]
    rw [hsd] at hsl
    have hb : ∀ row ∈ rows, RowOf p row ∧ row.offset = none := by
      intro row hro
      obtain ⟨row0, hro0, hf, hs, hc, ho⟩ := Related.exists_left hrw hro
      obtain ⟨-, hcr, hno, -⟩ := selectorRow_eq_some (hm hro0)
      exact ⟨⟨hf, by rw [hc, hcr, hs]⟩, by rw [ho, hno]⟩
    refine ⟨⟨fun row hro => (hb row hro).1, ?_, fun sid c hu hc => ?_, ?_⟩,
      fun row hro => (hb row hro).2⟩
    · rw [hsl]
      exact nodup_range.filter _
    · rw [hsl, mem_filter, mem_range]
      obtain ⟨r, hr, -⟩ := covers_classRanges.2 hc
      obtain ⟨row, hro⟩ := selectorRow_isSome hu fun h0 => by simp [h0] at hr
      obtain ⟨selector, hsl, -⟩ := hu
      exact ⟨(List.getElem?_eq_some_iff.1 hsl).1, by simp [hro]⟩
    · have h1 := congrArg List.length hsl
      have h2 := length_filter_le (fun sid => (selectorRow p sid).isSome)
        (List.range p.selectors.length)
      rw [length_map] at h1
      rw [length_range] at h2
      omega

/-! ## The offsets -/

/-- The class ids of a selector, as the cells of its row. -/
def cells (p : Program Code) (sid : Nat) : Set ℕ := {c | Covered p sid c}

theorem RowOf.placeable (h : RowOf p row) : Placeable (cells p) p.numClasses row := by
  refine ⟨h.finished.separated, h.finished.ne_nil, fun x => ?_, fun x hx => Covered.lt hx⟩
  rw [h.finished.covers, h.classRanges, covers_classRanges]
  rfl

/-- The row with its offset. -/
def place (P : Nat → Option Nat) (row : SelectorRow Code) : SelectorRow Code :=
  { row with offset := P row.selector }

theorem RowOf.place (h : RowOf p row) (P : Nat → Option Nat) : RowOf p (place P row) :=
  ⟨⟨h.finished.separated, h.finished.covers, h.finished.ne_nil⟩, h.classRanges⟩

theorem RowsOf.perm (h : RowsOf p rows) (hpr : rows'.Perm rows) : RowsOf p rows' where
  rowOf row hr := h.rowOf row (hpr.mem_iff.1 hr)
  nodup := ((hpr.map _).nodup_iff).2 h.nodup
  used sid c hu hc := (hpr.map _).mem_iff.2 (h.used sid c hu hc)
  length := hpr.length_eq ▸ h.length

theorem map_place_selector : (rows.map (place P)).map selector = rows.map selector := by
  rw [List.map_map]
  rfl

theorem RowsOf.place (h : RowsOf p rows) (P : Nat → Option Nat) :
    RowsOf p (rows.map (place P)) := by
  refine ⟨fun row hr => ?_, ?_, fun sid c hu hc => ?_, ?_⟩
  · obtain ⟨row, hm, rfl⟩ := List.mem_map.1 hr
    exact (h.rowOf row hm).place P
  · rw [map_place_selector]
    exact h.nodup
  · rw [map_place_selector]
    exact h.used sid c hu hc
  · rw [length_map]
    exact h.length

/-- The state between two passes: the rows, and what the fitter knows of them. -/
structure Between (p : Program Code) (rows : List (SelectorRow Code)) (P : Nat → Option Nat)
    (fitter : RowFitter) (rows' : List (SelectorRow Code)) : Prop where
  rowsOf : RowsOf p rows'
  inv : Inv fitter (occupied (cells p) P)
  offset : ∀ row ∈ rows', row.offset = P row.selector
  selectors : (rows'.map selector).Perm (rows.map selector)
  outside : ∀ sid, sid ∉ rows.map selector → P sid = none

/-- What one pass adds. -/
structure PassDone (p : Program Code) (lo hi : Nat) (rows : List (SelectorRow Code))
    (P P' : Nat → Option Nat) (r : RowFitter × List (SelectorRow Code)) : Prop where
  between : Between p rows P' r.1 r.2
  pass : ∃ l : List Nat, l.Perm (rows.map selector) ∧ Pass (cells p) lo hi P l P'
  room : ∀ n, Room (occupied (cells p) P) p.numClasses lo (rows.length + n) →
    Room (occupied (cells p) P') p.numClasses lo n
  all : hi = intMax → lo ≤ intMax → ∀ row ∈ r.2, row.offset ≠ none

/-- **One pass** over the rows in a new order. -/
theorem fitAll_sort {ft : RowFitter} {lo hi : Nat}
    (cmp : SelectorRow Code → SelectorRow Code → Int) (h : Between p rows P ft rows') :
    Ends (fitAll lo hi ft (s.sort cmp rows')) (fun r => ∃ P', PassDone p lo hi rows P P' r)
      fun e => e = .outOfBounds ∧ ¬ Room (occupied (cells p) P) p.numClasses lo rows.length := by
  have hpr := s.perm cmp rows'
  have hrw := h.rowsOf.perm hpr
  have hsl : ((s.sort cmp rows').map selector).Perm
      (rows.map selector) := (hpr.map _).trans h.selectors
  have hl : (s.sort cmp rows').length = rows.length := by
    simpa using hsl.length_eq
  rw [← hl]
  refine (fitAll_spec h.inv (fun row hro => (hrw.rowOf row hro).placeable)
    (fun row hro => (h.offset row (hpr.mem_iff.1 hro)).symm) hrw.nodup).imp
    fun r hr => ?_
  obtain ⟨P', hps, hin, hrs, hrm, ha⟩ := hr
  have hrs' : r.2 = (s.sort cmp rows').map (place P') := hrs
  refine ⟨P', ⟨?_, hin, fun row hro => ?_, ?_, fun sid hsd => ?_⟩, ⟨_, hsl, hps⟩, ?_, ha⟩
  · rw [hrs']
    exact hrw.place P'
  · rw [hrs'] at hro
    obtain ⟨row, hro, rfl⟩ := List.mem_map.1 hro
    rfl
  · rw [hrs', map_place_selector]
    exact hsl
  · rw [hps.of_not_mem fun hm => hsd (hsl.mem_iff.1 hm)]
    exact h.outside sid hsd
  · rw [← hl]
    exact hrm

/-- There is room for all rows: no offset overflows 32 bits. -/
def Enough (p : Program Code) (arch : Arch) : Prop :=
  max arch.originElement (arch.largestSmallOffset + 1) +
    (p.selectors.length + 1) * p.numClasses < intMax

/-- The offsets as three passes of row displacement, each over the selectors in some order: at the
origin, at the small offsets, and at the others. -/
def ThreePasses (p : Program Code) (arch : Arch) (sids : List Nat) (P : Nat → Option Nat) : Prop :=
  ∃ l₁ l₂ l₃ P₁ P₂, l₁.Perm sids ∧ l₂.Perm sids ∧ l₃.Perm sids ∧
    Pass (cells p) arch.originElement arch.originElement (fun _ => none) l₁ P₁ ∧
    Pass (cells p) 0 arch.largestSmallOffset P₁ l₂ P₂ ∧
    Pass (cells p) (arch.largestSmallOffset + 1) intMax P₂ l₃ P

/-- What the search for the offsets ends with. -/
structure Placed (p : Program Code) (arch : Arch) (rows : List (SelectorRow Code))
    (P : Nat → Option Nat) (r : List (SelectorRow Code) × Nat) : Prop where
  rowsOf : RowsOf p r.1
  offset : ∀ row ∈ r.1, row.offset = P row.selector
  selectors : (r.1.map selector).Perm (rows.map selector)
  outside : ∀ sid, sid ∉ rows.map selector → P sid = none
  passes : ThreePasses p arch (rows.map selector) P
  all : ∀ row ∈ r.1, row.offset ≠ none
  size : (∀ x ∈ occupied (cells p) P, x + 1 < intMax) → ∀ x ∈ occupied (cells p) P, x < r.2
  enough : Enough p arch → ∀ x ∈ occupied (cells p) P, x + 1 < intMax

theorem Pass.occupied_cells {lo hi B : Nat} {l : List Nat} {P' : Nat → Option Nat}
    (h : Pass (cells p) lo hi P l P') (hB : ∀ x ∈ occupied (cells p) P, x < B)
    (hhi : hi + p.numClasses ≤ B) : ∀ x ∈ occupied (cells p) P', x < B :=
  h.occupied_lt (fun _ _ _ hc => Covered.lt hc) hB hhi

/-- **The offsets.** -/
theorem computeSelectorOffsets_spec (hrw : RowsOf p rows)
    (hno : ∀ row ∈ rows, row.offset = none) :
    Ends (computeSelectorOffsets s arch rows) (fun r => ∃ P, Placed p arch rows P r)
      fun e => e = .outOfBounds ∧ ¬ Enough p arch := by
  have hm : Enough p arch → max arch.originElement (arch.largestSmallOffset + 1) +
      p.numClasses + rows.length * p.numClasses < intMax := by
    intro h
    have := Nat.mul_le_mul_right p.numClasses (Nat.add_le_add_right hrw.length 1)
    rw [Enough] at h
    rw [Nat.add_one_mul rows.length] at this
    omega
  have hst : Between p rows (fun _ => none) RowFitter.empty rows := by
    refine ⟨hrw, ?_, fun row hro => hno row hro, .refl _, fun _ _ => rfl⟩
    rw [occupied_empty]
    exact inv_empty
  rw [computeSelectorOffsets]
  refine Ends.bind ((fitAll_sort comparePopularity hst).imp_error ?_) ?_
  · rintro e ⟨he, hrm⟩
    refine ⟨he, fun hen => hrm ⟨0, by simp [occupied_empty], ?_⟩⟩
    have := hm hen
    omega
  rintro ⟨fitter1, rows1⟩ ⟨P1, h1⟩
  obtain ⟨l1, hl1, hp1⟩ := h1.pass
  have hB1 := Pass.occupied_cells hp1
    (by simp [occupied_empty]) le_rfl
  refine Ends.bind ((fitAll_sort comparePopularitySizeRatio h1.between).imp_error ?_) ?_
  · rintro e ⟨he, hrm⟩
    refine ⟨he, fun hen => hrm ⟨_, hB1, ?_⟩⟩
    have := hm hen
    omega
  rintro ⟨fitter2, rows2⟩ ⟨P2, h2⟩
  obtain ⟨l2, hl2, hp2⟩ := h2.pass
  have hB2 := Pass.occupied_cells hp2
    (B := max arch.originElement (arch.largestSmallOffset + 1) + p.numClasses)
    (fun x hx => by have := hB1 x hx; omega) (by omega)
  have hrm2 : Enough p arch → Room (occupied (cells p) P2) p.numClasses
      (arch.largestSmallOffset + 1) rows.length := by
    intro hen
    have := hm hen
    exact ⟨_, hB2, by omega⟩
  refine Ends.bind ((fitAll_sort compareSize h2.between).imp_error ?_) ?_
  · rintro e ⟨he, hrm⟩
    exact ⟨he, fun hen => hrm (hrm2 hen)⟩
  rintro ⟨fitter3, rows3⟩ ⟨P3, h3⟩
  obtain ⟨l3, hl3, hp3⟩ := h3.pass
  have hen : Enough p arch → ∀ x ∈ occupied (cells p) P3, x + 1 < intMax := by
    intro hen x hx
    obtain ⟨B, hB, hlt⟩ := h3.room 0 (hrm2 hen)
    have := hB x hx
    omega
  refine Ends.bind ((tableSize_spec h3.between.inv).imp_error ?_) ?_
  · rintro e ⟨he, hl⟩
    refine ⟨he, fun h => ?_⟩
    have := hen h _ hl
    omega
  intro size hsz
  refine ⟨P3, h3.between.rowsOf, h3.between.offset, h3.between.selectors, h3.between.outside,
    ⟨l1, l2, l3, P1, P2, hl1, hl2, hl3, hp1, hp2, hp3⟩, ?_, ?_, hen⟩
  · exact h3.all rfl (Nat.succ_le_of_lt arch.largestSmallOffset_lt)
  intro hlt x hx
  refine hsz (fun hl => ?_) x hx ?_
  · have := hlt _ hl
    omega
  · have := hlt x hx
    omega

/-! ## The entries -/

/-- What a row does to the entry at an index. -/
def effect (s : SortRoutine) (x : Nat) (old : Option Code) (row : SelectorRow Code) : Option Code :=
  match row.offset with
  | some o =>
    if o ≤ x then (s.sort compareDepths row.classRanges).foldl (override (x - o)) old else old
  | none => old

theorem buildCodeArray_changed (hrw : ∀ row ∈ rows, RowOf p row)
    (hl : ∀ row ∈ rows, ∃ o, row.offset = some o ∧ ∀ c, Covered p row.selector c →
      o + c < entries.length) :
    Succeeds (rows.foldlM (fillTable s) entries) fun entries' =>
      Changed entries entries' fun x old => rows.foldl (effect s x) old := by
  induction rows generalizing entries with
  | nil => exact ⟨entries, rfl, changed_self fun x old => rfl⟩
  | cons row rows ih =>
    have hro := hrw row mem_cons_self
    obtain ⟨o, ho, hlt⟩ := hl row mem_cons_self
    obtain ⟨e', he', hch⟩ := @fillTable_spec _ entries s row o ho
      (by rw [hro.classRanges]; exact fun r hr => classRanges_nonempty hr)
      (by rw [hro.classRanges]; exact fun c hc => hlt c (covers_classRanges.1 hc))
    obtain ⟨e'', he'', hch'⟩ := @ih e'
      (fun row hro => hrw row (.tail _ hro)) (by
        rw [hch.length]
        exact fun row hro => hl row (.tail _ hro))
    refine ⟨e'', ?_, (hch.trans hch').congr fun x old => ?_⟩
    · rw [foldlM_cons, he']
      exact he''
    · rw [foldl_cons, effect, ho]

/-- A row does nothing at the indices of another. -/
theorem effect_of_ne {o : Nat} {old : Option Code} (hsp : Separate (cells p) P)
    (hrw : RowOf p row) (hof : row.offset = P row.selector) (ho : P sid = some o)
    (hc : Covered p sid c) (hne : row.selector ≠ sid) : effect s (o + c) old row = old := by
  rw [effect]
  split
  · rename_i o' ho'
    split_ifs with hle
    · refine foldl_override_of_not fun r hr code hw => hne ?_
      have hm : r ∈ classRanges p row.selector := by
        rw [← hrw.classRanges]
        exact (s.perm _ _).mem_iff.1 hr
      have hcv : Covered p row.selector (o + c - o') :=
        covers_classRanges.1 ⟨r.range, List.mem_map.2 ⟨r, hm, rfl⟩, hw.2⟩
      exact hsp (hof ▸ ho') ho hcv hc (by omega)
    · rfl
  · rfl

theorem foldl_effect_of_ne {o : Nat} {old : Option Code} (hsp : Separate (cells p) P)
    (hr : ∀ row ∈ rows, RowOf p row) (hof : ∀ row ∈ rows, row.offset = P row.selector)
    (ho : P sid = some o) (hc : Covered p sid c) (hne : sid ∉ rows.map selector) :
    rows.foldl (effect s (o + c)) old = old := by
  refine List.foldlRecOn rows _ (motive := (· = old)) rfl fun _ hold row hrw => ?_
  rw [effect_of_ne hsp (hr row hrw) (hof row hrw) ho hc fun h => hne ?_, hold]
  exact List.mem_map.2 ⟨row, hrw, h⟩

/-- **The entries**: each is what the class ranges of its own row wrote. -/
theorem buildCodeArray_spec {size : Nat} (hsp : Separate (cells p) P) (hrw : RowsOf p rows)
    (hof : ∀ row ∈ rows, row.offset = P row.selector) (ha : ∀ row ∈ rows, row.offset ≠ none)
    (hsz : ∀ x ∈ occupied (cells p) P, x < size) :
    Succeeds (buildCodeArray s rows size) fun entries => entries.length = size ∧
      ∀ sid o c, sid ∈ rows.map selector → P sid = some o → Covered p sid c →
        entries[o + c]? =
          some ((s.sort compareDepths (classRanges p sid)).foldl (override c) none) := by
  rw [buildCodeArray]
  refine (buildCodeArray_changed hrw.rowOf fun row hro => ?_).imp fun entries hch => ?_
  · obtain ⟨o, ho⟩ := ne_none_iff_exists'.1 (ha row hro)
    refine ⟨o, ho, fun c hc => ?_⟩
    rw [length_replicate]
    exact hsz _ ⟨row.selector, o, (hof row hro) ▸ ho, c, hc, rfl⟩
  · refine ⟨by rw [hch.length, length_replicate], fun sid o c hm ho hc => ?_⟩
    have hlt : o + c < size := hsz _ ⟨sid, o, ho, c, hc, rfl⟩
    obtain ⟨row, hro, rfl⟩ := List.mem_map.1 hm
    obtain ⟨l, l', rfl⟩ := append_of_mem hro
    have hnd := hrw.nodup
    rw [map_append, map_cons, nodup_middle, nodup_cons, mem_append, not_or] at hnd
    have hl : ∀ r ∈ l, r ∈ l ++ row :: l' := fun r hr => mem_append_left _ hr
    have hl' : ∀ r ∈ l', r ∈ l ++ row :: l' := fun r hr => mem_append_right _ (.tail _ hr)
    rw [hch (o + c), getElem?_replicate, if_pos hlt, map_some]
    dsimp only
    rw [List.foldl_append, foldl_cons,
      foldl_effect_of_ne hsp (fun r hr => hrw.rowOf r (hl r hr)) (fun r hr => hof r (hl r hr))
        ho hc hnd.1.1, foldl_effect_of_ne hsp (fun r hr => hrw.rowOf r (hl' r hr))
        (fun r hr => hof r (hl' r hr)) ho hc hnd.1.2, effect, hof row hro, ho]
    dsimp only
    rw [if_pos (Nat.le_add_right o c), Nat.add_sub_cancel_left, (hrw.rowOf row hro).classRanges]

/-- The offset of the row of a selector. -/
def offsetOf (rows : List (SelectorRow Code)) (sid : Nat) : Option Nat :=
  (rows.find? fun row => row.selector == sid).bind SelectorRow.offset

theorem offsetOf_eq (ho : ∀ row ∈ rows, row.offset = P row.selector)
    (hot : ∀ sid, sid ∉ rows.map selector → P sid = none) : offsetOf rows = P := by
  funext sid
  rw [offsetOf]
  cases hf : rows.find? fun row => row.selector == sid with
  | none =>
    refine (hot sid fun hm => ?_).symm
    obtain ⟨row, hr, hsd⟩ := List.mem_map.1 hm
    have := find?_eq_none.1 hf row hr
    simp [hsd] at this
  | some row =>
    have hsd : row.selector = sid := by simpa using find?_some hf
    rw [bind_some, ho row (mem_of_find?_eq_some hf), hsd]

/-- The indices of all rows, and their ends, are below `INT_MAX`. -/
def NoOverflow (p : Program Code) (rows : List (SelectorRow Code)) : Prop :=
  ∀ sid o c, offsetOf rows sid = some o → Covered p sid c → o + c + 1 < intMax

/-- What is true of any table, whatever the depths. -/
structure Built (p : Program Code) (s : SortRoutine) (arch : Arch) (rows : List (SelectorRow Code))
    (entries : List (Option Code)) : Prop where
  passes : ThreePasses p arch (rows.map selector) (offsetOf rows)
  separate : Separate (cells p) (offsetOf rows)
  allocated : ∀ sid c, Used p sid → Covered p sid c → ∃ o, offsetOf rows sid = some o
  below : ∀ sid o c, offsetOf rows sid = some o → Covered p sid c → o + c < entries.length
  entry : ∀ sid o c, offsetOf rows sid = some o → Covered p sid c → entries[o + c]? =
    some ((s.sort compareDepths (classRanges p sid)).foldl (override c) none)

theorem fillTable_ends :
    Ends (fillTable s entries row) (fun _ => True) fun e => e = .outOfBounds := by
  rw [fillTable]
  split
  · refine Ends.foldlM trivial fun {entries r} _ _ => ?_
    rw [fillRange]
    split
    · refine Ends.foldlM trivial fun {entries c} _ _ => ?_
      rw [setAt]
      split_ifs
      · trivial
      · rfl
    · trivial
  · rfl

theorem ThreePasses.separate {sids : List Nat} (h : ThreePasses p arch sids P) :
    Separate (cells p) P := by
  obtain ⟨l1, l2, l3, P1, P2, -, -, -, h1, h2, h3⟩ := h
  exact ((separate_empty.pass h1).pass h2).pass h3

/-- **The run of the generator**: it ends, with an overflow or with a table. -/
theorem generate_spec (p : Program Code) (s : SortRoutine) (arch : Arch) :
    Ends (generate p s arch)
      (fun r => (Enough p arch → NoOverflow p r.1) ∧ (NoOverflow p r.1 → Built p s arch r.1 r.2))
      fun e => e = .outOfBounds ∧ ¬ Enough p arch := by
  obtain ⟨rows, hst, hrw, hnn⟩ := setupSelectorRows_spec p s
  rw [generate, hst, ok_bind]
  refine (computeSelectorOffsets_spec hrw hnn).bind ?_
  rintro ⟨rows', size⟩ ⟨P, h⟩
  have hof : offsetOf rows' = P := by
    refine offsetOf_eq h.offset fun sid hsd => h.outside sid fun hm => hsd ?_
    exact h.selectors.mem_iff.2 hm
  have hoc : NoOverflow p rows' ↔ ∀ x ∈ occupied (cells p) P, x + 1 < intMax := by
    rw [NoOverflow, hof]
    constructor
    · rintro hno x ⟨sid, o, ho, c, hc, rfl⟩
      exact hno sid o c ho hc
    · intro hx sid o c ho hc
      exact hx _ ⟨sid, o, ho, c, hc, rfl⟩
  have hbl : NoOverflow p rows' → Succeeds (buildCodeArray s rows' size) fun entries =>
      Built p s arch rows' entries := by
    intro hno
    have hsz := h.size (hoc.1 hno)
    have hm : ∀ {sid o}, P sid = some o → sid ∈ rows'.map selector := by
      intro sid o ho
      by_contra hsd
      rw [h.outside sid fun hm => hsd (h.selectors.mem_iff.2 hm)] at ho
      cases ho
    refine (buildCodeArray_spec h.passes.separate h.rowsOf h.offset h.all hsz).imp
      fun entries het => ?_
    obtain ⟨l1, l2, l3, P1, P2, hl1, hl2, hl3, hp⟩ := h.passes
    constructor <;> rw [hof]
    · exact ⟨l1, l2, l3, P1, P2, hl1.trans h.selectors.symm, hl2.trans h.selectors.symm,
        hl3.trans h.selectors.symm, hp⟩
    · exact h.passes.separate
    · intro sid c hu hc
      obtain ⟨row, hro, rfl⟩ := List.mem_map.1 (h.rowsOf.used sid c hu hc)
      rw [← h.offset row hro]
      exact ne_none_iff_exists'.1 (h.all row hro)
    · intro sid o c ho hc
      rw [het.1]
      exact hsz _ ⟨sid, o, ho, c, hc, rfl⟩
    · exact fun sid o c ho hc => het.2 sid o c (hm ho) ho hc
  by_cases hno : NoOverflow p rows'
  · obtain ⟨entries, he, hb⟩ := hbl hno
    simp only [he, ok_bind]
    exact ⟨fun _ => hno, fun _ => hb⟩
  have hen : ¬ Enough p arch := fun hen => hno (hoc.2 (h.enough hen))
  have hed : Ends (buildCodeArray s rows' size) (fun _ => True)
      fun e => e = .outOfBounds ∧ ¬ Enough p arch :=
    (Ends.foldlM trivial fun _ _ => fillTable_ends).imp_error fun e he => ⟨he, hen⟩
  exact hed.bind fun entries _ => ⟨fun h => absurd h hen, fun h => absurd h hno⟩

/-! ## Dispatch -/

/-- **What a call does**: the code of the nearest superclass with an implementation that has code,
or none. -/
inductive Dispatches (p : Program Code) (sid : Nat) : Nat → Option Code → Prop
  | here {c : Nat} {code : Code} : some code ∈ p.implementations sid c →
    Dispatches p sid c (some code)
  | up {c : Nat} {r : Option Code} : c ≠ 0 → (∀ code, some code ∉ p.implementations sid c) →
    Dispatches p sid (p.parent c) r → Dispatches p sid c r
  | top : Dispatches p sid 0 none

/-- The class ranges that write an entry are those of the superclasses with code. -/
theorem writes_iff {r : CidInterval Code} (hr : r ∈ classRanges p sid) (hw : Writes c r code) :
    Subclass p r.cid c ∧ some code ∈ p.implementations sid r.cid ∧ r.depth = p.cidDepth r.cid := by
  rcases mem_classRanges.1 hr with ⟨-, rfl⟩ | ⟨cid, code', hcd, I, hI, rfl⟩
  · exact absurd hw.1 (by simp)
  have heq : code' = some code := by simpa using hw.1
  subst heq
  have hin := (p.cidSubclassRanges_spec.1 I hI).inside c hw.2
  rw [inRange_iff (Nat.pos_iff_ne_zero.1 (mem_implementations_bounds hcd).1)] at hin
  exact ⟨hin.1, hcd, rfl⟩

theorem exists_writes {a : Nat} (hc : p.isConcreteClass c = true) (hsb : Subclass p a c)
    (hcd : some code ∈ p.implementations sid a) :
    ∃ r ∈ classRanges p sid, Writes c r code ∧ r.depth = p.cidDepth a := by
  have hps := Nat.pos_iff_ne_zero.1 (mem_implementations_bounds hcd).1
  obtain ⟨I, hI, hIc⟩ := p.cidSubclassRanges_spec.2 c ((inRange_iff hps).2 ⟨hsb, hc⟩)
  exact ⟨_, mem_classRanges.2 (.inr ⟨a, _, hcd, I, hI, rfl⟩), ⟨rfl, hIc⟩, rfl⟩

/-- The entry of a class is code of the superclass with the greatest depth. -/
theorem foldl_override_classRanges (sid : Nat) (hc : p.isConcreteClass c = true) :
    let entry := (s.sort compareDepths (classRanges p sid)).foldl (override c) none
    (entry = none ∧ ∀ a code, Subclass p a c → some code ∉ p.implementations sid a) ∨
      ∃ a code, entry = some code ∧ Subclass p a c ∧ some code ∈ p.implementations sid a ∧
        ∀ b code', Subclass p b c → some code' ∈ p.implementations sid b →
          p.cidDepth b ≤ p.cidDepth a := by
  intro entry
  have hm {r} : r ∈ s.sort compareDepths (classRanges p sid) ↔ r ∈ classRanges p sid :=
    (s.perm _ _).mem_iff
  rcases foldl_override c none (sort_compareDepths s (l := classRanges p sid)) with
    ⟨heq, hno⟩ | ⟨m, hmem, code, hw, heq, hmx⟩
  · refine .inl ⟨heq, fun a code hsb hcd => ?_⟩
    obtain ⟨r, hr, hw, -⟩ := exists_writes hc hsb hcd
    exact hno r (hm.2 hr) code hw
  · obtain ⟨hsb, hcd, hd⟩ := writes_iff (hm.1 hmem) hw
    refine .inr ⟨m.cid, code, heq, hsb, hcd, fun b code' hb hcd' => ?_⟩
    obtain ⟨r, hr, hw', hd'⟩ := exists_writes hc hb hcd'
    rw [← hd', ← hd]
    exact hmx r (hm.2 hr) code' hw'

theorem dispatches_none (h : ∀ a code, Subclass p a c → some code ∉ p.implementations sid a) :
    Dispatches p sid c none := by
  obtain ⟨n, -, hd⟩ := p.exists_depth c
  induction hd with
  | zero => exact .top
  | succ hc _ ih =>
    exact .up hc (fun code => h _ code .refl) (ih fun a code hsb => h a code (.step hc hsb))

/-- No superclass with code is deeper than the one that is called. -/
theorem dispatches_deepest {a n : Nat} (ha : Depth p a n) (hsb : Subclass p a c)
    (hcd : some code ∈ p.implementations sid a)
    (hmx : ∀ b m code', Subclass p b c → some code' ∈ p.implementations sid b → Depth p b m →
      m ≤ n) : Dispatches p sid c (some code) := by
  induction hsb with
  | refl => exact .here hcd
  | @step c hc hsb ih =>
    refine .up hc (fun code' hcd' => ?_) (ih fun b m code' hb => hmx b m code' (.step hc hb))
    obtain ⟨m, -, hd⟩ := p.exists_depth c
    have hle := hmx c m code' .refl hcd' hd
    cases hd with
    | zero => exact hc rfl
    | succ _ hd =>
      have := hsb.depth_le ha hd
      omega

/-- **Overriding by depth is dispatch**, if no chain of classes is too long for a depth. -/
theorem override_dispatches (hdp : ∀ cid, p.parent^[32767] cid = 0)
    (hc : p.isConcreteClass c = true) :
    Dispatches p sid c ((s.sort compareDepths (classRanges p sid)).foldl (override c) none) := by
  have hd : ∀ {a n}, Depth p a n → p.cidDepth a = n := by
    intro a n ha
    obtain ⟨n', hn, hd⟩ := depth_of_iterate (hdp a)
    obtain rfl := ha.unique hd
    rw [cidDepth_eq hd, toInt16_of_lt (by omega)]
  rcases foldl_override_classRanges (s := s) sid hc with ⟨heq, hno⟩ | ⟨a, code, heq, hsb, hcd, hmx⟩
  · rw [heq]
    exact dispatches_none hno
  · rw [heq]
    obtain ⟨n, -, ha⟩ := p.exists_depth a
    refine dispatches_deepest ha hsb hcd fun b m code' hb hcd' hm => ?_
    have hle := hmx b code' hb hcd'
    rw [hd ha, hd hm] at hle
    omega

/-- The table is right. -/
structure DispatchTable (p : Program Code) (arch : Arch) (rows : List (SelectorRow Code))
    (entries : List (Option Code)) : Prop where
  dispatches : ∀ sid c, Used p sid → p.isConcreteClass c = true → Implements p sid c →
    ∃ o code, offsetOf rows sid = some o ∧ entries[o + c]? = some code ∧ Dispatches p sid c code
  distinct : ∀ sid sid' o o' c c', offsetOf rows sid = some o → offsetOf rows sid' = some o' →
    Covered p sid c → Covered p sid' c' → o + c = o' + c' → sid = sid' ∧ c = c'
  below : ∀ sid o c, offsetOf rows sid = some o → Covered p sid c → o + c < entries.length
  smallest : ThreePasses p arch (rows.map selector) (offsetOf rows)

/-- **The dispatch table.** If no chain of superclasses has more than 32767 classes, the generator
ends, with a table if there is room for all rows; and if no index overflows, the table is right. -/
theorem dispatchTable_spec (p : Program Code) (s : SortRoutine) (arch : Arch)
    (hdepth : ∀ cid, p.parent^[32767] cid = 0) :
    generate p s arch ≠ .error .diverged ∧
      (Enough p arch → ∃ rows entries, generate p s arch = .ok (rows, entries) ∧
        NoOverflow p rows) ∧
      ∀ rows entries, generate p s arch = .ok (rows, entries) → NoOverflow p rows →
        DispatchTable p arch rows entries := by
  have h := generate_spec p s arch
  refine ⟨fun hd => ?_, fun hen => ?_, fun rows entries hg hno => ?_⟩
  · rw [hd] at h
    cases h.1
  · obtain ⟨⟨rows, entries⟩, hg, hr⟩ := h.succeeds fun e he => he.2 hen
    exact ⟨rows, entries, hg, hr.1 hen⟩
  rw [hg] at h
  have hb := h.2 hno
  refine ⟨fun sid c hu hc hi => ?_, ?_, hb.below, hb.passes⟩
  · have hcv : Covered p sid c := .inr ⟨hc, hi⟩
    obtain ⟨o, ho⟩ := hb.allocated sid c hu hcv
    exact ⟨o, _, ho, hb.entry sid o c ho hcv, override_dispatches hdepth hc⟩
  intro sid sid' o o' c c' ho ho' hc hc' heq
  obtain rfl := hb.separate ho ho' hc hc' heq
  rw [ho] at ho'
  cases ho'
  exact ⟨rfl, by omega⟩

/-! ## A chain of classes -/

/-- A sort by merging. -/
def mergeSorting : SortRoutine where
  sort compare l := l.mergeSort fun a b => decide (compare a b ≤ 0)
  perm compare l := mergeSort_perm l _
  sorted compare l htrans htotal := by
    have h := @pairwise_mergeSort _ (fun a b => decide (compare a b ≤ 0))
      (by simpa using htrans) (by simpa using htotal) l
    exact h.imp fun h => by simpa using h

/-- The functions of the first and the last of `n` classes. -/
def chainFunctions (n cid : Nat) : List (Function Bool) :=
  if cid = 1 then [⟨some true, some 0, none, none⟩]
  else if cid = n then [⟨some false, some 0, none, none⟩] else []

/-- `n` classes, each a subclass of the one before. -/
def chainClass (n cid : Nat) : Option (Class Bool) :=
  if 0 < cid ∧ cid ≤ n then
    some ⟨false, if cid = 1 then none else some (cid - 1), chainFunctions n cid⟩
  else none

theorem parentCid_chainClass (n cid : Nat) :
    parentCid (chainClass n) cid = if cid ≤ n then cid - 1 else 0 := by
  rw [parentCid, chainClass]
  split_ifs <;> simp <;> omega

theorem iterate_chainClass {n k : Nat} (h : cid ≤ n) :
    (parentCid (chainClass n))^[k] cid = cid - k := by
  induction k generalizing cid with
  | zero => rfl
  | succ k ih =>
    rw [Function.iterate_succ_apply, parentCid_chainClass, if_pos h, ih (by omega)]
    omega

theorem iterate_chainClass_eq_zero {n k : Nat} (h : n ≤ k) :
    (parentCid (chainClass n))^[k + 1] cid = 0 := by
  by_cases hc : cid ≤ n
  · rw [iterate_chainClass hc]
    omega
  · rw [Function.iterate_succ_apply, parentCid_chainClass, if_neg hc,
      iterate_chainClass (Nat.zero_le _), Nat.zero_sub]

def chain (n : Nat) (hn : 0 < n) : Program Bool where
  numClasses := n + 1
  classAt := chainClass n
  nullCid := 1
  objectCid := 1
  selectors := [⟨1, false, false⟩]
  classAt_illegal := rfl
  classAt_of_le h := if_neg (by omega)
  nullCid_pos := Nat.one_pos
  nullCid_lt := Nat.succ_lt_succ hn
  acyclic cid := iterate_chainClass_eq_zero (Nat.le_refl n)

variable {n : Nat} {hn : 0 < n}

theorem functionsOf_chain (h : 0 < cid ∧ cid ≤ n) :
    (chain n hn).functionsOf cid = chainFunctions n cid := by
  rw [functionsOf, chain]
  dsimp only
  rw [chainClass, if_pos h, map_some, getD_some]

theorem mem_implementations_chain {code : Option Bool} :
    code ∈ (chain n hn).implementations sid cid ↔
      sid = 0 ∧ ((cid = 1 ∧ code = some true) ∨ (1 < cid ∧ cid = n ∧ code = some false)) := by
  by_cases h : 0 < cid ∧ cid ≤ n
  · rw [implementations, functionsOf_chain h, chainFunctions]
    by_cases h1 : cid = 1
    · by_cases hs : 0 = sid
      · subst hs
        simp [h1]
      · simp [h1, hs, Ne.symm hs]
    · have hlt : 1 < cid := by omega
      by_cases h2 : cid = n
      · by_cases hs : 0 = sid
        · subst hs
          simp [h1, hlt, ← h2]
        · simp [h1, if_pos h2, hs, Ne.symm hs]
      · simp [h1, h2]
  · rw [implementations_of_none (if_neg h)]
    simp
    omega

theorem parent_chain (h : cid + 1 ≤ n) : (chain n hn).parent (cid + 1) = cid := by
  rw [Program.parent]
  exact (parentCid_chainClass n (cid + 1)).trans (if_pos h)

theorem depth_chain (h : cid ≤ n) : Depth (chain n hn) cid cid := by
  induction cid with
  | zero => exact .zero
  | succ cid ih =>
    refine .succ (Nat.succ_ne_zero cid) ?_
    rw [parent_chain h]
    exact ih (by omega)

theorem subclass_chain (h : cid ≤ n) (hp : 0 < cid) : Subclass (chain n hn) 1 cid := by
  induction cid with
  | zero => omega
  | succ cid ih =>
    rcases Nat.eq_zero_or_pos cid with rfl | hp'
    · exact .refl
    · refine .step (Nat.succ_ne_zero cid) ?_
      rw [parent_chain h]
      exact ih (by omega) hp'

theorem isConcreteClass_chain : (chain n hn).isConcreteClass n = true := by
  have h : chainClass n n = some _ := if_pos ⟨hn, Nat.le_refl n⟩
  rw [isConcreteClass, chain]
  dsimp only
  rw [h]
  rfl

/-- The constants of the 64-bit Intel architecture. -/
def x64 : Arch := ⟨16, 31, by decide, by decide⟩

theorem dispatchTable_spec_chain :
    ∃ rows entries, generate (chain 3 (by decide)) mergeSorting x64 = .ok (rows, entries) ∧
      DispatchTable (chain 3 (by decide)) x64 rows entries := by
  obtain ⟨-, hok, hr⟩ := dispatchTable_spec (chain 3 (by decide)) mergeSorting x64
    fun cid => iterate_chainClass_eq_zero (by decide)
  obtain ⟨rows, entries, hg, hno⟩ := hok (by unfold Enough; decide)
  exact ⟨rows, entries, hg, hr rows entries hg hno⟩

/-- If the depth of the last class is less than that of the first, the function of the first class
overrides that of the last. -/
theorem overridden_of_depth (hlt : 1 < n) (hen : Enough (chain n hn) x64)
    (hd : toInt16 n < toInt16 1) :
    ∃ rows entries o, generate (chain n hn) mergeSorting x64 = .ok (rows, entries) ∧
      NoOverflow (chain n hn) rows ∧ offsetOf rows 0 = some o ∧
      entries[o + n]? = some (some true) := by
  have hl : some false ∈ (chain n hn).implementations 0 n :=
    mem_implementations_chain.2 ⟨rfl, .inr ⟨hlt, rfl, rfl⟩⟩
  have hf : some true ∈ (chain n hn).implementations 0 1 :=
    mem_implementations_chain.2 ⟨rfl, .inl ⟨rfl, rfl⟩⟩
  have hcv : Covered (chain n hn) 0 n := .inr ⟨isConcreteClass_chain, n, _, .refl, hl⟩
  obtain ⟨⟨rows, entries⟩, hg, hr⟩ :=
    (generate_spec (chain n hn) mergeSorting x64).succeeds fun e he => he.2 hen
  have hno := hr.1 hen
  have hb := hr.2 hno
  obtain ⟨o, ho⟩ := hb.allocated 0 n ⟨⟨1, false, false⟩, rfl, Nat.one_pos⟩ hcv
  refine ⟨rows, entries, o, hg, hno, ho, ?_⟩
  rw [hb.entry 0 o n ho hcv]
  rcases foldl_override_classRanges (s := mergeSorting) 0 (@isConcreteClass_chain n hn) with
    ⟨-, hno⟩ | ⟨a, code, heq, -, hcd, hmx⟩
  · exact absurd hf (hno 1 true (subclass_chain le_rfl hn))
  rw [heq]
  rw [mem_implementations_chain] at hcd
  obtain ⟨-, ⟨-, hcd⟩ | ⟨-, rfl, -⟩⟩ := hcd
  · rw [hcd]
  · have hle := hmx 1 true (subclass_chain le_rfl hn) hf
    rw [cidDepth_eq (depth_chain hn), cidDepth_eq (depth_chain le_rfl)] at hle
    exact absurd hd (Int.not_lt.2 hle)

theorem dispatches_chain (hlt : 1 < n) : Dispatches (chain n hn) 0 n (some false) ∧
    ¬ Dispatches (chain n hn) 0 n (some true) := by
  have hl : some false ∈ (chain n hn).implementations 0 n :=
    mem_implementations_chain.2 ⟨rfl, .inr ⟨hlt, rfl, rfl⟩⟩
  refine ⟨.here hl, fun hd => ?_⟩
  cases hd with
  | here h =>
    rw [mem_implementations_chain] at h
    obtain ⟨-, ⟨h, -⟩ | ⟨-, -, h⟩⟩ := h
    · omega
    · cases h
  | up _ h _ => exact h false hl

/-- **A chain of 32768 classes.** The depth of the last class is `-32768`, so a call on it finds the
function of the first class and not its own. -/
theorem dispatchTable_deep :
    Used (chain 32768 (by decide)) 0 ∧
      (chain 32768 (by decide)).isConcreteClass 32768 = true ∧
      (∃ rows entries o, generate (chain 32768 (by decide)) mergeSorting x64 = .ok (rows, entries) ∧
        NoOverflow (chain 32768 (by decide)) rows ∧ offsetOf rows 0 = some o ∧
        entries[o + 32768]? = some (some true)) ∧
      Dispatches (chain 32768 (by decide)) 0 32768 (some false) ∧
      ¬ Dispatches (chain 32768 (by decide)) 0 32768 (some true) := by
  refine ⟨⟨⟨1, false, false⟩, rfl, Nat.one_pos⟩, isConcreteClass_chain,
    overridden_of_depth (by decide) ?_ (by decide), dispatches_chain (by decide)⟩
  simp only [Enough, chain, x64, intMax, length_cons, length_nil]
  omega

end DispatchTableGenerator

end Aot
