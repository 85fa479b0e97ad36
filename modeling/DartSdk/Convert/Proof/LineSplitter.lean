import DartSdk.Convert.LineSplitter
import DartSdk.Lib.Loops


/-!
# Correctness of the line splitter

`Lines` says what the lines of a text are. A reader that has seen a part of the text keeps a
`Pending`, and reading the whole text leaves its lines (`finish_foldl`).

* `lineLoop_spec`: the loop of `convert` and `_addLines` is that reader.
* `addSlice_spec`: the sink holds the reader's state between slices (`Holds`), wherever they are cut.
* `lineSplitters_agree`: all three give the lines of the text.
-/

namespace Convert.Proof.LineSplitter

open Convert Loops Slices LineSplitterSink LineSplitIterator List

/-! ## Lines -/

@[simp] theorem charLF_ne_charCR : charLF ≠ charCR := by decide

def Plain (line : List UInt16) : Prop := ∀ c ∈ line, c ≠ charCR ∧ c ≠ charLF

/-- A line terminator before `rest`. -/
def Eol (eol rest : List UInt16) : Prop :=
  eol = [charLF] ∨ eol = [charCR, charLF] ∨ eol = [charCR] ∧ rest.head? ≠ some charLF

/-- The lines of a text. -/
inductive Lines : List UInt16 → List (List UInt16) → Prop
  | nil : Lines [] []
  | last {line} (hne : line ≠ []) (hline : Plain line) : Lines line [line]
  | line {line eol rest lines} (hline : Plain line) (heol : Eol eol rest) (hrest : Lines rest lines) :
    Lines (line ++ eol ++ rest) (line :: lines)

/-- What is known after a part of a text: the line so far, whether a CR is before it, and the lines
before. -/
structure Pending where
  line : List UInt16 := []
  cr : Bool := false
  lines : List (List UInt16) := []

variable {s rest line lines src : List UInt16}

namespace Pending

def read (p : Pending) (c : UInt16) : Pending :=
  if c = charCR then ⟨[], true, p.lines ++ [p.line]⟩
  else if c = charLF then
    if p.cr then { p with cr := false } else ⟨[], false, p.lines ++ [p.line]⟩
  else { p with line := p.line ++ [c], cr := false }

def finish (p : Pending) : List (List UInt16) :=
  if p.line = [] then p.lines else p.lines ++ [p.line]

variable {p : Pending} {line : List UInt16} {c : UInt16} {lines : List (List UInt16)}

theorem read_plain (h : c ≠ charCR ∧ c ≠ charLF) :
    p.read c = { p with line := p.line ++ [c], cr := false } := by simp [read, h]

theorem foldl_plain (h : Plain line) :
    line.foldl read p = { p with line := p.line ++ line, cr := p.cr && line.isEmpty } := by
  induction line generalizing p with
  | nil => simp
  | cons c line ih =>
    obtain ⟨hc, hl⟩ := forall_mem_cons.mp h
    rw [foldl_cons, read_plain hc, ih hl]
    simp

/-- A CR before the text makes no difference unless the text begins with an LF. -/
theorem finish_foldl (h : Lines s lines) (hp : p.line = [])
    (hcr : p.cr = true → s.head? ≠ some charLF) : (s.foldl read p).finish = p.lines ++ lines := by
  induction h generalizing p with
  | nil => simp [finish, hp]
  | last hne hl => simp [foldl_plain hl, finish, hp, hne]
  | @line line eol rest lines hl he hr ih =>
    rw [List.foldl_append, List.foldl_append, foldl_plain hl, hp]
    obtain rfl | rfl | ⟨rfl, hhd⟩ := he
    · have hf : (p.cr && line.isEmpty) = false := by
        cases line <;> simp_all
      simp [read, hf, ih]
    · simp [read, ih]
    · simp [read, ih, hhd]

end Pending

open Pending

/-! ## The loop -/

section

variable {σ : Type} {data : List UInt16} {stop i start : Nat} {char : UInt16} {s : σ} {p : Pending}
  (add : σ → List UInt16 → Option σ) (P : σ → List UInt16 → List (List UInt16) → Prop)

/-- The loop at index `i`, and the reader there. The state of the loop holds the lines and the
beginning of the line from before the loop. -/
structure At (data : List UInt16) (i start : Nat) (char : UInt16) (s : σ) (p : Pending) : Prop where
  start_le : start ≤ i
  start_eq : char = charCR → start = i
  cr : p.cr = decide (char = charCR)
  carry : ∃ carry, P s carry p.lines ∧ p.line = carry ++ slice data start i

/-- **The loop reads the code units**, given that `add` ends the line. -/
theorem lineLoop_spec (hst : stop ≤ data.length)
    (ha : ∀ s carry lines line, P s carry lines →
      ∃ s', add s line = some s' ∧ P s' [] (lines ++ [carry ++ line]))
    (hr : rest = slice data i stop) (hi : i ≤ stop) (h : At P data i start char s p) :
    ∃ start' char' s', lineLoop data add rest i start char s = some (start', char', s') ∧
      At P data stop start' char' s' (rest.foldl read p) := by
  have hln := congrArg List.length hr
  rw [slice_length hst] at hln
  induction rest generalizing i start char s p with
  | nil =>
    obtain rfl : i = stop := by
      rw [length_nil] at hln
      omega
    exact ⟨start, char, s, rfl, h⟩
  | cons c rest ih =>
    rw [length_cons] at hln
    have hlt : i < stop := by omega
    rw [slice_cons hlt hst] at hr
    obtain ⟨hc, hr⟩ := cons.inj hr
    obtain ⟨carry, hP, hl⟩ := h.carry
    have hn := fun {start s p} => @ih (i + 1) start c s p hr hlt
    rw [lineLoop, foldl_cons]
    by_cases hpl : c ≠ charCR ∧ c ≠ charLF
    · rw [if_pos hpl, read_plain hpl]
      have hsr := h.start_le
      refine hn ⟨by omega, fun h => absurd h hpl.1, by simp [hpl.1], carry, hP, ?_⟩ (by omega)
      rw [slice_snoc hsr (by omega), ← hc, hl, append_assoc]
    · have hor : c ≠ charCR → c = charLF := by simpa using hpl
      rw [if_neg hpl]
      by_cases hsk : c ≠ charCR ∧ char = charCR
      · have hrd : p.read c = { p with cr := false } := by
          simp [Pending.read, hor hsk.1, h.cr, hsk.2]
        rw [h.start_eq hsk.2] at hl
        rw [if_pos hsk, hrd]
        exact hn ⟨le_rfl, fun _ => rfl, by simp [hsk.1], carry, hP, by simpa using hl⟩
          (by omega)
      · obtain ⟨s1, hs1, h1⟩ := ha s carry p.lines (slice data start i) hP
        have hrd : p.read c = ⟨[], c = charCR, p.lines ++ [p.line]⟩ := by
          by_cases hCR : c = charCR
          · simp [Pending.read, hCR]
          · have hch : char ≠ charCR := fun h => hsk ⟨hCR, h⟩
            simp [Pending.read, hor hCR, h.cr, hch]
        rw [if_neg hsk, hs1, hrd, hl]
        exact hn ⟨le_rfl, fun _ => rfl, rfl, [], h1, by simp⟩ (by omega)

end

theorem lineSplitterConvert_eq (data : List UInt16) :
    lineSplitterConvert data = some (data.foldl read {}).finish := by
  obtain ⟨start, char, s, hl, -, -, -, carry, ⟨rfl, rfl⟩, hln⟩ :=
    lineLoop_spec (fun lines line => some (lines ++ [line]))
      (fun s carry lines => s = lines ∧ carry = []) (le_refl data.length)
      (by rintro s carry lines line ⟨rfl, rfl⟩; exact ⟨_, rfl, rfl, rfl⟩)
      (slice_all data).symm (Nat.zero_le _)
      (show At _ data 0 0 0 [] {} from ⟨le_rfl, fun _ => rfl, rfl, [], ⟨rfl, rfl⟩, by simp⟩)
  have hn : slice data start data.length = [] ↔ ¬ start < data.length := by
    rw [← length_eq_zero_iff, slice_length le_rfl]
    omega
  rw [lineSplitterConvert, hl]
  by_cases hlt : start < data.length <;> simp [finish, hln, hn, hlt]

/-! ## The sink -/

/-- A line so far, as `_carry` and `_multiCarry` hold it. -/
inductive Carried : Option (List UInt16) → Option (List UInt16) → List UInt16 → Prop
  | none {multiCarry} (h : multiCarry.getD [] = []) : Carried none multiCarry []
  | one {multiCarry carry} (hne : carry ≠ []) (h : multiCarry.getD [] = []) :
    Carried (some carry) multiCarry carry
  | many {carry} (hne : carry ≠ []) : Carried (some []) (some carry) carry

structure Holds (s : LineSplitterSink) (p : Pending) : Prop where
  carried : Carried s.carry s.multiCarry p.line
  skip : s.skipLeadingLF = p.cr
  sink : s.sink = p.lines.map .add

variable {s : LineSplitterSink} {p : Pending}

theorem addLine_spec (h : Holds s p) (line : List UInt16) :
    ∃ s', s.addLine line = some s' ∧ Holds s' ⟨[], p.cr, p.lines ++ [p.line ++ line]⟩ := by
  obtain ⟨hc, hsk, hsn⟩ := h
  rcases s with ⟨carry, multiCarry, skip, sink⟩
  rcases p with ⟨held, cr, lines⟩
  dsimp only at hc hsk hsn
  subst hsk hsn
  cases hc with
  | none hm => exact ⟨_, rfl, .none hm, rfl, by simp⟩
  | one hne hm =>
    refine ⟨⟨none, multiCarry, skip, _⟩, ?_, .none hm, rfl, rfl⟩
    simp [addLine, useCarry, hne]
  | many => exact ⟨_, rfl, .none rfl, rfl, by simp⟩

theorem Carried.eq_none_iff {carry multiCarry : Option (List UInt16)}
    (h : Carried carry multiCarry line) : carry = .none ↔ line = [] := by
  cases h <;> simp_all

theorem close_spec (h : Holds s p) :
    ∃ s', s.close = some s' ∧ s'.sink = p.finish.map .add ++ [.close] := by
  have hn := h.carried.eq_none_iff
  unfold LineSplitterSink.close
  cases hc : s.carry with
  | none => exact ⟨_, rfl, by simp [finish, hn.mp hc, h.sink]⟩
  | some carry =>
    have hne : p.line ≠ [] := fun h => by simp [hn.mpr h] at hc
    obtain ⟨s', hs', h'⟩ := addLine_spec h []
    exact ⟨_, by simp only [hs']; rfl, by simp [finish, hne, h'.sink]⟩

/-- The end of a slice is carried over. -/
theorem carry_spec (h : Holds s p) (hl : line ≠ []) :
    Holds (match s.carry with
      | none => { s with carry := some line }
      | some carry => s.addCarry carry line) { p with line := p.line ++ line } := by
  obtain ⟨hc, hsk, hsn⟩ := h
  rcases s with ⟨carry, multiCarry, skip, sink⟩
  rcases p with ⟨held, cr, lines⟩
  cases hc with
  | none hm => exact ⟨.one hl hm, hsk, hsn⟩
  | one hne hm =>
    simp only [addCarry, ne_eq, hne, not_false_eq_true, ↓reduceIte, hm]
    exact ⟨.many (by simp [hne]), hsk, hsn⟩
  | many hne => exact ⟨.many (by simp [hne]), hsk, hsn⟩

/-- The reader's state after a slice, and what the sink holds then. If the slice is the last one, the
line it ends with is already out. -/
def Reads (isLast : Bool) (s : LineSplitterSink) (p : Pending) : Prop :=
  ∃ p', Holds s p' ∧ p'.finish = p.finish ∧ (isLast = false → p' = p)

theorem addLines_spec {start stop : Nat} (h : Holds s p) (hcr : p.cr = false) (hsr : start ≤ stop)
    (hst : stop ≤ lines.length) (lst : Bool) : ∃ s', s.addLines lines start stop lst = some s' ∧
    Reads lst s' ((slice lines start stop).foldl read p) := by
  obtain ⟨i, char, s', hl, hrd⟩ :=
    lineLoop_spec addLine (fun s line lines => Holds s ⟨line, false, lines⟩) hst
      (fun s line lines slice h => addLine_spec h slice) rfl hsr
      (show At _ lines start start 0 s p from
        ⟨le_rfl, fun _ => rfl, hcr, p.line, by rw [← hcr]; exact h, by simp⟩)
  generalize (slice lines start stop).foldl read p = r at hrd
  obtain ⟨line, cr, before⟩ := r
  obtain ⟨hle, he, rfl, carry, h', rfl⟩ := hrd
  have hln := slice_length (i := i) hst
  simp only [addLines, hl, some_bind]
  by_cases hlt : i < stop
  · have hc : char ≠ charCR := fun h => absurd (he h) (by omega)
    have hne : slice lines i stop ≠ [] := by
      rw [← length_pos_iff]
      omega
    simp only [hlt, hc, decide_false, ↓reduceIte]
    cases lst with
    | false =>
      have hhl := carry_spec h' hne
      cases hcy : s'.carry <;> rw [hcy] at hhl <;> exact ⟨_, rfl, _, hhl, rfl, fun _ => rfl⟩
    | true =>
      obtain ⟨s'', hs'', h''⟩ := addLine_spec h' (slice lines i stop)
      exact ⟨s'', hs'', _, h'', by simp [finish, hne], by simp⟩
  · obtain rfl : i = stop := by omega
    simp only [lt_irrefl, ↓reduceIte, slice_self, List.append_nil]
    exact ⟨_, rfl, ⟨carry, char = charCR, before⟩, ⟨h'.carried, rfl, h'.sink⟩, rfl, fun _ => rfl⟩

/-- **A slice**, with a leading LF skipped after a CR. -/
theorem addSlice_spec (h : Holds s p) (c : StringSlice) (lst : Bool) :
    ∃ s', s.addSlice c.str c.start c.stop lst = (if lst then s'.close else some s') ∧
      Reads lst s' (c.units.foldl read p) := by
  obtain ⟨str, start, stop, hsr, hst⟩ := c
  have hr : checkValidRange start (some stop) str.length = some stop := by
    simp [checkValidRange]
    omega
  have hl : ∀ {s1 p1 i}, Holds s1 p1 → p1.cr = false → i ≤ stop →
      (slice str i stop).foldl read p1 = (slice str start stop).foldl read p →
      ∃ s', (s1.addLines str i stop lst >>= fun s => if lst then s.close else pure s) =
        (if lst then s'.close else some s') ∧
          Reads lst s' ((slice str start stop).foldl read p) := by
    intro s1 p1 i h1 hcr hi hrd
    obtain ⟨s', hs', hrs⟩ := addLines_spec h1 hcr hi hst lst
    rw [hs', ← hrd]
    exact ⟨s', rfl, hrs⟩
  simp only [addSlice, hr, some_bind, h.skip]
  rcases Nat.lt_or_eq_of_le hsr with hlt | rfl
  · rw [if_pos hlt]
    cases hcr : p.cr with
    | false => exact hl h hcr hsr rfl
    | true =>
      have h1 : Holds { s with skipLeadingLF := false } { p with cr := false } :=
        ⟨h.carried, rfl, h.sink⟩
      simp only [↓reduceIte, getElem?_eq_getElem (Nat.lt_of_lt_of_le hlt hst), some_bind]
      by_cases hLF : str[start] = charLF
      · rw [if_pos hLF]
        exact hl h1 rfl hlt (by simp [slice_cons hlt hst, Pending.read, hLF, hcr])
      · rw [if_neg hLF]
        exact hl h1 rfl hsr (by simp [slice_cons hlt hst, Pending.read, hLF])
  · rw [if_neg (Nat.lt_irrefl _)]
    exact ⟨s, rfl, p, h, by simp [StringSlice.units], by simp [StringSlice.units]⟩

theorem addSlices_spec (sls : List StringSlice) (h : Holds s p) : ∃ s',
    sls.foldlM (fun s c => addSlice s c.str c.start c.stop false) s = some s' ∧
      Holds s' ((sls.flatMap StringSlice.units).foldl read p) := by
  induction sls generalizing s p with
  | nil => exact ⟨s, rfl, h⟩
  | cons c sls ih =>
    obtain ⟨s1, hs1, p1, h1, -, hp1⟩ := addSlice_spec h c false
    rw [hp1 rfl] at h1
    rw [flatMap_cons, List.foldl_append, foldlM_cons, hs1]
    exact ih h1

theorem addAll_spec (sls : List StringSlice) (last : Option StringSlice) :
    ∃ s, addAll sls last = some s ∧ s.sink =
      (((sls ++ last.toList).flatMap StringSlice.units).foldl read {}).finish.map .add ++
        [.close] := by
  obtain ⟨s, hs, h⟩ := addSlices_spec sls (s := {}) (p := {}) ⟨.none rfl, rfl, rfl⟩
  rw [addAll, hs]
  cases last with
  | none => simpa using close_spec h
  | some c =>
    obtain ⟨s', hs', p', h', hf, -⟩ := addSlice_spec h c true
    simpa [hs', hf] using close_spec h'

/-! ## The iterator -/

theorem eolLoop_none {i : Nat} (h : eolLoop rest i = none) : Plain rest := by
  induction rest generalizing i with
  | nil => simp [Plain]
  | cons c rest ih =>
    unfold eolLoop at h
    split_ifs at h with hCR hLF
    exact forall_mem_cons.mpr ⟨⟨hCR, hLF⟩, ih h⟩

theorem eolLoop_some {i : Nat} {r : Nat × Nat} (h : eolLoop rest i = some r) : ∃ line eol rest',
    rest = line ++ eol ++ rest' ∧ Plain line ∧ Eol eol rest' ∧ r.1 = i + line.length ∧ r.2 =
    eol.length := by
  induction rest generalizing i with
  | nil => cases h
  | cons c rest ih =>
    unfold eolLoop at h
    split_ifs at h with hCR hLF hhd
    · obtain ⟨line, eol, rest', rfl, hl, he, hr, hk⟩ := ih h
      refine ⟨c :: line, eol, rest', rfl, forall_mem_cons.mpr ⟨⟨hCR, hLF⟩, hl⟩, he, ?_, hk⟩
      rw [hr, length_cons]
      omega
    · cases h
      exact ⟨[], [c], rest, rfl, nofun, .inl (by simpa using hLF), rfl, rfl⟩
    · cases h
      obtain ⟨rest', rfl⟩ := head?_eq_some_iff.mp hhd
      exact ⟨[], [c, charLF], rest', rfl, nofun, .inr (.inl (by simpa using hCR)), rfl, rfl⟩
    · cases h
      exact ⟨[], [c], rest, rfl, nofun, .inr (.inr ⟨by simpa using hCR, hhd⟩), rfl, rfl⟩

theorem elements_lines {stop : Nat} (hst : stop ≤ src.length) (fuel : Nat) : ∀ start lineStart
    lineEnd, start ≤ stop → stop - start < fuel → ∃ lines, elements fuel
    ⟨src, stop, start, lineStart, lineEnd⟩ = some lines ∧ Lines (slice src start stop) lines := by
  induction fuel with
  | zero => omega
  | succ fuel ih =>
    intro start lineStart lineEnd hsr hf
    have hln := slice_length (i := start) hst
    cases he : eolLoop (slice src start stop) start with
    | none =>
      have hpl := eolLoop_none he
      by_cases hlt : start < stop
      · obtain ⟨lines, hl, h⟩ := ih stop start (some stop) le_rfl (by omega)
        obtain rfl : [] = lines := by simpa [finish] using finish_foldl (p := {}) h rfl (by simp)
        refine ⟨[slice src start stop], ?_, .last ?_ hpl⟩
        · simp [elements, moveNext, he, hlt, hl, current]
        · rw [← length_pos_iff]
          omega
      · obtain rfl : start = stop := by omega
        refine ⟨[], ?_, by simpa using Lines.nil⟩
        simp [elements, moveNext, eolLoop]
    | some r =>
      obtain ⟨line, eol, rest, hsl, hli, hen, hj, hk⟩ := eolLoop_some he
      have hps : 0 < eol.length := by rcases hen with rfl | rfl | ⟨rfl, -⟩ <;> simp
      rw [hsl, length_append, length_append] at hln
      rw [append_assoc] at hsl
      obtain ⟨hhd, ht⟩ := slice_eq_append hsr hst hsl
      obtain ⟨lines, hl, h⟩ := ih (start + line.length + eol.length) start
        (some (start + line.length)) (by omega) (by omega)
      rw [(slice_eq_append (by omega) hst ht).2] at h
      refine ⟨line :: lines, ?_, ?_⟩
      · simp [elements, moveNext, he, hj, hk, hl, current, hhd]
      · rw [hsl, ← append_assoc]
        exact .line hli hen h

/-- **The line splitters agree**: the lines that `convert` and `split` give, and that the sink puts
out for a text in slices, are the lines of the text. -/
theorem lineSplitters_agree (slices : List StringSlice) (last : Option StringSlice) :
    let text := (slices ++ last.toList).flatMap StringSlice.units
    ∃ lines, Lines text lines ∧ lineSplitterConvert text = some lines ∧
      (∃ it, lineSplitterSplit text 0 none = some it ∧ it.elements (text.length + 1) = some lines) ∧
      ∃ s, addAll slices last = some s ∧ s.sink = lines.map .add ++ [.close] := by
  intro text
  obtain ⟨lines, hsp, h⟩ := elements_lines (le_refl text.length) (text.length + 1)
    0 0 none (Nat.zero_le _) (by simp)
  have hf : (text.foldl read {}).finish = lines := by
    rw [slice_all] at h
    simpa using finish_foldl (p := {}) h rfl (by simp)
  refine ⟨lines, by simpa [slice_all] using h, ?_, ⟨_, by simp [lineSplitterSplit, checkValidRange], hsp⟩, ?_⟩
  · rw [lineSplitterConvert_eq, hf]
  · rw [← hf]
    exact addAll_spec slices last

end Convert.Proof.LineSplitter
