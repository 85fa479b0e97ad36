import DartSdk.Convert.Proof.Utf8Machine

/-!
# The size of decoded text

How many code units a run of `advance` puts out, from the bytes alone. Every first byte stands for
the code units of its character, an extension byte for none (`byteSize`); an unfinished character
was counted and is not put out yet (`Carry.pending`).

* `run_size`: output and unfinished character together have the size of the input.
* `size_isExtension`, `size_lastFirst`: the size that is computed before a run.
-/

namespace Convert.Utf8Decoder

open Transducer List Bool Carry

/-! ## Counting -/

/-- The number of bytes that are still expected. -/
def Phase.need : Phase → Nat
  | accept => 0
  | x1 => 1
  | x2 | tO | tS => 2
  | x3 | qO | qR => 3

/-- The number of code units of the unfinished character. -/
def Carry.pending (q : Carry) : Nat :=
  match q.phase with
  | .accept => 0
  | .x1 => if q.char < 0x400 then 1 else 2
  | .x2 => if q.char < 0x10 then 1 else 2
  | .tO | .tS => 1
  | .x3 | .qO | .qR => 2

def byteSize (byte : Nat) : Nat :=
  if byte < 0x80 then 1 else if byte < 0xC0 then 0 else if byte < 0xF0 then 1 else 2

def totalSize (w : List UInt8) : Nat := (w.map fun b => byteSize b.toNat).sum

@[simp] theorem totalSize_nil : totalSize [] = 0 := rfl

@[simp] theorem totalSize_cons (b : UInt8) (w : List UInt8) :
    totalSize (b :: w) = byteSize b.toNat + totalSize w := by
  simp [totalSize]

@[simp] theorem totalSize_append (v w : List UInt8) :
    totalSize (v ++ w) = totalSize v + totalSize w := by
  simp [totalSize]

variable {ph : Phase} {byte : Nat} {w v : List UInt8} {q q' : Carry} {b : UInt8} {out : Text}

theorem need_eq_zero : ph.need = 0 ↔ ph = .accept := by
  cases ph <;> decide

theorem byteSize_isExtension (h : isExtension byte) : byteSize byte = 0 := by
  simp only [isExtension, and_eq_true, decide_eq_true_eq] at h
  unfold byteSize
  rw [if_neg (by omega), if_pos h.2]

theorem totalSize_isExtension (h : ∀ b ∈ w, isExtension b.toNat) : totalSize w = 0 := by
  induction w with
  | nil => rfl
  | cons b w ih =>
    rw [totalSize_cons, byteSize_isExtension (h b mem_cons_self),
      ih fun c hc => h c (mem_cons_of_mem b hc)]

/-! ## The size of a step -/

theorem first_size (hb : byte < 0x100) (h : first byte = .ok ph) :
    (if ph = .accept then (units (lead byte)).length else pending ⟨ph, lead byte⟩) =
      byteSize byte := by
  unfold lead pending byteSize
  rw [units_length]
  revert h
  fun_cases first byte <;> rintro ⟨⟩ <;> simp only [reduceCtorEq, if_true, if_false] <;>
    split_ifs <;> omega

theorem following_size (he : isExtension byte) (hq : q.InRange)
    (h : following byte q.phase = .ok ph) :
    (if ph = .accept then (units (q.char * 0x40 + byte % 0x40)).length
      else pending ⟨ph, q.char * 0x40 + byte % 0x40⟩) = q.pending := by
  obtain ⟨p, char⟩ := q
  simp only [isExtension, and_eq_true, decide_eq_true_eq] at he
  rw [units_length]
  cases p <;> simp only [following, reduceCtorEq] at h <;> (try split_ifs at h) <;> cases h <;>
    simp only [InRange] at hq <;> simp only [pending, reduceCtorEq, if_true, if_false] <;>
    split_ifs <;> omega

/-- **The size of a step**: what is counted is put out or pending. -/
theorem advance_size (hq : q.InRange) (h : advance q b = .ok (q', out)) :
    out.length + q'.pending = q.pending + byteSize b.toNat := by
  have hsz : ∀ ph, next q.phase b.toNat = .ok ph →
      (if ph = .accept then (units (q.extend b.toNat)).length
        else pending ⟨ph, q.extend b.toNat⟩) = q.pending + byteSize b.toNat := by
    intro ph hn
    unfold next at hn
    unfold extend
    by_cases hp : q.phase = .accept
    · rw [if_pos hp] at hn ⊢
      have hpn : q.pending = 0 := by simp only [pending, hp]
      rw [first_size b.toNat_lt hn, hpn, Nat.zero_add]
    · rw [if_neg hp] at hn ⊢
      split_ifs at hn with he
      rw [following_size he hq hn, byteSize_isExtension he, Nat.add_zero]
  rcases advance_cases h with ⟨hn, rfl, rfl⟩ | ⟨ph, hp, hn, rfl, rfl⟩
  · rw [← hsz _ hn, if_pos rfl]
    rfl
  · rw [← hsz _ hn, if_neg hp, length_nil, Nat.zero_add]

/-- A step gets at most one byte closer to the end of the character. -/
theorem advance_need (h : advance q b = .ok (q', out)) :
    q.phase.need ≤ q'.phase.need + 1 ∧ (isExtension b.toNat → q.phase.need = q'.phase.need + 1) ∧
      (q'.phase = .accept ∨ out = []) := by
  have hnd : ∀ ph, next q.phase b.toNat = .ok ph → q.phase.need ≤ ph.need + 1 ∧
      (isExtension b.toNat → q.phase.need = ph.need + 1) := by
    intro ph hn
    unfold next at hn
    by_cases hp : q.phase = .accept
    · rw [if_pos hp] at hn
      rw [hp]
      refine ⟨Nat.zero_le _, fun he => ?_⟩
      simp only [isExtension, and_eq_true, decide_eq_true_eq] at he
      rw [first, if_neg (by omega), if_pos he.2] at hn
      cases hn
    · rw [if_neg hp] at hn
      split_ifs at hn with he
      have heq : q.phase.need = ph.need + 1 := by
        cases hq : q.phase <;> rw [hq] at hn <;> simp only [following] at hn <;>
          (try split_ifs at hn) <;> cases hn <;> rfl
      exact ⟨Nat.le_of_eq heq, fun _ => heq⟩
  rcases advance_cases h with ⟨hn, rfl, rfl⟩ | ⟨ph, hp, hn, rfl, rfl⟩
  · exact ⟨(hnd _ hn).1, (hnd _ hn).2, .inl rfl⟩
  · exact ⟨(hnd _ hn).1, (hnd _ hn).2, .inr rfl⟩

/-! ## The size of a run -/

theorem run_inRange (hq : q.InRange) (h : run advance q w = .ok (q', out)) : q'.InRange :=
  run_keeps (fun _ _ _ _ hs hx => advance_inRange hs hx) hq h

/-- **The size of a run.** -/
theorem run_size (hq : q.InRange) (h : run advance q w = .ok (q', out)) :
    out.length + q'.pending = q.pending + totalSize w := by
  induction w generalizing q out with
  | nil => cases h; rw [totalSize_nil, length_nil, Nat.zero_add, Nat.add_zero]
  | cons b w ih =>
    obtain ⟨q1, out1, out2, hs, hr, rfl⟩ := run_cons_eq_ok h
    have hst := advance_size hq hs
    have hrs := ih (advance_inRange hq hs) hr
    rw [length_append, totalSize_cons]
    omega

theorem run_need (h : run advance q w = .ok (q', out)) :
    q.phase.need ≤ q'.phase.need + w.length := by
  induction w generalizing q out with
  | nil => cases h; rfl
  | cons b w ih =>
    obtain ⟨q1, out1, out2, hs, hr, rfl⟩ := run_cons_eq_ok h
    have hst := (advance_need hs).1
    have hrs := ih hr
    rw [length_cons]
    omega

/-- A run that is shorter than the unfinished character puts nothing out. -/
theorem run_short (h : run advance q w = .ok (q', out)) (hw : w.length < q.phase.need) :
    out = [] := by
  induction w generalizing q out with
  | nil => cases h; rfl
  | cons b w ih =>
    obtain ⟨q1, out1, out2, hs, hr, rfl⟩ := run_cons_eq_ok h
    obtain ⟨hn, -, ho⟩ := advance_need hs
    rw [length_cons] at hw
    rcases ho with ha | rfl
    · rw [ha, Phase.need] at hn
      omega
    · rw [nil_append]
      exact ih hr (by omega)

/-- Extension bytes only: they belong to the unfinished character. -/
theorem run_isExtension (hw : ∀ b ∈ w, isExtension b.toNat) (h : run advance q w = .ok (q', out)) :
    q.phase.need = q'.phase.need + w.length := by
  induction w generalizing q out with
  | nil => cases h; rfl
  | cons b w ih =>
    obtain ⟨q1, out1, out2, hs, hr, rfl⟩ := run_cons_eq_ok h
    have hst := (advance_need hs).2.1 (hw b mem_cons_self)
    have hrs := ih (fun c hc => hw c (mem_cons_of_mem b hc)) hr
    rw [length_cons]
    omega

theorem pending_eq_zero (h : q.phase = .accept) : q.pending = 0 := by
  simp only [pending, h]

/-! ## The computed size -/

/-- The least first byte of a character that is not finished by so many extension bytes. -/
def threshold (extensionCount : Nat) : Nat := (((-0x40 : Int) >>> extensionCount) % 0x100).toNat

/-- The size that is taken back for a last character with so many extension bytes. -/
def dropped (byte extensionCount : Nat) : Nat :=
  if threshold extensionCount ≤ byte then if 0xF0 ≤ byte then 2 else 1 else 0

theorem le_threshold {n : Nat} (h : 3 ≤ n) : 0xF8 ≤ threshold n := by
  obtain hn | hn := Nat.lt_or_ge n 6
  · have hsm : ∀ n < 6, 3 ≤ n → 0xF8 ≤ threshold n := by decide
    exact hsm n hn h
  have hp : (64 : Int) ≤ 2 ^ n := by
    exact_mod_cast Nat.pow_le_pow_right (by decide : 0 < 2) hn
  have hd : (-0x40 : Int) / 2 ^ n = -1 := Int.ediv_eq_neg_one_of_neg_of_le (by decide) (by omega)
  unfold threshold
  rw [Int.shiftRight_eq_div_pow]
  push_cast
  rw [hd]
  decide

theorem threshold_ge (n : Nat) : 0xC0 ≤ threshold n := by
  match n with
  | 0 | 1 | 2 => decide
  | n + 3 => exact le_trans (by decide) (le_threshold (Nat.le_add_left 3 n))

theorem dropped_le_byteSize (byte n : Nat) : dropped byte n ≤ byteSize byte := by
  have hge := threshold_ge n
  unfold dropped byteSize
  split_ifs <;> omega

/-- The first bytes of characters by the number of their extension bytes. -/
theorem first_bounds (h : first byte = .ok ph) :
    ph.need = 0 ∧ byte < 0x80 ∨ ph.need = 1 ∧ 0xC0 ≤ byte ∧ byte < 0xE0 ∨
      ph.need = 2 ∧ 0xE0 ≤ byte ∧ byte < 0xF0 ∨ ph.need = 3 ∧ 0xF0 ≤ byte ∧ byte < 0xF8 := by
  revert h
  fun_cases first byte <;> rintro ⟨⟩ <;> simp [Phase.need] <;> omega

/-- The size is taken back for a character that is not finished. -/
theorem dropped_first {n : Nat} (h : first byte = .ok ph) :
    dropped byte n = if n < ph.need then byteSize byte else 0 := by
  have hb := first_bounds h
  have hge : threshold n ≤ byte ↔ n < ph.need := by
    match n with
    | 0 => rw [show threshold 0 = 0xC0 from rfl]; omega
    | 1 => rw [show threshold 1 = 0xE0 from rfl]; omega
    | 2 => rw [show threshold 2 = 0xF0 from rfl]; omega
    | n + 3 =>
      have hle := le_threshold (Nat.le_add_left 3 n)
      omega
  unfold dropped
  by_cases hn : n < ph.need
  · rw [if_pos (hge.2 hn), if_pos hn]
    have hby := Nat.le_trans (threshold_ge n) (hge.2 hn)
    unfold byteSize
    split_ifs <;> omega
  · rw [if_neg (fun hle => hn (hge.1 hle)), if_neg hn]

/-- The size of the unfinished character if it can be finished by so many bytes. -/
def Carry.reachable (q : Carry) (length : Nat) : Nat :=
  if q.phase.need ≤ length then q.pending else 0

theorem size_isExtension (hq : q.InRange) (hv : ∀ b ∈ v, isExtension b.toNat) :
    (output advance q v).length ≤ q.reachable v.length ∧
      ∀ q' out, run advance q v = .ok (q', out) → out.length = q.reachable v.length := by
  -- a run over a first part either ends the character or puts nothing out
  have hp : ∀ v1 v2 q' out, v = v1 ++ v2 → run advance q v1 = .ok (q', out) →
      out = [] ∧ v1.length < q.phase.need ∨ out.length = q.pending ∧ q.phase.need = v1.length := by
    intro v1 v2 q' out hsp hr
    have hex : ∀ b ∈ v1, isExtension b.toNat := fun b hb =>
      hv b (hsp ▸ mem_append_left v2 hb)
    have hn := run_isExtension hex hr
    by_cases hac : q'.phase = .accept
    · right
      have hsz := run_size hq hr
      rw [pending_eq_zero hac, totalSize_isExtension hex] at hsz
      rw [hac, Phase.need] at hn
      omega
    · left
      have hps : q'.phase.need ≠ 0 := fun h0 => hac (need_eq_zero.1 h0)
      exact ⟨run_short hr (by omega), by omega⟩
  unfold reachable
  refine ⟨?_, fun q' out hr => ?_⟩
  · obtain ⟨v1, v2, q', out, hsp, hr, he⟩ := output_split advance q v
    rw [he]
    have hl : v.length = v1.length + v2.length := by rw [hsp, length_append]
    rcases hp v1 v2 q' out hsp hr with ⟨rfl, -⟩ | ⟨ho, hn⟩
    · exact Nat.zero_le _
    · rw [if_pos (by omega), ho]
  · rcases hp v [] q' out (List.append_nil v).symm hr with ⟨rfl, hlt⟩ | ⟨ho, hn⟩
    · rw [if_neg (by omega), length_nil]
    · rw [if_pos (Nat.le_of_eq hn), ho]

/-- Extension bytes after the first byte of a character. -/
theorem size_afterFirst {q1 q2 q3 : Carry} {out1 out2 : Text} (hb : ¬isExtension b.toNat)
    (hv : ∀ c ∈ v, isExtension c.toNat) (hq : q1.InRange) (h1 : advance q1 b = .ok (q2, out1))
    (h₂ : run advance q2 v = .ok (q3, out2)) :
    q1.phase = .accept ∧ first b.toNat = .ok q2.phase ∧ q3.pending = dropped b.toNat v.length := by
  have ha : q1.phase = .accept := by
    rcases advance_cases h1 with ⟨hn, -⟩ | ⟨ph, -, hn, -⟩ <;> exact next_of_not_isExtension hb hn
  have hnd := run_isExtension hv h₂
  have hsz1 := advance_size hq h1
  have hsz2 := run_size (advance_inRange hq h1) h₂
  rw [pending_eq_zero ha] at hsz1
  rw [totalSize_isExtension hv] at hsz2
  have hf : first b.toNat = .ok q2.phase := by
    rcases advance_cases h1 with ⟨hn, rfl, -⟩ | ⟨ph, -, hn, rfl, -⟩ <;>
    · rw [next, if_pos ha] at hn
      exact hn
  refine ⟨ha, hf, ?_⟩
  rw [dropped_first hf]
  by_cases hac : q3.phase = .accept
  · rw [hac, Phase.need] at hnd
    rw [pending_eq_zero hac, if_neg (by omega)]
  have hp : q3.phase.need ≠ 0 := fun h0 => hac (need_eq_zero.1 h0)
  have ho2 : out2 = [] := run_short h₂ (by omega)
  have ho1 : out1 = [] := by
    rcases (advance_need h1).2.2 with h2 | rfl
    · rw [h2, Phase.need] at hnd
      omega
    · rfl
  rw [ho2, length_nil] at hsz2
  rw [ho1, length_nil] at hsz1
  rw [if_pos (by omega)]
  omega

/-- The size of bytes that end with a first byte and its extension bytes. -/
theorem size_lastFirst {u : List UInt8} (hq : q.InRange) (hb : ¬isExtension b.toNat)
    (hv : ∀ c ∈ v, isExtension c.toNat) :
    (output advance q (u ++ b :: v)).length + dropped b.toNat v.length ≤
        totalSize (u ++ b :: v) + q.reachable (u ++ b :: v).length ∧
      ∀ q' out, run advance q (u ++ b :: v) = .ok (q', out) →
        out.length + dropped b.toNat v.length =
          totalSize (u ++ b :: v) + q.reachable (u ++ b :: v).length := by
  refine ⟨?_, fun q' out hrn => ?_⟩
  · obtain ⟨w1, w2, q', out, hsp, hrn, ho⟩ := output_split advance q (u ++ b :: v)
    rw [ho]
    have hsz := run_size hq hrn
    have hbf : ∀ x, u = w1 ++ x → out.length + dropped b.toNat v.length ≤
        totalSize (u ++ b :: v) + q.reachable (u ++ b :: v).length := by
      rintro x rfl
      have hd := dropped_le_byteSize b.toNat v.length
      simp only [reachable, totalSize_append, totalSize_cons, length_append]
      split_ifs with hn
      · omega
      · rw [run_short hrn (by omega), length_nil]
        omega
    rcases append_eq_append_iff.1 hsp with ⟨x, rfl, hx⟩ | ⟨x, hx, -⟩
    · cases x with
      | nil => exact hbf [] (by rw [List.append_nil, List.append_nil])
      | cons c v1 =>
        -- the run got past the first byte
        simp only [cons_append, cons.injEq] at hx
        obtain ⟨rfl, rfl⟩ := hx
        obtain ⟨q1, out1, out2, hu, hbv, rfl⟩ := run_append_eq_ok hrn
        obtain ⟨q2, out3, out4, hs, hr, rfl⟩ := run_cons_eq_ok hbv
        have hv1 : ∀ c ∈ v1, isExtension c.toNat := fun c hc => hv c (mem_append_left w2 hc)
        obtain ⟨ha, hf, hp⟩ := size_afterFirst hb hv1 (run_inRange hq hu) hs hr
        have hn := run_need hu
        have hd : dropped b.toNat (v1 ++ w2).length ≤ dropped b.toNat v1.length := by
          rw [dropped_first hf, dropped_first hf, length_append]
          split_ifs <;> omega
        rw [ha, Phase.need] at hn
        rw [reachable, if_pos (by rw [length_append]; omega)]
        simp only [totalSize_append, totalSize_cons] at hsz ⊢
        omega
    · exact hbf x hx
  · obtain ⟨q1, out1, out2, hu, hbv, rfl⟩ := run_append_eq_ok hrn
    obtain ⟨q2, out3, out4, hs, hr, rfl⟩ := run_cons_eq_ok hbv
    obtain ⟨ha, -, hp⟩ := size_afterFirst hb hv (run_inRange hq hu) hs hr
    have hn := run_need hu
    have hsz := run_size hq hrn
    rw [ha, Phase.need] at hn
    rw [hp] at hsz
    rw [reachable, if_pos (by rw [length_append]; omega), hsz, Nat.add_comm]

end Convert.Utf8Decoder
