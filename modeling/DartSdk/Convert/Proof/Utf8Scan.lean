import DartSdk.Convert.Proof.FastDecoders

/-!
# What `convertChunked` computes before it decodes

* `scan_eq`: the size and the flags of the bytes.
* `addCarryOver_eq`: with the unfinished character.
* `dropIncomplete_spec`: the size is enough for the run, and the size of its output when it succeeds.
* `ascii_of_flags`, `latin1_of_flags`: what the flags say about the bytes.
-/

namespace Convert.Utf8Decoder

open Transducer Slices Phase List Nat

/-! ## Scanning -/

def scanEntry (byte : Nat) : Nat :=
  if byte < 0x80 then 0x41
  else if byte < 0xC0 then 0x44
  else if byte < 0xC2 then 0x61
  else if byte < 0xC4 then 0x49
  else if byte < 0xF0 then 0x51
  else if byte < 0xF5 then 0x52
  else 0x62

theorem scanTable_eq : scanTable = (List.range 0x100).map scanEntry := by
  decide +kernel

theorem scanEntry_eq : ∀ byte < 0x100, scanEntry byte &&& sizeMask = byteSize byte := by
  intro byte _
  unfold byteSize
  fun_cases scanEntry byte <;> split_ifs <;> first | rfl | omega

theorem codeUnitAt_scanTable {byte : Nat} (h : byte < 0x100) :
    codeUnitAt scanTable byte = .ok (scanEntry byte) := by
  simp only [codeUnitAt, scanTable_eq, getElem?_map, getElem?_range h, Option.map_some]

/-- The flags of all the bytes. -/
def flagsOf (w : List UInt8) : Nat := w.foldr (fun b flags => scanEntry b.toNat &&& flagsMask ||| flags) 0

@[simp] theorem flagsOf_nil : flagsOf [] = 0 := rfl

@[simp] theorem flagsOf_cons (b : UInt8) (w : List UInt8) :
    flagsOf (b :: w) = scanEntry b.toNat &&& flagsMask ||| flagsOf w := rfl

theorem flagsOf_append (v w : List UInt8) : flagsOf (v ++ w) = flagsOf v ||| flagsOf w := by
  induction v with
  | nil => rw [nil_append, flagsOf_nil, zero_or]
  | cons b v ih => rw [cons_append, flagsOf_cons, flagsOf_cons, ih, Nat.or_assoc]

variable {w bs : List UInt8} {stop st : Nat} {q : Carry}

theorem testBit_flagsOf {b : UInt8} {i : Nat} (hb : b ∈ w) (h : (flagsOf w).testBit i = false) :
    (scanEntry b.toNat &&& flagsMask).testBit i = false := by
  induction w with
  | nil => cases hb
  | cons c w ih =>
    rw [flagsOf_cons, testBit_or, Bool.or_eq_false_iff] at h
    rcases mem_cons.1 hb with rfl | hm
    · exact h.1
    · exact ih hm h.2

theorem foldlM_scan (w : List UInt8) (size fl : Nat) :
    ∃ flags', w.foldlM (fun (p : Nat × Nat) b => do
        let t ← codeUnitAt scanTable b.toNat
        return (p.1 + (t &&& sizeMask), p.2 ||| t)) (size, fl) =
      Except.ok (size + totalSize w, flags') ∧
      flags' &&& flagsMask = fl &&& flagsMask ||| flagsOf w := by
  induction w generalizing size fl with
  | nil => exact ⟨fl, rfl, by rw [flagsOf_nil, or_zero]⟩
  | cons b w ih =>
    have hb := b.toNat_lt
    obtain ⟨flags', hf, hfl⟩ :=
      ih (size + (scanEntry b.toNat &&& sizeMask)) (fl ||| scanEntry b.toNat)
    refine ⟨flags', ?_, ?_⟩
    · rw [foldlM_cons, codeUnitAt_scanTable hb, totalSize_cons, ← Nat.add_assoc,
        ← scanEntry_eq _ hb]
      exact hf
    · rw [hfl, flagsOf_cons, and_or_distrib_right, Nat.or_assoc]

theorem scanPart_eq {i j : Nat} (fs : Nat) (hij : i ≤ j) (hj : j ≤ bs.length) :
    scanPart bs fs i j = .ok (totalSize (slice bs i j), fs ||| flagsOf (slice bs i j)) := by
  obtain ⟨n, rfl⟩ := Nat.exists_eq_add_of_le hij
  obtain ⟨flags', hf, hfl⟩ := foldlM_scan (slice bs i (i + n)) 0 0
  have hr := foldlM_range' bs
    (fun (p : Nat × Nat) k => do
      let t ← codeUnitAt scanTable (← byteAt bs k)
      return (p.1 + (t &&& sizeMask), p.2 ||| t))
    (fun (p : Nat × Nat) b => do
      let t ← codeUnitAt scanTable b.toNat
      return (p.1 + (t &&& sizeMask), p.2 ||| t)) (0, 0) i n hj
    (fun p k hk _ _ => by rw [byteAt_eq hk]; rfl)
  unfold scanPart
  rw [Nat.add_sub_cancel_left]
  rw [zero_and, zero_or] at hfl
  rw [Nat.zero_add] at hf
  rw [← hfl]
  exact congrArg (· >>= fun p => pure (p.1, fs ||| p.2 &&& flagsMask)) (hr.trans hf)

theorem scanLoop_eq (hst : stop ≤ bs.length) (fuel size fs ls : Nat)
    (h : ls ≤ stop) (hf : stop - ls < fuel) :
    scanLoop bs stop fuel size fs ls =
      .ok (size + totalSize (slice bs ls stop), fs ||| flagsOf (slice bs ls stop)) := by
  induction fuel generalizing size fs ls with
  | zero => omega
  | succ fuel ih =>
    rw [scanLoop]
    by_cases hl : stop - ls > scanChunkSize
    · have hp : ls ≤ ls + scanChunkSize := Nat.le_add_right _ _
      have hps : 0 < scanChunkSize := by decide
      rw [if_pos hl]
      dsimp only
      rw [scanPart_eq _ hp (by omega), ok_bind, ih _ _ _ (by omega) (by omega),
        ← slice_append hp (by omega) hst,
        totalSize_append, flagsOf_append, Nat.add_assoc, Nat.or_assoc]
    · rw [if_neg hl, scanPart_eq _ h hst]
      rfl

/-- **`scan`.** -/
theorem scan_eq (hst : stop ≤ bs.length) (h : st ≤ stop) :
    scan bs st stop = .ok (totalSize (slice bs st stop), flagsOf (slice bs st stop)) := by
  rw [scan, scanLoop_eq hst _ _ _ _ h (lt_succ_self _), Nat.zero_add, zero_or]

/-! ## The unfinished character -/

def Carry.flag (q : Carry) : Nat :=
  match q.phase with
  | .accept => 0
  | .x1 => if q.char < 4 then flagLatin1 else flagNonLatin1
  | _ => flagNonLatin1

/-- **`addCarryOver`**: the unfinished character counts if it can be finished. -/
theorem addCarryOver_eq {d : Utf8Decoder} (hd : Carries d q) {len : Nat} (hl : 0 < len)
    (size fl : Nat) : d.addCarryOver len size fl = (size + q.reachable len, fl ||| q.flag) := by
  obtain ⟨hst, -, hc⟩ := hd
  obtain ⟨phase, char⟩ := q
  unfold addCarryOver Carry.reachable Carry.flag Carry.pending
  rw [hst]
  cases phase with
  | accept => simp [code, IA, X1, X2, TO, TS, X3, QO, QR, need]
  | x1 =>
    rw [hc (by simp)]
    simp [code, need, show len ≥ 1 from hl]
  | x2 =>
    rw [hc (by simp)]
    by_cases h : 2 ≤ len <;> simp [code, need, X1, X2, h]
  | tO | tS => by_cases h : 2 ≤ len <;> simp [code, need, X1, X2, TO, TS, h]
  | x3 => by_cases h : 3 ≤ len <;> simp [code, need, X1, X2, X3, TO, TS, h]
  | qO => by_cases h : 3 ≤ len <;> simp [code, need, X1, X2, X3, TO, TS, QO, h]
  | qR => by_cases h : 3 ≤ len <;> simp [code, need, X1, X2, X3, TO, TS, QO, QR, h]

/-! ## What the flags say -/

theorem ascii_of_entry : ∀ byte < 0x100, scanEntry byte &&& flagsMask = 0 → byte < 0x80 := by
  intro byte _
  fun_cases scanEntry byte <;> simp [flagsMask, *]

theorem latin1_of_entry : ∀ byte < 0x100, (scanEntry byte &&& flagsMask).testBit 4 = false →
    (scanEntry byte &&& flagsMask).testBit 5 = false → byte < 0xC0 ∨ byte = 0xC2 ∨ byte = 0xC3 := by
  decide +kernel

theorem flag_eq_zero (h : q.flag = 0) : q.phase = .accept := by
  obtain ⟨phase, char⟩ := q
  cases phase <;> simp only [Carry.flag] at h
  case accept => rfl
  case x1 => split_ifs at h <;> cases h
  all_goals cases h

/-- **No flags**: ASCII characters only. -/
theorem ascii_of_flags (h : flagsOf w ||| q.flag = 0) :
    q.phase = .accept ∧ ∀ b ∈ w, b.toNat < 0x80 := by
  obtain ⟨hw, hq⟩ := or_eq_zero_iff.1 h
  refine ⟨flag_eq_zero hq, fun b hb => ascii_of_entry _ b.toNat_lt ?_⟩
  apply eq_of_testBit_eq
  intro i
  rw [zero_testBit]
  exact testBit_flagsOf hb (by rw [hw, zero_testBit])

/-- **The flags of Latin-1 characters.** -/
theorem latin1_of_flags (h : flagsOf w ||| q.flag = flagLatin1 ||| flagExtension) :
    Latin1 w ∧ (q.phase = .accept ∨ q.phase = .x1 ∧ q.char < 4) := by
  have hbt : ∀ i, (flagLatin1 ||| flagExtension).testBit i = false →
      (flagsOf w).testBit i = false ∧ q.flag.testBit i = false := by
    intro i hi
    rw [← h, testBit_or, Bool.or_eq_false_iff] at hi
    exact hi
  refine ⟨fun b hb => ?_, ?_⟩
  · exact latin1_of_entry _ b.toNat_lt (testBit_flagsOf hb (hbt 4 (by decide)).1)
      (testBit_flagsOf hb (hbt 5 (by decide)).1)
  have hq := (hbt 4 (by decide)).2
  obtain ⟨phase, char⟩ := q
  cases phase <;> simp only [Carry.flag] at hq
  case accept => exact .inl rfl
  case x1 =>
    split_ifs at hq with hc
    · exact .inr ⟨rfl, hc⟩
    · cases hq
  all_goals cases hq

/-! ## The incomplete character at the end -/

theorem isExtension_iff : ∀ byte < 0x100, byte &&& 0xC0 = 0x80 ↔ isExtension byte := by
  decide +kernel

/-- The loop over the extension bytes at the end. -/
theorem countExtensions_eq (n ct : Nat) (hn : n ≤ bs.length) (hst : st ≤ n) :
    ∃ m, st ≤ m ∧ m ≤ n ∧ (∀ b ∈ slice bs m n, isExtension b.toNat) ∧
      (m = st ∨ ∃ h : m - 1 < bs.length, st < m ∧ ¬isExtension bs[m - 1].toNat) ∧
      countExtensions bs st n ct = .ok (m, ct + (n - m)) := by
  induction n generalizing ct with
  | zero =>
    obtain rfl : st = 0 := by omega
    exact ⟨0, Nat.le_refl 0, Nat.le_refl 0, by simp, .inl rfl, rfl⟩
  | succ n ih =>
    obtain rfl | hlt := Nat.eq_or_lt_of_le hst
    · refine ⟨n + 1, le_rfl, le_rfl, by simp, .inl rfl, ?_⟩
      rw [countExtensions, if_neg (by omega), Nat.sub_self]
      rfl
    have hl : n < bs.length := by omega
    have hi := isExtension_iff _ bs[n].toNat_lt
    rw [countExtensions, if_pos (by omega), byteAt_eq hl, ok_bind]
    by_cases he : isExtension bs[n].toNat
    · obtain ⟨m, hsm, hmn, ha, hen, hc⟩ := ih (ct + 1) (by omega) (by omega)
      refine ⟨m, hsm, by omega, ?_, hen, ?_⟩
      · rw [slice_snoc hmn hl]
        intro b hb
        rcases mem_append.1 hb with hb | hb
        · exact ha b hb
        · rw [mem_singleton.1 hb]
          exact he
      · rw [if_pos (hi.2 he), hc]
        congr 2
        omega
    · refine ⟨n + 1, by omega, le_rfl, by simp, .inr ⟨hl, by omega, he⟩, ?_⟩
      rw [if_neg (fun h => he (hi.1 h)), Nat.sub_self]
      rfl

/-- **The computed size** is enough for the run, and the size of its output when it succeeds. -/
theorem dropIncomplete_spec (hq : q.InRange) (hst : stop ≤ bs.length) (hsr : st ≤ stop) :
    ∃ size, dropIncomplete bs st stop
        (totalSize (slice bs st stop) + q.reachable (stop - st)) = .ok size ∧
      (output advance q (slice bs st stop)).length ≤ size ∧
      ∀ q' out, run advance q (slice bs st stop) = .ok (q', out) → out.length = size := by
  obtain ⟨m, hsm, hms, he, hen, hc⟩ := countExtensions_eq stop 0 hst hsr
  have hl : (slice bs st stop).length = stop - st := slice_length hst
  unfold dropIncomplete
  rw [hc, ok_bind]
  dsimp only
  rcases hen with rfl | ⟨hln, hlt, hls⟩
  · obtain ⟨hle, hr⟩ := size_isExtension hq he
    rw [if_neg (Nat.lt_irrefl m), totalSize_isExtension he, Nat.zero_add]
    rw [hl] at hle hr
    exact ⟨_, rfl, hle, hr⟩
  · obtain ⟨u, hu⟩ : ∃ u, slice bs st stop = u ++ bs[m - 1] :: slice bs m stop := by
      refine ⟨slice bs st (m - 1), ?_⟩
      have hsn := slice_snoc (by omega : st ≤ m - 1) hln
      rw [Nat.sub_add_cancel (by omega)] at hsn
      rw [← slice_append hsm hms hst, hsn, append_assoc]
      rfl
    rw [if_pos hlt, byteAt_eq hln, ok_bind, Nat.zero_add]
    generalize bs[m - 1] = b at hu hls ⊢
    obtain ⟨hle, hr⟩ := size_lastFirst hq hls he
    rw [← hu, hl, slice_length hst] at hle hr
    by_cases hd : threshold (stop - m) ≤ b.toNat
    · have hv : dropped b.toNat (stop - m) = if b.toNat ≥ 0xF0 then 2 else 1 := by
        rw [dropped, if_pos hd]
      rw [hv] at hle hr
      rw [if_pos (show b.toNat ≥ (((-0x40 : Int) >>> (stop - m)) % 0x100).toNat from hd),
        if_neg (by omega)]
      refine ⟨_, rfl, by omega, fun q' out h => ?_⟩
      have ho := hr q' out h
      omega
    · have hv : dropped b.toNat (stop - m) = 0 := by rw [dropped, if_neg hd]
      rw [hv] at hle hr
      rw [if_neg (show ¬b.toNat ≥ (((-0x40 : Int) >>> (stop - m)) % 0x100).toNat from hd)]
      exact ⟨_, rfl, hle, hr⟩

end Convert.Utf8Decoder
