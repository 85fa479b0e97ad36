import DartSdk.Lib.Fallible
import DartSdk.Vm.CompressedStackMaps
import DartSdk.Vm.Proof.DataStream
import Mathlib.Data.List.Induction
import Mathlib.Data.List.Sort

/-!
# Normalized stack maps have the same entries

A map is decoded into pc offsets and entries, and an observation depends on these only. The new
global table has each entry at its offset, so a normalized map gives back the pc offsets and entries
that it was made from.

* `stackMapEntries_of_decode`: a map that can be decoded has valid entries at ascending pc offsets.
* `normalizeAndDedup_same_iff`: the new maps, decoded with the new table, are observed as the old
  ones, unless a map of the old table looks like a normalized one.
* `normalizeAndDedup_clash`: a map of the old table is taken for a normalized one.
-/

namespace Vm

open Fallible CompressedStackMaps CompressedStackMaps
open StackMapEntry (ofIterator encode)
open List hiding iterate

variable {w off : Nat} {bs bs' : List UInt8} {maps container : CompressedStackMaps}
  {it : Iterator} {table : Option CompressedStackMaps} {obs : List Observation}
  {l : List (Nat × StackMapEntry)}

/-! ## Entries -/

theorem length_readLEB128From {r s v : Nat} (h : readLEB128From w r s bs = .ok (v, bs')) :
    bs'.length < bs.length := by
  induction bs generalizing r s with
  | nil => cases h
  | cons b bs ih =>
    rw [readLEB128From] at h
    split_ifs at h
    · exact Nat.lt_succ_of_lt (ih h)
    · cases h
      exact Nat.lt_succ_self _

/-- The bits of an entry, from its bytes. -/
def StackMapEntry.isObject (e : StackMapEntry) (bitIndex : Nat) : Bool :=
  (e.payload.getD (bitIndex / 8) 0).toNat.testBit (bitIndex % 8)

/-- What is observed of an entry at a pc offset. -/
def StackMapEntry.observe (e : StackMapEntry) (pcOffset : Nat) : Observation where
  pcOffset := pcOffset
  spillSlotBitCount := e.spillSlotBitCount
  length := e.spillSlotBitCount + e.nonSpillSlotBitCount
  bits := (List.range (e.spillSlotBitCount + e.nonSpillSlotBitCount)).map e.isObject

/-- Counts that are not negative, and as many bytes as they need. -/
structure StackMapEntry.Valid (w : Nat) (e : StackMapEntry) : Prop where
  spill : e.spillSlotBitCount < 2 ^ (w - 1)
  nonSpill : e.nonSpillSlotBitCount < 2 ^ (w - 1)
  payload : e.payload.length = stackmapSize (e.spillSlotBitCount + e.nonSpillSlotBitCount)

/-- Counts that are not negative, and bits within the container. -/
structure EntryInfo.Within (w : Nat) (container : CompressedStackMaps) (e : EntryInfo) : Prop where
  spill : e.spillSlotBitCount < 2 ^ (w - 1)
  nonSpill : e.nonSpillSlotBitCount < 2 ^ (w - 1)
  bits : e.bitsOffset + stackmapSize e.length ≤ container.payloadSize

theorem within_of_readEntryInfo {e : EntryInfo} (h : readEntryInfo w container off = .ok e) :
    EntryInfo.Within w container e := by
  obtain ⟨⟨spill, bytes1⟩, h1, h⟩ := bind_eq_ok h
  obtain ⟨⟨nonSpill, bytes2⟩, h2, h⟩ := bind_eq_ok h
  have hl1 := length_readLEB128From h1
  have hl2 := length_readLEB128From h2
  rw [length_drop] at hl1
  dsimp only at h
  split_ifs at h with hif
  cases h
  refine ⟨hif.1, hif.2.1, ?_⟩
  simp only [EntryInfo.length, payloadSize] at *
  omega

theorem EntryInfo.Within.valid {e : EntryInfo} (h : EntryInfo.Within w container e) :
    (ofIterator container e).Valid w where
  spill := h.spill
  nonSpill := h.nonSpill
  payload := by
    have := h.bits
    simp only [ofIterator, length_take, length_drop, payloadSize,
      EntryInfo.length] at *
    omega

/-- An observation depends on the bytes of the entry only. -/
theorem observe_ofIterator (container : CompressedStackMaps) (pc : Nat) (e : EntryInfo) :
    observe container pc e = (ofIterator container e).observe pc := by
  simp only [observe, StackMapEntry.observe, ofIterator, EntryInfo.length,
    Observation.mk.injEq, true_and]
  refine map_congr_left fun i hi => ?_
  have hlt : i / 8 < stackmapSize (e.spillSlotBitCount + e.nonSpillSlotBitCount) := by
    rw [mem_range] at hi
    rw [stackmapSize]
    omega
  rw [isObject, StackMapEntry.isObject, getD_eq_getElem?_getD, getD_eq_getElem?_getD,
    getElem?_take_of_lt hlt, getElem?_drop]

/-- Numbers from `last` on that ascend and have 32 bits. -/
def Ascending : Nat → List Nat → Prop
  | _, [] => True
  | last, pc :: pcs => last ≤ pc ∧ pc < 2 ^ 32 ∧ Ascending pc pcs

/-- The iterator is at the end, or it goes on to a pc offset that is not lower. -/
theorem moveNext_cases {next : Option Iterator} (hpc : it.currentPcOffset < 2 ^ 32)
    (h : moveNext w maps container it = .ok next) :
    next = none ∧ maps.payloadSize ≤ it.nextOffset ∨ ∃ it', next = some it' ∧
      it.currentPcOffset ≤ it'.currentPcOffset ∧ it'.currentPcOffset < 2 ^ 32 ∧
      ∀ e, it'.current = some e → EntryInfo.Within w maps e ∧ maps.usesGlobalTable = false := by
  rw [moveNext] at h
  split_ifs at h with hen hu
  · cases h
    exact .inl ⟨rfl, hen⟩
  · obtain ⟨⟨pcDelta, bs⟩, -, h⟩ := bind_eq_ok h
    dsimp only at h
    split_ifs at h with hd
    obtain ⟨⟨tableOffset, bs⟩, -, h⟩ := bind_eq_ok h
    split_ifs at h
    cases h
    exact .inr ⟨_, rfl, Nat.le_add_right .., by dsimp only; omega, fun e he => by cases he⟩
  · obtain ⟨⟨pcDelta, bs⟩, -, h⟩ := bind_eq_ok h
    dsimp only at h
    split_ifs at h with hd
    obtain ⟨e, he, h⟩ := bind_eq_ok h
    cases h
    refine .inr ⟨_, rfl, Nat.le_add_right .., by dsimp only; omega, fun e' he' => ?_⟩
    cases he'
    exact ⟨within_of_readEntryInfo he, Bool.eq_false_iff.2 hu⟩

theorem iterate_ascends {fuel : Nat} {l : List (Nat × EntryInfo)}
    (hcn : maps.usesGlobalTable = false → container = maps)
    (hpc : it.currentPcOffset < 2 ^ 32) (h : iterate w maps container fuel it = .ok l) :
    Ascending it.currentPcOffset (l.map Prod.fst) ∧ ∀ e ∈ l, EntryInfo.Within w container e.2 := by
  induction fuel generalizing it l with
  | zero => cases h
  | succ fuel ih =>
    obtain ⟨next, hn, h⟩ := bind_eq_ok h
    rcases moveNext_cases hpc hn with ⟨rfl, -⟩ | ⟨it', rfl, hle, hlt, hi⟩
    · cases h
      exact ⟨trivial, fun e he => absurd he not_mem_nil⟩
    obtain ⟨e, he, h⟩ := bind_eq_ok h
    obtain ⟨l', hl', h⟩ := bind_eq_ok h
    cases h
    obtain ⟨ha, hwt⟩ := ih hlt hl'
    refine ⟨⟨hle, hlt, ha⟩, fun e' he' => ?_⟩
    rcases mem_cons.1 he' with rfl | he'
    · rw [ensureFullyLoadedEntry] at he
      cases hc : it'.current with
      | none =>
        rw [hc] at he
        split_ifs at he
        exact within_of_readEntryInfo he
      | some e' =>
        rw [hc] at he
        cases he
        obtain ⟨hwt, hu⟩ := hi _ hc
        rwa [hcn hu]
    · exact hwt e' he'

/-- The entries of a map, as they are needed to encode it again. -/
structure Entries (w : Nat) (l : List (Nat × StackMapEntry)) : Prop where
  ascending : Ascending 0 (l.map Prod.fst)
  valid : ∀ e ∈ l, e.2.Valid w

theorem container_eq (h : bitsContainer maps table = .ok container) (hu : maps.usesGlobalTable = false) :
    container = maps := by
  rw [bitsContainer.eq_def, if_neg (show ¬ maps.usesGlobalTable = true by rw [hu]; decide)] at h
  split_ifs at h
  cases h
  rfl

/-- A map that can be decoded has valid entries, and these are what is observed. -/
theorem stackMapEntries_of_decode (h : decode w maps table = .ok obs) :
    ∃ l, stackMapEntries w table maps = .ok l ∧ Entries w l ∧
      obs = l.map fun e => e.2.observe e.1 := by
  obtain ⟨container, hc, h⟩ := bind_eq_ok h
  obtain ⟨entries, he, h⟩ := bind_eq_ok h
  cases h
  refine ⟨entries.map fun e => (e.1, ofIterator container e.2), ?_, ?_, ?_⟩
  · rw [stackMapEntries, hc, ok_bind, he]
    rfl
  · obtain ⟨ha, hwt⟩ := iterate_ascends (container_eq hc) (show 0 < 2 ^ 32 by decide) he
    refine ⟨by rwa [map_map], fun e hm => ?_⟩
    obtain ⟨info, hi, rfl⟩ := mem_map.1 hm
    exact (hwt info hi).valid
  · rw [map_map]
    exact map_congr_left fun e _ => observe_ofIterator ..

/-- The other way round. -/
theorem decode_of_stackMapEntries (h : stackMapEntries w table maps = .ok l) :
    decode w maps table = .ok (l.map fun e => e.2.observe e.1) := by
  obtain ⟨container, hc, h⟩ := bind_eq_ok h
  obtain ⟨entries, he, h⟩ := bind_eq_ok h
  cases h
  rw [decode, hc, ok_bind, he, map_map]
  exact congrArg Except.ok (map_congr_left fun e _ => observe_ofIterator ..)

/-! ## Normalized maps -/

/-- The table has each entry at its offset. -/
def HasEntries (table : CompressedStackMaps) (offsets : List (StackMapEntry × Nat)) : Prop :=
  ∀ o ∈ offsets, ∃ rest, table.payload.drop o.2 = o.1.encode ++ rest

theorem StackMapEntry.length_encode_pos (e : StackMapEntry) : 0 < e.encode.length := by
  have := length_writeLEB128_pos e.spillSlotBitCount
  simp only [encode, length_append]
  omega

/-- What is left of a list after some more of it. -/
theorem drop_of_drop {α : Type} {l x y : List α} {k : Nat} (h : l.drop k = x ++ y) :
    l.drop (l.length - y.length) = y :=
  (suffix_iff_eq_drop.1 (((suffix_append x y).trans (h ▸ drop_suffix k l)))).symm

variable {table maps' : CompressedStackMaps} {e : StackMapEntry} {col : List Collected}
  {old new : Option CompressedStackMaps} {codes : List CompressedStackMaps}
  {sort : List Collected → List Collected} {offsets : List (StackMapEntry × Nat)}

theorem readEntryInfo_table {rest : List UInt8} (hw : 0 < w) (he : e.Valid w)
    (h : table.payload.drop off = e.encode ++ rest) :
    off < table.payloadSize ∧ ∃ info, readEntryInfo w table off = .ok info ∧
      ofIterator table info = e := by
  have hl := congrArg List.length h
  have hps := e.length_encode_pos
  simp only [length_drop, length_append] at hl
  have hp : 2 ^ (w - 1) ≤ 2 ^ w := Nat.pow_le_pow_right (by decide) (by omega)
  have hsp := he.spill
  have hn := he.nonSpill
  refine ⟨by rw [payloadSize]; omega, ⟨e.spillSlotBitCount, e.nonSpillSlotBitCount,
    table.payloadSize - (e.payload ++ rest).length⟩, ?_, ?_⟩
  · simp only [readEntryInfo, h, encode, append_assoc, ok_bind,
      readLEB128_write (Nat.lt_of_lt_of_le hsp hp) hw,
      readLEB128_write (Nat.lt_of_lt_of_le hn hp) hw]
    exact if_pos ⟨hsp, hn, by rw [length_append, he.payload]; omega⟩
  · have hd : table.payload.drop (table.payloadSize - (e.payload ++ rest).length) =
        e.payload ++ rest := by
      rw [encode, append_assoc] at h
      exact drop_of_drop h
    simp only [ofIterator, EntryInfo.length, hd, ← he.payload, take_left]

theorem moveNext_normalized {delta : Nat} {rest : List UInt8}
    (hw : 32 ≤ w) (hu : maps.usesGlobalTable = true)
    (h : maps.payload.drop it.nextOffset = writeLEB128 delta ++ writeLEB128 off ++ rest)
    (hpc : it.currentPcOffset + delta < 2 ^ 32) (ho : off < table.payloadSize)
    (hsz : table.payloadSize < 2 ^ w) :
    moveNext w maps table it = .ok (some {
      nextOffset := maps.payloadSize - rest.length
      currentPcOffset := it.currentPcOffset + delta
      currentGlobalTableOffset := off
      current := none }) := by
  have hl := congrArg List.length h
  have hp := length_writeLEB128_pos delta
  have hpw : 2 ^ 32 ≤ 2 ^ w := Nat.pow_le_pow_right (by decide) hw
  simp only [length_drop, length_append] at hl
  rw [moveNext, if_neg (by rw [payloadSize]; omega), h, append_assoc,
    readLEB128_write (by omega) (by omega)]
  change (if _ then _ else _) = _
  rw [if_neg (by omega), if_pos hu, readLEB128_write (by omega) (by omega)]
  exact if_pos ho

theorem mem_of_lookupOffset (h : lookupOffset offsets e = .ok off) : (e, off) ∈ offsets := by
  rw [lookupOffset] at h
  cases ho : offsets.find? fun o => o.1 = e with
  | none => rw [ho] at h; cases h
  | some o =>
    rw [ho] at h
    cases h
    have he : o.1 = e := by simpa using find?_some ho
    exact he ▸ mem_of_find?_eq_some ho

theorem iterate_normalized {fuel : Nat} (hw : 32 ≤ w) (hu : maps.usesGlobalTable = true)
    (ht : HasEntries table offsets) (hsz : table.payloadSize < 2 ^ w)
    (ha : Ascending it.currentPcOffset (l.map Prod.fst)) (hv : ∀ e ∈ l, e.2.Valid w)
    (h : encodeOffsets offsets it.currentPcOffset l = .ok (maps.payload.drop it.nextOffset))
    (hf : l.length < fuel) :
    ∃ infos, iterate w maps table fuel it = .ok infos ∧
      (infos.map fun e => (e.1, ofIterator table e.2)) = l := by
  induction l generalizing it fuel with
  | nil =>
    obtain _ | fuel := fuel
    · omega
    have hed : maps.payloadSize ≤ it.nextOffset := drop_eq_nil_iff.1 (Except.ok.inj h).symm
    refine ⟨[], ?_, rfl⟩
    rw [iterate, moveNext, if_pos hed]
    rfl
  | cons e l ih =>
    obtain ⟨pc, e⟩ := e
    obtain _ | fuel := fuel
    · omega
    rw [length_cons] at hf
    obtain ⟨hle, hlt, ha⟩ := ha
    obtain ⟨off, ho, h⟩ := bind_eq_ok h
    obtain ⟨rest, hr, h⟩ := bind_eq_ok h
    have h := (Except.ok.inj h).symm
    have hd : it.currentPcOffset + (pc - it.currentPcOffset) = pc := by omega
    obtain ⟨tail, htl⟩ := ht _ (mem_of_lookupOffset ho)
    obtain ⟨hlt', info, hi, hen⟩ :=
      readEntryInfo_table (by omega) (hv (pc, e) mem_cons_self) htl
    have hm := moveNext_normalized hw hu h (by omega) hlt' hsz
    rw [hd] at hm
    obtain ⟨infos, hit, hin⟩ := @ih
      ⟨maps.payloadSize - rest.length, pc, off, none⟩ fuel ha
      (fun e he => hv e (.tail _ he))
      (hr.trans (congrArg Except.ok (drop_of_drop h).symm)) (by omega)
    refine ⟨(pc, info) :: infos, ?_, by rw [map_cons, hin, hen]⟩
    rw [iterate, hm, ok_bind]
    simp only [ensureFullyLoadedEntry, if_pos hlt', hi, ok_bind, hit]
    rfl

theorem length_encodeOffsets {last : Nat} (h : encodeOffsets offsets last l = .ok bs) :
    l.length ≤ bs.length := by
  induction l generalizing last bs with
  | nil => exact Nat.zero_le _
  | cons e l ih =>
    obtain ⟨off, -, h⟩ := bind_eq_ok h
    obtain ⟨rest, hr, h⟩ := bind_eq_ok h
    cases h
    have := ih hr
    have := length_writeLEB128_pos (e.1 - last)
    simp only [length_cons, length_append]
    omega

/-- **A normalized map has the entries that it was made from.** -/
theorem stackMapEntries_normalized (hw : 32 ≤ w)
    (ht : HasEntries table offsets) (hg : table.isGlobalTable = true)
    (hsz : table.payloadSize < 2 ^ w) (hl : Entries w l)
    (h : encodeOffsets offsets 0 l = .ok bs) :
    stackMapEntries w (some table) ⟨false, true, bs⟩ = .ok l := by
  obtain ⟨infos, hi, hin⟩ := @iterate_normalized w ⟨false, true, bs⟩ {} l table offsets
    (bs.length + 1) hw rfl ht hsz hl.ascending hl.valid h
    (Nat.lt_succ_of_le (length_encodeOffsets h))
  rw [stackMapEntries, bitsContainer]
  rw [if_neg Bool.false_ne_true, if_pos rfl, if_pos hg]
  rw [ok_bind, payloadSize, hi]
  exact congrArg Except.ok hin

/-! ## The new global table -/

/-- The entries of a map. -/
def entriesOf (w : Nat) (old : Option CompressedStackMaps) (maps : CompressedStackMaps) :
    List (Nat × StackMapEntry) :=
  (stackMapEntries w old maps).toOption.getD []

theorem entriesOf_eq (h : stackMapEntries w old maps = .ok l) : entriesOf w old maps = l := by
  rw [entriesOf, h]
  rfl

/-- The entries of all maps, one after the other. -/
def allEntries (w : Nat) (old : Option CompressedStackMaps) (codes : List CompressedStackMaps) :
    List StackMapEntry :=
  codes.flatMap fun maps => (entriesOf w old maps).map Prod.snd

/-- Each entry once, with the number of its uses. -/
def usages (es : List StackMapEntry) : List Collected := es.eraseDups.map fun e => (e, es.count e)

theorem mem_usages {es : List StackMapEntry} : e ∈ (usages es).map Prod.fst ↔ e ∈ es := by
  simp [usages]

theorem collectEntry_usages (es : List StackMapEntry) (e : StackMapEntry) :
    collectEntry (usages es) e = usages (es ++ [e]) := by
  rw [collectEntry]
  simp only [mem_usages]
  split_ifs with h
  · have hr : [e].removeAll es = [] := by simp [removeAll, h]
    simp only [usages, map_map, eraseDups_append, hr, eraseDups_nil, List.append_nil]
    refine map_congr_left fun x _ => ?_
    by_cases hx : x = e
    · simp [hx]
    · simp [hx, Ne.symm hx]
  · have hr : [e].removeAll es = [e] := by simp [removeAll, h]
    simp only [usages, eraseDups_append, hr, map_append]
    congr 1
    · refine map_congr_left fun x hx => ?_
      have hne : e ≠ x := by
        rintro rfl
        exact h (mem_eraseDups.1 hx)
      simp [hne]
    · simp [eraseDups_cons, count_eq_zero_of_not_mem h]

theorem foldl_collectEntry (es : List StackMapEntry) : es.foldl collectEntry [] = usages es := by
  induction es using List.reverseRecOn with
  | nil => rfl
  | append_singleton es e ih => rw [foldl_append, ih, foldl_cons, foldl_nil, collectEntry_usages]

theorem collectCodes_eq (hold : ∀ maps ∈ codes, ∃ l, stackMapEntries w old maps = .ok l) :
    codes.foldlM (collectCode w old) col =
      .ok ((allEntries w old codes).foldl collectEntry col) := by
  induction codes generalizing col with
  | nil => rfl
  | cons m codes ih =>
    obtain ⟨l, hl⟩ := hold m mem_cons_self
    rw [foldlM_cons, collectCode, hl]
    refine (ih fun m hm => hold m (.tail _ hm)).trans ?_
    rw [allEntries, allEntries, flatMap_cons, foldl_append, entriesOf_eq hl]

/-- The place of an entry in a table: after the bytes of those before it. -/
def place : List Collected → StackMapEntry → Nat
  | [], _ => 0
  | c :: table, e => if c.1 = e then 0 else c.1.encode.length + place table e

theorem place_append_of_mem {col' : List Collected} (h : e ∈ col.map Prod.fst) :
    place (col ++ col') e = place col e := by
  induction col with
  | nil => cases h
  | cons c col ih =>
    rw [cons_append, place, place]
    split_ifs with hc
    · rfl
    · rw [ih ((mem_cons.1 h).resolve_left fun h => hc h.symm)]

theorem place_append_of_notMem {col' : List Collected} (h : e ∉ col.map Prod.fst) :
    place (col ++ col') e = (col.map fun c => c.1.encode.length).sum + place col' e := by
  induction col with
  | nil => rw [nil_append, map_nil, sum_nil, Nat.zero_add]
  | cons c col ih =>
    rw [map_cons, mem_cons, not_or] at h
    rw [cons_append, place, if_neg (Ne.symm h.1), ih h.2, map_cons, sum_cons, Nat.add_assoc]

/-- The offsets are those of the entries in the stream. -/
theorem encodeEntries_spec (col : List Collected) :
    (∀ e ∈ col.map Prod.fst, lookupOffset (encodeEntries col).1 e = .ok (place col e)) ∧
      (encodeEntries col).1.map Prod.fst = col.map Prod.fst ∧
      (encodeEntries col).2.length = (col.map fun c => c.1.encode.length).sum ∧
      ∀ o ∈ (encodeEntries col).1, ∃ rest,
        (encodeEntries col).2.drop o.2 = o.1.encode ++ rest := by
  induction col using List.reverseRecOn with
  | nil => exact ⟨fun e he => absurd he not_mem_nil, rfl, rfl, fun o ho => absurd ho not_mem_nil⟩
  | append_singleton col c ih =>
    obtain ⟨hl, hf, hn, hd⟩ := ih
    have happ : encodeEntries (col ++ [c]) = ((encodeEntries col).1 ++
        [(c.1, (encodeEntries col).2.length)], (encodeEntries col).2 ++ c.1.encode) := by
      rw [encodeEntries, foldl_append]
      rfl
    rw [happ]
    refine ⟨fun e he => ?_, by rw [map_append, hf, map_append]; rfl, ?_, fun o ho => ?_⟩
    · rw [lookupOffset, find?_append]
      by_cases hmem : e ∈ col.map Prod.fst
      · rw [place_append_of_mem hmem]
        have hle := hl e hmem
        rw [lookupOffset] at hle
        cases hfn : (encodeEntries col).1.find? fun o => o.1 = e with
        | none => rw [hfn] at hle; cases hle
        | some o => rwa [hfn] at hle
      · have hec : c.1 = e := by
          rw [map_append, mem_append] at he
          exact (mem_singleton.1 (he.resolve_left hmem)).symm
        have hfn : (encodeEntries col).1.find? (fun o => o.1 = e) = none := by
          rw [find?_eq_none]
          intro o ho
          rw [decide_eq_true_eq]
          rintro rfl
          exact hmem (hf ▸ mem_map_of_mem ho)
        simp [hfn, hec, place_append_of_notMem hmem, place, hn]
    · simp [hn]
    rw [mem_append, mem_singleton] at ho
    rcases ho with ho | rfl
    · obtain ⟨rest, hr⟩ := hd o ho
      have hle : o.2 ≤ (encodeEntries col).2.length := by
        by_contra hlt
        rw [drop_eq_nil_of_le (by omega)] at hr
        have := congrArg List.length hr
        have := o.1.length_encode_pos
        simp only [length_append, length_nil] at *
        omega
      exact ⟨rest ++ c.1.encode, by
        rw [drop_append_of_le_length hle, hr, append_assoc]⟩
    · exact ⟨[], by rw [drop_left, List.append_nil]⟩

/-- The bytes that refer to entries of a table. -/
def references (table : List Collected) : Nat → List (Nat × StackMapEntry) → List UInt8
  | _, [] => []
  | last, (pc, e) :: l =>
    writeLEB128 (pc - last) ++ writeLEB128 (place table e) ++ references table pc l

theorem encodeOffsets_eq {order : List Collected} {last : Nat}
    (h : ∀ e ∈ l, lookupOffset offsets e.2 = .ok (place order e.2)) :
    encodeOffsets offsets last l = .ok (references order last l) := by
  induction l generalizing last with
  | nil => rfl
  | cons e l ih =>
    rw [encodeOffsets, h e mem_cons_self, ok_bind, ih fun e he => h e (.tail _ he)]
    rfl

/-- The map with these entries that refers to a table. -/
def normalForm (table : List Collected) (l : List (Nat × StackMapEntry)) : CompressedStackMaps :=
  if l = [] then .empty else ⟨false, true, references table 0 l⟩

/-- The table that the maps are normalized for: it has the entries of all maps at their places. -/
structure NewTable (w : Nat) (old : Option CompressedStackMaps) (codes : List CompressedStackMaps)
    (order : List Collected) (new : Option CompressedStackMaps)
    (offsets : List (StackMapEntry × Nat)) : Prop where
  lookup : ∀ maps ∈ codes, ∀ l, stackMapEntries w old maps = .ok l → ∀ e ∈ l,
    lookupOffset offsets e.2 = .ok (place order e.2)
  entries : offsets = [] ∨ ∃ table, new = some table ∧ table.isGlobalTable = true ∧
    table.payloadSize < 2 ^ w ∧ HasEntries table offsets

theorem mem_allEntries (hm : maps ∈ codes) (hl : stackMapEntries w old maps = .ok l)
    {e : Nat × StackMapEntry} (he : e ∈ l) : e.2 ∈ allEntries w old codes :=
  mem_flatMap.2 ⟨maps, hm, by rw [entriesOf_eq hl]; exact mem_map_of_mem he⟩

theorem collectTable_ends
    (hw : 32 ≤ w)
    (hsr : ∀ l, (sort l).Perm l)
    (hold : ∀ maps ∈ codes, ∃ l, stackMapEntries w old maps = .ok l) :
    Ends (collectTable w sort old codes)
      (fun r => NewTable w old codes (sort (usages (allEntries w old codes))) r.1 r.2)
      (· = .fatal) := by
  rw [collectTable, collectCodes_eq hold, foldl_collectEntry, ok_bind, createGlobalTable]
  split_ifs with hem
  · refine ⟨fun maps hm l hl e he => ?_, .inl rfl⟩
    have := mem_usages.2 (mem_allEntries hm hl he)
    rw [eq_nil_of_length_eq_zero hem] at this
    exact absurd this not_mem_nil
  obtain ⟨hlk, -, -, hd⟩ := encodeEntries_spec (sort (usages (allEntries w old codes)))
  simp only [CompressedStackMaps.new]
  split_ifs with hsz
  · refine ⟨fun maps hm l hl e he => hlk e.2 ?_, .inr ⟨_, rfl, rfl, ?_, hd⟩⟩
    · exact ((hsr _).map Prod.fst).mem_iff.2 (mem_usages.2 (mem_allEntries hm hl he))
    · exact Nat.lt_of_lt_of_le hsz (Nat.pow_le_pow_right (by decide) (by rw [kSizeBits]; omega))
  · rfl

/-! ## Normalizing and deduplicating -/

/-- The new map is observed as the old one. -/
def SameEntries (w : Nat) (old new : Option CompressedStackMaps)
    (maps maps' : CompressedStackMaps) : Prop :=
  ∃ obs, decode w maps old = .ok obs ∧ decode w maps' new = .ok obs

theorem decode_empty (table : Option CompressedStackMaps) : decode w .empty table = .ok [] := rfl

theorem decode_of_payloadSize (h : decode w maps old = .ok obs)
    (hsz : maps.payloadSize = 0) : obs = [] := by
  obtain ⟨container, -, h⟩ := bind_eq_ok h
  obtain ⟨entries, he, h⟩ := bind_eq_ok h
  rw [iterate, moveNext, if_pos (by rw [hsz])] at he
  cases he
  cases h
  rfl

theorem ne_nil_of_stackMapEntries (h : stackMapEntries w old maps = .ok l)
    (hsz : maps.payloadSize ≠ 0) : l ≠ [] := by
  obtain ⟨container, -, h⟩ := bind_eq_ok h
  obtain ⟨entries, he, h⟩ := bind_eq_ok h
  obtain ⟨next, hn, he⟩ := bind_eq_ok he
  rcases moveNext_cases (by decide) hn with ⟨rfl, hen⟩ | ⟨it, rfl, -⟩
  · exact absurd hen (by dsimp only; omega)
  obtain ⟨e, -, he⟩ := bind_eq_ok he
  obtain ⟨es, -, he⟩ := bind_eq_ok he
  cases he
  cases h
  exact cons_ne_nil _ _

variable {order : List Collected}

section
variable (hw : 32 ≤ w) (hnew : NewTable w old codes order new offsets)
  (hold : ∀ maps ∈ codes, ∃ obs, decode w maps old = .ok obs)
include hw hnew hold

/-- **The normalized form of a map** has the same entries. -/
theorem sameEntries_normalForm (hm : maps ∈ codes) :
    SameEntries w old new maps (normalForm order (entriesOf w old maps)) := by
  obtain ⟨obs, ho⟩ := hold maps hm
  obtain ⟨l, hl, hen, rfl⟩ := stackMapEntries_of_decode ho
  refine ⟨_, ho, ?_⟩
  rw [entriesOf_eq hl, normalForm]
  split_ifs with hne
  · rw [hne]
    exact decode_empty new
  rcases hnew.entries with rfl | ⟨table, rfl, hg, ht, htb⟩
  · obtain ⟨e, he⟩ := exists_mem_of_ne_nil l hne
    exact absurd (hnew.lookup maps hm l hl e he) (by simp [lookupOffset])
  · exact decode_of_stackMapEntries (stackMapEntries_normalized hw htb hg ht hen
      (encodeOffsets_eq (hnew.lookup maps hm l hl)))

omit hw in
theorem normalizeEntries_ends (hm : maps ∈ codes) :
    Ends (normalizeEntries w old offsets maps)
      (· = normalForm order (entriesOf w old maps)) (· = .fatal) := by
  obtain ⟨obs, ho⟩ := hold maps hm
  obtain ⟨l, hl, hen, rfl⟩ := stackMapEntries_of_decode ho
  rw [normalizeEntries, entriesOf_eq hl]
  split_ifs with hsz
  · rw [map_eq_nil_iff.1 (decode_of_payloadSize ho hsz)]
    rfl
  rw [hl, ok_bind, encodeOffsets_eq (hnew.lookup maps hm l hl), ok_bind, CompressedStackMaps.new]
  split_ifs
  · exact (if_neg (ne_nil_of_stackMapEntries hl hsz)).symm
  · rfl

end

/-! ## Maps that look normalized -/

/-- The bits after the last one are clear. -/
def StackMapEntry.Padded (e : StackMapEntry) : Prop :=
  ∀ i ≥ e.spillSlotBitCount + e.nonSpillSlotBitCount, e.isObject i = false

theorem StackMapEntry.Valid.eq_of_observe {e' : StackMapEntry} {pc pc' : Nat} (he : e.Valid w)
    (he' : e'.Valid w) (hp : e.Padded) (hp' : e'.Padded) (h : e.observe pc = e'.observe pc') :
    pc = pc' ∧ e = e' := by
  simp only [observe, Observation.mk.injEq] at h
  obtain ⟨hpc, hs, hn, hb⟩ := h
  rw [← hn, map_inj_left] at hb
  -- beyond the length the bits are clear in both
  have hbit : ∀ i, e.isObject i = e'.isObject i := by
    intro i
    by_cases hi : i < e.spillSlotBitCount + e.nonSpillSlotBitCount
    · exact hb i (mem_range.2 hi)
    · rw [hp i (by omega), hp' i (by omega)]
  have hlen : e.payload.length = e'.payload.length := by rw [he.payload, he'.payload, hn]
  have hpay : e.payload = e'.payload := by
    refine ext_getElem hlen fun k hk hk' => UInt8.toNat_inj.1 (Nat.eq_of_testBit_eq fun i => ?_)
    by_cases hi : i < 8
    · have hk8 : (8 * k + i) / 8 = k := by omega
      have hi8 : (8 * k + i) % 8 = i := by omega
      simpa [isObject, hk8, hi8, hk, hk'] using hbit (8 * k + i)
    · have hpow : 2 ^ 8 ≤ 2 ^ i := Nat.pow_le_pow_right (by decide) (by omega)
      rw [Nat.testBit_lt_two_pow (e.payload[k].toNat_lt.trans_le hpow),
        Nat.testBit_lt_two_pow (e'.payload[k].toNat_lt.trans_le hpow)]
  refine ⟨hpc, ?_⟩
  obtain ⟨spill, nonSpill, payload⟩ := e
  obtain ⟨spill', nonSpill', payload'⟩ := e'
  dsimp only at *
  simp only [StackMapEntry.mk.injEq]
  exact ⟨hs, by omega, hpay⟩

/-- Entries can be told from what is observed. -/
theorem Entries.eq_of_observe {l' : List (Nat × StackMapEntry)} (hl : Entries w l)
    (hl' : Entries w l') (hp : ∀ e ∈ l, e.2.Padded) (hp' : ∀ e ∈ l', e.2.Padded)
    (h : (l.map fun e => e.2.observe e.1) = l'.map fun e => e.2.observe e.1) : l = l' := by
  refine ext_getElem (by simpa using congrArg List.length h) fun k hk hk' => ?_
  have hm := getElem_mem hk
  have hm' := getElem_mem hk'
  have ho : l[k].2.observe l[k].1 = l'[k].2.observe l'[k].1 := by
    simpa [hk, hk'] using congrArg (fun x => x[k]?) h
  obtain ⟨hpc, he⟩ :=
    (hl.valid _ hm).eq_of_observe (hl'.valid _ hm') (hp _ hm) (hp' _ hm') ho
  exact Prod.ext hpc he

theorem entriesOf_eq_of_decode (h : decode w maps old = .ok obs) (h' : decode w maps' old = .ok obs)
    (hp : ∀ e ∈ entriesOf w old maps, e.2.Padded) (hp' : ∀ e ∈ entriesOf w old maps', e.2.Padded) :
    entriesOf w old maps = entriesOf w old maps' := by
  obtain ⟨l, hl, hen, rfl⟩ := stackMapEntries_of_decode h
  obtain ⟨l', hl', hen', ho⟩ := stackMapEntries_of_decode h'
  rw [entriesOf_eq hl] at hp ⊢
  rw [entriesOf_eq hl'] at hp' ⊢
  exact hen.eq_of_observe hen' hp hp' ho

/-- A later map is not the normalized form of an earlier one, unless the two are observed as the
same. -/
def Differs (w : Nat) (old : Option CompressedStackMaps) (order : List Collected)
    (earlier later : CompressedStackMaps) : Prop :=
  later = normalForm order (entriesOf w old earlier) → decode w earlier old = decode w later old

/-- The condition for the maps of a program, which are visited in this order. -/
def NoClash (w : Nat) (sort : List Collected → List Collected) (old : Option CompressedStackMaps)
    (codes : List CompressedStackMaps) : Prop :=
  codes.Pairwise (Differs w old (sort (usages (allEntries w old codes))))

/-- The condition for what is left to visit. -/
def NoClashAfter (w : Nat) (old : Option CompressedStackMaps) (order : List Collected)
    (visited rest : List CompressedStackMaps) : Prop :=
  (∀ maps ∈ visited, ∀ maps' ∈ rest, Differs w old order maps maps') ∧
    rest.Pairwise (Differs w old order)

/-- The canonical maps are normalized forms of maps that were visited. -/
def Canonical (w : Nat) (old : Option CompressedStackMaps) (order : List Collected)
    (visited canonical : List CompressedStackMaps) : Prop :=
  ∀ c ∈ canonical, ∃ maps ∈ visited, c = normalForm order (entriesOf w old maps)

/-- Every map that was visited has its normalized form there. -/
def Complete (w : Nat) (old : Option CompressedStackMaps) (order : List Collected)
    (visited canonical : List CompressedStackMaps) : Prop :=
  ∀ maps ∈ visited, normalForm order (entriesOf w old maps) ∈ canonical

section

variable {s : List CompressedStackMaps × List CompressedStackMaps}
  {visited rest : List CompressedStackMaps}

theorem noClashAfter_cons : NoClashAfter w old order visited (maps :: rest) ↔
    (∀ maps' ∈ visited, Differs w old order maps' maps) ∧
      NoClashAfter w old order (visited ++ [maps]) rest := by
  simp only [NoClashAfter, mem_cons, mem_append, pairwise_cons]
  grind

variable (hw : 32 ≤ w) (hnew : NewTable w old codes order new offsets)
  (hold : ∀ maps ∈ codes, ∃ obs, decode w maps old = .ok obs)
include hw hnew hold

/-- A map that is found among the canonical ones keeps its entries exactly if it does not clash. -/
theorem sameEntries_self_iff (hv : ∀ maps ∈ visited, maps ∈ codes)
    (hc : Canonical w old order visited s.1) (hf : maps ∈ s.1) :
    SameEntries w old new maps maps ↔ ∀ maps' ∈ visited, Differs w old order maps' maps := by
  constructor
  · rintro ⟨obs, ho, hn⟩ maps' hm' heq
    obtain ⟨obs', ho', hn'⟩ := sameEntries_normalForm hw hnew hold (hv maps' hm')
    rw [← heq, hn] at hn'
    rw [ho, ho', hn']
  · intro h
    obtain ⟨maps', hm', heq⟩ := hc maps hf
    obtain ⟨obs, ho, hn⟩ := sameEntries_normalForm hw hnew hold (hv maps' hm')
    exact ⟨obs, (h maps' hm' heq).symm.trans ho, heq ▸ hn⟩

/-- **The step lemma of the second phase.** -/
theorem visitCode_ends (hv : ∀ maps ∈ visited, maps ∈ codes) (hm : maps ∈ codes)
    (hc : Canonical w old order visited s.1) :
    Ends (visitCode w old offsets s maps) (fun s' => ∃ maps', s'.2 = s.2 ++ [maps'] ∧
      Canonical w old order (visited ++ [maps]) s'.1 ∧
      ((∀ m ∈ visited, Differs w old order m maps) → SameEntries w old new maps maps') ∧
      ((∀ m ∈ codes, ∀ e ∈ entriesOf w old m, e.2.Padded) → Complete w old order visited s.1 →
        SameEntries w old new maps maps' → (∀ m ∈ visited, Differs w old order m maps) ∧
          Complete w old order (visited ++ [maps]) s'.1)) (· = .fatal) := by
  have hc' : Canonical w old order (visited ++ [maps]) s.1 := by
    intro c hcm
    obtain ⟨maps', hm', heq⟩ := hc c hcm
    exact ⟨maps', mem_append_left _ hm', heq⟩
  have hcomplete : ∀ {canonical : List CompressedStackMaps}, (∀ c ∈ s.1, c ∈ canonical) →
      normalForm order (entriesOf w old maps) ∈ canonical → Complete w old order visited s.1 →
      Complete w old order (visited ++ [maps]) canonical := by
    intro canonical hsub hmem h m hm
    rcases mem_append.1 hm with hm | hm
    · exact hsub _ (h m hm)
    · rwa [mem_singleton.1 hm]
  rw [visitCode]
  by_cases hf : maps ∈ s.1
  · rw [if_pos hf]
    have hiff := sameEntries_self_iff hw hnew hold hv hc hf
    refine ⟨maps, rfl, hc', hiff.2, fun hp hcm hsame => ⟨hiff.1 hsame, ?_⟩⟩
    refine hcomplete (fun _ h => h) ?_ hcm
    -- the map is the normalized form of one with the same entries, so it is its own
    obtain ⟨maps', hm', heq⟩ := hc maps hf
    obtain ⟨obs, ho⟩ := hold maps hm
    have hd := (hiff.1 hsame maps' hm' heq).trans ho
    rw [entriesOf_eq_of_decode ho hd (hp maps hm) (hp maps' (hv maps' hm')), ← heq]
    exact hf
  rw [if_neg hf]
  have hsame := sameEntries_normalForm hw hnew hold hm
  have hdiff : Complete w old order visited s.1 → ∀ m ∈ visited, Differs w old order m maps :=
    fun hcm m hm heq => absurd (heq ▸ hcm m hm) hf
  refine (normalizeEntries_ends hnew hold hm).bind fun maps' hn => ?_
  subst hn
  split_ifs with hf'
  · exact ⟨_, rfl, hc', fun _ => hsame,
      fun _ hcm _ => ⟨hdiff hcm, hcomplete (fun _ h => h) hf' hcm⟩⟩
  refine ⟨_, rfl, fun c hcm => ?_, fun _ => hsame, fun _ hcm _ => ⟨hdiff hcm, ?_⟩⟩
  · rcases mem_append.1 hcm with hcm | hcm
    · exact hc' c hcm
    · exact ⟨maps, mem_append_right _ mem_cons_self, mem_singleton.1 hcm⟩
  · exact hcomplete (fun _ h => mem_append_left _ h) (mem_append_right _ mem_cons_self) hcm

/-- **The run lemma of the second phase.** -/
theorem visitCodes_ends (hv : ∀ maps ∈ visited, maps ∈ codes) (hr : ∀ maps ∈ rest, maps ∈ codes)
    (hc : Canonical w old order visited s.1) :
    Ends (rest.foldlM (visitCode w old offsets) s) (fun s' => ∃ out, s'.2 = s.2 ++ out ∧
      (NoClashAfter w old order visited rest → Forall₂ (SameEntries w old new) rest out) ∧
      ((∀ m ∈ codes, ∀ e ∈ entriesOf w old m, e.2.Padded) → Complete w old order visited s.1 →
        Forall₂ (SameEntries w old new) rest out → NoClashAfter w old order visited rest))
      (· = .fatal) := by
  induction rest generalizing s visited with
  | nil =>
    exact ⟨[], (List.append_nil _).symm, fun _ => .nil,
      fun _ _ _ => ⟨fun _ _ _ h => absurd h not_mem_nil, .nil⟩⟩
  | cons maps rest ih =>
    have hm := hr maps mem_cons_self
    rw [foldlM_cons]
    refine (visitCode_ends hw hnew hold hv hm hc).bind fun s₁ h₁ => ?_
    obtain ⟨maps', hs₁, hc₁, hsame, hdiff⟩ := h₁
    have hv₁ : ∀ m ∈ visited ++ [maps], m ∈ codes := by
      intro m hm'
      rcases mem_append.1 hm' with hm' | hm'
      · exact hv m hm'
      · rwa [mem_singleton.1 hm']
    refine (ih hv₁ (fun m hm => hr m (.tail _ hm)) hc₁).imp fun s' h' => ?_
    obtain ⟨out, hs', hfwd, hbwd⟩ := h'
    refine ⟨maps' :: out, by rw [hs', hs₁, append_assoc]; rfl, fun h => ?_, fun hp hcm h => ?_⟩
    · obtain ⟨hd, hn⟩ := noClashAfter_cons.1 h
      exact .cons (hsame hd) (hfwd hn)
    · rw [forall₂_cons] at h
      obtain ⟨hd, hcm₁⟩ := hdiff hp hcm h.1
      exact noClashAfter_cons.2 ⟨hd, hbwd hp hcm₁ h.2⟩

end

/-- **Normalization keeps what is observed** unless a map is the normalized form of that of an
earlier code with other entries: then the new map of each code has, in the new table, the entries
that its old map has in the old table. If there are no bits after the last one of an entry, these
are all such programs. -/
theorem normalizeAndDedup_same_iff (hw : 32 ≤ w) (hsort : ∀ l, (sort l).Perm l)
    (hold : ∀ maps ∈ codes, ∃ obs, decode w maps old = .ok obs) :
    Ends (normalizeAndDedup w sort old codes)
      (fun r => (NoClash w sort old codes → Forall₂ (SameEntries w old r.2) codes r.1) ∧
        ((∀ maps ∈ codes, ∀ e ∈ entriesOf w old maps, e.2.Padded) →
          Forall₂ (SameEntries w old r.2) codes r.1 → NoClash w sort old codes)) (· = .fatal) := by
  have hen : ∀ maps ∈ codes, ∃ l, stackMapEntries w old maps = .ok l := by
    intro maps hm
    obtain ⟨obs, ho⟩ := hold maps hm
    obtain ⟨l, hl, -⟩ := stackMapEntries_of_decode ho
    exact ⟨l, hl⟩
  rw [normalizeAndDedup]
  refine (collectTable_ends hw hsort hen).bind fun r hnew => ?_
  have hnil : ∀ maps ∈ ([] : List CompressedStackMaps), maps ∈ codes := by simp
  refine (visitCodes_ends hw hnew hold hnil (fun _ hm => hm)
    fun _ h => absurd h not_mem_nil).bind fun s h => ?_
  obtain ⟨out, hout, hfwd, hbwd⟩ := h
  rw [nil_append] at hout
  rw [← hout] at hfwd hbwd
  refine ⟨fun h => hfwd ⟨fun _ h => absurd h not_mem_nil, h⟩, fun hp h => ?_⟩
  exact (hbwd hp (fun _ h => absurd h not_mem_nil) h).2

/-! ## Examples -/

/-- An insertion sort by usage. -/
def usageSort (l : List Collected) : List Collected :=
  l.insertionSort fun e₁ e₂ => compareUsage e₁ e₂ ≤ 0

theorem usageSort_perm (l : List Collected) : (usageSort l).Perm l := perm_insertionSort _ l

/-- A table with two entries of one bit, which is set in the first only. -/
def oldTable : CompressedStackMaps := ⟨true, false, [0, 1, 1, 0, 1, 0]⟩

/-- A map with its own entry, and one that refers to the second entry of the table. -/
def mixed : List CompressedStackMaps := [⟨false, false, [4, 0, 1, 1]⟩, ⟨false, true, [9, 3]⟩]

theorem writeLEB128_small {v : Nat} (h : v < 128) : writeLEB128 v = [UInt8.ofNat v] := by
  rw [writeLEB128, if_pos (by rw [kDataBitsPerByte]; omega), and_mask, Nat.mod_eq_of_lt h]

theorem noClash_mixed : NoClash 64 usageSort (some oldTable) mixed := by
  rw [NoClash, mixed, pairwise_pair]
  intro h
  -- the normalized form of the first map begins with another pc offset
  have hen : entriesOf 64 (some oldTable) ⟨false, false, [4, 0, 1, 1]⟩ =
      [(4, ⟨0, 1, [1]⟩)] := rfl
  rw [hen, normalForm, if_neg (cons_ne_nil _ _), references,
    writeLEB128_small (show 4 - 0 < 128 by decide)] at h
  exact absurd (cons.inj (congrArg payload h)).1 (by decide)

theorem normalizeAndDedup_same_mixed :
    (∀ l, (usageSort l).Perm l) ∧
      (∀ maps ∈ mixed, ∃ obs, decode 64 maps (some oldTable) = .ok obs) ∧
      NoClash 64 usageSort (some oldTable) mixed ∧
      Ends (normalizeAndDedup 64 usageSort (some oldTable) mixed)
        (fun r => Forall₂ (SameEntries 64 (some oldTable) r.2) mixed r.1) (· = .fatal) := by
  have hold : ∀ maps ∈ mixed, ∃ obs, decode 64 maps (some oldTable) = .ok obs := by
    intro maps hm
    rw [mixed, mem_pair] at hm
    rcases hm with rfl | rfl
    · exact ⟨_, rfl⟩
    · exact ⟨_, rfl⟩
  refine ⟨usageSort_perm, hold, noClash_mixed, ?_⟩
  exact (normalizeAndDedup_same_iff (by decide) usageSort_perm hold).imp fun r h =>
    h.1 noClash_mixed

/-- Three maps of the old table. The first two use its second entry, which gets the first offset of
the new table. The third is the bytes of the first one, normalized. -/
def clashing : List CompressedStackMaps :=
  [⟨false, true, [4, 3]⟩, ⟨false, true, [9, 3]⟩, ⟨false, true, [4, 0]⟩]

theorem encode_oneBit (x : UInt8) : encode ⟨0, 1, [x]⟩ = [0, 1, x] := by
  rw [encode, writeLEB128_small (show 0 < 128 by decide),
    writeLEB128_small (show 1 < 128 by decide)]
  rfl

/-- The offsets in the new table. -/
def newOffsets : List (StackMapEntry × Nat) := [(⟨0, 1, [0]⟩, 0), (⟨0, 1, [1]⟩, 3)]

theorem collectTable_clashing : collectTable 64 usageSort (some oldTable) clashing =
    .ok (some ⟨true, false, [0, 1, 0, 0, 1, 1]⟩, newOffsets) := by
  have hc : clashing.foldlM (collectCode 64 (some oldTable)) [] =
      .ok [(⟨0, 1, [0]⟩, 2), (⟨0, 1, [1]⟩, 1)] := rfl
  have hsr : usageSort [(⟨0, 1, [0]⟩, 2), (⟨0, 1, [1]⟩, 1)] =
      [(⟨0, 1, [0]⟩, 2), (⟨0, 1, [1]⟩, 1)] := by decide
  rw [collectTable, hc]
  change createGlobalTable usageSort [(⟨0, 1, [0]⟩, 2), (⟨0, 1, [1]⟩, 1)] = _
  rw [createGlobalTable, if_neg (by decide), hsr, encodeEntries, foldl_cons,
    foldl_cons, foldl_nil, encode_oneBit, encode_oneBit]
  rfl

theorem normalizeEntries_clashing {pc : Nat} {maps : CompressedStackMaps} (hpc : pc < 128)
    (hsz : maps.payloadSize ≠ 0)
    (h : stackMapEntries 64 (some oldTable) maps = .ok [(pc, ⟨0, 1, [0]⟩)]) :
    normalizeEntries 64 (some oldTable) newOffsets maps =
      .ok ⟨false, true, [UInt8.ofNat pc, 0]⟩ := by
  have hl : lookupOffset newOffsets ⟨0, 1, [0]⟩ = .ok 0 := rfl
  rw [normalizeEntries, if_neg hsz, h, ok_bind, encodeOffsets, hl]
  change CompressedStackMaps.new (writeLEB128 pc ++ writeLEB128 0 ++ []) false true = _
  rw [writeLEB128_small hpc, writeLEB128_small (by decide)]
  rfl

/-- **A map is taken for a normalized one.** The bit of its entry is set in the old table and not in
the new one. -/
theorem normalizeAndDedup_clash :
    (∀ maps ∈ clashing, ∃ obs, decode 64 maps (some oldTable) = .ok obs) ∧
      normalizeAndDedup 64 usageSort (some oldTable) clashing =
        .ok ([⟨false, true, [4, 0]⟩, ⟨false, true, [9, 0]⟩, ⟨false, true, [4, 0]⟩],
          some ⟨true, false, [0, 1, 0, 0, 1, 1]⟩) ∧
      decode 64 ⟨false, true, [4, 0]⟩ (some oldTable) = .ok [⟨4, 0, 1, [true]⟩] ∧
      decode 64 ⟨false, true, [4, 0]⟩ (some ⟨true, false, [0, 1, 0, 0, 1, 1]⟩) =
        .ok [⟨4, 0, 1, [false]⟩] := by
  refine ⟨fun maps hm => ?_, ?_, rfl, rfl⟩
  · simp only [clashing, mem_cons, not_mem_nil, or_false] at hm
    rcases hm with rfl | rfl | rfl
    · exact ⟨_, rfl⟩
    · exact ⟨_, rfl⟩
    · exact ⟨_, rfl⟩
  · simp only [normalizeAndDedup, collectTable_clashing, ok_bind]
    rw [clashing, foldlM_cons, visitCode, if_neg (by decide),
      normalizeEntries_clashing (show 4 < 128 by decide) (by decide) rfl]
    change (([_, _] : List CompressedStackMaps).foldlM (visitCode 64 (some oldTable) newOffsets)
      ([⟨false, true, [4, 0]⟩], [⟨false, true, [4, 0]⟩]) >>= _) = _
    rw [foldlM_cons, visitCode, if_neg (by decide),
      normalizeEntries_clashing (show 9 < 128 by decide) (by decide) rfl]
    rfl

end Vm
