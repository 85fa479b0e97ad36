import Mathlib.Tactic.Ring
import DartSdk.Http.WebSocket
import DartSdk.Lib.Fallible
import DartSdk.Lib.WebSocketFrames

/-!
# The WebSocket transformer byte by byte

The transformer reads a payload in blocks, and a long masked payload by 128-bit lanes. Here it is
shown that it does what it would do with one byte at a time, however the stream is cut into chunks:

* `unmask_spec`: unmasking is by the masking key, as in the protocol, if the list begins at a
  multiple of 16 in its memory.
* `addAll_follows`: the chunks do what the steps `step` over their bytes do.
-/

namespace Http.WebSocketProtocolTransformer

open List (drop_drop foldlM_append foldlM_cons length_append length_cons length_drop length_take)
open Option Nat Bool BitVec
open WebSocketFrames (keyByte maskFrom)
open Fallible (map_eq_ok)

/-! ## Masking -/

theorem maskingByte_eq (key : Vector UInt8 4) (i : Nat) : maskingByte key i = keyByte key i := by
  have h : i &&& 3 = i % 4 := and_two_pow_sub_one_eq_mod i 2
  simp only [maskingByte, keyByte, h]

variable {key : Vector UInt8 4} {i u ct n off ix : Nat}
  {t t' : WebSocketProtocolTransformer} {buf bs : List UInt8} {serverSide : Bool}
  {byte : UInt8}

theorem keyByte_congr {j : Nat} (h : i % 4 = j % 4) : keyByte key i = keyByte key j := by
  simp only [keyByte, h]

theorem maskFrom_congr {j : Nat} (h : i % 4 = j % 4) (bs : List UInt8) :
    maskFrom key i bs = maskFrom key j bs := by
  induction bs generalizing i j with
  | nil => rfl
  | cons b bs ih =>
    rw [maskFrom, maskFrom, keyByte_congr h, ih (show (i + 1) % 4 = (j + 1) % 4 by omega)]

@[simp] theorem length_maskFrom (key : Vector UInt8 4) (i : Nat) (bs : List UInt8) :
    (maskFrom key i bs).length = bs.length := by
  induction bs generalizing i with
  | nil => rfl
  | cons b bs ih => rw [maskFrom, length_cons, ih, length_cons]

theorem maskFrom_append (key : Vector UInt8 4) (i : Nat) (xs ys : List UInt8) :
    maskFrom key i (xs ++ ys) = maskFrom key i xs ++ maskFrom key (i + xs.length) ys := by
  induction xs generalizing i with
  | nil => rfl
  | cons x xs ih =>
    rw [List.cons_append, maskFrom, ih, maskFrom, List.cons_append, length_cons,
      Nat.add_right_comm, Nat.add_assoc]

theorem maskFrom_maskFrom (key : Vector UInt8 4) (i : Nat) (bs : List UInt8) :
    maskFrom key i (maskFrom key i bs) = bs := by
  induction bs generalizing i with
  | nil => rfl
  | cons b bs ih =>
    rw [maskFrom, maskFrom, ih, UInt8.xor_assoc, UInt8.xor_self, UInt8.xor_zero]

/-! ## Lanes -/

theorem blockMask_eq (key : Vector UInt8 4) (u : Nat) :
    blockMask key u = (keyByte key (u + 3)).toBitVec ++ (keyByte key (u + 2)).toBitVec ++
      (keyByte key (u + 1)).toBitVec ++ (keyByte key u).toBitVec := by
  simp only [blockMask, List.foldl_cons, List.foldl_nil, maskingByte_eq, Nat.add_zero]
  generalize (keyByte key (u + 3)).toBitVec = k3
  generalize (keyByte key (u + 2)).toBitVec = k2
  generalize (keyByte key (u + 1)).toBitVec = k1
  generalize (keyByte key u).toBitVec = k0
  ext i hi
  grind

theorem lane_bytes (b0 b1 b2 b3 k0 k1 k2 k3 : UInt8) :
    let lane : BitVec 32 := (b3.toBitVec ++ b2.toBitVec ++ b1.toBitVec ++ b0.toBitVec) ^^^
      (k3.toBitVec ++ k2.toBitVec ++ k1.toBitVec ++ k0.toBitVec)
    lane.extractLsb' 0 8 = (b0 ^^^ k0).toBitVec ∧ lane.extractLsb' 8 8 = (b1 ^^^ k1).toBitVec ∧
      lane.extractLsb' 16 8 = (b2 ^^^ k2).toBitVec ∧
      lane.extractLsb' 24 8 = (b3 ^^^ k3).toBitVec := by
  rw [xor_append, xor_append, xor_append]
  simp only [UInt8.toBitVec_xor]
  refine ⟨?_, ?_, ?_, ?_⟩ <;> (ext i hi; grind)

theorem xorLanes_eq (key : Vector UInt8 4) (u : Nat) (bs : List UInt8)
    (h : bs.length % 4 = 0) : xorLanes (blockMask key u) bs = maskFrom key u bs := by
  fun_induction xorLanes with
  | case1 b0 b1 b2 b3 bs lane ih =>
    have hl : lane = _ := congrArg (_ ^^^ ·) (blockMask_eq key u)
    obtain ⟨h0, h1, h2, h3⟩ := lane_bytes b0 b1 b2 b3 (keyByte key u) (keyByte key (u + 1))
      (keyByte key (u + 2)) (keyByte key (u + 3))
    rw [hl, h0, h1, h2, h3, ih (by simp only [length_cons] at h; omega)]
    simp only [maskFrom]
    rw [maskFrom_congr (show u % 4 = (u + 1 + 1 + 1 + 1) % 4 by omega)]
  | case2 bs hsh =>
    match bs, hsh, h with
    | [], _, _ => rfl
    | [_], _, h => simp at h
    | [_, _], _, h => simp at h
    | [_, _, _], _, h => simp at h
    | b0 :: b1 :: b2 :: b3 :: bs, hsh, _ => exact absurd rfl (hsh b0 b1 b2 b3 bs)

/-! ## Unmasking -/

/-- The buffer with `count` bytes from `i` on masked. -/
def maskSlice (key : Vector UInt8 4) (u i ct : Nat) (buf : List UInt8) : List UInt8 :=
  buf.take i ++ maskFrom key u ((buf.drop i).take ct) ++ buf.drop (i + ct)

@[simp] theorem length_maskSlice (key : Vector UInt8 4) (u i ct : Nat) (buf : List UInt8) :
    (maskSlice key u i ct buf).length = buf.length := by
  simp only [maskSlice, length_append, length_take, length_maskFrom, length_drop]
  omega

theorem take_maskSlice (h : i + ct ≤ buf.length) :
    (maskSlice key u i ct buf).take (i + ct) =
      buf.take i ++ maskFrom key u ((buf.drop i).take ct) := by
  rw [maskSlice, List.take_append_of_le_length, List.take_of_length_le] <;>
    simp only [length_append, length_take, length_maskFrom, length_drop] <;> omega

theorem drop_maskSlice (h : i + ct ≤ buf.length) :
    (maskSlice key u i ct buf).drop (i + ct) = buf.drop (i + ct) := by
  rw [maskSlice, List.drop_append_of_le_length, List.drop_of_length_le, List.nil_append] <;>
    simp only [length_append, length_take, length_maskFrom, length_drop] <;> omega

theorem maskSlice_maskSlice {v m : Nat} (h : i + m + n ≤ buf.length) (hv : v % 4 = (u + m) % 4) :
    maskSlice key v (i + m) n (maskSlice key u i m buf) = maskSlice key u i (m + n) buf := by
  have hsp : (buf.drop i).take (m + n) =
      (buf.drop i).take m ++ (buf.drop (i + m)).take n := by
    rw [List.take_add, drop_drop]
  have hd : (maskSlice key u i m buf).drop (i + m + n) = buf.drop (i + m + n) := by
    rw [← drop_drop, drop_maskSlice (by omega), drop_drop]
  rw [maskSlice, take_maskSlice (by omega), drop_maskSlice (by omega), hd, maskSlice, hsp,
    maskFrom_append, maskFrom_congr (show v % 4 = (u + ((buf.drop i).take m).length) % 4 by
      rw [length_take, length_drop, Nat.min_eq_left (by omega), hv])]
  simp only [List.append_assoc, Nat.add_assoc]

theorem unmaskBytes_eq (key : Vector UInt8 4) (ct i u : Nat) (buf : List UInt8)
    (h : i + ct ≤ buf.length) :
    unmaskBytes key ct i u buf = (maskSlice key u i ct buf, u + ct) := by
  induction ct generalizing i u buf with
  | zero => simp [unmaskBytes, maskSlice, maskFrom]
  | succ ct ih =>
    have ho : buf.modify i (· ^^^ maskingByte key u) = maskSlice key u i 1 buf := by
      have hi : i < buf.length := by omega
      rw [List.modify_eq_take_drop, maskSlice, List.drop_eq_getElem_cons hi, maskingByte_eq]
      simp only [List.modifyHead_cons, List.take_succ_cons, List.take_zero, maskFrom,
        List.append_assoc, List.singleton_append]
    rw [unmaskBytes, ho, ih _ _ _ (by rw [length_maskSlice]; omega),
      maskSlice_maskSlice (by omega) rfl, Nat.add_comm 1 ct, Nat.add_assoc, Nat.add_comm 1 ct]

/-- **Unmasking** from a multiple of 16 in memory. -/
theorem unmask_spec (key : Vector UInt8 4) (u : Nat) {len : Nat} (ho : off % 16 = 0)
    (h : ix + len ≤ buf.length) :
    ∃ v, unmask key u off ix len buf =
      some (maskSlice key u ix len buf, v) ∧ v % 4 = (u + len) % 4 := by
  have han : ix &&& 15 = ix % 16 := and_two_pow_sub_one_eq_mod ix 4
  by_cases hl : len ≥ 16
  · obtain ⟨start, hst⟩ : ∃ start, start = 16 - ix % 16 := ⟨_, rfl⟩
    have hle : start ≤ len := by omega
    have hf := unmaskBytes_eq key start ix u buf (by omega)
    by_cases hb : (len - start) / 16 > 0
    · obtain ⟨bs, hby⟩ : ∃ bs, bs = (len - start) / 16 * 16 := ⟨_, rfl⟩
      have ha : (off + (ix + start)) % 16 = 0 := by omega
      have hln := xorLanes_eq key (u + start)
        (((maskSlice key u ix start buf).drop (ix + start)).take bs) (by
          rw [length_take, length_drop, length_maskSlice, Nat.min_eq_left (by omega)]
          omega)
      refine ⟨u + start + (len - start - bs), ?_, by omega⟩
      simp only [unmask, han, ← hst, if_pos hl, hf, if_pos hb, ← hby, ha,
        ne_eq, not_true_eq_false, if_false, hln]
      rw [← maskSlice, maskSlice_maskSlice (by omega) rfl]
      simp only [bind_eq_bind, bind_some]
      rw [unmaskBytes_eq _ _ _ _ _ (by rw [length_maskSlice]; omega), Nat.add_assoc ix,
        maskSlice_maskSlice (by omega) (by omega), show start + bs + (len - start - bs) =
          len by omega]
    · refine ⟨u + start + (len - start), ?_, by omega⟩
      simp only [unmask, han, ← hst, if_pos hl, hf, if_neg hb, bind_eq_bind, bind_some]
      rw [unmaskBytes_eq _ _ _ _ _ (by rw [length_maskSlice]; omega),
        maskSlice_maskSlice (by omega) rfl, Nat.add_sub_cancel' hle]
  · refine ⟨u + len, ?_, rfl⟩
    simp only [unmask, if_neg hl, bind_eq_bind, bind_some, unmaskBytes_eq key len ix u buf h]

/-! ## One byte at a time -/

/-- A byte of a payload. -/
def payloadByte (t : WebSocketProtocolTransformer) (byte : UInt8) : Outcome :=
  if t.remainingPayloadBytes < 0 then .error (.rangeError, t)
  else
    { t with
      remainingPayloadBytes := t.remainingPayloadBytes - 1
      unmaskingIndex := t.unmaskingIndex + 1 }.addPayload
      [if t.masked then byte ^^^ keyByte t.maskingBytes t.unmaskingIndex else byte]

/-- The transformer reads one byte. After the end of the connection there may be none. -/
def step (t : WebSocketProtocolTransformer) (byte : UInt8) : Outcome :=
  match t.state with
  | .payload => t.payloadByte byte
  | .closed => .error (.webSocketException "Data on closed connection", t)
  | .failure => .error (.webSocketException "Data on failed connection", t)
  | .start | .lenFirst | .lenRest | .mask => t.readByte byte

/-- What is left of a payload is not empty, and what comes is masked as it must be. -/
structure Inv (serverSide : Bool) (t : WebSocketProtocolTransformer) : Prop where
  serverSide_eq : t.serverSide = serverSide
  remaining : t.state = .payload → t.remainingPayloadBytes ≠ 0
  masked_eq : t.state = .payload ∨ t.state = .mask → t.masked = serverSide

theorem Inv.of_ne (hs : t.serverSide = serverSide)
    (hp : t.state ≠ .payload) (hm : t.state ≠ .mask) : Inv serverSide t :=
  ⟨hs, fun h => absurd h hp, fun h => (h.elim hp hm).elim⟩

theorem prepareForNextFrame_inv (hs : t.serverSide = serverSide) :
    Inv serverSide t.prepareForNextFrame := by
  have hst : t.prepareForNextFrame.state = .start ∨ t.prepareForNextFrame.state = .closed ∨
      t.prepareForNextFrame.state = .failure := by
    rw [prepareForNextFrame]
    by_cases hc : t.state = .closed
    · simp [hc]
    · by_cases hf : t.state = .failure
      · simp [hf]
      · simp [hc, hf]
  refine .of_ne hs ?_ ?_ <;> rcases hst with h | h | h <;> rw [h] <;> nofun

theorem messageFrameEnd_inv (h : t.messageFrameEnd = .ok t') : Inv t.serverSide t' := by
  unfold messageFrameEnd at h
  split_ifs at h
  · obtain ⟨t1, h1, rfl⟩ := map_eq_ok h
    have hs : t1.serverSide = t.serverSide := by
      unfold messageEvent at h1
      split_ifs at h1
      · obtain ⟨text, -, rfl⟩ := map_eq_ok h1
        rfl
      · cases h1
        rfl
      · cases h1
        rfl
    exact prepareForNextFrame_inv hs
  · cases h
    exact prepareForNextFrame_inv rfl

theorem readClose_serverSide {pl : List UInt8}
    (h : t.readClose pl = .ok t') : t'.serverSide = t.serverSide := by
  unfold readClose at h
  split at h
  · cases h
    rfl
  · cases h
  dsimp only at h
  split_ifs at h
  · cases h
  · obtain ⟨text, -, rfl⟩ := map_eq_ok h
    rfl
  · cases h
    rfl

theorem controlFrameEnd_inv (h : t.controlFrameEnd = .ok t') : Inv t.serverSide t' := by
  obtain ⟨t1, h1, rfl⟩ := map_eq_ok h
  have hs : t1.serverSide = t.serverSide := by
    unfold controlEvent at h1
    split_ifs at h1
    · obtain ⟨t2, h2, rfl⟩ := map_eq_ok h1
      exact (readClose_serverSide h2 :)
    · cases h1
      rfl
    · cases h1
      rfl
    · cases h1
      rfl
  exact prepareForNextFrame_inv hs

theorem startPayload_inv (h : t.startPayload = .ok t')
    (hm : t.masked = t.serverSide) : Inv t.serverSide t' := by
  unfold startPayload at h
  split at h
  next hz =>
    split at h
    · cases h
      refine prepareForNextFrame_inv ?_
      split_ifs <;> rfl
    · exact messageFrameEnd_inv h
  next hz =>
    cases h
    exact ⟨rfl, fun _ => hz, fun _ => hm⟩

theorem lengthDone_inv (h : t.lengthDone = .ok t') : Inv t.serverSide t' := by
  unfold lengthDone at h
  split_ifs at h with hm hsr hsr
  · cases h
    rw [not_eq_true, not_eq_false'] at hsr
    exact ⟨rfl, nofun, fun _ => hm.trans hsr.symm⟩
  · rw [not_eq_true] at hm hsr
    exact (startPayload_inv h (hm.trans hsr.symm) :)

theorem readStart_inv (h : t.readStart byte = .ok t') : Inv t.serverSide t' := by
  unfold readStart at h
  split at h
  · cases h
  obtain ⟨t1, h1, rfl⟩ := map_eq_ok h
  refine .of_ne ?_ nofun nofun
  unfold checkOpcode at h1
  split_ifs at h1 <;> cases h1 <;> rfl

theorem readByte_inv (hi : Inv t.serverSide t)
    (h : t.readByte byte = .ok t') : Inv t.serverSide t' := by
  unfold readByte at h
  split at h
  · exact readStart_inv h
  · unfold readLenFirst at h
    dsimp only at h
    split_ifs at h
    · cases h
    · cases h
      exact .of_ne rfl nofun nofun
    · cases h
      exact .of_ne rfl nofun nofun
    · exact (lengthDone_inv h :)
  next hs =>
    unfold readLenRest at h
    dsimp only at h
    split_ifs at h
    · exact (lengthDone_inv h :)
    · cases h
      exact .of_ne rfl (by rw [hs]; nofun) (by rw [hs]; nofun)
  next hs =>
    unfold readMask at h
    dsimp only at h
    split_ifs at h
    · exact (startPayload_inv h (hi.masked_eq (.inr hs)) :)
    · cases h
      exact ⟨rfl, fun hp => absurd (hs.symm.trans hp) nofun, fun _ => hi.masked_eq (.inr hs)⟩
  all_goals
    cases h
    exact hi

theorem addPayload_inv {bl : List UInt8}
    (h : t.addPayload bl = .ok t') (hm : t.masked = t.serverSide) : Inv t.serverSide t' := by
  unfold addPayload at h
  dsimp only at h
  split_ifs at h with _ hz _ hz
  · exact (controlFrameEnd_inv h :)
  · cases h
    exact ⟨rfl, fun _ => hz, fun _ => hm⟩
  · cases h
  · exact (messageFrameEnd_inv h :)
  · cases h
    exact ⟨rfl, fun _ => hz, fun _ => hm⟩

/-- **One step** keeps the invariant. -/
theorem step_inv (hi : Inv serverSide t) (h : t.step byte = .ok t') : Inv serverSide t' := by
  obtain rfl := hi.serverSide_eq
  unfold step at h
  split at h
  next hs =>
    unfold payloadByte at h
    split at h
    · cases h
    · exact (addPayload_inv h (hi.masked_eq (.inl hs)) :)
  · cases h
  · cases h
  all_goals exact readByte_inv hi h

/-! ## The position in the masking key -/

def withIndex (v : Nat) (t : WebSocketProtocolTransformer) : WebSocketProtocolTransformer :=
  { t with unmaskingIndex := v }

def mapIndex (v : Nat) : Outcome → Outcome
  | .ok t => .ok (t.withIndex v)
  | .error (e, t) => .error (e, t.withIndex v)

/-- The same outcome; what is thrown comes with another position in the masking key. -/
def throwWithIndex (v : Nat) : Outcome → Outcome
  | .ok t => .ok t
  | .error (e, t) => .error (e, t.withIndex v)

section
variable (v : Nat) (t : WebSocketProtocolTransformer)

theorem messageEvent_withIndex (bs : List UInt8) :
    (t.withIndex v).messageEvent bs = mapIndex v (t.messageEvent bs) := by
  unfold messageEvent utf8Decode
  rw [apply_ite (mapIndex v), apply_ite (mapIndex v)]
  generalize Convert.Utf8Decoder.decodeSingle _ _ = decoded
  cases decoded <;> rfl

theorem messageFrameEnd_withIndex :
    (t.withIndex v).messageFrameEnd = throwWithIndex v t.messageFrameEnd := by
  have hev := messageEvent_withIndex v { t with payload := [] } (t.inflate t.payload)
  unfold messageFrameEnd
  by_cases hf : t.fin = true
  · rw [if_pos (by exact hf), if_pos hf]
    refine (congrArg (Except.map _) hev).trans ?_
    dsimp only
    generalize messageEvent _ (t.inflate t.payload) = event
    match event with
    | .ok t => rfl
    | .error (e, t) => rfl
  · rw [if_neg (by exact hf), if_neg hf]
    rfl

theorem readClose_withIndex (pl : List UInt8) :
    (t.withIndex v).readClose pl = mapIndex v (t.readClose pl) := by
  match pl with
  | [] => rfl
  | [_] => rfl
  | high :: low :: reason =>
    unfold readClose utf8Decode
    dsimp only
    rw [apply_ite (mapIndex v), apply_ite (mapIndex v)]
    generalize Convert.Utf8Decoder.decodeSingle _ _ = decoded
    cases decoded <;> rfl

theorem controlFrameEnd_withIndex :
    (t.withIndex v).controlFrameEnd = throwWithIndex v t.controlFrameEnd := by
  have hrd := readClose_withIndex v { t with payload := [], closeCode := noStatusReceived } t.payload
  unfold controlFrameEnd controlEvent
  by_cases hc : t.opcode = WebSocketOpcode.CLOSE
  · rw [if_pos (by exact hc), if_pos hc]
    refine (congrArg (fun r => Except.map _ (Except.map _ r)) hrd).trans ?_
    generalize readClose _ t.payload = closed
    match closed with
    | .ok t => rfl
    | .error (e, t) => rfl
  · rw [if_neg (by exact hc), if_neg hc]
    simp only [apply_ite (Except.map prepareForNextFrame), apply_ite (throwWithIndex v)]
    rfl

end

/-- The same state up to the position in the masking key, of which the remainder by 4 counts. -/
structure Like (t t' : WebSocketProtocolTransformer) : Prop where
  eq_withIndex : t = t'.withIndex t.unmaskingIndex
  eq_of_ne : t.state ≠ .payload → t = t'
  index_eq : t.masked = true → t.unmaskingIndex % 4 = t'.unmaskingIndex % 4

theorem Like.refl (t : WebSocketProtocolTransformer) : Like t t :=
  ⟨rfl, fun _ => rfl, fun _ => rfl⟩

/-- What is thrown for data after the end of the connection. -/
def IsDataAfterEnd (e : Thrown) : Prop :=
  e = .webSocketException "Data on closed connection" ∨
    e = .webSocketException "Data on failed connection"

/-- The first outcome is like the second one, unless that is for data after the end. -/
def Follows (r r' : Outcome) : Prop :=
  match r' with
  | .ok t' => ∃ t, r = .ok t ∧ Like t t'
  | .error (e, _) => IsDataAfterEnd e ∨ ∃ t, r = .error (e, t)

theorem Follows.refl (r : Outcome) : Follows r r := by
  match r with
  | .ok t => exact ⟨t, rfl, .refl t⟩
  | .error (e, t) => exact .inr ⟨t, rfl⟩

theorem Like.trans {t t'' : WebSocketProtocolTransformer} (h : Like t t') (h' : Like t' t'') :
    Like t t'' := by
  obtain ⟨heq, hne, hi⟩ := h
  obtain ⟨heq', hne', hi'⟩ := h'
  refine ⟨?_, ?_, ?_⟩
  · rw [heq, heq']
    rfl
  · intro hs
    have htt' := hne hs
    rw [htt'] at hs ⊢
    exact hne' hs
  · intro hm
    rw [hi hm]
    rw [heq] at hm
    exact hi' hm

theorem Follows.trans {r r' r'' : Outcome} (h : Follows r r') (h' : Follows r' r'') :
    Follows r r'' := by
  match r'', h' with
  | .ok t'', ⟨t', hr', hl'⟩ =>
    subst hr'
    obtain ⟨t, rfl, hl⟩ := h
    exact ⟨t, rfl, hl.trans hl'⟩
  | .error (e, t''), .inl hen => exact .inl hen
  | .error (e, t''), .inr ⟨t', hr'⟩ =>
    subst hr'
    exact h

theorem Follows.bind {r r' : Outcome} {k k' : WebSocketProtocolTransformer → Outcome}
    (h : Follows r r') (hk : ∀ t t', r' = .ok t' → Like t t' → Follows (k t) (k' t')) :
    Follows (r >>= k) (r' >>= k') := by
  match r', h with
  | .ok t', ⟨t, hr, hl⟩ =>
    subst hr
    exact hk t t' rfl hl
  | .error (e, t'), .inl hen => exact .inl hen
  | .error (e, t'), .inr ⟨t, hr⟩ =>
    subst hr
    exact .inr ⟨t, rfl⟩

theorem follows_throwWithIndex (v : Nat) (r : Outcome) : Follows (throwWithIndex v r) r := by
  match r with
  | .ok t => exact ⟨t, rfl, .refl t⟩
  | .error (e, t) => exact .inr ⟨t.withIndex v, rfl⟩

/-! ## A block of a payload -/

section
variable {bl : List UInt8}

/-- The state with the block in the `BytesBuilder`. -/
def append (t : WebSocketProtocolTransformer) (bl : List UInt8) : WebSocketProtocolTransformer :=
  { t with payload := t.payload ++ bl }

/-- The frame is part of a message. -/
def inMessage (t : WebSocketProtocolTransformer) : Prop :=
  t.currentMessageType = WebSocketMessageType.TEXT ∨ t.currentMessageType = WebSocketMessageType.BINARY

instance : Decidable t.inMessage := inferInstanceAs (Decidable (_ ∨ _))

/-- With the block the frame may end. -/
theorem addPayload_eq : t.addPayload bl =
    if t.isControlFrame = true ∨ t.inMessage then
      if t.remainingPayloadBytes = 0 then
        if t.isControlFrame = true then (t.append bl).controlFrameEnd
        else (t.append bl).messageFrameEnd
      else .ok (t.append bl) else (t.append bl).protocolError := by
  unfold addPayload
  by_cases hc : t.isControlFrame = true
  · rw [if_pos (by exact hc), if_pos (Or.inl hc), if_pos hc]
    rfl
  rw [if_neg (by exact hc), if_neg hc]
  by_cases hty : t.inMessage
  · rw [if_neg (fun h => hty.elim (by exact h.1) (by exact h.2)), if_pos (Or.inr hty)]
    rfl
  · rw [if_pos (by exact not_or.mp hty), if_neg (not_or.mpr ⟨hc, hty⟩)]
    rfl

theorem Follows.ite {c : Prop} [Decidable c] {r1 r1' r2 r2' : Outcome} (h1 : Follows r1 r1')
    (h2 : Follows r2 r2') : Follows (if c then r1 else r2) (if c then r1' else r2') := by
  split
  · exact h1
  · exact h2

theorem addPayload_withIndex {v : Nat} (hs : t.state = .payload)
    (hv : t.masked = true → v % 4 = t.unmaskingIndex % 4) :
    Follows ((t.withIndex v).addPayload bl) (t.addPayload bl) := by
  rw [addPayload_eq, addPayload_eq]
  refine .ite (.ite (.ite ?_ ?_) ?_) (.inr ⟨_, rfl⟩)
  · exact controlFrameEnd_withIndex v (t.append bl) ▸ follows_throwWithIndex v _
  · exact messageFrameEnd_withIndex v (t.append bl) ▸ follows_throwWithIndex v _
  · exact ⟨_, rfl, rfl, fun hne => absurd hs hne, hv⟩

def unmasked (t : WebSocketProtocolTransformer) (bs : List UInt8) : List UInt8 :=
  if t.masked then maskFrom t.maskingBytes t.unmaskingIndex bs else bs

/-- The state when `count` more bytes of the payload are read. -/
def advance (t : WebSocketProtocolTransformer) (ct : Nat) : WebSocketProtocolTransformer :=
  { t with
    remainingPayloadBytes := t.remainingPayloadBytes - ct
    unmaskingIndex := t.unmaskingIndex + ct }

theorem unmasked_cons (byte : UInt8) (bs : List UInt8) :
    t.unmasked (byte :: bs) = t.unmasked [byte] ++ (t.advance 1).unmasked bs := by
  cases hm : t.masked <;> simp [unmasked, advance, hm, maskFrom]

theorem step_payload {byte : UInt8} (hs : t.state = .payload) (hp : 0 ≤ t.remainingPayloadBytes) :
    t.step byte = (t.advance 1).addPayload (t.unmasked [byte]) := by
  simp only [step, hs]
  rw [payloadByte, if_neg (by omega)]
  cases hm : t.masked <;> simp [unmasked, advance, hm, maskFrom]

theorem addPayload_append {xs ys : List UInt8} :
    (t.append xs).addPayload ys = t.addPayload (xs ++ ys) := by
  simp only [addPayload, append, List.append_assoc]

theorem advance_advance (m n : Nat) : (t.advance m).advance n = t.advance (m + n) := by
  simp only [advance, cast_add, Nat.add_assoc, Int.sub_sub]

/-- **The bytes of a block** one at a time are the whole block. -/
theorem foldlM_step_block (hs : t.state = .payload) (hf : t.isControlFrame = true ∨ t.inMessage)
    (hne : bs ≠ []) (hl : bs.length ≤ t.remainingPayloadBytes) :
    bs.foldlM step t = (t.advance bs.length).addPayload (t.unmasked bs) := by
  induction bs generalizing t with
  | nil => exact absurd rfl hne
  | cons byte bs ih =>
    rw [length_cons, cast_succ] at hl
    rw [foldlM_cons, step_payload hs (by omega)]
    cases bs with
    | nil =>
      show _ >>= pure = _
      rw [bind_pure]
      rfl
    | cons byte' bs =>
      have hm : (t.advance 1).remainingPayloadBytes ≠ 0 := by
        show t.remainingPayloadBytes - 1 ≠ 0
        rw [length_cons, cast_succ] at hl
        omega
      rw [addPayload_eq, if_pos (by exact hf), if_neg hm]
      have hr := ih (t := (t.advance 1).append (t.unmasked [byte])) hs hf
        (List.cons_ne_nil _ _) (by
          show _ ≤ t.remainingPayloadBytes - 1
          omega)
      have ha : ((t.advance 1).append (t.unmasked [byte])).advance (byte' :: bs).length =
        ((t.advance 1).advance (byte' :: bs).length).append (t.unmasked [byte]) := rfl
      have hu : ((t.advance 1).append (t.unmasked [byte])).unmasked (byte' :: bs) =
        (t.advance 1).unmasked (byte' :: bs) := rfl
      rw [ha, hu, addPayload_append, advance_advance, ← unmasked_cons, Nat.add_comm 1] at hr
      exact hr

theorem follows_foldlM_step (hs : t.state = .payload) (hne : bs ≠ [])
    (hl : bs.length ≤ t.remainingPayloadBytes) :
    Follows ((t.advance bs.length).addPayload (t.unmasked bs)) (bs.foldlM step t) := by
  by_cases hf : t.isControlFrame = true ∨ t.inMessage
  · rw [foldlM_step_block hs hf hne hl]
    exact .refl _
  obtain ⟨byte, bs, rfl⟩ := List.exists_cons_of_ne_nil hne
  rw [foldlM_cons, step_payload hs (by omega), addPayload_eq, if_neg (by exact hf),
    addPayload_eq, if_neg (by exact hf)]
  exact .inr ⟨_, rfl⟩

end

/-! ## Chunks -/

theorem slice_maskSlice (h : i + ct ≤ buf.length) :
    ((maskSlice key u i ct buf).drop i).take ct = maskFrom key u ((buf.drop i).take ct) := by
  have ht : ((maskSlice key u i ct buf).take (i + ct)).drop i = _ :=
    congrArg (List.drop i) (take_maskSlice h)
  rwa [List.drop_take, Nat.add_sub_cancel_left, List.drop_left' (by
    rw [length_take, Nat.min_eq_left (by omega)])] at ht

def withRemaining (n : Int) (t : WebSocketProtocolTransformer) : WebSocketProtocolTransformer :=
  { t with remainingPayloadBytes := n }

theorem unmaskPayload_eq
    (ha : t.masked = true → off % 16 = 0) (h : ix + n ≤ buf.length) :
    ∃ v buffer', t.unmaskPayload off ix n buf = .ok (t.withIndex v, buffer') ∧
      buffer'.length = buf.length ∧
      buffer'.drop (ix + n) = buf.drop (ix + n) ∧
      (buffer'.drop ix).take n = t.unmasked ((buf.drop ix).take n) ∧
      (t.masked = true → v % 4 = (t.unmaskingIndex + n) % 4) := by
  unfold unmaskPayload unmasked
  by_cases hm : t.masked = true
  · obtain ⟨v, hv, hvu⟩ := unmask_spec t.maskingBytes t.unmaskingIndex (ha hm) h
    refine ⟨v, maskSlice t.maskingBytes t.unmaskingIndex ix n buf, ?_, length_maskSlice ..,
      drop_maskSlice h, ?_, fun _ => hvu⟩
    · rw [if_pos hm, hv]
      rfl
    · rw [if_pos hm, slice_maskSlice h]
  · refine ⟨t.unmaskingIndex, buf, ?_, rfl, rfl, ?_, fun hm' => absurd hm' hm⟩
    · rw [if_neg hm]
      rfl
    · rw [if_neg hm]

theorem unmasked_withIndex
    (hu : t.masked = true → u % 4 = t.unmaskingIndex % 4) (bs : List UInt8) :
    (t.withIndex u).unmasked bs = t.unmasked bs := by
  unfold unmasked
  by_cases hm : t.masked = true
  · rw [if_pos (by exact hm), if_pos hm]
    exact maskFrom_congr (hu hm) bs
  · rw [if_neg (by exact hm), if_neg hm]

/-- Reading a block is taking its bytes one at a time. -/
theorem readPayload_follows (hlk : Like t t')
    (hs : t.state = .payload) (hp : 0 < t.remainingPayloadBytes)
    (ha : t.masked = true → off % 16 = 0) (hi : ix < buf.length) :
    ∃ r n buffer', 0 < n ∧ ix + n ≤ buf.length ∧ buffer'.length = buf.length ∧
      buffer'.drop (ix + n) = buf.drop (ix + n) ∧
      t.readPayload off ix buf = r.map (fun t => (t, buffer', ix + n)) ∧
      Follows r (((buf.drop ix).take n).foldlM step t') := by
  obtain ⟨u, rfl⟩ : ∃ u, t = t'.withIndex u := ⟨_, hlk.eq_withIndex⟩
  have hu : t'.masked = true → u % 4 = t'.unmaskingIndex % 4 := hlk.index_eq
  obtain ⟨n, hn⟩ : ∃ n : Nat,
      min ((buf.length : Int) - ix) (t'.withIndex u).remainingPayloadBytes = n :=
    ⟨_, (Int.toNat_of_nonneg (by omega)).symm⟩
  have hrm : n ≤ t'.remainingPayloadBytes := by rw [← hn]; exact Int.min_le_right _ _
  have hl : ((buf.drop ix).take n).length = n := by
    rw [length_take, length_drop]
    omega
  obtain ⟨v, buffer', hun, hl', hd, hb, hv⟩ :=
    unmaskPayload_eq (t := (t'.withIndex u).withRemaining (t'.remainingPayloadBytes - n))
      ha (show ix + n ≤ buf.length by omega)
  refine ⟨((t'.advance n).withIndex v).addPayload ((buffer'.drop ix).take n), n, buffer', by omega,
    by omega, hl', hd, ?_, ?_⟩
  · have hng : ¬(n : Int) < 0 := by omega
    simp only [withRemaining, withIndex] at hn hun ⊢
    simp only [readPayload, hn, Int.toNat_natCast, hun, if_neg hng]
    rfl
  · have hst := follows_foldlM_step (t := t') hs
      (List.ne_nil_of_length_pos (by rw [hl]; omega)) (by rw [hl]; exact hrm)
    have hum : (buffer'.drop ix).take n = t'.unmasked ((buf.drop ix).take n) :=
      hb.trans (unmasked_withIndex hu _)
    rw [hl] at hst
    rw [hum]
    refine (addPayload_withIndex (t := t'.advance n) hs fun hm => ?_).trans hst
    have hvu : v % 4 = (u + n) % 4 := hv hm
    have hu4 := hu hm
    show v % 4 = (t'.unmaskingIndex + n) % 4
    omega

theorem readPayload_negative (hn : t.remainingPayloadBytes < 0)
    (ha : t.masked = true → off % 16 = 0) (hi : ix < buf.length) :
    ∃ t1, t.readPayload off ix buf = .error (.rangeError, t1) := by
  have hm : min ((buf.length : Int) - ix) t.remainingPayloadBytes =
      t.remainingPayloadBytes := by omega
  obtain ⟨v, buffer', hu, -⟩ :=
    unmaskPayload_eq (t := t.withRemaining (t.remainingPayloadBytes - t.remainingPayloadBytes))
      ha (show ix + 0 ≤ buf.length by omega)
  refine ⟨(t.withRemaining (t.remainingPayloadBytes - t.remainingPayloadBytes)).withIndex v, ?_⟩
  unfold withRemaining at hu
  simp only [readPayload, hm, Int.toNat_of_nonpos (Int.le_of_lt hn), hu, if_pos hn]
  rfl

/-- What holds after a run of steps. -/
theorem foldlM_step_inv (hi : Inv serverSide t) (h : bs.foldlM step t = .ok t') :
    Inv serverSide t' := by
  induction bs generalizing t with
  | nil =>
    cases h
    exact hi
  | cons byte bs ih =>
    rw [foldlM_cons] at h
    cases hst : t.step byte with
    | error e => rw [hst] at h; cases h
    | ok t1 =>
      rw [hst] at h
      exact ih (step_inv hi hst) h

/-- **The loop** of `add` takes the bytes one at a time. -/
theorem addLoop_follows (ha : serverSide = true → off % 16 = 0) {fuel : Nat}
    (hl : Like t t') (hin : Inv serverSide t')
    (hfl : buf.length ≤ ix + fuel) :
    Follows (addLoop off fuel t ix buf) ((buf.drop ix).foldlM step t') := by
  induction fuel generalizing t t' ix buf with
  | zero =>
    rw [List.drop_of_length_le (by omega)]
    exact ⟨t, rfl, hl⟩
  | succ fuel ih =>
    by_cases hi : ix < buf.length
    · have hg := List.getElem?_eq_getElem hi
      have hd := List.drop_eq_getElem_cons hi
      generalize buf[ix] = byte at hg hd
      by_cases hs : t.state = .payload
      · have hs' : t'.state = .payload := by rw [hl.eq_withIndex] at hs; exact hs
        have hms : t.masked = true → off % 16 = 0 := by
          intro hm
          rw [hl.eq_withIndex] at hm
          exact ha ((hin.masked_eq (.inl hs')).symm.trans hm)
        have hrm : t.remainingPayloadBytes = t'.remainingPayloadBytes := by
          rw [hl.eq_withIndex]
          rfl
        have hne := hin.remaining hs'
        unfold addLoop
        simp only [hg, hs]
        by_cases hng : t.remainingPayloadBytes < 0
        · obtain ⟨t1, ht1⟩ := readPayload_negative hng hms hi
          have hst : t'.step byte = .error (.rangeError, t') := by
            simp only [step, hs', payloadByte]
            rw [if_pos (by omega)]
          rw [hd, foldlM_cons, hst, ht1]
          exact .inr ⟨t1, rfl⟩
        · obtain ⟨r, n, buffer', hn, hle, hln, hrs, hrd, hf⟩ :=
            readPayload_follows hl hs (by omega) hms hi
          rw [← List.take_append_drop n (buf.drop ix), foldlM_append, drop_drop, ← hrs, hrd]
          have hnx : ∀ t1 t1', Like t1 t1' → Inv serverSide t1' →
              Follows (addLoop off fuel t1 (ix + n) buffer')
                ((buffer'.drop (ix + n)).foldlM step t1') :=
            fun t1 t1' hl1 hin1 => ih hl1 hin1 (by omega)
          have hb := hf.bind fun t1 t1' hr hl1 =>
            hnx t1 t1' hl1 (foldlM_step_inv hin hr)
          cases r <;> exact hb
      · obtain rfl := hl.eq_of_ne hs
        have hb := (Follows.refl (t.step byte)).bind fun t1 t1' hr hl1 =>
          ih hl1 (step_inv hin hr) (show buf.length ≤ ix + 1 + fuel by omega)
        rw [hd, foldlM_cons]
        unfold addLoop
        unfold step at hb ⊢
        simp only [hg]
        cases hs' : t.state with
        | payload => exact absurd hs' hs
        | closed => exact .inl (.inl rfl)
        | failure => exact .inl (.inr rfl)
        | start | lenFirst | lenRest | mask =>
          simp only [hs'] at hb ⊢
          generalize t.readByte byte = r at hb
          cases r <;> exact hb
    · rw [List.drop_of_length_le (by omega)]
      unfold addLoop
      rw [List.getElem?_eq_none (by omega)]
      exact ⟨t, rfl, hl⟩

/-- The transformer takes data. -/
def IsOpen (t : WebSocketProtocolTransformer) : Prop := t.state ≠ .closed ∧ t.state ≠ .failure

theorem isOpen_of_foldlM (h : bs.foldlM step t = .ok t') (ho : t'.IsOpen) : t.IsOpen := by
  cases bs with
  | nil =>
    cases h
    exact ho
  | cons byte bs =>
    rw [foldlM_cons] at h
    constructor
    all_goals
      intro hs
      simp only [step, hs] at h
      cases h

theorem add_follows {chunk : Chunk} (ha : serverSide = true → chunk.offsetInBytes % 16 = 0)
    (hne : chunk.bytes ≠ [] ∨ t'.IsOpen) (hl : Like t t') (hi : Inv serverSide t') :
    Follows (t.add chunk) (chunk.bytes.foldlM step t') := by
  have hlp : Follows _ (chunk.bytes.foldlM step t') :=
    addLoop_follows ha hl hi (Nat.le_of_eq (Nat.zero_add _).symm)
  have hen : ∀ e, ¬t'.IsOpen → (∀ byte, t'.step byte = .error (e, t')) → IsDataAfterEnd e →
      Follows (t.add chunk) (chunk.bytes.foldlM step t') := by
    intro e ho hst he
    obtain ⟨byte, bs, hb⟩ := List.exists_cons_of_ne_nil (hne.resolve_right ho)
    rw [hb, foldlM_cons, hst]
    exact .inl he
  have hs : t'.state = t.state := by rw [hl.eq_withIndex]; rfl
  cases hs' : t.state with
  | closed => exact hen _ (fun h => h.1 (hs.trans hs')) (fun byte => by simp only [step, hs, hs']) (.inl rfl)
  | failure => exact hen _ (fun h => h.2 (hs.trans hs')) (fun byte => by simp only [step, hs, hs']) (.inr rfl)
  | start | lenFirst | lenRest | mask | payload =>
    simp only [add, hs']
    exact hlp

/-- **However the stream is cut into chunks**, the transformer takes their bytes one at a time. An
empty chunk is an error after the end. -/
theorem addAll_follows {cs : List Chunk}
    (ha : serverSide = true → ∀ c ∈ cs, c.offsetInBytes % 16 = 0)
    (hne : (∀ c ∈ cs, c.bytes ≠ []) ∨
      ∃ t1, (cs.flatMap Chunk.bytes).foldlM step t' = .ok t1 ∧ t1.IsOpen)
    (hl : Like t t') (hi : Inv serverSide t') :
    Follows (t.addAll cs) ((cs.flatMap Chunk.bytes).foldlM step t') := by
  induction cs generalizing t t' with
  | nil => exact ⟨t, rfl, hl⟩
  | cons chunk cs ih =>
    rw [List.flatMap_cons, foldlM_append, addAll, foldlM_cons]
    have had := add_follows (fun hs => ha hs chunk (.head _))
      (hne.imp (fun h => h chunk (.head _)) fun ⟨t1, h, ho⟩ => isOpen_of_foldlM h ho)
      hl hi
    refine had.bind fun t1 t1' hr hl1 => ih (fun hs c hc => ha hs c (.tail _ hc))
      (hne.imp (fun h c hc => h c (.tail _ hc)) ?_) hl1 (foldlM_step_inv hi hr)
    rintro ⟨t2, h, ho⟩
    rw [List.flatMap_cons, foldlM_append, hr] at h
    exact ⟨t2, h, ho⟩

end Http.WebSocketProtocolTransformer
