import DartSdk.Lib.Fallible
import DartSdk.Vm.Proof.CodeSourceMapOps
import Mathlib.Data.Finset.Card

/-!
# What the builder of a code source map writes

Both stacks of the builder are chains of the inlining tree: they begin with the root, and each id is
called by the one before it. Two chains that have an id at one place agree up to there, so a flush
has to bring only the ids and positions above it in line.

* `Wrote`: the opcodes in the stream take the reader to the written stacks.
* `flushBuffer_writes`: after a flush the written stacks are the buffered ones,
  and the reader finds the buffered frames at each pc offset that was pending.
-/

namespace Vm

open Fallible List Nat

variable {F α : Type}

/-! ## The inlining tree -/

namespace Inlining

/-- The ids from the root to an id. -/
inductive Chain (t : Inlining F) : Int → List Int → Prop
  | root : Chain t 0 [0]
  | inlined {id caller : Int} {ids : List Int} : 0 < id → atIndex t.callerInlineId id = .ok caller →
    Chain t caller ids → Chain t id (ids ++ [id])

/-- Each id comes from the root, and has a function and, if it is inlined, a call position. -/
structure IsTree (t : Inlining F) : Prop where
  chain : ∀ id : Int, 0 ≤ id → id < t.callerInlineId.length → ∃ ids, t.Chain id ids
  functions : t.inlineIdToFunction.length = t.callerInlineId.length
  positions : t.inlineIdToTokenPos.length + 1 = t.callerInlineId.length

/-- The position of the call of an inlined function. -/
def callPosition (t : Inlining F) (id : Int) : TokenPosition :=
  t.inlineIdToTokenPos[(id - 1).toNat]?.getD .kDartCodePrologue

/-- The positions of the frames: each caller is at the call of the next id. -/
def positions (t : Inlining F) (ids : List Int) (top : TokenPosition) : List TokenPosition :=
  ids.tail.map t.callPosition ++ [top]

/-- The functions of the frames. -/
def functions (t : Inlining F) (root : F) (ids : List Int) : List F :=
  root :: ids.tail.map fun id => t.inlineIdToFunction[id.toNat]?.getD root

end Inlining

theorem atIndex_ok {l : List α} {i : Int} {x : α} :
    atIndex l i = .ok x ↔ 0 ≤ i ∧ l[i.toNat]? = some x := by
  rw [atIndex]
  split_ifs with h
  · cases hx : l[i.toNat]? <;> simp [h]
  · simp [h]

theorem atIndex_natCast {l : List α} {i : Nat} {x : α} (h : l[i]? = some x) :
    atIndex l i = .ok x := atIndex_ok.2 ⟨Int.natCast_nonneg i, h⟩

namespace Inlining.Chain

variable {t : Inlining F} {id y : Int} {ids l1 l2 : List Int}

theorem exists_concat (h : t.Chain id ids) : ∃ l, ids = l ++ [id] := by
  cases h with
  | root => exact ⟨[], rfl⟩
  | inlined => exact ⟨_, rfl⟩

theorem exists_cons (h : t.Chain id ids) : ∃ l, ids = 0 :: l := by
  induction h with
  | root => exact ⟨[], rfl⟩
  | inlined _ _ _ ih =>
    obtain ⟨l, rfl⟩ := ih
    exact ⟨_, rfl⟩

theorem unique (h : t.Chain id ids) (h' : t.Chain id l1) : ids = l1 := by
  induction h generalizing l1 with
  | root =>
    cases h' with
    | root => rfl
    | inlined hp => exact absurd hp (by decide)
  | inlined hp hc _ ih =>
    cases h' with
    | root => exact absurd hp (by decide)
    | inlined _ hc' h' =>
      rw [hc] at hc'
      cases hc'
      rw [ih h']

/-- A chain up to one of its ids is the chain of that id. -/
theorem upTo (h : t.Chain y (l1 ++ id :: l2)) : t.Chain id (l1 ++ [id]) := by
  generalize hl : l1 ++ id :: l2 = l at h
  induction h generalizing l2 with
  | root =>
    have hln := congrArg List.length hl
    simp only [length_append, length_cons, length_nil] at hln
    obtain rfl : l1 = [] := eq_nil_of_length_eq_zero (by omega)
    cases hl
    exact .root
  | @inlined y caller ids hp hcl hc ih =>
    rcases eq_nil_or_concat l2 with rfl | ⟨l3, z, rfl⟩
    · obtain ⟨rfl, hz⟩ := append_inj' hl rfl
      cases hz
      exact .inlined hp hcl hc
    · rw [concat_eq_append, ← cons_append, ← append_assoc] at hl
      exact ih (append_inj' hl rfl).1

theorem nodup (h : t.Chain id ids) : ids.Nodup := by
  induction h with
  | root => simp
  | @inlined id caller ids hp hcl hc ih =>
    rw [nodup_append]
    refine ⟨ih, by simp, fun a ha b hb hab => ?_⟩
    rw [mem_singleton] at hb
    subst hab hb
    -- the id would have a shorter chain
    obtain ⟨l1, l2, rfl⟩ := append_of_mem ha
    have hl := congrArg List.length (hc.upTo.unique (.inlined hp hcl hc))
    simp only [length_append, length_cons, length_nil] at hl
    omega

theorem pos_of_mem_tail (h : t.Chain id ids) {z : Int} (hz : z ∈ ids.tail) : 0 < z := by
  induction h with
  | root => cases hz
  | inlined hp _ hc ih =>
    obtain ⟨l, rfl⟩ := hc.exists_cons
    rw [cons_append, tail_cons, mem_append, mem_singleton] at hz
    rcases hz with hz | rfl
    · exact ih hz
    · exact hp

theorem bounds (h : t.Chain id ids) (ht : t.IsTree) {z : Int} (hz : z ∈ ids) :
    0 ≤ z ∧ z < t.callerInlineId.length := by
  have hn := ht.positions
  induction h with
  | root =>
    rw [mem_singleton] at hz
    omega
  | inlined hp hc _ ih =>
    rw [mem_append, mem_singleton] at hz
    rcases hz with hz | rfl
    · exact ih hz
    · have hlt := (List.getElem?_eq_some_iff.1 (atIndex_ok.1 hc).2).1
      omega

theorem length_le (h : t.Chain id ids) (ht : t.IsTree) : ids.length ≤ t.callerInlineId.length := by
  have hi : (ids.map Int.toNat).Nodup := by
    refine h.nodup.map_on fun a ha b hb hab => ?_
    have := h.bounds ht ha
    have := h.bounds ht hb
    omega
  have hsb : (ids.map Int.toNat).toFinset ⊆ Finset.range t.callerInlineId.length := by
    intro k hk
    rw [mem_toFinset, mem_map] at hk
    obtain ⟨z, hz, rfl⟩ := hk
    have := h.bounds ht hz
    rw [Finset.mem_range]
    omega
  have hc := Finset.card_le_card hsb
  rwa [toFinset_card_of_nodup hi, Finset.card_range, length_map] at hc

/-- Chains with the same id at one place agree up to there. -/
theorem take_eq {x : Int} {l : List Int} {i : Nat} (h : t.Chain y ids) (h' : t.Chain x l)
    (hi : ids[i]? = l[i]?) (hlt : i < l.length) : ids.take (i + 1) = l.take (i + 1) := by
  have hl : l[i]? = some l[i] := getElem?_eq_getElem hlt
  obtain ⟨hlt', hv⟩ := List.getElem?_eq_some_iff.1 (hi.trans hl)
  have hid : t.Chain l[i] (ids.take i ++ [l[i]]) := by
    refine @upTo F t l[i] y (ids.take i) (ids.drop (i + 1)) ?_
    rw [← hv, ← drop_eq_getElem_cons, take_append_drop]
    exact h
  have hl' : t.Chain l[i] (l.take i ++ [l[i]]) := by
    refine @upTo F t l[i] x (l.take i) (l.drop (i + 1)) ?_
    rw [← drop_eq_getElem_cons, take_append_drop]
    exact h'
  rw [take_succ_eq_append_getElem hlt', take_succ_eq_append_getElem hlt, hv]
  exact hid.unique hl'

end Inlining.Chain

/-! ## Opcodes that do not advance -/

namespace CodeSourceMapBuilder

open CodeSourceMapReader

variable {t : Inlining F} {root : F} {b b' b1 : CodeSourceMapBuilder F}
  {ids ids' : List Int} {ps ps' : List TokenPosition} {ops : List (Opcode × Int)}

/-- The state of the reader behind what is written. -/
def writtenState (t : Inlining F) (root : F) (b : CodeSourceMapBuilder F) : State F :=
  ⟨b.writtenPcOffset, t.functions root b.writtenInlineIdStack, b.writtenTokenPosStack⟩

/-- The stream has these opcodes. With the functions found so far, or more, they take the reader to
the written stacks. -/
structure Wrote (t : Inlining F) (root : F) (b : CodeSourceMapBuilder F)
    (ops : List (Opcode × Int)) : Prop where
  stream : b.stream = encodeOps ops
  small : ∀ o ∈ ops, CodeSourceMapOps.InRange o.2
  passes : ∀ functions pc, b.inlinedFunctions <+: functions → b.writtenPcOffset ≤ pc →
    Passes functions pc (start root) ops (writtenState t root b)

/-- What may be added to the stream changes the written stacks only. -/
structure Emits (t : Inlining F) (root : F) (b : CodeSourceMapBuilder F) (ids : List Int)
    (ps : List TokenPosition) (b' : CodeSourceMapBuilder F) : Prop where
  ops : ∀ ops, Wrote t root b ops → ∃ more, Wrote t root b' (ops ++ more)
  functions : b.inlinedFunctions <+: b'.inlinedFunctions
  ids : b'.writtenInlineIdStack = ids
  positions : b'.writtenTokenPosStack = ps
  pc : b'.writtenPcOffset = b.writtenPcOffset
  bufferedPc : b'.bufferedPcOffset = b.bufferedPcOffset
  bufferedIds : b'.bufferedInlineIdStack = b.bufferedInlineIdStack
  bufferedPositions : b'.bufferedTokenPosStack = b.bufferedTokenPosStack

theorem Emits.refl (b : CodeSourceMapBuilder F) :
    Emits t root b b.writtenInlineIdStack b.writtenTokenPosStack b where
  ops ops h := ⟨[], by rwa [List.append_nil]⟩
  functions := prefix_rfl
  ids := rfl
  positions := rfl
  pc := rfl
  bufferedPc := rfl
  bufferedIds := rfl
  bufferedPositions := rfl

theorem Emits.trans (h : Emits t root b ids ps b1) (h' : Emits t root b1 ids' ps' b') :
    Emits t root b ids' ps' b' where
  ops ops hw := by
    obtain ⟨more, hw⟩ := h.ops ops hw
    obtain ⟨more', hw⟩ := h'.ops _ hw
    exact ⟨more ++ more', by rwa [← append_assoc]⟩
  functions := h.functions.trans h'.functions
  ids := h'.ids
  positions := h'.positions
  pc := h'.pc.trans h.pc
  bufferedPc := h'.bufferedPc.trans h.bufferedPc
  bufferedIds := h'.bufferedIds.trans h.bufferedIds
  bufferedPositions := h'.bufferedPositions.trans h.bufferedPositions

/-- One more opcode. -/
theorem Wrote.concat {op : Opcode} {arg : Int} (h : Wrote t root b ops)
    (ha : CodeSourceMapOps.InRange arg)
    (hst : b'.stream = b.stream ++ write (CodeSourceMapOps.encode op arg))
    (hfn : b.inlinedFunctions <+: b'.inlinedFunctions)
    (hpc : b.writtenPcOffset ≤ b'.writtenPcOffset)
    (hsp : ∀ functions pc, b'.inlinedFunctions <+: functions → b'.writtenPcOffset ≤ pc →
      step functions pc (writtenState t root b) op arg = .ok (some (writtenState t root b'))) :
    Wrote t root b' (ops ++ [(op, arg)]) where
  stream := by rw [hst, h.stream, encodeOps_append]; simp [encodeOps]
  small o ho := by
    rw [mem_append, mem_singleton] at ho
    rcases ho with ho | rfl
    · exact h.small o ho
    · exact ha
  passes functions pc hf hle :=
    (h.passes functions pc (hfn.trans hf) (by omega)).append
      ⟨_, hsp functions pc hf hle, rfl⟩

theorem writeOp_ends (op : Opcode) (arg : Int) :
    Ends (b.writeOp op arg)
      (fun b' => CodeSourceMapOps.InRange arg ∧
        b' = { b with stream := b.stream ++ write (CodeSourceMapOps.encode op arg) })
      (· = .argument) := by
  rw [writeOp, CodeSourceMapOps.write]
  split_ifs with h
  · exact ⟨h, rfl⟩
  · rfl

theorem exists_last {l : List α} (h : l ≠ []) : ∃ x, last l = .ok x :=
  ⟨_, by rw [last, getLast?_eq_getLast_of_ne_nil h]⟩

theorem writeChangePosition_ends (t : Inlining F) (root : F) (hps : b.writtenTokenPosStack ≠ [])
    (pos : TokenPosition) :
    Ends (b.writeChangePosition pos)
      (Emits t root b b.writtenInlineIdStack (setLast b.writtenTokenPosStack pos))
      (· = .argument) := by
  obtain ⟨p, hp⟩ := exists_last hps
  rw [writeChangePosition, hp]
  refine (writeOp_ends .changePosition _).bind fun b' hb => ?_
  obtain ⟨ha, rfl⟩ := hb
  refine ⟨fun ops h => ⟨_, h.concat ha rfl prefix_rfl le_rfl fun functions pc _ _ => ?_⟩,
    prefix_rfl, rfl, rfl, rfl, rfl, rfl, rfl⟩
  simp only [step, writtenState, hp]
  change Except.ok _ = _
  simp only [Int32.ofInt_toInt, Int32.sub_add_cancel]

theorem writePop_ends (t : Inlining F) (root : F) (hi : 2 ≤ b.writtenInlineIdStack.length)
    (hps : b.writtenTokenPosStack.length = b.writtenInlineIdStack.length) :
    Ends b.writePop (Emits t root b b.writtenInlineIdStack.dropLast b.writtenTokenPosStack.dropLast)
      (· = .argument) := by
  refine (writeOp_ends .popFunction 0).bind fun b' hb => ?_
  obtain ⟨ha, rfl⟩ := hb
  refine ⟨fun ops h => ⟨_, h.concat ha rfl prefix_rfl le_rfl fun functions pc _ _ => ?_⟩,
    prefix_rfl, rfl, rfl, rfl, rfl, rfl, rfl⟩
  have hne : b.writtenInlineIdStack.tail ≠ [] := by
    intro h
    have := congrArg List.length h
    rw [length_tail, length_nil] at this
    omega
  rw [step, if_pos]
  · simp only [writtenState, Inlining.functions, tail_dropLast, map_dropLast]
    rw [dropLast_cons_of_ne_nil (map_eq_nil_iff.not.2 hne)]
  · simp only [writtenState, Inlining.functions, length_cons, length_map, length_tail]
    omega

theorem getFunctionId_ok [DecidableEq F] {id : Int} {fn : F}
    (h : atIndex t.inlineIdToFunction id = .ok fn) :
    ∃ fs i, getFunctionId t b id = .ok ({ b with inlinedFunctions := fs }, i) ∧
      b.inlinedFunctions <+: fs ∧ fs[i]? = some fn := by
  by_cases hlt : b.inlinedFunctions.idxOf fn < b.inlinedFunctions.length
  · refine ⟨b.inlinedFunctions, b.inlinedFunctions.idxOf fn, ?_, prefix_rfl, ?_⟩
    · rw [getFunctionId, h]
      exact if_pos hlt
    · rw [getElem?_eq_getElem hlt, getElem_idxOf hlt]
  · refine ⟨b.inlinedFunctions ++ [fn], b.inlinedFunctions.length, ?_, prefix_append .., by simp⟩
    rw [getFunctionId, h]
    exact if_neg hlt

theorem writePush_ends (t : Inlining F) (root : F) [DecidableEq F] {id : Int}
    (his : b.writtenInlineIdStack ≠ [])
    (h0 : 0 ≤ id) (hid : id < t.inlineIdToFunction.length) :
    Ends (b.writePush t id)
      (Emits t root b (b.writtenInlineIdStack ++ [id])
        (b.writtenTokenPosStack ++ [.kDartCodePrologue])) (· = .argument) := by
  have hg := getElem?_eq_getElem (show id.toNat < t.inlineIdToFunction.length by omega)
  obtain ⟨fs, i, hok, hp, hfs⟩ := @getFunctionId_ok F t b _ id _ (atIndex_ok.2 ⟨h0, hg⟩)
  rw [writePush, hok]
  refine (writeOp_ends .pushFunction _).bind fun b' hb => ?_
  obtain ⟨ha, rfl⟩ := hb
  refine ⟨fun ops h => ⟨_, h.concat ha rfl hp le_rfl fun functions pc hf _ => ?_⟩,
    hp, rfl, rfl, rfl, rfl, rfl, rfl⟩
  have hfn : functions[i]? = some (t.inlineIdToFunction[id.toNat]) := by
    obtain ⟨rest, rfl⟩ := hf
    exact (getElem?_append_left (List.getElem?_eq_some_iff.1 hfs).1).trans hfs
  rw [step, atIndex_natCast hfn]
  simp only [writtenState, Inlining.functions, tail_append_of_ne_nil his, map_append,
    map_singleton, hg]
  rfl

theorem writeNullCheck_ends (t : Inlining F) (root : F) (nameIndex : Int) :
    Ends (b.writeNullCheck nameIndex)
      (Emits t root b b.writtenInlineIdStack b.writtenTokenPosStack) (· = .argument) := by
  refine (writeOp_ends .nullCheck nameIndex).imp (fun b' hb => ?_)
  obtain ⟨ha, rfl⟩ := hb
  exact ⟨fun ops h => ⟨_, h.concat ha rfl prefix_rfl le_rfl fun functions pc _ _ => rfl⟩,
    prefix_rfl, rfl, rfl, rfl, rfl, rfl, rfl⟩

/-! ## Flushing -/

/-- The search ends at a place where the stacks match, if their bases do. -/
theorem commonIndex_some {buffered written : List Int} (hbs : buffered[0]? = written[0]?)
    (hne : 0 < written.length) {n : Nat} (hn : 0 < n) :
    ∃ i < n, commonIndex buffered written n = some i ∧ i < written.length ∧
      buffered[i]? = written[i]? := by
  induction n with
  | zero => omega
  | succ n ih =>
    rw [commonIndex]
    split_ifs with h
    · exact ⟨n, by omega, rfl, h⟩
    have hn : 0 < n := by
      rcases Nat.eq_zero_or_pos n with rfl | hn
      · exact absurd ⟨hne, hbs⟩ h
      · exact hn
    obtain ⟨i, hi, h⟩ := ih hn
    exact ⟨i, by omega, h⟩

theorem writePops_ends (t : Inlining F) (root : F) {n : Nat}
    (hn : n < b.writtenInlineIdStack.length)
    (hps : b.writtenTokenPosStack.length = b.writtenInlineIdStack.length) :
    Ends (writePops n b)
      (Emits t root b (b.writtenInlineIdStack.take (b.writtenInlineIdStack.length - n))
        (b.writtenTokenPosStack.take (b.writtenInlineIdStack.length - n))) (· = .argument) := by
  induction n generalizing b with
  | zero =>
    rw [Nat.sub_zero, take_length, ← hps, take_length]
    exact Emits.refl b
  | succ n ih =>
    refine (writePop_ends t root (by omega) hps).bind fun b1 h1 => ?_
    have hl := congrArg List.length h1.ids
    have hl' := congrArg List.length h1.positions
    rw [length_dropLast] at hl hl'
    refine (ih (by omega) (by omega)).imp (fun b' h' => h1.trans ?_)
    rw [h1.ids, h1.positions, length_dropLast, dropLast_eq_take, dropLast_eq_take,
      take_take, take_take, hps, Nat.sub_right_comm, Nat.sub_sub, Nat.min_eq_left (by omega)] at h'
    exact h'

theorem flushPosition_ends (t : Inlining F) (root : F) {j : Nat} {p : TokenPosition}
    (hp : b.bufferedTokenPosStack[j]? = some p) (hl : b.writtenTokenPosStack.length = j + 1) :
    Ends (b.flushPosition j)
      (Emits t root b b.writtenInlineIdStack (b.writtenTokenPosStack.take j ++ [p]))
      (· = .argument) := by
  have hq := getElem?_eq_getElem (show j < b.writtenTokenPosStack.length by omega)
  have hst : ∀ q, setLast b.writtenTokenPosStack q = b.writtenTokenPosStack.take j ++ [q] := by
    intro q
    rw [setLast, dropLast_eq_take, hl, Nat.add_sub_cancel]
  simp only [flushPosition, atIndex_natCast hp, ok_bind, atIndex_natCast hq]
  split_ifs with hne
  · rw [← hst]
    exact writeChangePosition_ends t root (ne_nil_of_length_pos (by omega)) p
  · rw [not_not] at hne
    rw [hne, ← take_succ_eq_append_getElem, ← hl, take_length]
    exact Emits.refl b

/-- The lowest `j` frames are written, up to the position of the top one. -/
def Aligned (b : CodeSourceMapBuilder F) (j : Nat) : Prop :=
  b.writtenInlineIdStack = b.bufferedInlineIdStack.take j ∧
    ∃ p, b.writtenTokenPosStack = b.bufferedTokenPosStack.take (j - 1) ++ [p]

section
variable (t : Inlining F) (root : F) (ht : t.IsTree) (hb : ∃ x, t.Chain x b.bufferedInlineIdStack)
  (hps : b.bufferedTokenPosStack.length = b.bufferedInlineIdStack.length)
include ht hb hps

theorem flushPush_ends [DecidableEq F] {j : Nat} (hj : 0 < j)
    (hlt : j < b.bufferedInlineIdStack.length) (h : Aligned b j) :
    Ends (flushPush t b j) (fun b' => (∃ ids ps, Emits t root b ids ps b') ∧ Aligned b' (j + 1))
      (· = .argument) := by
  obtain ⟨x, hb⟩ := hb
  obtain ⟨hi, p, hp⟩ := h
  have hq := getElem?_eq_getElem (show j - 1 < b.bufferedTokenPosStack.length by omega)
  have hid := getElem?_eq_getElem hlt
  have hbn := hb.bounds ht (getElem_mem hlt)
  have hpo : ((j : Int) - 1) = ((j - 1 : Nat) : Int) := by omega
  rw [flushPush, hpo]
  have hl : b.writtenTokenPosStack.length = j - 1 + 1 := by
    rw [hp, length_append, length_take, length_singleton]
    omega
  refine (flushPosition_ends t root hq hl).bind fun b1 h1 => ?_
  rw [h1.bufferedIds, atIndex_natCast hid]
  refine (writePush_ends t root ?_ hbn.1 (by rw [ht.functions]; exact hbn.2)).imp
    (fun b' h' => ⟨⟨_, _, h1.trans h'⟩, ?_, .kDartCodePrologue, ?_⟩)
  · rw [h1.ids, hi]
    exact ne_nil_of_length_pos (by rw [length_take]; omega)
  · rw [h'.ids, h1.ids, hi, h'.bufferedIds, h1.bufferedIds, take_succ_eq_append_getElem hlt]
  have htk : b.writtenTokenPosStack.take (j - 1) = b.bufferedTokenPosStack.take (j - 1) := by
    rw [hp, take_append_of_le_length (by rw [length_take]; omega), take_take, Nat.min_self]
  rw [h'.positions, h1.positions, h'.bufferedPositions, h1.bufferedPositions, htk,
    ← take_succ_eq_append_getElem, Nat.sub_add_cancel hj, Nat.add_sub_cancel]

theorem flushPushes_ends [DecidableEq F] {n j : Nat} (hj : 0 < j)
    (hn : j + n = b.bufferedInlineIdStack.length) (h : Aligned b j) :
    Ends ((List.range' j n).foldlM (flushPush t) b)
      (fun b' => (∃ ids ps, Emits t root b ids ps b') ∧ Aligned b' b.bufferedInlineIdStack.length)
      (· = .argument) := by
  induction n generalizing b j with
  | zero => exact ⟨⟨_, _, Emits.refl b⟩, by rwa [← hn]⟩
  | succ n ih =>
    rw [range'_succ, foldlM_cons]
    refine (flushPush_ends t root ht hb hps hj (by omega) h).bind fun b1 h1 => ?_
    obtain ⟨⟨ids, ps, h1⟩, ha⟩ := h1
    have hi := h1.bufferedIds
    have hp := h1.bufferedPositions
    refine (ih (by rwa [hi]) (by rwa [hi, hp]) (succ_pos j) (by rw [hi]; omega)
      ha).imp (fun b' h' => ?_)
    obtain ⟨⟨ids', ps', h'⟩, ha'⟩ := h'
    exact ⟨⟨ids', ps', h1.trans h'⟩, by rwa [← hi]⟩

end

/-- What a flush does. At the pc offsets that were pending the reader finds the buffered frames. -/
structure Flushed (t : Inlining F) (root : F) (b b' : CodeSourceMapBuilder F) : Prop where
  ops : ∀ ops, Wrote t root b ops → ∃ more, Wrote t root b' (ops ++ more) ∧
    ∀ pc, b.writtenPcOffset ≤ pc → pc < b.bufferedPcOffset →
      ∃ s : State F, s.functionStack = t.functions root b.bufferedInlineIdStack ∧
        s.tokenPositions = b.bufferedTokenPosStack ∧
        ∀ functions, b'.inlinedFunctions <+: functions →
          Stops functions pc (start root) (ops ++ more) s
  functions : b.inlinedFunctions <+: b'.inlinedFunctions
  ids : b'.writtenInlineIdStack = b.bufferedInlineIdStack
  positions : b'.writtenTokenPosStack = b.bufferedTokenPosStack
  pc : b'.writtenPcOffset = b.bufferedPcOffset
  bufferedPc : b'.bufferedPcOffset = b.bufferedPcOffset
  bufferedIds : b'.bufferedInlineIdStack = b.bufferedInlineIdStack
  bufferedPositions : b'.bufferedTokenPosStack = b.bufferedTokenPosStack

/-- The stacks are written, and the pc offset follows. -/
theorem Emits.flushPc (h : Emits t root b b.bufferedInlineIdStack b.bufferedTokenPosStack b1)
    (hpc : b.writtenPcOffset ≤ b.bufferedPcOffset) :
    Ends (if b1.bufferedPcOffset ≠ b1.writtenPcOffset then
        b1.writeAdvancePC (b1.bufferedPcOffset - b1.writtenPcOffset)
      else return b1) (Flushed t root b) (· = .argument) := by
  rw [h.bufferedPc, h.pc]
  split_ifs with hne
  · refine (writeOp_ends .advancePC _).bind fun b' hb => ?_
    obtain ⟨ha, rfl⟩ := hb
    refine ⟨fun ops hw => ?_, h.functions, h.ids, h.positions, ?_, h.bufferedPc, h.bufferedIds,
      h.bufferedPositions⟩
    · obtain ⟨more, hw⟩ := h.ops ops hw
      refine ⟨more ++ [(.advancePC, b.bufferedPcOffset - b.writtenPcOffset)], ?_, ?_⟩
      · rw [← append_assoc]
        refine hw.concat ha rfl prefix_rfl ?_ fun functions pc _ hle => ?_
        · change b1.writtenPcOffset ≤ b1.writtenPcOffset + _
          omega
        · exact if_neg (Int.not_lt.2 hle)
      · intro pc hle hlt
        refine ⟨writtenState t root b1, by rw [writtenState, h.ids], h.positions,
          fun functions hf => ⟨ops ++ more, _, [], (append_assoc ..).symm,
            hw.passes functions pc hf (by rw [h.pc]; exact hle), ?_⟩⟩
        change pc < b1.writtenPcOffset + _
        rw [h.pc]
        omega
    · change b1.writtenPcOffset + _ = _
      rw [h.pc]
      omega
  · rw [not_not] at hne
    refine ⟨fun ops hw => ?_, h.functions, h.ids, h.positions, by rw [h.pc, hne], h.bufferedPc,
      h.bufferedIds, h.bufferedPositions⟩
    obtain ⟨more, hw⟩ := h.ops ops hw
    exact ⟨more, hw, fun pc hle hlt => by omega⟩

theorem take_positions (t : Inlining F) (ids : List Int) (top : TokenPosition) {i : Nat}
    (hi : i < ids.length) :
    (t.positions ids top).take i = (ids.take (i + 1)).tail.map t.callPosition := by
  cases ids with
  | nil => exact absurd hi (Nat.not_lt_zero i)
  | cons z l =>
    rw [Inlining.positions, take_succ_cons, tail_cons, tail_cons,
      take_append_of_le_length (by rw [length_map]; exact le_of_lt_succ hi), map_take]

theorem length_positions (t : Inlining F) {ids : List Int} (top : TokenPosition)
    (h : 0 < ids.length) : (t.positions ids top).length = ids.length := by
  rw [Inlining.positions, length_append, length_map, length_tail, length_singleton]
  omega

/-- **A flush writes the buffered state.** -/
theorem flushBuffer_writes [DecidableEq F] {x y : Int} {top top' : TokenPosition} (ht : t.IsTree)
    (hb : t.Chain x b.bufferedInlineIdStack)
    (hbp : b.bufferedTokenPosStack = t.positions b.bufferedInlineIdStack top)
    (hw : t.Chain y b.writtenInlineIdStack)
    (hwp : b.writtenTokenPosStack = t.positions b.writtenInlineIdStack top')
    (hpc : b.writtenPcOffset ≤ b.bufferedPcOffset) :
    Ends (b.flushBuffer t) (Flushed t root b) (· = .argument) := by
  obtain ⟨l, hl⟩ := hb.exists_cons
  obtain ⟨l', hl'⟩ := hw.exists_cons
  have hbs : 0 < b.bufferedInlineIdStack.length := by rw [hl]; exact succ_pos _
  have hws : 0 < b.writtenInlineIdStack.length := by rw [hl']; exact succ_pos _
  have hbl := hbp ▸ length_positions t top hbs
  have hwl := hwp ▸ length_positions t top' hws
  obtain ⟨i, hi, hc, hiw, heq⟩ :=
    @commonIndex_some b.bufferedInlineIdStack b.writtenInlineIdStack (by rw [hl, hl']; rfl)
      hws _ hbs
  have htk := hb.take_eq hw heq hiw
  rw [flushBuffer, hc]
  refine (writePops_ends t root (by omega) hwl).bind fun b1 h1 => ?_
  rw [Nat.sub_sub_self (by omega)] at h1
  have ha : Aligned b1 (i + 1) := by
    refine ⟨by rw [h1.ids, h1.bufferedIds, htk], b.writtenTokenPosStack[i], ?_⟩
    rw [h1.positions, h1.bufferedPositions, Nat.add_sub_cancel, hbp,
      take_positions t _ _ hi, htk, ← take_positions t _ top' hiw, ← hwp,
      take_succ_eq_append_getElem]
  have hid := h1.bufferedIds
  have hpo := h1.bufferedPositions
  refine (flushPushes_ends t root ht ⟨x, by rwa [hid]⟩ (by rw [hid, hpo]; exact hbl)
    (succ_pos i)
    (by rw [hid]; omega) ha).bind fun b2 h2 => ?_
  obtain ⟨⟨ids, ps, h2⟩, ha2, p, hp⟩ := h2
  have h2 := h1.trans h2
  rw [hid] at ha2 hp
  rw [h2.bufferedIds, take_length] at ha2
  rw [h2.bufferedPositions] at hp
  have hls := getElem?_eq_getElem
    (show b.bufferedInlineIdStack.length - 1 < b.bufferedTokenPosStack.length by omega)
  have hin : (b2.bufferedTokenPosStack.length : Int) - 1 =
      ((b.bufferedInlineIdStack.length - 1 : Nat) : Int) := by
    rw [h2.bufferedPositions]
    omega
  rw [hin]
  have hln : b2.writtenTokenPosStack.length = b.bufferedInlineIdStack.length - 1 + 1 := by
    rw [hp, length_append, length_take, length_singleton]
    omega
  refine (flushPosition_ends t root (by rw [h2.bufferedPositions]; exact hls) hln).bind
    fun b3 h3 => ?_
  rw [ha2, hp, take_append_of_le_length (by rw [length_take]; omega), take_take,
    Nat.min_self, ← take_succ_eq_append_getElem, Nat.sub_add_cancel hbs, ← hbl, take_length] at h3
  exact (h2.trans h3).flushPc hpc

end CodeSourceMapBuilder

end Vm
