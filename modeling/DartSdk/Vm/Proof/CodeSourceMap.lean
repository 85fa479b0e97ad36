import DartSdk.Vm.Proof.CodeSourceMapFlush

/-!
# Code source maps give the frames of each range

A call of the builder that advances closes the range from the pc offset reached before. Up to the
written pc offset the reader finds the frames of each closed range; from there on the closed ranges
have the frames of the buffered stacks.

* `CodeSourceMapBuilder.Inv`: the invariant, kept by each call.
* `CodeSourceMapBuilder.getInlinedFunctionsAt_spec`: the reader returns the chain of inlined
  functions of each closed range.
* `CodeSourceMapBuilder.getInlinedFunctionsAt_overwritten`: a descriptor changes the position of a
  pending range.
-/

namespace Vm

open Fallible List Nat

variable {F : Type}

/-- A real or synthetic position and an id of the tree. -/
structure InstructionSource.Valid (t : Inlining F) (source : InstructionSource) : Prop where
  position : source.tokenPos.isReal ∨ source.tokenPos.isSynthetic
  nonneg : 0 ≤ source.inliningId
  lt : source.inliningId < t.callerInlineId.length

namespace CodeSourceMapBuilder

open CodeSourceMapReader

/-! ## Ranges -/

namespace Call

def pcOffset : Call → Int
  | .beginCodeSourceRange pcOffset _ | .endCodeSourceRange pcOffset _
  | .noteDescriptor _ pcOffset _ | .noteNullCheck pcOffset _ _ => pcOffset

def source : Call → InstructionSource
  | .beginCodeSourceRange _ source | .endCodeSourceRange _ source
  | .noteDescriptor _ _ source | .noteNullCheck _ source _ => source

/-- The call notes a source at its pc offset. -/
def notes : Call → Bool
  | .beginCodeSourceRange _ _ | .endCodeSourceRange _ _ => false
  | .noteDescriptor kind _ _ => canThrow kind
  | .noteNullCheck _ _ _ => true

/-- The call advances to its pc offset. -/
def advances : Call → Bool
  | .endCodeSourceRange _ _ => true
  | c => c.notes

end Call

variable {t : Inlining F} {root : F} {b b' b1 : CodeSourceMapBuilder F} {ids : List Int}
  {source : InstructionSource} {calls : List Call} {pc x pcOffset : Int}
  {D D' : Int → InstructionSource → Prop} {top : TokenPosition}

/-- The pc offset that the calls advance to. -/
def reached (calls : List Call) : Int :=
  calls.foldl (fun pc c => if c.advances then c.pcOffset else pc) 0

/-- The pc offset is in the range that a call closes with the source. -/
def Closed (calls : List Call) (pc : Int) (source : InstructionSource) : Prop :=
  ∃ pre c post, calls = pre ++ c :: post ∧ c.advances ∧ c.source = source ∧ reached pre ≤ pc ∧
    pc < c.pcOffset

/-- No range is pending, or the source has another inlining id or the position of the range. -/
def Clean (b : CodeSourceMapBuilder F) (source : InstructionSource) : Prop :=
  b.bufferedPcOffset = b.writtenPcOffset ∨
    b.bufferedInlineIdStack.getLast? ≠ some source.inliningId ∨
    b.bufferedTokenPosStack.getLast? = some source.tokenPos

theorem reached_concat (calls : List Call) (c : Call) :
    reached (calls ++ [c]) = if c.advances then c.pcOffset else reached calls := by
  rw [reached, List.foldl_append]
  rfl

/-- The ranges closed by one more call. -/
theorem closed_concat {c : Call} (h : Closed (calls ++ [c]) pc source) :
    Closed calls pc source ∨
      (c.advances ∧ c.source = source ∧ reached calls ≤ pc ∧ pc < c.pcOffset) := by
  obtain ⟨pre, d, post, heq, h⟩ := h
  rcases eq_nil_or_concat post with rfl | ⟨post, z, rfl⟩
  · obtain ⟨rfl, hd⟩ := append_inj' heq rfl
    cases hd
    exact .inr h
  · rw [concat_eq_append, ← cons_append, ← append_assoc] at heq
    exact .inl ⟨pre, d, post, (append_inj' heq rfl).1, h⟩

/-! ## The invariant -/

/-- The reader stops at the pc offset with the frames of the source. -/
def Answers (t : Inlining F) (root : F) (fs : List F) (ops : List (Opcode × Int)) (pc : Int)
    (source : InstructionSource) : Prop :=
  ∃ ids, t.Chain source.inliningId ids ∧ ∃ s : State F, s.functionStack = t.functions root ids ∧
    s.tokenPositions = t.positions ids source.tokenPos ∧
    ∀ functions, fs <+: functions → Stops functions pc (start root) ops s

theorem Answers.append {fs fs' : List F} {ops more : List (Opcode × Int)}
    (h : Answers t root fs ops pc source) (hfs : fs <+: fs') :
    Answers t root fs' (ops ++ more) pc source := by
  obtain ⟨ids, hi, s, h1, h2, h⟩ := h
  exact ⟨ids, hi, s, h1, h2, fun functions hf => (h functions (hfs.trans hf)).append⟩

/-- The builder, when the pc offsets with `D` are in closed ranges. -/
structure Inv (t : Inlining F) (root : F) (D : Int → InstructionSource → Prop)
    (b : CodeSourceMapBuilder F) : Prop where
  ids : ∃ x, t.Chain x b.bufferedInlineIdStack
  positions : ∃ top, b.bufferedTokenPosStack = t.positions b.bufferedInlineIdStack top
  writtenIds : ∃ y, t.Chain y b.writtenInlineIdStack
  writtenPositions : ∃ top, b.writtenTokenPosStack = t.positions b.writtenInlineIdStack top
  pc_le : b.writtenPcOffset ≤ b.bufferedPcOffset
  below : ∀ pc source, D pc source → pc < b.bufferedPcOffset
  pending : ∀ pc source, D pc source → b.writtenPcOffset ≤ pc →
    t.Chain source.inliningId b.bufferedInlineIdStack ∧
      b.bufferedTokenPosStack = t.positions b.bufferedInlineIdStack source.tokenPos
  written : ∃ ops, Wrote t root b ops ∧ ∀ pc source, D pc source → pc < b.writtenPcOffset →
    Answers t root b.inlinedFunctions ops pc source

theorem inv_init (hD : ∀ pc source, ¬ D pc source) :
    Inv t root D ({} : CodeSourceMapBuilder F) where
  ids := ⟨0, .root⟩
  positions := ⟨.kDartCodePrologue, rfl⟩
  writtenIds := ⟨0, .root⟩
  writtenPositions := ⟨.kDartCodePrologue, rfl⟩
  pc_le := le_rfl
  below pc source h := absurd h (hD pc source)
  pending pc source h := absurd h (hD pc source)
  written := by
    refine ⟨[], ⟨rfl, fun o ho => absurd ho not_mem_nil, fun functions pc _ _ => rfl⟩, ?_⟩
    exact fun pc source h => absurd h (hD pc source)

theorem Inv.mono (h : Inv t root D b) (hD : ∀ pc source, D' pc source → D pc source) :
    Inv t root D' b where
  ids := h.ids
  positions := h.positions
  writtenIds := h.writtenIds
  writtenPositions := h.writtenPositions
  pc_le := h.pc_le
  below pc source hd := h.below pc source (hD pc source hd)
  pending pc source hd := h.pending pc source (hD pc source hd)
  written := by
    obtain ⟨ops, hw, h⟩ := h.written
    exact ⟨ops, hw, fun pc source hd => h pc source (hD pc source hd)⟩

theorem Flushed.inv (h : Inv t root D b) (hf : Flushed t root b b') : Inv t root D b' where
  ids := by rw [hf.bufferedIds]; exact h.ids
  positions := by rw [hf.bufferedIds, hf.bufferedPositions]; exact h.positions
  writtenIds := by rw [hf.ids]; exact h.ids
  writtenPositions := by rw [hf.ids, hf.positions]; exact h.positions
  pc_le := by rw [hf.pc, hf.bufferedPc]
  below pc source hd := by rw [hf.bufferedPc]; exact h.below pc source hd
  pending pc source hd hle := by
    have := h.below pc source hd
    rw [hf.pc] at hle
    omega
  written := by
    obtain ⟨ops, hw, ha⟩ := h.written
    obtain ⟨more, hw', hp⟩ := hf.ops ops hw
    refine ⟨ops ++ more, hw', fun pc source hd _ => ?_⟩
    by_cases hlt : pc < b.writtenPcOffset
    · exact (ha pc source hd hlt).append hf.functions
    have hle := Int.not_lt.1 hlt
    obtain ⟨hi, hps⟩ := h.pending pc source hd hle
    obtain ⟨s, hs, hs', hst⟩ := hp pc hle (h.below pc source hd)
    exact ⟨_, hi, s, hs, hs'.trans hps, hst⟩

theorem Emits.inv (h : Inv t root D b)
    (he : Emits t root b b.writtenInlineIdStack b.writtenTokenPosStack b') : Inv t root D b' where
  ids := by rw [he.bufferedIds]; exact h.ids
  positions := by rw [he.bufferedIds, he.bufferedPositions]; exact h.positions
  writtenIds := by rw [he.ids]; exact h.writtenIds
  writtenPositions := by rw [he.ids, he.positions]; exact h.writtenPositions
  pc_le := by rw [he.pc, he.bufferedPc]; exact h.pc_le
  below pc source hd := by rw [he.bufferedPc]; exact h.below pc source hd
  pending pc source hd hle := by
    rw [he.bufferedIds, he.bufferedPositions]
    exact h.pending pc source hd (he.pc ▸ hle)
  written := by
    obtain ⟨ops, hw, ha⟩ := h.written
    obtain ⟨more, hw'⟩ := he.ops ops hw
    exact ⟨ops ++ more, hw', fun pc source hd hlt =>
      (ha pc source hd (he.pc ▸ hlt)).append he.functions⟩

theorem Inv.flushBuffer [DecidableEq F] (ht : t.IsTree) (h : Inv t root D b) :
    Ends (b.flushBuffer t) (fun b' => Inv t root D b' ∧ Flushed t root b b') (· = .argument) := by
  obtain ⟨x, hx⟩ := h.ids
  obtain ⟨top, htp⟩ := h.positions
  obtain ⟨y, hy⟩ := h.writtenIds
  obtain ⟨top', htp'⟩ := h.writtenPositions
  exact (flushBuffer_writes ht hx htp hy htp' h.pc_le).imp (fun b' hf => ⟨hf.inv h, hf⟩)

/-- While nothing is pending the buffered stacks may change. -/
theorem Inv.setStacks (h : Inv t root D b) (hpc : b.writtenPcOffset = b.bufferedPcOffset)
    (hi : t.Chain x ids) :
    Inv t root D { b with
      bufferedInlineIdStack := ids, bufferedTokenPosStack := t.positions ids top } where
  ids := ⟨x, hi⟩
  positions := ⟨top, rfl⟩
  writtenIds := h.writtenIds
  writtenPositions := h.writtenPositions
  pc_le := h.pc_le
  below := h.below
  pending pc source hd hle := by
    have := h.below pc source hd
    change b.writtenPcOffset ≤ pc at hle
    omega
  written := by
    obtain ⟨ops, hw, ha⟩ := h.written
    exact ⟨ops, ⟨hw.stream, hw.small, hw.passes⟩, ha⟩

/-- The ranges, and one more with the source. -/
def Extended (D : Int → InstructionSource → Prop) (first pcOffset : Int)
    (source : InstructionSource) (pc : Int) (src : InstructionSource) : Prop :=
  D pc src ∨ src = source ∧ first ≤ pc ∧ pc < pcOffset

/-- The range up to the pc offset gets the frames of the buffered stacks. -/
theorem Inv.advance (h : Inv t root D b) (hpc : b.bufferedPcOffset ≤ pcOffset)
    (hi : t.Chain source.inliningId b.bufferedInlineIdStack)
    (hps : b.bufferedTokenPosStack = t.positions b.bufferedInlineIdStack source.tokenPos) :
    Inv t root (Extended D b.bufferedPcOffset pcOffset source)
      (b.bufferAdvancePC (pcOffset - b.bufferedPcOffset)) where
  ids := h.ids
  positions := h.positions
  writtenIds := h.writtenIds
  writtenPositions := h.writtenPositions
  pc_le := by
    have := h.pc_le
    simp only [bufferAdvancePC]
    omega
  below pc src hd := by
    simp only [bufferAdvancePC]
    rcases hd with hd | ⟨-, -, hlt⟩
    · have := h.below pc src hd
      omega
    · omega
  pending pc src hd hle := by
    rcases hd with hd | ⟨rfl, -, -⟩
    · exact h.pending pc src hd hle
    · exact ⟨hi, hps⟩
  written := by
    obtain ⟨ops, hw, ha⟩ := h.written
    refine ⟨ops, ⟨hw.stream, hw.small, hw.passes⟩, fun pc src hd hlt => ?_⟩
    rcases hd with hd | ⟨-, hle, -⟩
    · exact ha pc src hd hlt
    · have := h.pc_le
      change pc < b.writtenPcOffset at hlt
      omega

/-! ## Inlining intervals -/

theorem findCommonParent_succeeds {y : Int} {sk : List Int} {fuel : Nat}
    (hst : t.Chain y sk) (h : t.Chain x ids) (hf : ids.length ≤ fuel) :
    Succeeds (findCommonParent t sk fuel x) fun r => r.1 ∈ sk ∧
      ∃ l, t.Chain r.1 l ∧ ids = l ++ r.2.reverse := by
  induction h generalizing fuel with
  | root =>
    obtain ⟨fuel, rfl⟩ := exists_eq_succ_of_ne_zero (show fuel ≠ 0 by rintro rfl; simp at hf)
    obtain ⟨l, rfl⟩ := hst.exists_cons
    exact ⟨(0, []), if_pos mem_cons_self, mem_cons_self, [0], .root, rfl⟩
  | @inlined id caller ids hp hcl hc ih =>
    rw [length_append, length_singleton] at hf
    obtain _ | fuel := fuel
    · omega
    rw [findCommonParent]
    split_ifs with hm
    · exact ⟨_, rfl, hm, _, .inlined hp hcl hc, (List.append_nil _).symm⟩
    rw [hcl]
    refine (ih (by omega)).bind fun r hr => .pure ?_
    obtain ⟨hm, l, hl, rfl⟩ := hr
    exact ⟨hm, l, hl, by rw [reverse_cons, append_assoc]⟩

/-- Frames above the common parent are popped. -/
theorem bufferPopTo_eq {p : Int} {l m : List Int} {ps qs : List TokenPosition} {fuel : Nat}
    (hi : b.bufferedInlineIdStack = l ++ [p] ++ m) (hps : b.bufferedTokenPosStack = ps ++ qs)
    (hln : m.length = qs.length) (hm : p ∉ m) (hf : m.length < fuel) :
    bufferPopTo p fuel b =
      .ok { b with bufferedInlineIdStack := l ++ [p], bufferedTokenPosStack := ps } := by
  induction m using List.reverseRecOn generalizing b qs fuel with
  | nil =>
    obtain _ | fuel := fuel
    · omega
    obtain rfl : qs = [] := eq_nil_of_length_eq_zero hln.symm
    rw [List.append_nil] at hi hps
    rw [bufferPopTo, last, hi, getLast?_concat]
    change (if p ≠ p then _ else Except.ok b) = _
    rw [if_neg (by simp), ← hi, ← hps]
  | append_singleton m z ih =>
    obtain _ | fuel := fuel
    · omega
    rw [length_append, length_singleton] at hln hf
    rw [mem_append, mem_singleton, not_or] at hm
    rcases eq_nil_or_concat qs with rfl | ⟨qs, q, rfl⟩
    · simp at hln
    rw [concat_eq_append] at hps hln
    rw [length_append, length_singleton] at hln
    rw [bufferPopTo, last, hi, ← append_assoc, getLast?_concat]
    change (if z ≠ p then _ else _) = _
    rw [if_pos (Ne.symm hm.2), @ih b.bufferPop qs fuel ?_ ?_ (by omega) hm.1 (by omega)]
    · rfl
    · simp [bufferPop, hi, ← append_assoc]
    · simp [bufferPop, hps, ← append_assoc]

/-- Of a chain, the chain of the common parent is left. -/
theorem bufferPopTo_chain {p : Int} (hi : t.Chain x b.bufferedInlineIdStack)
    (hps : ∃ top, b.bufferedTokenPosStack = t.positions b.bufferedInlineIdStack top)
    (hme : p ∈ b.bufferedInlineIdStack) :
    ∃ l top, t.Chain p l ∧ bufferPopTo p (b.bufferedInlineIdStack.length + 1) b =
      .ok { b with bufferedInlineIdStack := l, bufferedTokenPosStack := t.positions l top } := by
  obtain ⟨top, hps⟩ := hps
  have hln := length_positions t top (length_pos_of_mem hme)
  obtain ⟨l, m, hsp⟩ := append_of_mem hme
  have hn := hsp ▸ hi.nodup
  rw [nodup_append, nodup_cons] at hn
  rw [← hps, hsp, length_append, length_cons] at hln
  have hlt : l.length < b.bufferedTokenPosStack.length := by omega
  have htk : b.bufferedTokenPosStack.take (l.length + 1) =
      t.positions (l ++ [p]) b.bufferedTokenPosStack[l.length] := by
    rw [take_succ_eq_append_getElem hlt, Inlining.positions]
    congr 1
    rw [hps, take_positions t _ _ (by rw [hsp, length_append, length_cons]; omega),
      hsp, append_cons, take_left' (by simp)]
  refine ⟨l ++ [p], b.bufferedTokenPosStack[l.length], (hsp ▸ hi).upTo, ?_⟩
  rw [← htk]
  refine bufferPopTo_eq (by rw [hsp, append_cons])
    (take_append_drop (l.length + 1) _).symm ?_ hn.2.1.1 ?_
  · rw [length_drop]
    omega
  · rw [hsp, length_append, length_cons]
    omega

theorem atIndex_callPosition {z : Int} (ht : t.IsTree) (hp : 0 < z)
    (hlt : z < t.callerInlineId.length) :
    atIndex t.inlineIdToTokenPos (z - 1) = .ok (t.callPosition z) := by
  have hn := ht.positions
  have hg := getElem?_eq_getElem (show (z - 1).toNat < t.inlineIdToTokenPos.length by omega)
  exact atIndex_ok.2 ⟨by omega, by rw [Inlining.callPosition, hg]; rfl⟩

/-- The callees are pushed, each with the position of its call in the frame below. -/
theorem pushCallees_succeeds {calleeIds : List Int} (ht : t.IsTree)
    (hi : b.bufferedInlineIdStack ≠ [])
    (hps : b.bufferedTokenPosStack = t.positions b.bufferedInlineIdStack top)
    (hc : ∀ z ∈ calleeIds, 0 < z ∧ z < t.callerInlineId.length) :
    Succeeds (calleeIds.foldlM (pushCallee t) b) fun b' => ∃ top, b' = { b with
      bufferedInlineIdStack := b.bufferedInlineIdStack ++ calleeIds
      bufferedTokenPosStack := t.positions (b.bufferedInlineIdStack ++ calleeIds) top } := by
  induction calleeIds generalizing b top with
  | nil => exact ⟨b, rfl, top, by rw [List.append_nil, ← hps]⟩
  | cons z l ih =>
    obtain ⟨hpo, hlt⟩ := hc z mem_cons_self
    have hp : pushCallee t b z = .ok { b with
        bufferedInlineIdStack := b.bufferedInlineIdStack ++ [z]
        bufferedTokenPosStack :=
          t.positions (b.bufferedInlineIdStack ++ [z]) .kDartCodePrologue } := by
      rw [pushCallee, atIndex_callPosition ht hpo hlt]
      change Except.ok _ = _
      simp only [bufferChangePosition, bufferPush, setLast, hps, Inlining.positions,
        dropLast_concat, tail_append_of_ne_nil hi, map_append, map_singleton]
    rw [foldlM_cons, hp]
    refine (ih (by simp) rfl fun z hz => hc z (.tail _ hz)).imp fun b' h => ?_
    obtain ⟨top', rfl⟩ := h
    refine ⟨top', ?_⟩
    simp

/-- **An inlining interval starts.** The buffered stack is the chain of the id; if it was another
one, nothing is pending. -/
theorem Inv.startInliningInterval [DecidableEq F] (ht : t.IsTree) (h : Inv t root D b)
    (hs : source.Valid t) :
    Ends (b.startInliningInterval t source)
      (fun b' => Inv t root D b' ∧ t.Chain source.inliningId b'.bufferedInlineIdStack ∧
        b'.bufferedPcOffset = b.bufferedPcOffset ∧
        (b' = b ∨ b'.writtenPcOffset = b'.bufferedPcOffset)) (· = .argument) := by
  obtain ⟨x, hx⟩ := h.ids
  obtain ⟨l, hl⟩ := hx.exists_concat
  have hls : last b.bufferedInlineIdStack = .ok x := by rw [last, hl, getLast?_concat]
  have hps : ¬ ((!source.tokenPos.isReal && !source.tokenPos.isSynthetic) = true) := by
    have := hs.position
    revert this
    cases source.tokenPos.isReal <;> cases source.tokenPos.isSynthetic <;> decide
  rw [CodeSourceMapBuilder.startInliningInterval, if_neg hps]
  simp only [hls, ok_bind]
  split_ifs with heq hn
  · exact ⟨h, heq ▸ hx, rfl, .inl rfl⟩
  · exact absurd hs.nonneg (Int.not_le.2 hn)
  refine (h.flushBuffer ht).bind fun b1 hb1 => ?_
  obtain ⟨h1, hf⟩ := hb1
  obtain ⟨ids, hi⟩ := ht.chain _ hs.nonneg hs.lt
  have hst : t.Chain x b1.bufferedInlineIdStack := by rwa [hf.bufferedIds]
  refine (findCommonParent_succeeds hst hi (le_succ_of_le (hi.length_le ht))).ends.bind
    fun r hr => ?_
  obtain ⟨p, toPush⟩ := r
  obtain ⟨hm, l1, hl1, rfl⟩ := hr
  obtain ⟨l2, top, hl2, hpo⟩ := bufferPopTo_chain hst h1.positions hm
  obtain rfl := hl1.unique hl2
  rw [hpo]
  refine (pushCallees_succeeds ht ?_ rfl fun z hz => ⟨?_, ?_⟩).ends.imp (fun b2 hb2 => ?_)
  · obtain ⟨l, rfl⟩ := hl1.exists_cons
    exact cons_ne_nil _ _
  · obtain ⟨l, rfl⟩ := hl1.exists_cons
    exact hi.pos_of_mem_tail (mem_append_right l hz)
  · exact (hi.bounds ht (mem_append_right _ hz)).2
  · obtain ⟨top', rfl⟩ := hb2
    have hpc : b1.writtenPcOffset = b1.bufferedPcOffset := hf.pc.trans hf.bufferedPc.symm
    exact ⟨h1.setStacks hpc hi, hi, hf.bufferedPc, .inr hpc⟩

/-! ## Calls -/

theorem Inv.beginCodeSourceRange [DecidableEq F] (ht : t.IsTree) (h : Inv t root D b)
    (hs : source.Valid t) :
    Ends (b.beginCodeSourceRange t source)
      (fun b' => Inv t root D b' ∧ b'.bufferedPcOffset = b.bufferedPcOffset) (· = .argument) :=
  (h.startInliningInterval ht hs).imp (fun _ h' => ⟨h'.1, h'.2.2.1⟩)

/-- The position of the source is put at the top, and the pc offset advances. The position may
change only while nothing is pending. -/
theorem Inv.changePosition (h : Inv t root D b)
    (hi : t.Chain source.inliningId b.bufferedInlineIdStack)
    (htp : b.bufferedTokenPosStack = t.positions b.bufferedInlineIdStack top)
    (hc : b.writtenPcOffset = b.bufferedPcOffset ∨ top = source.tokenPos)
    (hpc : b.bufferedPcOffset ≤ pcOffset) :
    Inv t root (Extended D b.bufferedPcOffset pcOffset source)
      ((b.bufferChangePosition source.tokenPos).bufferAdvancePC
        (pcOffset - b.bufferedPcOffset)) := by
  have hst : setLast b.bufferedTokenPosStack source.tokenPos =
      t.positions b.bufferedInlineIdStack source.tokenPos := by
    rw [htp, setLast, Inlining.positions, dropLast_concat]
    rfl
  have hch : Inv t root D (b.bufferChangePosition source.tokenPos) := by
    rw [bufferChangePosition, hst]
    rcases hc with hc | rfl
    · exact h.setStacks hc hi
    · rw [← htp]
      exact h
  exact hch.advance hpc hi hst

theorem last_positions (t : Inlining F) (ids : List Int) (top : TokenPosition) :
    last (t.positions ids top) = .ok top := by
  rw [last, Inlining.positions, getLast?_concat]

section
variable (ht : t.IsTree) (h : Inv t root D b)
include ht h

theorem Inv.endCodeSourceRange [DecidableEq F]
    (hs : source.Valid t) (hpc : b.bufferedPcOffset ≤ pcOffset) :
    Ends (b.endCodeSourceRange t pcOffset source)
      (fun b' => Inv t root (Extended D b.bufferedPcOffset pcOffset source) b' ∧
        b'.bufferedPcOffset = pcOffset) (· = .argument) := by
  rw [CodeSourceMapBuilder.endCodeSourceRange]
  split_ifs with he
  · refine ⟨h.mono fun pc src hd => ?_, he.symm⟩
    rcases hd with hd | ⟨-, hle, hlt⟩
    · exact hd
    · omega
  refine (h.startInliningInterval ht hs).bind fun b1 hb1 => ?_
  obtain ⟨h1, hi, hpc1, -⟩ := hb1
  obtain ⟨top, htp⟩ := h1.positions
  rw [htp, last_positions, ← hpc1]
  rw [← hpc1] at hpc
  change Ends (if source.tokenPos ≠ top then _ else _) _ _
  split_ifs with hne
  · refine (h1.flushBuffer ht).bind fun b2 hb2 => ?_
    obtain ⟨h2, hf⟩ := hb2
    rw [← hf.bufferedPc] at hpc ⊢
    rw [← hf.bufferedIds] at hi htp
    rw [← hf.bufferedPositions] at htp
    refine ⟨h2.changePosition hi htp (.inl (hf.pc.trans hf.bufferedPc.symm)) hpc, ?_⟩
    simp only [bufferChangePosition, bufferAdvancePC]
    omega
  · rw [not_not] at hne
    refine ⟨h1.advance hpc hi (hne ▸ htp), ?_⟩
    simp only [bufferAdvancePC]
    omega

theorem Inv.noteSource [DecidableEq F] (hs : source.Valid t)
    (hc : Clean b source) (hpc : b.bufferedPcOffset ≤ pcOffset) :
    Ends (b.noteSource t pcOffset source)
      (fun b' => Inv t root (Extended D b.bufferedPcOffset pcOffset source) b' ∧
        b'.bufferedPcOffset = pcOffset) (· = .argument) := by
  refine (h.startInliningInterval ht hs).bind fun b1 hb1 => ?_
  obtain ⟨h1, hi, hpc1, hsm⟩ := hb1
  obtain ⟨top, htp⟩ := h1.positions
  have hp : b1.writtenPcOffset = b1.bufferedPcOffset ∨ top = source.tokenPos := by
    rcases hsm with rfl | hpc
    · rcases hc with hc | hc | hc
      · exact .inl hc.symm
      · obtain ⟨l, hl⟩ := hi.exists_concat
        exact absurd (by rw [hl, getLast?_concat]) hc
      · rw [htp, Inlining.positions, getLast?_concat] at hc
        exact .inr (Option.some.inj hc)
    · exact .inl hpc
  rw [← hpc1] at hpc ⊢
  refine ((h1.changePosition hi htp hp hpc).flushBuffer ht).imp (fun b2 hb2 => ?_)
  refine ⟨hb2.1, hb2.2.bufferedPc.trans ?_⟩
  simp only [bufferChangePosition, bufferAdvancePC]
  omega

/-- **A call keeps the invariant**, and one that advances closes its range. -/
theorem Inv.call [DecidableEq F] {c : Call}
    (hs : c.source.Valid t) (hcl : c.notes → Clean b c.source)
    (hpc : b.bufferedPcOffset ≤ c.pcOffset) :
    Ends (call t b c)
      (fun b' => Inv t root
          (if c.advances then Extended D b.bufferedPcOffset c.pcOffset c.source else D) b' ∧
        b'.bufferedPcOffset = if c.advances then c.pcOffset else b.bufferedPcOffset)
      (· = .argument) := by
  cases c with
  | beginCodeSourceRange pcOffset source => exact h.beginCodeSourceRange ht hs
  | endCodeSourceRange pcOffset source => exact h.endCodeSourceRange ht hs hpc
  | noteDescriptor kind pcOffset source =>
    cases hk : canThrow kind with
    | false =>
      simp only [CodeSourceMapBuilder.call, noteDescriptor, Call.advances, Call.notes, hk]
      exact ⟨h, rfl⟩
    | true =>
      simp only [CodeSourceMapBuilder.call, noteDescriptor, Call.advances, Call.notes, hk]
      exact h.noteSource ht hs (hcl hk) hpc
  | noteNullCheck pcOffset source nameIndex =>
    refine (h.noteSource ht hs (hcl rfl) hpc).bind fun b1 hb1 => ?_
    refine (writeNullCheck_ends t root nameIndex).imp (fun b2 he => ?_)
    exact ⟨he.inv hb1.1, he.bufferedPc.trans hb1.2⟩

end

/-! ## Runs -/

/-- Each note is clean when it is made. -/
def CleanRun [DecidableEq F] (t : Inlining F) (calls : List Call) : Prop :=
  ∀ pre c post b, calls = pre ++ c :: post → c.notes → run t pre = .ok b → Clean b c.source

theorem reached_le (h : ∀ c ∈ calls, c.pcOffset ≤ pc) (h0 : 0 ≤ pc) : reached calls ≤ pc := by
  induction calls using List.reverseRecOn with
  | nil => exact h0
  | append_singleton calls c ih =>
    rw [reached_concat]
    split_ifs
    · exact h c (by simp)
    · exact ih fun c hc => h c (mem_append_left _ hc)

/-- **The run lemma.** -/
theorem run_inv [DecidableEq F] (ht : t.IsTree) (root : F)
    (hpc : (0 :: calls.map Call.pcOffset).Pairwise (· ≤ ·)) (hs : ∀ c ∈ calls, c.source.Valid t)
    (hcl : CleanRun t calls) :
    Ends (run t calls) (fun b => Inv t root (Closed calls) b ∧ b.bufferedPcOffset = reached calls)
      (· = .argument) := by
  induction calls using List.reverseRecOn with
  | nil =>
    refine ⟨inv_init fun pc source h => ?_, rfl⟩
    obtain ⟨pre, c, post, h, -⟩ := h
    simp at h
  | append_singleton calls c ih =>
    rw [map_append, ← cons_append, pairwise_append] at hpc
    have hp : CleanRun t calls := fun pre d post b heq =>
      hcl pre d (post ++ [c]) b (by rw [heq, append_assoc]; rfl)
    have ih := ih hpc.1 (fun d hd => hs d (mem_append_left _ hd)) hp
    have hle : reached calls ≤ c.pcOffset := by
      refine reached_le (fun d hd => ?_) ?_
      · exact hpc.2.2 _ (mem_cons_of_mem _ (mem_map_of_mem hd)) _ (by simp)
      · exact hpc.2.2 _ mem_cons_self _ (by simp)
    have hru : run t (calls ++ [c]) = run t calls >>= fun b => call t b c := by
      rw [run, foldlM_append]
      exact bind_congr fun b => bind_pure _
    rw [hru]
    cases hb : run t calls with
    | error e => rw [hb] at ih; exact ih
    | ok b =>
      rw [hb] at ih
      obtain ⟨hi, hr⟩ := ih
      refine (hi.call ht (hs c (by simp)) (fun hc => hcl calls c [] b rfl hc hb)
        (by rwa [hr])).imp (fun b' h => ?_)
      rw [hr] at h
      refine ⟨h.1.mono fun pc source hcs => ?_, h.2.trans (reached_concat calls c).symm⟩
      split_ifs with ha
      · rcases closed_concat hcs with hd | ⟨-, hsr, hrn⟩
        · exact .inl hd
        · exact .inr ⟨hsr.symm, hrn⟩
      · rcases closed_concat hcs with hd | ⟨ha', -⟩
        · exact hd
        · exact absurd ha' ha

/-- The map is built and read. -/
def lookup [DecidableEq F] (t : Inlining F) (root : F) (calls : List Call) (pc : Int) :
    Except Failure (List F × List TokenPosition) := do
  let b ← run t calls
  let (map, functions) ← b.finalize t
  getInlinedFunctionsAt functions root map pc

/-- **Each closed range is read back.** If each note is clean, then at each pc offset of a range the
reader returns the inlining chain of the source that closed it, with the call position at each
caller and the position of the source at the top, unless an argument is outside of the asserted
range. -/
theorem getInlinedFunctionsAt_spec [DecidableEq F] {calls : List Call} (ht : t.IsTree) (root : F)
    (hpc : (0 :: calls.map Call.pcOffset).Pairwise (· ≤ ·)) (hs : ∀ c ∈ calls, c.source.Valid t)
    (hclean : CleanRun t calls) {pc : Int} (h : Closed calls pc source) :
    Ends (lookup t root calls pc)
      (fun r => ∃ ids, t.Chain source.inliningId ids ∧
        r = (t.functions root ids, t.positions ids source.tokenPos)) (· = .argument) := by
  refine (run_inv ht root hpc hs hclean).bind fun b hb => ?_
  have hlt := hb.1.below pc source h
  rw [finalize, bind_assoc]
  refine (hb.1.flushBuffer ht).bind fun b' hb' => ?_
  obtain ⟨ops, hw, ha⟩ := hb'.1.written
  obtain ⟨ids, hi, s, hfs, hps, hst⟩ := ha pc source h (by rw [hb'.2.pc]; exact hlt)
  change Ends (getInlinedFunctionsAt b'.inlinedFunctions root b'.stream pc) _ _
  rw [hw.stream, getInlinedFunctionsAt_stops hw.small (hst _ prefix_rfl)]
  exact ⟨ids, hi, by rw [hfs, hps]⟩

/-- A function with one inlined call. -/
def oneCall : Inlining Bool := ⟨[-1, 0], [⟨7⟩], [false, true]⟩

theorem oneCall_isTree : oneCall.IsTree where
  chain id h0 h := by
    simp only [oneCall, length_cons, length_nil] at h
    have hid : id = 0 ∨ id = 1 := by omega
    rcases hid with rfl | rfl
    · exact ⟨_, .root⟩
    · exact ⟨_, .inlined (by decide) rfl .root⟩
  functions := rfl
  positions := rfl

def inCallee : InstructionSource := ⟨⟨20⟩, 1⟩

/-- A range of the inlined function that a descriptor of the same source continues. -/
def noted : List Call :=
  [.beginCodeSourceRange 0 inCallee, .endCodeSourceRange 10 inCallee,
    .noteDescriptor .other 14 inCallee, .endCodeSourceRange 18 ⟨⟨8⟩, 0⟩]

theorem valid_noted : ∀ c ∈ noted, c.source.Valid oneCall := by
  intro c hc
  simp only [noted, mem_cons, not_mem_nil, or_false] at hc
  rcases hc with rfl | rfl | rfl | rfl <;> exact ⟨by decide, by decide, by decide⟩

theorem cleanRun_noted : CleanRun oneCall noted := by
  intro pre c post b heq hc hr
  rcases pre with _ | ⟨_, _ | ⟨_, _ | ⟨_, _ | ⟨_, pre⟩⟩⟩⟩
  · cases heq; cases hc
  · cases heq; cases hc
  · cases heq; cases hr; exact .inr (.inr rfl)
  · cases heq; cases hc
  · simp [noted] at heq

theorem getInlinedFunctionsAt_spec_noted :
    oneCall.IsTree ∧ (0 :: noted.map Call.pcOffset).Pairwise (· ≤ ·) ∧
      (∀ c ∈ noted, c.source.Valid oneCall) ∧ CleanRun oneCall noted ∧ Closed noted 5 inCallee ∧
      Ends (lookup oneCall false noted 5)
        (fun r => ∃ ids, oneCall.Chain 1 ids ∧
          r = (oneCall.functions false ids, oneCall.positions ids ⟨20⟩)) (· = .argument) := by
  have hpc : (0 :: noted.map Call.pcOffset).Pairwise (· ≤ ·) := by decide
  have hcl : Closed noted 5 inCallee :=
    ⟨[.beginCodeSourceRange 0 inCallee], _, _, rfl, rfl, rfl, by decide, by decide⟩
  exact ⟨oneCall_isTree, hpc, valid_noted, cleanRun_noted, hcl,
    getInlinedFunctionsAt_spec oneCall_isTree false hpc valid_noted cleanRun_noted hcl⟩

/-- Two instructions of one function, the second a call. -/
def adjacent : List Call :=
  [.beginCodeSourceRange 0 ⟨⟨3⟩, 0⟩, .endCodeSourceRange 10 ⟨⟨3⟩, 0⟩,
    .beginCodeSourceRange 10 ⟨⟨8⟩, 0⟩, .noteDescriptor .other 14 ⟨⟨8⟩, 0⟩,
    .endCodeSourceRange 14 ⟨⟨8⟩, 0⟩]

/-- The opcodes that are written for them. -/
def adjacentOps : List (Opcode × Int) := [(.changePosition, 20), (.advancePC, 14)]

theorem lookup_adjacent : lookup oneCall false adjacent 5 = .ok ([false], [⟨8⟩]) := by
  have hsm : ∀ o ∈ adjacentOps, CodeSourceMapOps.InRange o.2 := by
    intro o ho
    simp only [adjacentOps, mem_cons, not_mem_nil, or_false] at ho
    rcases ho with rfl | rfl <;> exact ⟨by decide, by decide⟩
  have hr := @getInlinedFunctionsAt_stops Bool [] 5 ⟨0, [false], [⟨8⟩]⟩ adjacentOps false hsm
    ⟨[(.changePosition, 20)], 14, [], rfl, ⟨_, rfl, rfl⟩, by decide⟩
  have hm : (run oneCall adjacent >>= finalize oneCall) = .ok (encodeOps adjacentOps, []) := by
    rw [encodeOps, adjacentOps, flatMap_cons, flatMap_cons, flatMap_nil, List.append_nil]
    rfl
  rw [lookup, ← bind_assoc, hm]
  exact hr

/-- **A descriptor overwrites the position of a pending range.** The range from 0 to 10 was closed
with another position. -/
theorem getInlinedFunctionsAt_overwritten :
    oneCall.IsTree ∧ (0 :: adjacent.map Call.pcOffset).Pairwise (· ≤ ·) ∧
      (∀ c ∈ adjacent, c.source.Valid oneCall) ∧ Closed adjacent 5 ⟨⟨3⟩, 0⟩ ∧
      lookup oneCall false adjacent 5 = .ok ([false], [⟨8⟩]) := by
  refine ⟨oneCall_isTree, by decide, fun c hc => ?_, ?_, lookup_adjacent⟩
  · simp only [adjacent, mem_cons, not_mem_nil, or_false] at hc
    rcases hc with rfl | rfl | rfl | rfl | rfl <;> exact ⟨by decide, by decide, by decide⟩
  · exact ⟨[.beginCodeSourceRange 0 ⟨⟨3⟩, 0⟩], _, _, rfl, rfl, rfl, by decide, by decide⟩

end CodeSourceMapBuilder

end Vm
