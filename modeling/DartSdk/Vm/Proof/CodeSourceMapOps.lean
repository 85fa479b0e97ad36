import DartSdk.Vm.CodeSourceMap
import DartSdk.Vm.Proof.DataStream

/-!
# The reader of a code source map runs its opcodes

* `CodeSourceMapOps.read_write`: an opcode is read back with its argument.
* `CodeSourceMapReader.Passes`, `CodeSourceMapReader.Stops`: a list of opcodes takes the reader from
  a state to another, or the reader stops in it.
* `CodeSourceMapReader.getInlinedFunctionsAt_stops`: the frames of the state in which the reader
  stops are returned.
-/

namespace Vm

open List CodeSourceMapOps

variable {F : Type} {bs : List UInt8}

/-! ## Opcodes -/

namespace CodeSourceMapOps

/-- What `Write` asserts of an argument. -/
def InRange (arg : Int) : Prop := kMinArgValue ≤ arg ∧ arg ≤ kMaxArgValue

theorem ofByte_toByte (op : Opcode) : ofByte (toByte op) = some op := by
  cases op <;> rfl

theorem toByte_lt (op : Opcode) : toByte op < 8 := by
  cases op <;> decide

theorem fits_encode (op : Opcode) (arg : Int) : Fits 32 (encode op arg) := by
  have h := toByte_lt op
  simp only [Fits, encode, toSigned, kOpBits, kArgBits]
  split_ifs <;> omega

theorem read_write {op : Opcode} {arg : Int} (h : InRange arg) :
    read (Vm.write (encode op arg) ++ bs) = .ok (toByte op, arg, bs) := by
  have hop := toByte_lt op
  obtain ⟨h1, h2⟩ := h
  rw [read, Vm.read_write (by decide) (fits_encode op arg)]
  change Except.ok _ = _
  simp only [kMinArgValue, kMaxArgValue, kOpBits, kArgBits, encode, toSigned] at h1 h2 ⊢
  congr 2
  · split_ifs <;> omega
  · congr 1
    split_ifs <;> omega

end CodeSourceMapOps

/-! ## Lists of opcodes -/

/-- The bytes of a list of opcodes. -/
def encodeOps (ops : List (Opcode × Int)) : List UInt8 :=
  ops.flatMap fun o => write (CodeSourceMapOps.encode o.1 o.2)

theorem encodeOps_append (ops ops' : List (Opcode × Int)) :
    encodeOps (ops ++ ops') = encodeOps ops ++ encodeOps ops' := flatMap_append

theorem encodeOps_cons (o : Opcode × Int) (ops : List (Opcode × Int)) :
    encodeOps (o :: ops) = write (encode o.1 o.2) ++ encodeOps ops :=
  flatMap_cons

theorem length_le_encodeOps (ops : List (Opcode × Int)) : ops.length ≤ (encodeOps ops).length := by
  induction ops with
  | nil => simp
  | cons o ops ih =>
    have := length_write_pos (encode o.1 o.2)
    rw [encodeOps_cons, length_append, length_cons]
    omega

namespace CodeSourceMapReader

variable {fns : List F} {pc : Int} {s s' s₁ : State F} {ops ops' : List (Opcode × Int)}

/-- The reader runs all opcodes, from `s` to `s'`. -/
def Passes (fns : List F) (pc : Int) (s : State F) : List (Opcode × Int) → State F → Prop
  | [], s' => s = s'
  | o :: ops, s' => ∃ s₁, step fns pc s o.1 o.2 = .ok (some s₁) ∧
    Passes fns pc s₁ ops s'

/-- The reader runs some of the opcodes, and the next one advances beyond the pc. -/
def Stops (fns : List F) (pc : Int) (s : State F) (ops : List (Opcode × Int))
    (s' : State F) : Prop :=
  ∃ ops₁ d ops₂, ops = ops₁ ++ (.advancePC, d) :: ops₂ ∧ Passes fns pc s ops₁ s' ∧
    pc < s'.currentPcOffset + d

theorem Passes.append (h : Passes fns pc s ops s₁) (h' : Passes fns pc s₁ ops' s') :
    Passes fns pc s (ops ++ ops') s' := by
  induction ops generalizing s with
  | nil => cases h; exact h'
  | cons o ops ih =>
    obtain ⟨s2, hst, h⟩ := h
    exact ⟨s2, hst, ih h⟩

theorem Stops.append (h : Stops fns pc s ops s') : Stops fns pc s (ops ++ ops') s' := by
  obtain ⟨ops1, d, ops2, rfl, h⟩ := h
  exact ⟨ops1, d, ops2 ++ ops', by rw [append_assoc]; rfl, h⟩

theorem loop_cons {o : Opcode × Int} (fuel : Nat) (ho : InRange o.2) :
    loop fns pc (fuel + 1) s (encodeOps (o :: ops)) =
      (step fns pc s o.1 o.2 >>= fun r => match r with
        | some s => loop fns pc fuel s (encodeOps ops)
        | none => .ok s) := by
  have hp := length_write_pos (encode o.1 o.2)
  rw [encodeOps_cons, loop, if_pos (by rw [length_append]; omega), CodeSourceMapOps.read_write ho]
  dsimp only [bind, Except.bind]
  rw [ofByte_toByte]
  rfl

theorem loop_passes (hop : ∀ o ∈ ops, InRange o.2)
    (h : Passes fns pc s ops s₁) (fuel : Nat) :
    loop fns pc (ops.length + fuel) s (encodeOps (ops ++ ops')) =
      loop fns pc fuel s₁ (encodeOps ops') := by
  induction ops generalizing s with
  | nil => cases h; rw [length_nil, Nat.zero_add]; rfl
  | cons o ops ih =>
    obtain ⟨s2, hst, h⟩ := h
    rw [length_cons, Nat.add_right_comm, cons_append, loop_cons _ (hop o mem_cons_self), hst]
    exact ih (fun o ho => hop o (mem_cons_of_mem _ ho)) h

/-- The state in which the reader starts. -/
def start (root : F) : State F := ⟨0, [root], [.kDartCodePrologue]⟩

/-- **The frames before the pc is passed** are returned if the reader stops. -/
theorem getInlinedFunctionsAt_stops {root : F} (hop : ∀ o ∈ ops, InRange o.2)
    (h : Stops fns pc (start root) ops s') :
    getInlinedFunctionsAt fns root (encodeOps ops) pc =
      .ok (s'.functionStack, s'.tokenPositions) := by
  obtain ⟨ops1, d, ops2, rfl, hp, hpc⟩ := h
  have hl := length_le_encodeOps (ops1 ++ (Opcode.advancePC, d) :: ops2)
  rw [length_append, length_cons] at hl
  obtain ⟨k, hk⟩ := Nat.exists_eq_add_of_le hl
  rw [getInlinedFunctionsAt]
  change (loop fns pc _ (start root) _ >>= _) = _
  rw [hk, show ops1.length + (ops2.length + 1) + k + 1 = ops1.length + (ops2.length + 1 + k + 1) by
      omega,
    loop_passes (fun o ho => hop o (mem_append_left _ ho)) hp,
    loop_cons _ (hop _ (mem_append_right _ mem_cons_self)), step, if_pos hpc]
  rfl

end CodeSourceMapReader

end Vm
