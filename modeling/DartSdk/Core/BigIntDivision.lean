import DartSdk.Core.BigInt
import Mathlib.Tactic.Ring

/-!
# `_BigIntImpl`: division

`_estimateQuotientDigit`, `_divRem`, `_div`, `_rem` and the operators over them, with the static cache
of the last division. `_estimateQuotientDigit` and `_mulAdd` return the number of digits they
process: their bodies return 1, and the intrinsics that replace them on 64-bit platforms return 2.
The division is modelled for both; `pairs` says whether the intrinsics run.

The loop that lowers an estimated quotient digit has no bound in the source. Here its iterations are
bounded by the number of values of the estimate, and it fails when they are used up.
-/

namespace Core

/-! ## The arguments of `_estimateQuotientDigit` -/

def divisorLowTopDigit : Nat := 0
def divisorTopDigit : Nat := 1
def quotientDigit : Nat := 2
def quotientHighDigit : Nat := 3

/-- `~/` on natural numbers: division by zero is an error. -/
def truncDivNat (n d : Nat) : Option Nat := if d = 0 then none else some (n / d)

/-- `bitLength` of a number that is not negative. -/
def bitLength (n : Nat) : Nat := if n = 0 then 0 else Nat.log2 n + 1

/-- `_estimateQuotientDigit`: the arguments with the estimated digit. -/
def estimateQuotientDigit (args digits : Uint32List) (i : Nat) : Option Uint32List := do
  if (← load digits i) = (← load args divisorTopDigit) then
    store args quotientDigit digitMask
  else
    let digit ← truncDivNat
      (((← load digits i) <<< (digitBits - 1)) ||| ((← load digits (i - 1)) >>> 1))
      ((← load args divisorTopDigit) >>> 1)
    if digit > digitMask then store args quotientDigit digitMask
    else store args quotientDigit digit

/-! ## The intrinsics for pairs of digits -/

/-- The 64 bits at `digits[i .. i + 1]`. -/
def loadPair (digits : Uint32List) (i : Nat) : Option Nat := do
  return (← load digits i) + (← load digits (i + 1)) * digitBase

def storePair (digits : Uint32List) (i value : Nat) : Option Uint32List := do
  store (← store digits i (value % digitBase)) (i + 1) (value / digitBase)

/-- `AsmIntrinsifier::Bigint_estimateQuotientDigit`; `i` is odd. The instruction that divides 128 by
64 bits traps when the quotient does not fit. -/
def estimateQuotientPair (args digits : Uint32List) (i : Nat) : Option Uint32List := do
  let yt ← loadPair args divisorLowTopDigit
  let dh ← loadPair digits (i - 1)
  if dh = yt then storePair args quotientDigit (digitBase ^ 2 - 1)
  else
    let dl ← loadPair digits (i - 3)
    if dh < yt then storePair args quotientDigit ((dh * digitBase ^ 2 + dl) / yt) else none

/-- The first loop of `AsmIntrinsifier::Bigint_mulAdd`, at pair `k`. -/
def mulAddPairStep (x : Nat) (mDigits : Uint32List) (i j : Nat) (aDigits : Uint32List) (c k : Nat) :
    Option (Uint32List × Nat) := do
  let t := x * (← loadPair mDigits (i + 2 * k)) + (← loadPair aDigits (j + 2 * k)) + c
  return (← storePair aDigits (j + 2 * k) (t % digitBase ^ 2), t / digitBase ^ 2)

/-- Its second loop, as `propagateCarry`. -/
def propagateCarryPair : Nat → Uint32List → Nat → Nat → Option Uint32List
  | 0, _, _, _ => none
  | fuel + 1, aDigits, j, c =>
    if c = 0 then some aDigits
    else do
      let t := (← loadPair aDigits j) + c
      propagateCarryPair fuel (← storePair aDigits j (t % digitBase ^ 2)) (j + 2)
        (t / digitBase ^ 2)

/-- `AsmIntrinsifier::Bigint_mulAdd`, without the 2 that it returns. -/
def mulAddPair (xDigits : Uint32List) (xi : Nat) (mDigits : Uint32List) (i : Nat)
    (aDigits : Uint32List) (j n : Nat) : Option Uint32List := do
  let x ← loadPair xDigits xi
  let n := (n + 1) / 2
  if x = 0 ∨ n = 0 then return aDigits
  let (aDigits, c) ← (List.range n).foldlM (fun (aDigits, c) k =>
    mulAddPairStep x mDigits i j aDigits c k) (aDigits, 0)
  propagateCarryPair (aDigits.length + 1) aDigits (j + 2 * n) c

/-! ## The division loop -/

/-- The lists that the division loop writes. -/
structure DivState where
  args : Uint32List
  resultDigits : Uint32List
  tmpDigits : Uint32List
  deriving DecidableEq, Repr

/-- Whether the two digits at `i` are below the estimate. The condition relies on the assertion that
stands before each of its uses. -/
def belowQuotientPair (args resultDigits : Uint32List) (i : Nat) : Option Bool := do
  let high ← load args quotientHighDigit
  if (← load resultDigits i) > high then none
  else return (← load resultDigits i) < high ||
    (← load resultDigits (i - 1)) < (← load args quotientDigit)

/-- `if (args[_quotientDigit] == 0) --args[_quotientHighDigit]; --args[_quotientDigit];` -/
def decrementQuotientPair (args : Uint32List) : Option Uint32List := do
  let digit ← load args quotientDigit
  let args ← if digit = 0 then
      store args quotientHighDigit (((← load args quotientHighDigit) - 1 : Int) % digitBase).toNat
    else some args
  store args quotientDigit ((digit - 1 : Int) % digitBase).toNat

/-- The parts of the division loop that depend on the number `d0` of digits that are processed. -/
structure Width where
  d0 : Nat
  estimateQuotientDigit (args digits : Uint32List) (i : Nat) : Option Uint32List
  mulAdd (xDigits : Uint32List) (xIndex : Nat) (multiplicandDigits : Uint32List) (i : Nat)
    (accumulatorDigits : Uint32List) (j n : Nat) : Option Uint32List
  /-- Whether the digits at `i` are below the estimate. -/
  isBelow (args resultDigits : Uint32List) (i : Nat) : Option Bool
  /-- The same after the estimate is lowered by one. -/
  lower (args resultDigits : Uint32List) (i : Nat) : Option (Uint32List × Bool)

/-- The branch `d0 == 1`. -/
def oneDigit : Width where
  d0 := 1
  estimateQuotientDigit := estimateQuotientDigit
  mulAdd := mulAdd
  isBelow args resultDigits i := do
    return (← load resultDigits i) < (← load args quotientDigit)
  lower args resultDigits i := do
    let digit : Int := (← load args quotientDigit) - 1
    let args ← store args quotientDigit (digit % digitBase).toNat
    return (args, (← load resultDigits i) < digit)

/-- The branch `d0 == 2`. -/
def digitPair : Width where
  d0 := 2
  estimateQuotientDigit := estimateQuotientPair
  mulAdd := mulAddPair
  isBelow := belowQuotientPair
  lower args resultDigits i := do
    let args ← decrementQuotientPair args
    return (args, ← belowQuotientPair args resultDigits i)

/-- The loop that lowers the estimate and subtracts, as long as the result is below it. -/
def lowerQuotient (w : Width) (tmpDigits : Uint32List) (tmpUsed resultUsed i : Nat) :
    Nat → Uint32List → Uint32List → Option (Uint32List × Uint32List)
  | 0, _, _ => none
  | fuel + 1, args, resultDigits => do
    let (args, again) ← w.lower args resultDigits i
    if again then
      lowerQuotient w tmpDigits tmpUsed resultUsed i fuel args
        (← absSub .result resultUsed tmpDigits tmpUsed resultDigits)
    else return (args, resultDigits)

/-- An iteration of the loop `while (j > 0)` of `_divRem`; `j` is the lowered one. -/
def divStep (w : Width) (nyDigits : Uint32List) (yUsed resultUsed j i : Nat) (s : DivState) :
    Option DivState := do
  let args ← w.estimateQuotientDigit s.args s.resultDigits i
  let resultDigits ← w.mulAdd args quotientDigit nyDigits 0 s.resultDigits j yUsed
  if ← w.isBelow args resultDigits i then
    let (tmpDigits, tmpUsed) ← dlShiftDigits (.array nyDigits) yUsed j s.tmpDigits
    let resultDigits ← absSub .result resultUsed tmpDigits tmpUsed resultDigits
    let (args, resultDigits) ← lowerQuotient w tmpDigits tmpUsed resultUsed i (digitBase ^ w.d0)
      args resultDigits
    return ⟨args, resultDigits, tmpDigits⟩
  else return ⟨args, resultDigits, s.tmpDigits⟩

/-- The loop `while (j > 0)`; a `j` that is not a multiple of `d0` ends at a negative index. The
first argument bounds the number of iterations. -/
def divLoop (w : Width) (nyDigits : Uint32List) (yUsed resultUsed : Nat) :
    Nat → Nat → Nat → DivState → Option DivState
  | _, 0, _, s => some s
  | 0, _ + 1, _, _ => none
  | fuel + 1, j + 1, i, s =>
    if j + 1 < w.d0 then none
    else do
      let j := j + 1 - w.d0
      divLoop w nyDigits yUsed resultUsed fuel j (i - w.d0)
        (← divStep w nyDigits yUsed resultUsed j i s)

/-- The digit on top of the normalized dividend: 1 and the shifted divisor is subtracted, or 0. -/
def topQuotientDigit (resultDigits : Uint32List) (resultUsed : Nat) (tmpDigits : Uint32List)
    (tmpUsed : Nat) : Option Uint32List := do
  if (← compareDigits resultDigits resultUsed tmpDigits tmpUsed) ≥ 0 then
    absSub .result (resultUsed + 1) tmpDigits tmpUsed (← store resultDigits resultUsed 1)
  else store resultDigits resultUsed 0

/-- The text of `_divRem` from `var tmpUsed` up to the loop: the explicit first division step. The
result's digits, their number and the temporary digits. -/
def firstDivStep (yDigits : Uint32List) (yUsed : Nat) (resultDigits : Uint32List) (resultUsed : Nat)
    (tmpDigits : Uint32List) : Option (Uint32List × Nat × Uint32List) := do
  let i := resultUsed + (resultUsed &&& 1)
  let j := i - yUsed
  let (tmpDigits, tmpUsed) ← dlShiftDigits (.array yDigits) yUsed j tmpDigits
  let resultDigits ← topQuotientDigit resultDigits resultUsed tmpDigits tmpUsed
  let resultUsed := resultUsed + 1
  return (← clearAboveOdd resultDigits resultUsed, resultUsed, tmpDigits)

/-! ## Normalization -/

/-- `nsh`: the shift that sets the highest bit of the top digit of a divisor and makes the number of
its digits even. -/
def normalizationShift (topDigit used : Nat) : Nat :=
  let nsh := digitBits - bitLength topDigit
  if used % 2 = 1 then nsh + digitBits else nsh

/-- The normalized divisor and the normalized dividend, in new lists (the divisor in its own one if it
is not shifted). -/
def normalizeOperands (digits : Uint32List) (used : Nat) (otherDigits : Uint32List) (otherUsed : Nat)
    (nsh : Nat) : Option (Uint32List × Nat × Uint32List × Nat) := do
  if nsh > 0 then
    let numExtraDigits := (nsh + digitBits - 1) / digitBits + 1
    let (yDigits, yUsed) ← lShiftDigits (.array otherDigits) otherUsed nsh
      (newDigits (otherUsed + numExtraDigits))
    let (resultDigits, resultUsed) ← lShiftDigits (.array digits) used nsh
      (newDigits (used + numExtraDigits))
    return (yDigits, yUsed, resultDigits, resultUsed)
  else
    return (otherDigits, otherUsed, ← cloneDigits digits 0 used (used + 1), used)

/-- `args` with the top digits of the divisor. -/
def initDivArgs (yDigits : Uint32List) (yUsed : Nat) : Option Uint32List := do
  let args ← store (newDigits 4) divisorLowTopDigit (← load yDigits (yUsed - 2))
  store args divisorTopDigit (← load yDigits (yUsed - 1))

/-- `nyDigits`: the negated divisor. -/
def negateDigits (yDigits : Uint32List) (yUsed : Nat) : Option Uint32List := do
  let nyDigits ← store (newDigits (yUsed + 2)) yUsed 1
  absSub .result (yUsed + 1) yDigits yUsed nyDigits

namespace BigIntImpl

variable (pairs : Bool) (a other : BigIntImpl)

/-- The part of `_divRem` after the check of the cache. -/
def computeDivRem : BigIntM DivRemCache := do
  let digits ← digitsAt a.digits
  let otherDigits ← digitsAt other.digits
  let nsh := normalizationShift (← load otherDigits (other.used - 1)) other.used
  let (yDigits, yUsed, resultDigits, resultUsed) ←
    normalizeOperands digits a.used otherDigits other.used nsh
  let args ← initDivArgs yDigits yUsed
  let i := resultUsed + (resultUsed &&& 1)
  let j := i - yUsed
  let (resultDigits, resultUsed, tmpDigits) ←
    firstDivStep yDigits yUsed resultDigits resultUsed (newDigits i)
  let nyDigits ← negateDigits yDigits yUsed
  let w := if pairs then digitPair else oneDigit
  let s ← divLoop w nyDigits yUsed resultUsed j j (i - 1) ⟨args, resultDigits, tmpDigits⟩
  return ⟨a.digits, a.used, other.digits, other.used, s.resultDigits, resultUsed, yUsed, nsh⟩

/-- Whether the result is cached: the lists are compared by their identity. -/
def isCached (c : DivRemCache) : Bool :=
  a.used == c.dividendUsed && other.used == c.divisorUsed && a.digits == c.dividendDigits &&
    other.digits == c.divisorDigits

/-- `_divRem`: the contents of the static fields that hold the result afterwards. -/
def divRem : BigIntM DivRemCache := do
  match (← get).lastDivRem with
  | some c => if a.isCached other c then return c else update
  | none => update
where
  update : BigIntM DivRemCache := do
    let c ← a.computeDivRem pairs other
    modify fun s => { s with lastDivRem := some c }
    return c

/-- `_div`. -/
def div : BigIntM BigIntImpl := do
  if a.used < other.used then return zero
  let c ← a.divRem pairs other
  let quoUsed := c.quoRemUsed - c.remUsed
  let quoDigits ← cloneDigits c.quoRemDigits c.remUsed c.quoRemUsed quoUsed
  let quo ← createNew false quoUsed quoDigits
  if a.isNegative != other.isNegative && quo.used > 0 then quo.neg else return quo

/-- `_rem`. -/
def rem : BigIntM BigIntImpl := do
  if a.used < other.used then return a
  let c ← a.divRem pairs other
  let remDigits ← cloneDigits c.quoRemDigits 0 c.remUsed c.remUsed
  let rem ← createNew false c.remUsed remDigits
  let rem ← if c.remNsh > 0 then rem.shiftRight c.remNsh else pure rem
  if a.isNegative && rem.used > 0 then rem.neg else return rem

/-- `operator ~/`. -/
def truncDiv : BigIntM BigIntImpl := do
  if other.used = 0 then failure
  a.div pairs other

def remainder : BigIntM BigIntImpl := do
  if other.used = 0 then failure
  a.rem pairs other

/-- `operator %`. -/
def mod : BigIntM BigIntImpl := do
  if other.used = 0 then failure
  let result ← a.rem pairs other
  if result.isNegative then
    if other.isNegative then result.sub other else result.add other
  else return result

end BigIntImpl

end Core
