/-!
# `_BigIntImpl`: representation, arithmetic and bitwise operators

`sdk/lib/_internal/vm_shared/lib/bigint_patch.dart`, in the bodies written in Dart, which process one
digit in a step. The intrinsics that replace them in a division are modelled with it.

A `Uint32List` is the list of its elements. While a function fills a list, the list is a local
value; it gets its identity when a `_BigIntImpl` is made of it, and is not written after that. So
the heap of the numbers' lists only grows, and a `Ref` is what `identical` compares. A function that
may get one list both as an operand and as the result takes an `Operand`.

An access outside a list is a range error, and every error is `none`. A loop over an index is a fold
over the indices in the source's order.
-/

namespace Core

/-! ## `Uint32List` -/

abbrev Uint32List := List UInt32

/-- `digits[i]`. -/
def load (digits : Uint32List) (i : Nat) : Option Nat := digits[i]?.map UInt32.toNat

/-- `digits[i] = value`, which keeps the low 32 bits. -/
def store (digits : Uint32List) (i value : Nat) : Option Uint32List :=
  if i < digits.length then some (digits.set i (UInt32.ofNat value)) else none

/-- `_newDigits`: zeros, an even number of them. -/
def newDigits (length : Nat) : Uint32List := List.replicate (length + (length &&& 1)) 0

/-- A list that is read: one of its own, or the one the result is written to. -/
inductive Operand where
  | array (digits : Uint32List)
  | result

def Operand.load (x : Operand) (resultDigits : Uint32List) (i : Nat) : Option Nat :=
  match x with
  | .array digits => Core.load digits i
  | .result => Core.load resultDigits i

/-- `identical(x, resultDigits)`. -/
def Operand.isResult : Operand → Bool
  | .array _ => false
  | .result => true

/-! ## Digits -/

def digitBits : Nat := 32
def digitBase : Nat := 1 <<< digitBits
def digitMask : Nat := (1 <<< digitBits) - 1
def halfDigitBits : Nat := digitBits >>> 1
def halfDigitMask : Nat := (1 <<< halfDigitBits) - 1

/-- `_normalize`: the number of digits without the leading zeros. -/
def normalize : Nat → Uint32List → Option Nat
  | 0, _ => some 0
  | used + 1, digits => do
    if (← load digits used) = 0 then normalize used digits else return used + 1

/-- `_cloneDigits`. -/
def cloneDigits (digits : Uint32List) (start stop length : Nat) : Option Uint32List :=
  (List.range (stop - start)).foldlM (fun resultDigits i => do
    store resultDigits i (← load digits (start + i))) (newDigits length)

/-- The loop of `_compareDigits` below index `i`. -/
def compareBelow (digits otherDigits : Uint32List) : Nat → Option Int
  | 0 => some 0
  | i + 1 => do
    let result : Int := (← load digits i) - (← load otherDigits i)
    if result ≠ 0 then return result else compareBelow digits otherDigits i

variable (digits : Uint32List) (used : Nat) (otherDigits : Uint32List) (otherUsed : Nat)

/-- `_compareDigits`. -/
def compareDigits : Option Int :=
  let result : Int := used - otherUsed
  if result = 0 then compareBelow digits otherDigits used else some result

/-- The end of an iteration that adds up digits: the low digit of the sum is stored at `i`, the rest
is carried. -/
def storeCarry (resultDigits : Uint32List) (i sum : Nat) : Option (Uint32List × Nat) := do
  let resultDigits ← store resultDigits i (sum &&& digitMask)
  return (resultDigits, sum >>> digitBits)

/-- `_absAdd`. -/
def absAdd (resultDigits : Uint32List) : Option Uint32List := do
  let (resultDigits, carry) ← (List.range otherUsed).foldlM (fun (resultDigits, carry) i => do
    storeCarry resultDigits i (carry + ((← load digits i) + (← load otherDigits i))))
    (resultDigits, 0)
  let (resultDigits, carry) ← (List.range' otherUsed (used - otherUsed)).foldlM
    (fun (resultDigits, carry) i => do
      storeCarry resultDigits i (carry + (← load digits i)))
    (resultDigits, carry)
  store resultDigits used carry

/-- As `storeCarry`, for differences: the mask and the shift of a negative number are its remainder
and its quotient, rounded down. -/
def storeBorrow (resultDigits : Uint32List) (i : Nat) (sum : Int) :
    Option (Uint32List × Int) := do
  let resultDigits ← store resultDigits i (sum % digitBase).toNat
  return (resultDigits, sum / digitBase)

/-- `_absSub`. -/
def absSub (digits : Operand) (used : Nat) (otherDigits : Uint32List) (otherUsed : Nat)
    (resultDigits : Uint32List) : Option Uint32List := do
  let (resultDigits, carry) ← (List.range otherUsed).foldlM
    (fun ((resultDigits : Uint32List), (carry : Int)) i => do
      storeBorrow resultDigits i (carry + ((← digits.load resultDigits i) - (← load otherDigits i))))
    (resultDigits, 0)
  let (resultDigits, _) ← (List.range' otherUsed (used - otherUsed)).foldlM
    (fun ((resultDigits : Uint32List), (carry : Int)) i => do
      storeBorrow resultDigits i (carry + (← digits.load resultDigits i)))
    (resultDigits, carry)
  return resultDigits

/-- `if (used.isOdd) digits[used] = 0`: the leading zero for 64-bit processing. -/
def clearAboveOdd : Option Uint32List :=
  if used % 2 = 1 then store digits used 0 else some digits

variable (xDigits : Operand) (xUsed n : Nat) (resultDigits : Uint32List)

/-- `_dlShiftDigits`. -/
def dlShiftDigits : Option (Uint32List × Nat) := do
  if xUsed = 0 then return (resultDigits, 0)
  if n = 0 && xDigits.isResult then return (resultDigits, xUsed)
  let resultUsed := xUsed + n
  let resultDigits ← (List.range xUsed).reverse.foldlM (fun resultDigits i => do
    store resultDigits (i + n) (← xDigits.load resultDigits i)) resultDigits
  let resultDigits ← (List.range n).reverse.foldlM (fun resultDigits i =>
    store resultDigits i 0) resultDigits
  return (← clearAboveOdd resultDigits resultUsed, resultUsed)

/-- `_lsh`. -/
def lsh : Option Uint32List := do
  let digitShift := n / digitBits
  let bitShift := n % digitBits
  let carryBitShift := digitBits - bitShift
  let bitMask := (1 <<< carryBitShift) - 1
  let (resultDigits, carry) ← (List.range xUsed).reverse.foldlM (fun (resultDigits, carry) i => do
    let digit ← xDigits.load resultDigits i
    let resultDigits ←
      store resultDigits (i + digitShift + 1) ((digit >>> carryBitShift) ||| carry)
    return (resultDigits, (digit &&& bitMask) <<< bitShift)) (resultDigits, 0)
  store resultDigits digitShift carry

/-- `_lShiftDigits`. -/
def lShiftDigits : Option (Uint32List × Nat) := do
  let digitsShift := n / digitBits
  let bitShift := n % digitBits
  if bitShift = 0 then dlShiftDigits xDigits xUsed digitsShift resultDigits
  else
    let resultUsed := xUsed + digitsShift + 1
    let resultDigits ← lsh xDigits xUsed n resultDigits
    let resultDigits ← (List.range digitsShift).reverse.foldlM (fun resultDigits i =>
      store resultDigits i 0) resultDigits
    if (← load resultDigits (resultUsed - 1)) = 0 then return (resultDigits, resultUsed - 1)
    else return (← clearAboveOdd resultDigits resultUsed, resultUsed)

/-- `_rsh`. -/
def rsh : Option Uint32List := do
  let digitsShift := n / digitBits
  let bitShift := n % digitBits
  let carryBitShift := digitBits - bitShift
  let bitMask := (1 <<< bitShift) - 1
  let carry := (← xDigits.load resultDigits digitsShift) >>> bitShift
  let last := xUsed - digitsShift - 1
  let (resultDigits, carry) ← (List.range last).foldlM (fun (resultDigits, carry) i => do
    let digit ← xDigits.load resultDigits (i + digitsShift + 1)
    let resultDigits ← store resultDigits i (((digit &&& bitMask) <<< carryBitShift) ||| carry)
    return (resultDigits, digit >>> bitShift)) (resultDigits, carry)
  store resultDigits last carry

/-- The first loop of `_mulAdd`, at position `k`. -/
def mulAddStep (x : Nat) (multiplicandDigits : Uint32List) (i j : Nat)
    (accumulatorDigits : Uint32List) (carry k : Nat) : Option (Uint32List × Nat) := do
  let xl := x &&& halfDigitMask
  let xh := x >>> halfDigitBits
  let ml := (← load multiplicandDigits (i + k)) &&& halfDigitMask
  let mh := (← load multiplicandDigits (i + k)) >>> halfDigitBits
  let ph := xh * ml + mh * xl
  let pl := xl * ml + ((ph &&& halfDigitMask) <<< halfDigitBits) +
    (← load accumulatorDigits (j + k)) + carry
  let carry := (pl >>> digitBits) + (ph >>> halfDigitBits) + xh * mh
  return (← store accumulatorDigits (j + k) (pl &&& digitMask), carry)

/-- The second loop of `_mulAdd`: the carry runs upwards from `j`. The first argument bounds the
number of iterations; the list has no more digits than that. -/
def propagateCarry : Nat → Uint32List → Nat → Nat → Option Uint32List
  | 0, _, _, _ => none
  | fuel + 1, accumulatorDigits, j, carry =>
    if carry = 0 then some accumulatorDigits
    else do
      let l := (← load accumulatorDigits j) + carry
      let carry := l >>> digitBits
      propagateCarry fuel (← store accumulatorDigits j (l &&& digitMask)) (j + 1) carry

/-- `_mulAdd`, without the number of processed digits it returns, which is 1. -/
def mulAdd (xDigits : Uint32List) (xIndex : Nat) (multiplicandDigits : Uint32List) (i : Nat)
    (accumulatorDigits : Uint32List) (j n : Nat) : Option Uint32List := do
  let x ← load xDigits xIndex
  if x = 0 then return accumulatorDigits
  let (accumulatorDigits, carry) ← (List.range n).foldlM (fun (accumulatorDigits, carry) k =>
    mulAddStep x multiplicandDigits i j accumulatorDigits carry k) (accumulatorDigits, 0)
  propagateCarry (accumulatorDigits.length + 1) accumulatorDigits (j + n) carry

/-- The loop of `operator *` and `_mulDigits`: the product is added to the digits of the result. -/
def mulDigitsInto (otherUsed : Nat) (resultDigits : Uint32List) : Option Uint32List :=
  (List.range otherUsed).foldlM (fun resultDigits i =>
    mulAdd otherDigits i digits 0 resultDigits i used) resultDigits

/-! ## Numbers -/

/-- The identity of a published list. -/
abbrev Ref := Nat

/-- `_BigIntImpl`. -/
structure BigIntImpl where
  isNegative : Bool
  digits : Ref
  used : Nat
  deriving DecidableEq, Repr

/-- The static fields that cache the result of the last `_divRem`. -/
structure DivRemCache where
  dividendDigits : Ref
  dividendUsed : Nat
  divisorDigits : Ref
  divisorUsed : Nat
  quoRemDigits : Uint32List
  quoRemUsed : Nat
  remUsed : Nat
  remNsh : Nat
  deriving DecidableEq, Repr

/-- The digits of `zero` and of `one`. -/
def staticDigits : List Uint32List := [[0, 0], [1, 0]]

/-- The published lists, among them those of the static constants, and the cache. -/
structure Statics where
  heap : List Uint32List
  lastDivRem : Option DivRemCache
  statics : staticDigits <+: heap

abbrev BigIntM := StateT Statics Option

/-- The list of a number. -/
def digitsAt (ref : Ref) : BigIntM Uint32List := fun s => do return (← s.heap[ref]?, s)

/-- Gives a list its identity. -/
def publish : BigIntM Ref := fun s =>
  some (s.heap.length, { s with
    heap := s.heap ++ [digits]
    statics := s.statics.trans (List.prefix_append ..) })

namespace BigIntImpl

/-- `_BigIntImpl._normalized`. -/
def normalized (isNegative : Bool) (used : Nat) (digits : Ref) : BigIntImpl :=
  ⟨if used = 0 then false else isNegative, digits, used⟩

/-- `_BigIntImpl._`. -/
def create (isNegative : Bool) (used : Nat) (digits : Ref) : BigIntM BigIntImpl := do
  return normalized isNegative (← normalize used (← digitsAt digits)) digits

/-- `_BigIntImpl._` of a list that is new. -/
def createNew (isNegative : Bool) (used : Nat) (digits : Uint32List) : BigIntM BigIntImpl := do
  create isNegative used (← publish digits)

def zero : BigIntImpl := ⟨false, 0, 0⟩
def one : BigIntImpl := ⟨false, 1, 1⟩
def minusOne : BigIntImpl := ⟨true, 1, 1⟩

variable (a : BigIntImpl)

def isZero : Bool := a.used == 0

/-- The unary `operator -`. -/
def neg : BigIntM BigIntImpl :=
  if a.used = 0 then return a else create (!a.isNegative) a.used a.digits

def abs : BigIntM BigIntImpl := if a.isNegative then a.neg else return a

/-! ### Comparison -/

/-- `_absCompare`. -/
def absCompare (a other : BigIntImpl) : BigIntM Int := do
  compareDigits (← digitsAt a.digits) a.used (← digitsAt other.digits) other.used

def compareTo (a other : BigIntImpl) : BigIntM Int := do
  if a.isNegative = other.isNegative then
    let result ← a.absCompare other
    return if a.isNegative then 0 - result else result
  else return if a.isNegative then -1 else 1

/-! ### Sums and differences of absolute values -/

variable (a other : BigIntImpl) (isNegative : Bool)

/-- `_absAddSetSign` from the test of `used` on. -/
def absAddSetSignOfLe : BigIntM BigIntImpl := do
  if a.used = 0 then return zero
  if other.used = 0 then
    if a.isNegative = isNegative then return a else a.neg
  else
    let resultUsed := a.used + 1
    let resultDigits ← absAdd (← digitsAt a.digits) a.used (← digitsAt other.digits) other.used
      (newDigits resultUsed)
    createNew isNegative resultUsed resultDigits

/-- `_absAddSetSign`. -/
def absAddSetSign : BigIntM BigIntImpl :=
  if a.used < other.used then other.absAddSetSignOfLe a isNegative
  else a.absAddSetSignOfLe other isNegative

/-- `_absSubSetSign`. -/
def absSubSetSign : BigIntM BigIntImpl := do
  if a.used = 0 then return zero
  if other.used = 0 then
    if a.isNegative = isNegative then return a else a.neg
  else
    let resultDigits ← absSub (.array (← digitsAt a.digits)) a.used (← digitsAt other.digits)
      other.used (newDigits a.used)
    createNew isNegative a.used resultDigits

def add : BigIntM BigIntImpl := do
  if a.isZero then return other
  if other.isZero then return a
  if a.isNegative = other.isNegative then a.absAddSetSign other a.isNegative
  else if (← a.absCompare other) ≥ 0 then a.absSubSetSign other a.isNegative
  else other.absSubSetSign a (!a.isNegative)

def sub : BigIntM BigIntImpl := do
  if a.isZero then other.neg
  else if other.isZero then return a
  else if a.isNegative ≠ other.isNegative then a.absAddSetSign other a.isNegative
  else if (← a.absCompare other) ≥ 0 then a.absSubSetSign other a.isNegative
  else other.absSubSetSign a (!a.isNegative)

/-! ### Shifts -/

/-- `_dlShift`. -/
def dlShift (n : Nat) : BigIntM BigIntImpl := do
  if a.used = 0 then return zero
  let resultUsed := a.used + n
  let digits ← digitsAt a.digits
  let resultDigits ← ((List.range a.used).reverse.foldlM (fun resultDigits i => do
    store resultDigits (i + n) (← load digits i)) (newDigits resultUsed) : Option Uint32List)
  createNew a.isNegative resultUsed resultDigits

/-- Whether one of the first `n` digits is not zero: the loops of `_drShift` and `operator >>` that
round down. -/
def anyNonZero (n : Nat) : Option Bool :=
  (List.range n).anyM fun i => do return (← load digits i) ≠ 0

/-- `_drShift`. -/
def drShift (n : Nat) : BigIntM BigIntImpl := do
  if a.used = 0 then return zero
  if a.used ≤ n then return if a.isNegative then minusOne else zero
  let resultUsed := a.used - n
  let digits ← digitsAt a.digits
  let resultDigits ← ((List.range' n (a.used - n)).foldlM (fun resultDigits i => do
    store resultDigits (i - n) (← load digits i)) (newDigits resultUsed) : Option Uint32List)
  let result ← createNew a.isNegative resultUsed resultDigits
  if a.isNegative then
    if ← anyNonZero digits n then result.sub one else return result
  else return result

/-- `operator <<`. -/
def shiftLeft (shiftAmount : Int) : BigIntM BigIntImpl := do
  if shiftAmount < 0 then failure
  if a.isZero then return a
  let shiftAmount := shiftAmount.toNat
  let digitShift := shiftAmount / digitBits
  let bitShift := shiftAmount % digitBits
  if bitShift = 0 then a.dlShift digitShift
  else
    let resultUsed := a.used + digitShift + 1
    let resultDigits ←
      lsh (.array (← digitsAt a.digits)) a.used shiftAmount (newDigits (resultUsed + 1))
    createNew a.isNegative resultUsed resultDigits

/-- `operator >>`. -/
def shiftRight (shiftAmount : Int) : BigIntM BigIntImpl := do
  if shiftAmount < 0 then failure
  if a.isZero then return a
  let shiftAmount := shiftAmount.toNat
  let digitShift := shiftAmount / digitBits
  let bitShift := shiftAmount % digitBits
  if bitShift = 0 then a.drShift digitShift
  else if a.used ≤ digitShift then return if a.isNegative then minusOne else zero
  else
    let resultUsed := a.used - digitShift
    let digits ← digitsAt a.digits
    let resultDigits ← rsh (.array digits) a.used shiftAmount (newDigits (resultUsed + 1))
    let result ← createNew a.isNegative resultUsed resultDigits
    if a.isNegative then
      if (← load digits digitShift) &&& ((1 <<< bitShift) - 1) ≠ 0 then result.sub one
      else if ← anyNonZero digits digitShift then result.sub one
      else return result
    else return result

/-! ### Bitwise operators -/

/-- The digits of two lists combined below `m`: the loops of `_absAndSetSign`, `_absAndNotSetSign`,
`_absOrSetSign` and `_absXorSetSign`. -/
def combineDigits (f : Nat → Nat → Nat) (digits otherDigits : Uint32List) (m : Nat)
    (resultDigits : Uint32List) : Option Uint32List :=
  (List.range m).foldlM (fun resultDigits i => do
    store resultDigits i (f (← load digits i) (← load otherDigits i))) resultDigits

/-- The digits of a list copied from `m` up to `resultUsed`: the second loops of those functions. -/
def copyDigits (m resultUsed : Nat) (resultDigits : Uint32List) : Option Uint32List :=
  (List.range' m (resultUsed - m)).foldlM (fun resultDigits i => do
    store resultDigits i (← load digits i)) resultDigits

/-- `_absAndSetSign`. -/
def absAndSetSign : BigIntM BigIntImpl := do
  let resultUsed := min a.used other.used
  let resultDigits ← combineDigits (· &&& ·) (← digitsAt a.digits) (← digitsAt other.digits)
    resultUsed (newDigits resultUsed)
  createNew isNegative resultUsed resultDigits

/-- `digit & ~otherDigit`. -/
def andNot (digit otherDigit : Nat) : Nat := digit ^^^ (digit &&& otherDigit)

/-- `_absAndNotSetSign`. -/
def absAndNotSetSign : BigIntM BigIntImpl := do
  let resultUsed := a.used
  let digits ← digitsAt a.digits
  let m := min resultUsed other.used
  let resultDigits ← combineDigits andNot digits (← digitsAt other.digits) m (newDigits resultUsed)
  let resultDigits ← copyDigits digits m resultUsed resultDigits
  createNew isNegative resultUsed resultDigits

/-- The common text of `_absOrSetSign` and `_absXorSetSign`, up to the operator. -/
def absCombineSetSign (f : Nat → Nat → Nat) (a other : BigIntImpl) (isNegative : Bool) :
    BigIntM BigIntImpl := do
  let resultUsed := max a.used other.used
  let digits ← digitsAt a.digits
  let otherDigits ← digitsAt other.digits
  let (lDigits, m) := if a.used < other.used then (otherDigits, a.used) else (digits, other.used)
  let resultDigits ← combineDigits f digits otherDigits m (newDigits resultUsed)
  let resultDigits ← copyDigits lDigits m resultUsed resultDigits
  createNew isNegative resultUsed resultDigits

/-- `_absOrSetSign`. -/
def absOrSetSign : BigIntImpl → BigIntImpl → Bool → BigIntM BigIntImpl :=
  absCombineSetSign (· ||| ·)

/-- `_absXorSetSign`. -/
def absXorSetSign : BigIntImpl → BigIntImpl → Bool → BigIntM BigIntImpl :=
  absCombineSetSign (· ^^^ ·)

/-- `operator &`. -/
def and : BigIntM BigIntImpl := do
  if a.isZero || other.isZero then return zero
  if a.isNegative = other.isNegative then
    if a.isNegative then
      let this1 ← a.absSubSetSign one true
      let other1 ← other.absSubSetSign one true
      (← this1.absOrSetSign other1 true).absAddSetSign one true
    else a.absAndSetSign other false
  else
    let (p, n) := if a.isNegative then (other, a) else (a, other)
    let n1 ← n.absSubSetSign one false
    p.absAndNotSetSign n1 false

/-- `operator |`. -/
def or : BigIntM BigIntImpl := do
  if a.isZero then return other
  if other.isZero then return a
  if a.isNegative = other.isNegative then
    if a.isNegative then
      let this1 ← a.absSubSetSign one true
      let other1 ← other.absSubSetSign one true
      (← this1.absAndSetSign other1 true).absAddSetSign one true
    else a.absOrSetSign other false
  else
    let (p, n) := if a.isNegative then (other, a) else (a, other)
    let n1 ← n.absSubSetSign one true
    (← n1.absAndNotSetSign p true).absAddSetSign one true

/-- `operator ^`. -/
def xor : BigIntM BigIntImpl := do
  if a.isZero then return other
  if other.isZero then return a
  if a.isNegative = other.isNegative then
    if a.isNegative then
      let this1 ← a.absSubSetSign one true
      let other1 ← other.absSubSetSign one true
      this1.absXorSetSign other1 false
    else a.absXorSetSign other false
  else
    let (p, n) := if a.isNegative then (other, a) else (a, other)
    let n1 ← n.absSubSetSign one true
    (← p.absXorSetSign n1 true).absAddSetSign one true

/-- `operator ~`. -/
def not : BigIntM BigIntImpl := do
  if a.isZero then return minusOne
  if a.isNegative then a.absSubSetSign one false else a.absAddSetSign one true

/-! ### Multiplication -/

/-- `operator *`. -/
def mul : BigIntM BigIntImpl := do
  if a.used = 0 || other.used = 0 then return zero
  let resultUsed := a.used + other.used
  let digits ← digitsAt a.digits
  let otherDigits ← digitsAt other.digits
  let resultDigits ← mulDigitsInto digits a.used otherDigits other.used (newDigits resultUsed)
  createNew (a.isNegative != other.isNegative) resultUsed resultDigits

end BigIntImpl

end Core
