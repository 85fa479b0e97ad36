import Mathlib.Tactic.Ring

/-!
# Magic numbers for division

`Utils::CalculateMagicAndShiftForDivRem` of `runtime/platform/utils.cc`. An `int64_t` and a
`uint64_t` are 64 bits; comparisons of an `int64_t` are those of its value `toInt`. The search for
the shift has a bound on its iterations, and `none` is a search that reaches it.
-/

namespace Utils

/-- The variables of the search. -/
structure MagicSearch where
  p : Int
  quotient1 : BitVec 64
  remainder1 : BitVec 64
  quotient2 : BitVec 64
  remainder2 : BitVec 64
  deriving DecidableEq, Repr

/-- The quotient and the remainder of a dividend by `divisor`, for twice the dividend. -/
def double (divisor quotient remainder : BitVec 64) : BitVec 64 × BitVec 64 :=
  let quotient := 2 * quotient
  let remainder := 2 * remainder
  if remainder ≥ divisor then (quotient + 1, remainder - divisor) else (quotient, remainder)

namespace MagicSearch

def exp : BitVec 64 := 1 <<< 63

variable (divisor : BitVec 64)

def absD : BitVec 64 := if divisor.toInt ≥ 0 then divisor else -divisor

def absNc : BitVec 64 :=
  let signBit := divisor >>> 63
  let tmp := exp + signBit
  tmp - 1 - tmp % absD divisor

def start : MagicSearch :=
  { p := 63
    quotient1 := exp / absNc divisor
    remainder1 := exp % absNc divisor
    quotient2 := exp / absD divisor
    remainder2 := exp % absD divisor }

/-- The body of the loop. -/
def step (s : MagicSearch) : MagicSearch :=
  let (quotient1, remainder1) := double (absNc divisor) s.quotient1 s.remainder1
  let (quotient2, remainder2) := double (absD divisor) s.quotient2 s.remainder2
  { p := s.p + 1, quotient1, remainder1, quotient2, remainder2 }

/-- The condition of the loop. -/
def continues (s : MagicSearch) : Bool :=
  let delta := absD divisor - s.remainder2
  s.quotient1 < delta || s.quotient1 == delta && s.remainder1 == 0

/-- The `do` loop. -/
def run (divisor : BitVec 64) : Nat → MagicSearch → Option MagicSearch
  | 0, _ => none
  | fuel + 1, s =>
    let s := s.step divisor
    if s.continues divisor then run divisor fuel s else some s

end MagicSearch

/-- The magic number and the shift. -/
def calculateMagicAndShiftForDivRem (divisor : BitVec 64) : Option (BitVec 64 × Int) :=
  (MagicSearch.run divisor 64 (.start divisor)).map fun s =>
    (if divisor.toInt > 0 then s.quotient2 + 1 else -s.quotient2 - 1, s.p - 64)

example : calculateMagicAndShiftForDivRem 7 = some (0x4924924924924925, 1) := by decide +kernel

end Utils
