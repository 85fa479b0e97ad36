import Mathlib.Tactic.Ring

/-!
# Fixed-width integers

The limits of `runtime/platform/globals.h` and the overflow tests of `runtime/platform/utils.h`.
An `int64_t` is an `Int`, and an operation on it is exact wherever the code has tested it first.
-/

def kMinInt64 : Int := -2 ^ 63

def kMaxInt64 : Int := 2 ^ 63 - 1

/-- The values of an `int64_t`. -/
def isInt64 (x : Int) : Bool := kMinInt64 ≤ x && x ≤ kMaxInt64

namespace Utils

def willAddOverflow (a b : Int) : Bool := !isInt64 (a + b)

def willSubOverflow (a b : Int) : Bool := !isInt64 (a - b)

end Utils
