import DartSdk.Compiler.Ssa.ValueRangeAnalyzer
import Mathlib.Tactic

/-!
# The operators on symbolic values

* `Computes`: what the operators `+`, `-` and unary `-` do, as one relation.
* `run`: the operators as they are modelled, as one function.
-/

namespace Compiler.Ssa

open Value

variable {Instruction : Type} [DecidableEq Instruction]

/-- A call of one of the operators. -/
inductive Call (Instruction : Type) where
  | neg (this : Value Instruction)
  | add (this other : Value Instruction)
  | sub (this other : Value Instruction)

/-- A result which does not depend on the other operand. -/
def Value.isAbsorbing : Value Instruction → Bool
  | maxInt | minInt | unknown => true
  | _ => false

/-- **The operators** as a relation between a call and its result. Where an operator tries one
operand after the other, each try is a rule. -/
inductive Computes : Call Instruction → Value Instruction → Prop
  | negInt (c) : Computes (.neg (int c)) (negateInt c)
  | negMaxInt : Computes (.neg maxInt) minInt
  | negMinInt : Computes (.neg minInt) maxInt
  | negUnknown : Computes (.neg unknown) unknown
  | negVariable {a} (ha : a.isVariable = true) : Computes (.neg a) (negate a)
  | negAdd {l r l' v} (hl : Computes (.neg l) l') (hv : Computes (.sub l' r) v) :
    Computes (.neg (add l r)) v
  | negSubtract {l r v} (hv : Computes (.sub r l) v) : Computes (.neg (subtract l r)) v
  | negNegate (a) : Computes (.neg (negate a)) a
  | addZero (a) {b} (hb : b.isZero = true) : Computes (.add a b) a
  | addAbsorbing {a} (b) (ha : a.isAbsorbing = true) : Computes (.add a b) a
  | addInts (c d) :
    Computes (.add (int c) (int d)) (ofConstant (ConstantSystem.fold (· + ·) c d))
  | addSwap {a b v} (ha : a.isInt = true ∨ a.isVariable = true ∧ b.isVariable = false)
    (hb : b.isInt = false) (hv : Computes (.add b a) v) : Computes (.add a b) v
  | addVariableNegative {a c} (ha : a.isVariable = true) (hc : c < 0) :
    Computes (.add a (int c)) (subtract a (negateInt c))
  | addVariable {a b} (ha : a.isVariable = true) (hb : b.isVariable = true ∨ b.isInt = true) :
    Computes (.add a b) (add a b)
  | addAddLeft {l r b v w} (hb : b.isZero = false) (hv : Computes (.add l b) v) (hs : v.isSimple = true)
    (hw : Computes (.add v r) w) : Computes (.add (add l r) b) w
  | addAddRight {l r b v w} (hb : b.isZero = false) (hv : Computes (.add r b) v) (hs : v.isSimple = true)
    (hw : Computes (.add l v) w) : Computes (.add (add l r) b) w
  | addSubtractLeft {l r b v w} (hb : b.isZero = false) (hv : Computes (.add l b) v) (hs : v.isSimple = true)
    (hw : Computes (.sub v r) w) : Computes (.add (subtract l r) b) w
  | addSubtractRight {l r b v w} (hb : b.isZero = false) (hv : Computes (.sub b r) v) (hs : v.isSimple = true)
    (hw : Computes (.add l v) w) : Computes (.add (subtract l r) b) w
  | addUnknown (a b) : Computes (.add a b) unknown
  | addNegateSame {a b} (h : (b == a) = true) : Computes (.add (negate a) b) (int 0)
  | addNegates {a b v} (hv : Computes (.sub (negate a) b) v) :
    Computes (.add (negate a) (negate b)) v
  | addNegateNegative {a c} (hc : c < 0) :
    Computes (.add (negate a) (int c)) (subtract (negate a) (negateInt c))
  | addNegate {a b} (hb : b.isVariable = true ∨ b.isInt = true) :
    Computes (.add (negate a) b) (subtract b a)
  | addNegateOther {a b v} (hb : b.isInt = false) (hb' : b.isVariable = false)
    (hv : Computes (.sub b a) v) : Computes (.add (negate a) b) v
  | subZero (a) {b} (hb : b.isZero = true) : Computes (.sub a b) a
  | subAbsorbing {a} (b) (ha : a.isAbsorbing = true) : Computes (.sub a b) a
  | subInts (c d) :
    Computes (.sub (int c) (int d)) (ofConstant (ConstantSystem.fold (· - ·) c d))
  | subSwap {a b b' v} (ha : a.isInt = true ∨ a.isVariable = true ∧ b.isVariable = false)
    (hb : b.isInt = false)
    (hb' : Computes (.neg b) b') (hv : Computes (.add b' a) v) : Computes (.sub a b) v
  | subVariableSame {a b} (ha : a.isVariable = true) (h : (a == b) = true) :
    Computes (.sub a b) (int 0)
  | subVariableNegative {a c} (ha : a.isVariable = true) (hc : c < 0) :
    Computes (.sub a (int c)) (add a (negateInt c))
  | subVariable {a b} (ha : a.isVariable = true) (hb : b.isVariable = true ∨ b.isInt = true) :
    Computes (.sub a b) (subtract a b)
  | subAddLeft {l r b v w} (hb : b.isZero = false) (hv : Computes (.sub l b) v) (hs : v.isSimple = true)
    (hw : Computes (.add v r) w) : Computes (.sub (add l r) b) w
  | subAddRight {l r b v w} (hb : b.isZero = false) (hv : Computes (.sub r b) v) (hs : v.isSimple = true)
    (hw : Computes (.add l v) w) : Computes (.sub (add l r) b) w
  | subSubtractLeft {l r b v w} (hb : b.isZero = false) (hv : Computes (.sub l b) v) (hs : v.isSimple = true)
    (hw : Computes (.sub v r) w) : Computes (.sub (subtract l r) b) w
  | subSubtractRight {l r b v w} (hb : b.isZero = false) (hv : Computes (.add r b) v) (hs : v.isSimple = true)
    (hw : Computes (.sub l v) w) : Computes (.sub (subtract l r) b) w
  | subUnknown (a b) : Computes (.sub a b) unknown
  | subNegateNegative {a c} (hc : c < 0) :
    Computes (.sub (negate a) (int c)) (subtract (negateInt c) a)
  | subNegate {a b} (hb : b.isVariable = true ∨ b.isInt = true) :
    Computes (.sub (negate a) b) (subtract (negate a) b)
  | subNegates {a b v} (hv : Computes (.add (negate a) b) v) :
    Computes (.sub (negate a) (negate b)) v
  | subNegateOther {a b b' v} (hb : b.isInt = false) (hb' : Computes (.neg b) b')
    (hv : Computes (.sub b' a) v) : Computes (.sub (negate a) b) v

/-- The operators with some fuel. -/
def run (fuel : ℕ) : Call Instruction → Option (Value Instruction)
  | .neg a => negF fuel a
  | .add a b => addF fuel a b
  | .sub a b => subF fuel a b

end Compiler.Ssa
