import Mathlib.Algebra.Order.Monoid.Unbundled.Basic

/-!
# One-sided bounds

An analysis that keeps a lower and an upper bound of a value does everything twice, mirrored. A
`Side` names one of the two, and `Side.Bounds` is `≤` or `≥`, so that the two halves are one
definition and one proof.
-/

/-- The side of a value a bound is on. -/
inductive Side
  | lower
  | upper
  deriving DecidableEq, Repr

namespace Side

variable {α : Type*}

/-- `b` bounds `x` on this side. -/
def Bounds [LE α] : Side → α → α → Prop
  | lower, b, x => b ≤ x
  | upper, b, x => x ≤ b

instance [LE α] [DecidableLE α] (side : Side) (b x : α) : Decidable (side.Bounds b x) :=
  match side with
  | lower => inferInstanceAs (Decidable (b ≤ x))
  | upper => inferInstanceAs (Decidable (x ≤ b))

def opposite : Side → Side
  | lower => upper
  | upper => lower

variable [Preorder α] {side : Side} {a b x : α}

theorem Bounds.refl (side : Side) (x : α) : side.Bounds x x := by
  cases side <;> exact le_refl x

theorem Bounds.trans (h : side.Bounds a b) (h' : side.Bounds b x) : side.Bounds a x := by
  cases side with
  | lower => exact le_trans h h'
  | upper => exact le_trans h' h

theorem Bounds.add_right [Add α] [AddRightMono α] (h : side.Bounds b x) (k : α) :
    side.Bounds (b + k) (x + k) := by
  cases side <;> exact add_le_add_left h k

theorem Bounds.map {f : α → α} (hf : Monotone f) (h : side.Bounds b x) :
    side.Bounds (f b) (f x) := by
  cases side <;> exact hf h

theorem Bounds.antisymm {α : Type*} [PartialOrder α] {a b : α} (h : side.Bounds a b)
    (h' : side.Bounds b a) : a = b := by
  cases side with
  | lower => exact le_antisymm h h'
  | upper => exact le_antisymm h' h

theorem Bounds.of_not {α : Type*} [LinearOrder α] {a b : α} (h : ¬ side.Bounds a b) :
    side.Bounds b a := by
  cases side <;> exact (not_le.1 h).le

end Side
