import DartSdk.Core.DateTime

/-!
# The offset of a wall time

* `toLocalTimeOffset_earliest`: **the earliest moment** that has the wall time gives the offset. If
  there is none, it is the offset before the change.
-/

namespace Core.DateTime

open Duration

/-- The function changes its value at most once between the two moments. -/
def ChangesOnce (f : Int → Int) (lo hi : Int) : Prop :=
  ∃ c, ∀ t, lo ≤ t → t ≤ hi → f t = if t < c then f lo else f hi

section
variable {f : Int → Int} {w c a b : Int} (ha : a.natAbs < 24 * microsecondsPerHour)
  (hb : b.natAbs < 24 * microsecondsPerHour)
  (hs : ∀ o : Int, o.natAbs ≤ 30 * microsecondsPerHour →
    w - o < c ∧ f (w - o) * microsecondsPerSecond = a ∨
      c ≤ w - o ∧ f (w - o) * microsecondsPerSecond = b)
include ha hb hs

/-- `a` is a solution if it is in force then, and if `b` is one as well, it is the later one. -/
theorem toLocalTimeOffset_eq (hd : a ≤ b + 2 * microsecondsPerHour) :
    toLocalTimeOffset f w = if c ≤ w - a ∧ c ≤ w - b then b else a := by
  have hH : 0 < microsecondsPerHour := by decide
  have h0 := hs 0 (by omega)
  have h1 := hs a (by omega)
  have h2 := hs b (by omega)
  have h3 := hs (a + 2 * microsecondsPerHour) (by omega)
  have h4 := hs (b + 2 * microsecondsPerHour) (by omega)
  simp only [Int.sub_zero, ← Int.sub_sub] at h0 h3 h4
  clear hs
  unfold toLocalTimeOffset
  rcases h0 with ⟨h0, e0⟩ | ⟨h0, e0⟩
  · rcases h1 with ⟨h1, e1⟩ | ⟨h1, e1⟩
    · obtain ⟨-, e3⟩ := h3.resolve_right (by omega)
      simp only [e0, e1, e3]
      split_ifs <;> omega
    · rcases h2 with ⟨h2, e2⟩ | ⟨h2, e2⟩ <;> simp only [e0, e1, e2] <;> split_ifs <;> omega
  · rcases h2 with ⟨h2, e2⟩ | ⟨h2, e2⟩
    · rcases h1 with ⟨h1, e1⟩ | ⟨h1, e1⟩ <;> simp only [e0, e1, e2] <;> split_ifs <;> omega
    rcases h4 with ⟨h4, e4⟩ | ⟨h4, e4⟩
    · rcases h1 with ⟨h1, e1⟩ | ⟨h1, e1⟩ <;> simp only [e0, e1, e2, e4, or_true, and_true] <;>
        split_ifs <;> omega
    · simp only [e0, e2, e4]
      split_ifs <;> omega

end

/-- **The earliest moment with a wall time.** If no moment has it, the offset is the one before the
change. -/
theorem toLocalTimeOffset_earliest {f : Int → Int} {w : Int}
    (hf : ∀ t, (f t * microsecondsPerSecond).natAbs < 24 * microsecondsPerHour)
    (hc : ChangesOnce f (w - 30 * microsecondsPerHour) (w + 30 * microsecondsPerHour))
    (hd : f (w - 30 * microsecondsPerHour) * microsecondsPerSecond ≤
      f (w + 30 * microsecondsPerHour) * microsecondsPerSecond + 2 * microsecondsPerHour) :
    let o := toLocalTimeOffset f w
    (∀ o', f (w - o') * microsecondsPerSecond = o' →
      f (w - o) * microsecondsPerSecond = o ∧ w - o ≤ w - o') ∧
    ((∀ o', f (w - o') * microsecondsPerSecond ≠ o') →
      o = f (w - 30 * microsecondsPerHour) * microsecondsPerSecond) := by
  obtain ⟨c, hc⟩ := hc
  have ha := hf (w - 30 * microsecondsPerHour)
  have hb := hf (w + 30 * microsecondsPerHour)
  have hs : ∀ o : Int, o.natAbs ≤ 30 * microsecondsPerHour →
      w - o < c ∧ f (w - o) * microsecondsPerSecond =
          f (w - 30 * microsecondsPerHour) * microsecondsPerSecond ∨
        c ≤ w - o ∧ f (w - o) * microsecondsPerSecond =
          f (w + 30 * microsecondsPerHour) * microsecondsPerSecond := by
    intro o ho
    rw [hc (w - o) (by omega) (by omega)]
    split
    next h => exact .inl ⟨h, rfl⟩
    next h => exact .inr ⟨Int.not_lt.mp h, rfl⟩
  generalize f (w - 30 * microsecondsPerHour) * microsecondsPerSecond = a at *
  generalize f (w + 30 * microsecondsPerHour) * microsecondsPerSecond = b at *
  have hsa := hs a (by omega)
  have hsb := hs b (by omega)
  rw [toLocalTimeOffset_eq ha hb hs hd]
  refine ⟨fun o' ho => ?_, fun h => ?_⟩
  · have := hf (w - o')
    have hso := hs o' (by omega)
    rw [ho] at hso
    split_ifs <;> constructor <;> omega
  · have := h a
    have := h b
    rw [if_neg (by omega)]

theorem toLocalTimeOffset_earliest_fold :
    toLocalTimeOffset (fun t => if t < 0 then 3600 else 0) 1800000000 = 3600000000 ∧
    (1800000000 : Int) - 3600000000 ≤ 1800000000 - 0 :=
  have h := toLocalTimeOffset_earliest (f := fun t => if t < 0 then 3600 else 0) (w := 1800000000)
    (fun t => by split <;> decide) ⟨0, fun t _ _ => by simp [microsecondsPerHour]⟩ (by decide)
  ⟨by decide, (h.1 0 (by decide)).2⟩

end Core.DateTime
