import Mathlib.Data.List.Basic

/-!
# Slices of lists

The part of a list from one index up to another, and how a loop over the indices reads it: from the
front (`slice_cons`), from the back (`slice_snoc`), or in parts (`slice_append`). `foldlM_range'`
turns a fold over indices into a fold over a slice.
-/

namespace Slices

open List

variable {α β : Type*} {xs : List α} {i j k : Nat}

def slice (xs : List α) (start stop : Nat) : List α := (xs.take stop).drop start

@[simp] theorem slice_self (xs : List α) (i : Nat) : slice xs i i = [] := by
  simp [slice]

@[simp] theorem slice_length (h : j ≤ xs.length) : (slice xs i j).length = j - i := by
  simp [slice, Nat.min_eq_left h]

theorem slice_all (xs : List α) : slice xs 0 xs.length = xs := by
  simp [slice]

theorem slice_cons (h : i < j) (hj : j ≤ xs.length) :
    slice xs i j = xs[i] :: slice xs (i + 1) j := by
  unfold slice
  rw [drop_eq_getElem_cons (by rw [length_take]; omega), getElem_take]

theorem slice_snoc (h : i ≤ j) (hj : j < xs.length) :
    slice xs i (j + 1) = slice xs i j ++ [xs[j]] := by
  unfold slice
  rw [take_succ_eq_append_getElem hj, drop_append_of_le_length (by rw [length_take]; omega)]

theorem slice_append (hij : i ≤ j) (hjk : j ≤ k) (hk : k ≤ xs.length) :
    slice xs i j ++ slice xs j k = slice xs i k := by
  unfold slice
  have hsp : xs.take k = xs.take j ++ (xs.take k).drop j := by
    have hd := take_append_drop j (xs.take k)
    rw [take_take, Nat.min_eq_left hjk] at hd
    exact hd.symm
  conv_rhs => rw [hsp]
  rw [drop_append_of_le_length (by rw [length_take]; omega)]

theorem slice_eq_append {ys zs : List α} (hik : i ≤ k) (hk : k ≤ xs.length)
    (h : slice xs i k = ys ++ zs) :
    slice xs i (i + ys.length) = ys ∧ slice xs (i + ys.length) k = zs := by
  have hl := congrArg List.length h
  rw [slice_length hk, length_append] at hl
  rw [← slice_append (j := i + ys.length) (by omega) (by omega) hk] at h
  exact append_inj h (by rw [slice_length (by omega)]; omega)

/-- A fold over indices that reads a list there is a fold over the slice. -/
theorem foldlM_range' (xs : List α) {m : Type _ → Type _} [Monad m] [LawfulMonad m] {β : Type _}
    (f : β → Nat → m β) (g : β → α → m β) (init : β) (start n : Nat)
    (h : start + n ≤ xs.length)
    (hf : ∀ b i (hi : i < xs.length), start ≤ i → i < start + n → f b i = g b xs[i]) :
    (List.range' start n).foldlM f init = (slice xs start (start + n)).foldlM g init := by
  induction n generalizing start init with
  | zero => simp
  | succ n ih =>
    rw [range'_succ, slice_cons (by omega) h, foldlM_cons, foldlM_cons,
      hf init start (by omega) (by omega) (by omega)]
    refine bind_congr fun b => ?_
    rw [show start + (n + 1) = start + 1 + n by omega]
    exact ih b (start + 1) (by omega) fun b i hi h1 h2 => hf b i hi (by omega) (by omega)

end Slices
