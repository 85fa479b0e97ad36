/-!
# Total correctness of programs with state and failure

`Returns m s Q`: started in `s`, the program `m` does not fail, and its result and the state it ends
in satisfy `Q`. The rules take a program apart along its sequential structure.
-/

namespace Total

variable {σ α β : Type} {m : StateT σ Option α} {f : α → StateT σ Option β} {s : σ} {a : α}
  {Q R : α → σ → Prop}

def Returns (m : StateT σ Option α) (s : σ) (Q : α → σ → Prop) : Prop :=
  ∃ a s', m s = some (a, s') ∧ Q a s'

theorem Returns.mono (h : Returns m s Q) (hQ : ∀ a s', Q a s' → R a s') : Returns m s R := by
  obtain ⟨a, s', hm, hq⟩ := h
  exact ⟨a, s', hm, hQ a s' hq⟩

theorem Returns.pure (h : Q a s) : Returns (Pure.pure a) s Q := ⟨a, s, rfl, h⟩

theorem Returns.bind {Q : β → σ → Prop} (h : Returns m s fun a s' => Returns (f a) s' Q) :
    Returns (m >>= f) s Q := by
  obtain ⟨a, s', hm, b, s'', hf, hq⟩ := h
  refine ⟨b, s'', ?_, hq⟩
  show (m s >>= fun p => f p.1 p.2) = some (b, s'')
  rw [hm]
  exact hf

/-- A first part that is known to return is run. -/
theorem Returns.then {Q : β → σ → Prop} (h : Returns m s R)
    (hf : ∀ a s', R a s' → Returns (f a) s' Q) : Returns (m >>= f) s Q :=
  .bind (h.mono hf)

/-- A part that does not use the state. -/
theorem Returns.lift {o : Option α} (h : o = some a) (hQ : Q a s) : Returns (liftM o) s Q := by
  subst h
  exact ⟨a, s, rfl, hQ⟩

theorem Returns.run {o : Option α} {Q : β → σ → Prop} (h : o = some a) (hf : Returns (f a) s Q) :
    Returns (liftM o >>= f) s Q :=
  .bind (.lift h hf)

theorem Returns.ite {c : Prop} [Decidable c] {m' : StateT σ Option α} (h : c → Returns m s Q)
    (h' : ¬ c → Returns m' s Q) : Returns (if c then m else m') s Q := by
  split
  next hc => exact h hc
  next hc => exact h' hc

end Total
