import Mathlib.Data.List.Forall2

/-!
# Lists that are related element by element

What `List.Forall₂` says of the elements and of the images of the two lists.
-/

namespace Related

variable {α β γ : Type} {R : α → β → Prop} {l : List α} {l' : List β}

theorem exists_left {b : β} (h : List.Forall₂ R l l') (hb : b ∈ l') : ∃ a ∈ l, R a b := by
  induction h with
  | nil => cases hb
  | cons hR _ ih =>
    rcases List.mem_cons.1 hb with rfl | hb
    · exact ⟨_, .head _, hR⟩
    · obtain ⟨a, ha, hab⟩ := ih hb
      exact ⟨a, .tail _ ha, hab⟩

theorem exists_right {a : α} (h : List.Forall₂ R l l') (ha : a ∈ l) : ∃ b ∈ l', R a b :=
  exists_left h.flip ha

theorem map_eq_map {f : α → γ} {g : β → γ} (h : List.Forall₂ (fun a b => g b = f a) l l') :
    l'.map g = l.map f := by
  induction h with
  | nil => rfl
  | cons h _ ih => rw [List.map_cons, List.map_cons, h, ih]

end Related
