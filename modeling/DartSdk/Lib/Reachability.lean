import Mathlib.Data.Set.Basic

/-!
# What reaches a node of a graph

`collected r v a` has the values of all nodes from which `a` can be reached. It is the least
assignment that has the values of each node and grows along the edges (`collected_subset`).
-/

namespace Reachability

open Relation

variable {α β : Type*} {r : α → α → Prop} {v w : α → Set β} {a b : α}

def collected (r : α → α → Prop) (v : α → Set β) (a : α) : Set β :=
  {x | ∃ b, ReflTransGen r b a ∧ x ∈ v b}

theorem subset_collected : v a ⊆ collected r v a := fun _ hx => ⟨a, .refl, hx⟩

theorem collected_mono_edge (h : r a b) : collected r v a ⊆ collected r v b := by
  rintro x ⟨c, hc, hx⟩
  exact ⟨c, hc.tail h, hx⟩

/-- **The least assignment** with the values that grows along the edges. -/
theorem collected_subset (hv : ∀ a, v a ⊆ w a) (hr : ∀ a b, r a b → w a ⊆ w b) :
    collected r v a ⊆ w a := by
  rintro x ⟨b, hb, hx⟩
  induction hb with
  | refl => exact hv _ hx
  | tail _ hcd ih => exact hr _ _ hcd ih

end Reachability
