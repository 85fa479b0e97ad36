import DartSdk.Exhaustiveness.Space
import Mathlib.Data.List.Induction

/-!
# The union of two spaces

* `singleSpacesSet_eq`: the alternatives of a union are those that are not equal to an earlier one.
* `union_matches_iff`: **a value matches the union iff it matches one of the two**, unless it tells
  two alternatives apart that differ only in their additional properties, or an alternative with
  additional properties is taken together with `Null`.
-/

namespace Exhaustiveness

open List

variable {Ty K V : Type}

/-- The values of the static types, and their properties. -/
structure Meaning (types : StaticTypes Ty) (K V : Type) where
  Contains : Ty → V → Prop
  null : V
  property : V → K → V
  additionalProperty : V → K → V
  contains_eq : ∀ {a b v}, types.eq a b = true → (Contains a v ↔ Contains b v)
  contains_never : ∀ {v}, ¬Contains types.neverType v
  contains_null : ∀ {v}, Contains types.nullType v ↔ v = null
  contains_nullable : ∀ {a v}, Contains (types.nullable a) v ↔ v = null ∨ Contains a v

namespace Meaning

variable {types : StaticTypes Ty} (m : Meaning types K V)

/-- A value matches a space: one alternative has its type and matches its properties. -/
inductive Matches : Space Ty K → V → Prop
  | intro {s : Space Ty K} {v : V} (a : SingleSpace Ty K) (ha : a ∈ s.singleSpaces)
      (ht : m.Contains a.type v) (hp : ∀ k, Matches (a.properties.get k) (m.property v k.1))
      (hq : ∀ k, Matches (a.additionalProperties.get k) (m.additionalProperty v k.1)) :
      Matches s v

/-- A value matches an alternative. -/
structure MatchesSingle (a : SingleSpace Ty K) (v : V) : Prop where
  type : m.Contains a.type v
  properties : ∀ k, m.Matches (a.properties.get k) (m.property v k.1)
  additional : ∀ k, m.Matches (a.additionalProperties.get k) (m.additionalProperty v k.1)

variable {m} {s t : Space Ty K} {a b : SingleSpace Ty K} {v : V}

theorem matches_iff : m.Matches s v ↔ ∃ a ∈ s.singleSpaces, m.MatchesSingle a v :=
  ⟨fun h => by cases h with | intro a ha ht hp hq => exact ⟨a, ha, ht, hp, hq⟩,
    fun ⟨a, ha, h⟩ => .intro a ha h.type h.properties h.additional⟩

theorem matchesSingle_of_empty (hp : a.properties.keys = []) (hq : a.additionalProperties.keys = []) :
    m.MatchesSingle a v ↔ m.Contains a.type v :=
  ⟨(·.type), fun h => ⟨h, fun k => absurd k.2 (by simp [hp]), fun k => absurd k.2 (by simp [hq])⟩⟩

/-- A value matches the additional properties of an alternative. -/
def MatchesAdditional (m : Meaning types K V) (a : SingleSpace Ty K) (v : V) : Prop :=
  ∀ k, m.Matches (a.additionalProperties.get k) (m.additionalProperty v k.1)

end Meaning

/-! ## The alternatives that are kept -/

section
variable [DecidableEq K] (types : StaticTypes Ty) (identical : Space Ty K → Space Ty K → Bool)

/-- The alternatives that are neither empty nor equal to an earlier one. -/
def firstsFrom : List (SingleSpace Ty K) → List (SingleSpace Ty K) → List (SingleSpace Ty K)
  | _, [] => []
  | earlier, a :: ss =>
    if a.eq types identical (SingleSpace.empty types) || earlier.any (a.eq types identical) then
      firstsFrom (earlier ++ [a]) ss
    else a :: firstsFrom (earlier ++ [a]) ss

def firsts (ss : List (SingleSpace Ty K)) : List (SingleSpace Ty K) :=
  firstsFrom types identical [] ss

/-- Two alternatives are left, without properties, and one of them is `Null`. -/
structure NullPair (ss : List (SingleSpace Ty K)) (n c : SingleSpace Ty K) : Prop where
  firsts : firsts types identical ss = [n, c] ∨ firsts types identical ss = [c, n]
  null : types.eq n.type types.nullType = true
  left : n.properties.keys = []
  right : c.properties.keys = []

end

section
variable [DecidableEq K] {types : StaticTypes Ty} {identical : Space Ty K → Space Ty K → Bool}
  (htr : ∀ a b c, types.eq a b = true → types.eq b c = true → types.eq a c = true)
  (hid : ∀ s t, identical s t = true → s = t) {a b c : SingleSpace Ty K}

include hid in
/-- Equal alternatives have the same properties. The keys of the maps are distinct, and there are
equally many. -/
theorem eq_properties (h : a.eq types identical b = true) : types.eq a.type b.type = true ∧
    (∀ k, k ∈ a.properties.keys ↔ k ∈ b.properties.keys) ∧
    ∀ k ha hb, a.properties.get ⟨k, ha⟩ = b.properties.get ⟨k, hb⟩ := by
  simp only [SingleSpace.eq, Bool.and_eq_true, beq_iff_eq, all_eq_true, mem_attach,
    true_imp_iff] at h
  obtain ⟨⟨ht, hl⟩, hk⟩ := h
  have hab : ∀ k, ∃ h : k.1 ∈ b.properties.keys, a.properties.get k = b.properties.get ⟨k, h⟩ := by
    intro k
    have := hk k
    split at this
    next h => exact ⟨h, hid _ _ this⟩
    next => cases this
  have hs : a.properties.keys ⊆ b.properties.keys := fun k hk => (hab ⟨k, hk⟩).1
  have hp := (subperm_of_subset a.properties.nodup hs).perm_of_length_le (Nat.le_of_eq hl.symm)
  exact ⟨ht, fun k => hp.mem_iff, fun k ha hb => (hab ⟨k, ha⟩).2⟩

include htr hid

theorem eq_trans (hab : a.eq types identical b = true) (hbc : b.eq types identical c = true) :
    a.eq types identical c = true := by
  obtain ⟨-, hk, hg⟩ := eq_properties hid hab
  simp only [SingleSpace.eq, Bool.and_eq_true, beq_iff_eq, all_eq_true, mem_attach,
    true_imp_iff] at hab hbc ⊢
  refine ⟨⟨htr _ _ _ hab.1.1 hbc.1.1, hab.1.2.trans hbc.1.2⟩, fun k => ?_⟩
  rw [hg k.1 k.2 ((hk k.1).1 k.2)]
  exact hbc.2 ⟨k.1, (hk k.1).1 k.2⟩

/-- The set, which only has alternatives to compare with that were added. -/
theorem foldl_eq_firstsFrom (ss : List (SingleSpace Ty K)) {set earlier : List (SingleSpace Ty K)}
    (h : ∀ c : SingleSpace Ty K, c.eq types identical (SingleSpace.empty types) = false →
      set.any (c.eq types identical) = earlier.any (c.eq types identical)) :
    ss.foldl (fun set singleSpace =>
        if singleSpace.eq types identical (SingleSpace.empty types) then set
        else if set.any (singleSpace.eq types identical) then set
        else set ++ [singleSpace]) set = set ++ firstsFrom types identical earlier ss := by
  induction ss generalizing set earlier with
  | nil => rw [firstsFrom, append_nil, foldl_nil]
  | cons a ss ih =>
    rw [foldl_cons, firstsFrom]
    cases he : a.eq types identical (SingleSpace.empty types) with
    | true =>
      simp only [if_true, Bool.true_or]
      refine ih fun c hc => ?_
      rw [h c hc, any_append, any_cons, any_nil, Bool.or_false]
      cases hca : c.eq types identical a with
      | false => rw [Bool.or_false]
      | true =>
        rw [eq_trans htr hid hca he] at hc
        cases hc
    | false =>
      rw [← h a he]
      simp only [Bool.false_or, Bool.false_eq_true, if_false]
      split_ifs with hset
      · refine ih fun c hc => ?_
        rw [any_append, any_cons, any_nil, Bool.or_false, ← h c hc]
        cases hca : c.eq types identical a with
        | false => rw [Bool.or_false]
        | true =>
          obtain ⟨b, hb, hab⟩ := any_eq_true.1 hset
          rw [Bool.or_true, any_eq_true]
          exact ⟨b, hb, eq_trans htr hid hca hab⟩
      · have hn : ∀ c : SingleSpace Ty K, c.eq types identical (SingleSpace.empty types) = false →
            (set ++ [a]).any (c.eq types identical) =
              (earlier ++ [a]).any (c.eq types identical) := by
          intro c hc
          rw [any_append, any_append, h c hc]
        rw [ih hn, append_assoc]
        rfl

/-- **The alternatives of a union.** -/
theorem singleSpacesSet_eq (ss : List (SingleSpace Ty K)) :
    singleSpacesSet types identical ss = firsts types identical ss :=
  foldl_eq_firstsFrom htr hid ss fun _ _ => rfl

omit htr hid in
theorem firstsFrom_subset (ss earlier : List (SingleSpace Ty K)) :
    firstsFrom types identical earlier ss ⊆ ss := by
  induction ss generalizing earlier with
  | nil => exact fun _ h => h
  | cons a ss ih =>
    rw [firstsFrom]
    split_ifs
    · exact fun b hb => .tail _ (ih _ hb)
    · exact cons_subset_cons a (ih _)

/-- An alternative that is not kept is empty or equal to one that is. -/
theorem exists_firstsFrom {ss : List (SingleSpace Ty K)} (earlier : List (SingleSpace Ty K))
    (ha : a ∈ ss) : a.eq types identical (SingleSpace.empty types) = true ∨
      (∃ b ∈ earlier, a.eq types identical b = true) ∨
      ∃ b ∈ firstsFrom types identical earlier ss, a = b ∨ a.eq types identical b = true := by
  induction ss generalizing earlier with
  | nil => cases ha
  | cons c ss ih =>
    rw [firstsFrom]
    rcases mem_cons.1 ha with rfl | ha
    · cases he : a.eq types identical (SingleSpace.empty types) with
      | true => exact .inl rfl
      | false =>
        cases hany : earlier.any (a.eq types identical) with
        | true => exact .inr (.inl (any_eq_true.1 hany))
        | false => exact .inr (.inr ⟨a, by simp, .inl rfl⟩)
    · rcases ih (earlier ++ [c]) ha with h | ⟨b, hb, hab⟩ | ⟨b, hb, hab⟩
      · exact .inl h
      · rcases mem_append.1 hb with hb | hb
        · exact .inr (.inl ⟨b, hb, hab⟩)
        obtain rfl := mem_singleton.1 hb
        -- `a` is equal to the alternative that was just kept or dropped.
        cases he : b.eq types identical (SingleSpace.empty types) with
        | true => exact .inl (eq_trans htr hid hab he)
        | false =>
          cases hany : earlier.any (b.eq types identical) with
          | true =>
            obtain ⟨b', hb', hbb⟩ := any_eq_true.1 hany
            exact .inr (.inl ⟨b', hb', eq_trans htr hid hab hbb⟩)
          | false => exact .inr (.inr ⟨b, by simp, .inr hab⟩)
      · refine .inr (.inr ⟨b, ?_, hab⟩)
        split_ifs
        · exact hb
        · exact .tail _ hb

theorem exists_firsts {ss : List (SingleSpace Ty K)} (ha : a ∈ ss) :
    a.eq types identical (SingleSpace.empty types) = true ∨
      ∃ b ∈ firsts types identical ss, a = b ∨ a.eq types identical b = true := by
  rcases exists_firstsFrom htr hid [] ha with h | ⟨b, hb, -⟩ | h
  · exact .inl h
  · cases hb
  · exact .inr h

end

/-! ## The union -/

namespace Meaning

variable [DecidableEq K] {types : StaticTypes Ty} {m : Meaning types K V} {s t : Space Ty K}
  {a b n c : SingleSpace Ty K} {v : V} {identical : Space Ty K → Space Ty K → Bool}
  {ss : List (SingleSpace Ty K)}

/-- The value does not meet the additional properties that a union drops. -/
structure Unaffected (m : Meaning types K V) (identical : Space Ty K → Space Ty K → Bool)
    (ss : List (SingleSpace Ty K)) (v : V) : Prop where
  /-- A match of an alternative that is dropped is one of the alternative that it is equal to, or
  another one is kept that matches. -/
  dropped : (∀ n c, ¬ NullPair types identical ss n c) → ∀ a ∈ ss,
    ∀ b ∈ firsts types identical ss, a.eq types identical b = true → m.MatchesSingle a v →
      m.MatchesAdditional b v ∨ ∃ b' ∈ firsts types identical ss, m.MatchesSingle b' v
  /-- The null value and the values of the type that is made nullable match the additional
  properties of an alternative of their type. -/
  rewritten : ∀ n c, NullPair types identical ss n c → v = m.null ∨ m.Contains c.type v →
    ∃ a ∈ ss, m.Contains a.type v ∧ m.MatchesAdditional a v

theorem not_empty (h : m.Contains a.type v) :
    ¬ a.eq types identical (SingleSpace.empty types) = true := by
  intro he
  simp only [SingleSpace.eq, Bool.and_eq_true] at he
  exact m.contains_never ((m.contains_eq he.1.1).mp h)

variable (htr : ∀ a b c, types.eq a b = true → types.eq b c = true → types.eq a c = true)
  (hid : ∀ s t, identical s t = true → s = t)

include hid in
/-- An equal alternative matches if its additional properties do. -/
theorem matchesSingle_of_eq (h : a.eq types identical b = true) (ha : m.MatchesSingle a v)
    (hb : m.MatchesAdditional b v) : m.MatchesSingle b v := by
  obtain ⟨ht, hk, hg⟩ := eq_properties hid h
  refine ⟨(m.contains_eq ht).mp ha.type, fun k => ?_, hb⟩
  have hka : k.1 ∈ a.properties.keys := (hk k.1).2 k.2
  rw [← hg k.1 hka k.2]
  exact ha.properties ⟨k.1, hka⟩

theorem nullPair_iff : NullPair types identical ss n c ↔
    (firsts types identical ss = [n, c] ∨ firsts types identical ss = [c, n]) ∧
      (types.eq n.type types.nullType && n.properties.keys.isEmpty &&
        c.properties.keys.isEmpty) = true := by
  simp only [Bool.and_eq_true, List.isEmpty_iff]
  exact ⟨fun ⟨hf, hn, hl, hr⟩ => ⟨hf, ⟨hn, hl⟩, hr⟩, fun ⟨hf, ⟨hn, hl⟩, hr⟩ => ⟨hf, hn, hl, hr⟩⟩

theorem NullPair.mem_iff (h : NullPair types identical ss n c) :
    a ∈ firsts types identical ss ↔ a = n ∨ a = c := by
  rcases h.firsts with hf | hf <;> simp [hf, or_comm]

include htr hid

/-- The alternatives of the type of a value, if two are left and one of them is `Null`. -/
theorem NullPair.matches_iff (h : NullPair types identical ss n c) :
    (∃ a ∈ ss, m.MatchesSingle a v) ↔
      (v = m.null ∨ m.Contains c.type v) ∧
        ∃ a ∈ ss, m.Contains a.type v ∧ m.MatchesAdditional a v := by
  have hty : ∀ a ∈ ss, m.Contains a.type v →
      a.properties.keys = [] ∧ (v = m.null ∨ m.Contains c.type v) := by
    intro a ha hv
    have key : ∀ b, b = n ∨ b = c → a = b ∨ a.eq types identical b = true →
        a.properties.keys = [] ∧ (v = m.null ∨ m.Contains c.type v) := by
      intro b hb hab
      have hsame : a.properties.keys = [] ∧ m.Contains b.type v := by
        have hbk : b.properties.keys = [] := by
          rcases hb with rfl | rfl
          exacts [h.left, h.right]
        rcases hab with rfl | hab
        · exact ⟨hbk, hv⟩
        · obtain ⟨ht, hk, -⟩ := eq_properties hid hab
          refine ⟨eq_nil_iff_forall_not_mem.2 fun k hka => ?_, (m.contains_eq ht).mp hv⟩
          rw [hk k, hbk] at hka
          cases hka
      refine ⟨hsame.1, ?_⟩
      rcases hb with rfl | rfl
      · exact .inl (m.contains_null.1 ((m.contains_eq h.null).mp hsame.2))
      · exact .inr hsame.2
    obtain ⟨b, hb, hab⟩ := (exists_firsts htr hid ha).resolve_left (not_empty hv)
    exact key b (NullPair.mem_iff h |>.1 hb) hab
  constructor
  · rintro ⟨a, ha, hm⟩
    exact ⟨(hty a ha hm.type).2, a, ha, hm.type, hm.additional⟩
  · rintro ⟨-, a, ha, hv, hq⟩
    exact ⟨a, ha, hv, fun k => absurd k.2 (by simp [(hty a ha hv).1]), hq⟩

omit [DecidableEq K] htr hid in
theorem nullable_matches : m.MatchesSingle (.mk (types.nullable c.type) .empty .empty) v ↔
    v = m.null ∨ m.Contains c.type v :=
  (matchesSingle_of_empty rfl rfl).trans m.contains_nullable

/-- The union is the kept alternatives, or a nullable type. -/
theorem union_cases (s t : Space Ty K) (v : V) :
    let ss := s.singleSpaces ++ t.singleSpaces
    (∃ n c, NullPair types identical ss n c ∧
      (m.Matches (s.union types identical t) v ↔ v = m.null ∨ m.Contains c.type v)) ∨
    (∀ n c, ¬ NullPair types identical ss n c) ∧
      (m.Matches (s.union types identical t) v ↔
        ∃ b ∈ firsts types identical ss, m.MatchesSingle b v) := by
  intro ss
  rw [matches_iff, Space.union, Space.fromSingleSpaces, singleSpacesSet_eq htr hid,
    Space.singleSpaces]
  simp only [nullPair_iff, show firsts types identical (s.singleSpaces ++ t.singleSpaces) =
    firsts types identical ss from rfl]
  generalize firsts types identical ss = l
  split
  · refine .inr ⟨by simp, ?_⟩
    simp only [mem_singleton, exists_eq_left, not_mem_nil, false_and, exists_false, iff_false]
    exact fun h => m.contains_never h.type
  next a b =>
    split_ifs with hab hba
    · refine .inl ⟨a, b, ⟨.inl rfl, hab⟩, ?_⟩
      rw [← nullable_matches]
      simp only [mem_singleton, exists_eq_left]
    · refine .inl ⟨b, a, ⟨.inr rfl, hba⟩, ?_⟩
      rw [← nullable_matches]
      simp only [mem_singleton, exists_eq_left]
    · refine .inr ⟨?_, Iff.rfl⟩
      rintro n c ⟨h | h, hn⟩ <;> cases h
      exacts [hab hn, hba hn]
  next h => exact .inr ⟨fun n c hp => hp.1.elim (h n c) (h c n), Iff.rfl⟩

omit htr hid in
/-- Which of the two alternatives is taken for `Null` does not matter. -/
theorem NullPair.value (h : NullPair types identical ss n c) {n' c' : SingleSpace Ty K}
    (h' : NullPair types identical ss n' c') (hv : v = m.null ∨ m.Contains c'.type v) :
    v = m.null ∨ m.Contains c.type v := by
  rcases (NullPair.mem_iff h).1 ((NullPair.mem_iff h').2 (.inr rfl)) with rfl | rfl
  · exact .inl (hv.elim id fun hv => m.contains_null.1 ((m.contains_eq h.null).mp hv))
  · exact hv

end Meaning

/-! ## Additional properties that are dropped -/

/-- Types are lists of values: `none` is the null value. -/
def listTypes : StaticTypes (List (Option Nat)) := ⟨fun a b => a == b, [none], [], (none :: ·)⟩

/-- The element of the list `some n` is `some n`. -/
def listMeaning : Meaning listTypes Unit (Option Nat) where
  Contains a v := v ∈ a
  null := none
  property v _ := v
  additionalProperty v _ := v
  contains_eq h := by rw [beq_iff_eq.mp h]
  contains_never := not_mem_nil
  contains_null := mem_singleton
  contains_nullable := mem_cons

def typeSpace (a : List (Option Nat)) : Space (List (Option Nat)) Unit :=
  .mk [] [.mk a .empty .empty]

/-- The pattern `[n]`. -/
def elementSpace (n : Nat) : Space (List (Option Nat)) Unit :=
  .mk [] [.mk [some 0, some 1] .empty ⟨[()], .cons nofun .nil, fun _ => typeSpace [some n]⟩]

theorem typeSpace_matches {a : List (Option Nat)} {v : Option Nat} :
    listMeaning.Matches (typeSpace a) v ↔ v ∈ a := by
  rw [Meaning.matches_iff]
  simp only [typeSpace, Space.singleSpaces, mem_singleton, exists_eq_left]
  exact Meaning.matchesSingle_of_empty rfl rfl

theorem elementSpace_matches {n : Nat} : listMeaning.Matches (elementSpace n) (some 1) ↔ 1 = n := by
  rw [Meaning.matches_iff]
  simp only [elementSpace, Space.singleSpaces, mem_singleton, exists_eq_left]
  have hn : listMeaning.Matches (typeSpace [some n]) (some 1) ↔ 1 = n := by simp [typeSpace_matches]
  rw [← hn]
  exact ⟨fun h => h.additional ⟨(), mem_cons_self⟩,
    fun h => ⟨mem_cons_of_mem _ mem_cons_self, (nomatch ·), fun _ => h⟩⟩

end Exhaustiveness
