import DartSdk.Compiler.DeferredLoad.FinalTransitions
import DartSdk.Compiler.DeferredLoad.Proof.ImportSet

/-!
# What the final transitions reach

Two rounds are enough, since a candidate is compared with the set that was given and not with the
set it has grown to: the result has the targets of the transitions whose source is in the given set
(`computeFinalTransitions_mem`). It is the least closed set exactly when these enable no other
transition (`computeFinalTransitions_isLeast`).
-/

namespace Compiler.DeferredLoad

open Function List

namespace ImportSet

variable {a b : ImportSet}

theorem containsAllLoop_iff {as bs : List ℕ} (ha : as.Pairwise (· > ·)) (hb : bs.Pairwise (· > ·)) :
    containsAllLoop as bs = true ↔ ∀ i ∈ bs, i ∈ as := by
  fun_induction containsAllLoop as bs with
  | case1 => simp
  | case2 y bs => exact iff_of_false nofun fun h => not_mem_nil (h y (.head _))
  | case3 x as y bs hxy ih =>
    have hy := (pairwise_cons.mp hb).1
    rw [ih ha.of_cons hb]
    grind
  | case4 x as y bs hxy hyx =>
    have hx := (pairwise_cons.mp ha).1
    exact iff_of_false nofun fun h => by grind [h y (.head _)]
  | case5 x as y bs hxy hyx ih =>
    have hx := (pairwise_cons.mp ha).1
    have hy := (pairwise_cons.mp hb).1
    rw [ih ha.of_cons hb.of_cons]
    grind

theorem containsAll_iff : a.containsAll b = true ↔ b ≤ a := containsAllLoop_iff a.sorted b.sorted

end ImportSet

namespace ImportSetLattice

variable {T : List ImportSetTransition} {S : ImportSet} {s : Finals} {imports : List ImportSet}

/-- The imports of the set and the targets of the transitions that apply to it. -/
def Reached (T : List ImportSetTransition) (S : ImportSet) (i : ℕ) : Prop :=
  i ∈ S ∨ ∃ t ∈ T, t.source ≤ S ∧ i ∈ t.transitions

/-- The transitions whose source is in the set have their targets there. -/
def Closed (T : List ImportSetTransition) (R : ImportSet) : Prop :=
  ∀ t ∈ T, t.source ≤ R → t.transitions ≤ R

/-- No transition with a new target is enabled by the targets of others. -/
def Unchained (T : List ImportSetTransition) (S : ImportSet) : Prop :=
  ∀ t ∈ T, (∀ i ∈ t.source, Reached T S i) → ∀ i ∈ t.transitions, Reached T S i

theorem mem_foldl_applyCandidate (r : ImportSet × List ImportSetTransition) :
    (∀ i, i ∈ (T.foldl (applyCandidate S) r).1 ↔
        i ∈ r.1 ∨ ∃ t ∈ T, t.source ≤ S ∧ i ∈ t.transitions) ∧
      ∀ t, t ∈ (T.foldl (applyCandidate S) r).2 ↔ t ∈ r.2 ∨ t ∈ T ∧ t.source ≤ S := by
  induction T generalizing r with
  | nil => simp
  | cons t T ih =>
    refine ⟨fun i => ((ih _).1 i).trans ?_, fun t' => ((ih _).2 t').trans ?_⟩ <;>
      unfold applyCandidate <;> split
    all_goals
      rename_i h
      rw [ImportSet.containsAll_iff] at h
      grind [ImportSet.mem_union]

/-- The result of each set so far and its candidates give what is reached. -/
def Inv (T : List ImportSetTransition) (s : Finals) : Prop :=
  ∀ S i, (i ∈ (s.finalTransitions S).getD S ∨
    ∃ t ∈ s.allCandidateTransitions S, t.source ≤ S ∧ i ∈ t.transitions) ↔ Reached T S i

/-- The set has a result, and no candidate applies to it. -/
def Done (s : Finals) (S : ImportSet) : Prop :=
  (∃ R, s.finalTransitions S = some R) ∧ ∀ t ∈ s.allCandidateTransitions S, ¬ t.source ≤ S

/-- A set is done when it is processed, without a change if it was done before. -/
theorem process_spec (h : Inv T s) (S : ImportSet) :
    Inv T (process s S).1 ∧ (∀ S', Done s S' ∨ S' = S → Done (process s S).1 S') ∧
      (Done s S → (process s S).2 = false) := by
  obtain ⟨hr, hc⟩ := mem_foldl_applyCandidate (T := s.allCandidateTransitions S) (S := S)
    ((s.finalTransitions S).getD S, [])
  have hd : Done (process s S).1 S := by
    refine ⟨⟨_, update_self ..⟩, fun t ht hs => ?_⟩
    simp only [process, update_self, mem_filter, decide_eq_true_eq, hc] at ht
    exact ht.2 (.inr ⟨ht.1, hs⟩)
  refine ⟨fun S' i => ?_, fun S' hS => ?_, fun hS => ?_⟩
  · obtain rfl | hne := eq_or_ne S' S
    · rw [← h, or_iff_left fun ⟨t, ht, hs, _⟩ => hd.2 t ht hs, ← hr]
      simp only [process, update_self, Option.getD_some]
    · simp only [process, update_of_ne hne]
      exact h S' i
  · obtain rfl | hne := eq_or_ne S' S
    · exact hd
    · simp only [Done, process, update_of_ne hne]
      exact hS.resolve_right hne
  · rw [process, Bool.not_eq_false', List.isEmpty_iff]
    refine eq_nil_iff_forall_not_mem.mpr fun t ht => ?_
    obtain ⟨ht, hs⟩ := ((hc t).mp ht).resolve_left not_mem_nil
    exact hS.2 t ht hs

/-- A round. -/
theorem foldl_processNext {r : Finals × Bool} (h : Inv T r.1) :
    Inv T (imports.foldl processNext r).1 ∧
      (∀ S, Done r.1 S ∨ S ∈ imports → Done (imports.foldl processNext r).1 S) ∧
      ((∀ S ∈ imports, Done r.1 S) → (imports.foldl processNext r).2 = r.2) := by
  induction imports generalizing r with
  | nil => exact ⟨h, fun S hS => hS.resolve_right not_mem_nil, fun _ => rfl⟩
  | cons S imports ih =>
    obtain ⟨hi, hp, hf⟩ := process_spec h S
    obtain ⟨hr, hd, hn⟩ := ih (r := processNext r S) hi
    refine ⟨hr, fun S' hS => hd S' ?_, fun hall => ?_⟩
    · rw [mem_cons, ← or_assoc] at hS
      exact hS.imp_left (hp S')
    · refine (hn fun S' hS => hp S' (.inl (hall S' (.tail _ hS)))).trans ?_
      rw [processNext, hf (hall S (.head _)), Bool.or_false]

/-- **Two rounds** give each set its result. -/
theorem computeFinalTransitions_mem (fuel : ℕ) (T : List ImportSetTransition)
    (imports : List ImportSet) : ∃ m, computeFinalTransitions (fuel + 2) T imports = some m ∧
      ∀ S ∈ imports, ∃ R, m S = some R ∧ ∀ i, i ∈ R ↔ Reached T S i := by
  have result {s : Finals} (h : Inv T s) {S : ImportSet} (hS : Done s S) :
      ∃ R, s.finalTransitions S = some R ∧ ∀ i, i ∈ R ↔ Reached T S i := by
    obtain ⟨⟨R, hR⟩, hc⟩ := hS
    refine ⟨R, hR, fun i => ?_⟩
    rw [← h, hR, Option.getD_some, or_iff_left fun ⟨t, ht, hs, _⟩ => hc t ht hs]
  obtain ⟨h, hd, -⟩ := foldl_processNext (T := T) (r := (⟨fun _ => none, fun _ => T⟩, false)) fun _ _ => .rfl
  rw [computeFinalTransitions, finalLoop]
  split_ifs
  · obtain ⟨h', hd', hn⟩ := foldl_processNext (r := (_, false)) h
    rw [finalLoop, if_neg (by rw [hn fun S hS => hd S (.inr hS)]; nofun)]
    exact ⟨_, rfl, fun S hS => result h' (hd' S (.inr hS))⟩
  · exact ⟨_, rfl, fun S hS => result h (hd S (.inr hS))⟩

/-- **The result is the least closed set** above the given one exactly when no transition is
chained. -/
theorem computeFinalTransitions_isLeast (fuel : ℕ) (T : List ImportSetTransition)
    (imports : List ImportSet) :
    ∃ m, computeFinalTransitions (fuel + 2) T imports = some m ∧ ∀ S ∈ imports, ∃ R, m S = some R ∧
      (IsLeast {R | S ≤ R ∧ Closed T R} R ↔ Unchained T S) := by
  obtain ⟨m, hm, h⟩ := computeFinalTransitions_mem fuel T imports
  refine ⟨m, hm, fun S hS => ?_⟩
  obtain ⟨R, hR, hi⟩ := h S hS
  refine ⟨R, hR, fun hl t ht hs i hit => ?_, fun hu => ⟨⟨fun i h => (hi i).mpr (.inl h), ?_⟩, ?_⟩⟩
  · exact (hi i).mp (hl.1.2 t ht (fun i h => (hi i).mpr (hs i h)) i hit)
  · exact fun t ht hs i hit => (hi i).mpr (hu t ht (fun i h => (hi i).mp (hs i h)) i hit)
  rintro R' ⟨hSR, hc⟩ i h
  rcases (hi i).mp h with h | ⟨t, ht, hs, h⟩
  · exact hSR i h
  · exact hc t ht (hs.trans hSR) i h

/-- The transition from `1` and `2` to `3`. -/
def plain : ImportSetTransition := ⟨⟨[2, 1], by simp⟩, ⟨[3], by simp⟩⟩

theorem computeFinalTransitions_isLeast_plain :
    ∃ m, computeFinalTransitions 2 [plain] [plain.source] = some m ∧
      ∃ R, m plain.source = some R ∧
        IsLeast {R | plain.source ≤ R ∧ Closed [plain] R} R := by
  obtain ⟨m, hm, h⟩ := computeFinalTransitions_isLeast 0 [plain] [plain.source]
  obtain ⟨R, hR, hl⟩ := h _ (.head _)
  refine ⟨m, hm, R, hR, hl.mpr fun t ht _ i hi => .inr ⟨t, ht, ?_, hi⟩⟩
  rw [mem_singleton.mp ht]

/-- The transition from `2` and `3` to `4`. -/
def chained : ImportSetTransition := ⟨⟨[3, 2], by simp⟩, ⟨[4], by simp⟩⟩

/-- The second transition is enabled by the target of the other one and is not applied. -/
theorem computeFinalTransitions_misses_chain :
    ∃ m R, computeFinalTransitions 2 [plain, chained] [plain.source] = some m ∧
      m plain.source = some R ∧ chained.source ≤ R ∧ 4 ∉ R := by
  obtain ⟨m, hm, h⟩ := computeFinalTransitions_mem 0 [plain, chained] [plain.source]
  obtain ⟨R, hR, hi⟩ := h _ (.head _)
  refine ⟨m, R, hm, hR, fun i h => (hi i).mpr ?_, ?_⟩
  · rcases mem_cons.mp h with rfl | h
    · exact .inr ⟨plain, .head _, le_rfl, .head _⟩
    · exact .inl (mem_singleton.mp h ▸ .head _)
  · rw [hi]
    simp [Reached, plain, chained, ImportSet.le_def, ImportSet.mem_def]

end ImportSetLattice

end Compiler.DeferredLoad
