import DartSdk.Lib.Loops
import DartSdk.Backend.ParallelMove
import Mathlib.Data.List.Chain
import Mathlib.Data.Finset.Card

/-!
# Correctness of the parallel move resolver

A run of `performMove` has a stack of pending moves (the recursion), top first. The invariant
`Inv ms stk st` of a resolver state `st` reached from the moves `ms`:

* the destinations are those of `ms`, cleared exactly for the moves on the stack;
* the stack is a chain: the source of each pending move is the destination of the move below it.
  Only the bottom move's source is changed by swaps, so a move blocked by a pending move closes a
  cycle through the whole stack;
* performing the remaining moves at once, after the operations scheduled so far, has the effect of
  the original parallel move (`ParallelAssign.Resolves`).

`performMove_spec` says what one call does to the moves outside the stack (`Ext`): none of them
comes to read a destination of a pending move, which is why the loop over the blocking moves misses
none. `resolve_spec`: the schedule has the effect of the parallel move, also when locations the
emitter takes for scratch are clobbered on the way (`EmittedCode.exec_eq`).
-/

namespace Backend.Proof

open Backend Loops ParallelAssign MoveOperands ResolverState List
open Function (update update_comm update_of_ne)

/-! ## Moves and states -/

/-- The destination of the `i`-th initial move. -/
def destAt (ms : List MoveOperands) (i : Nat) : Location :=
  ((ms[i]?).map (·.dest)).getD .noLocation

/-- The `i`-th move is `m`, and it is not performed yet. -/
def Active (st : ResolverState) (i : Nat) (m : MoveOperands) : Prop :=
  st.moves[i]? = some m ∧ m.isEliminated = false

/-- The pairs still to be performed. -/
def remaining (ms : List MoveOperands) (st : ResolverState) (i : Nat) :
    Option (Location × Location) :=
  match st.moves[i]? with
  | some m => if m.isEliminated then none else some (destAt ms i, m.src)
  | none => none

/-- The moves `BuildInitialMoveList` builds, with distinct destinations. -/
structure Initial (ms : List MoveOperands) : Prop where
  needed : ∀ m ∈ ms, m.isRedundant = false
  storage : ∀ m ∈ ms, m.dest.isConstant = false
  nodup : (ms.map (·.dest)).Nodup

/-- The invariant of a resolver state with the pending moves `stk` (module doc). -/
structure Inv (ms : List MoveOperands) (stk : List Nat) (st : ResolverState) : Prop where
  length : st.moves.length = ms.length
  dest : ∀ i m, Active st i m → m.dest = if i ∈ stk then .noLocation else destAt ms i
  stack : ∀ i ∈ stk, ∃ m, Active st i m
  nodup : stk.Nodup
  chain : stk.IsChain fun a b => ∀ m, Active st a m → m.src = destAt ms b
  nontrivial : ∀ i m, Active st i m → i ∉ stk → m.src ≠ destAt ms i
  resolves : ∀ (V : Type) (σ τ : Location → V), Resolves (remaining ms ⟨ms, []⟩) σ τ →
    Resolves (remaining ms st) (MoveSchedule.exec st.scheduledOps σ) τ

/-- What a run with pending moves `stk` does to the others: no move is added, sources stay
(non-)constant, and no move comes to read a destination of a pending move. -/
def Ext (ms : List MoveOperands) (stk : List Nat) (st st' : ResolverState) : Prop :=
  ∀ i m', Active st' i m' → ∃ m, Active st i m ∧ m'.src.isConstant = m.src.isConstant ∧
    (i ∉ stk → (∃ b ∈ stk, m'.src = destAt ms b) → m.src = m'.src)

theorem Ext.refl (ms : List MoveOperands) (stk : List Nat) (st : ResolverState) :
    Ext ms stk st st := fun _ m h => ⟨m, h, rfl, fun _ _ => rfl⟩

variable {ms l : List MoveOperands} {stk : List Nat} {st st' : ResolverState} {m m' : MoveOperands}
  {i j : Nat} {p : Location × Location} {V : Type}

theorem Ext.trans {st1 st2 st3 : ResolverState}
    (h1 : Ext ms stk st1 st2) (h2 : Ext ms stk st2 st3) : Ext ms stk st1 st3 := by
  intro i m3 hm3
  obtain ⟨m2, hm2, hc2, hs2⟩ := h2 i m3 hm3
  obtain ⟨m1, hm1, hc1, hs1⟩ := h1 i m2 hm2
  refine ⟨m1, hm1, by rw [hc2, hc1], fun hi hb => ?_⟩
  have h23 := hs2 hi hb
  rw [← h23] at hb ⊢
  exact hs1 hi hb

theorem Active.unique (h : Active st i m) (h' : Active st i m') : m = m' := by
  have := h.1.symm.trans h'.1
  simpa using this

theorem Active.lt (h : Active st i m) : i < st.moves.length := (List.getElem?_eq_some_iff.1 h.1).1

theorem remaining_eq_some :
    remaining ms st i = some p ↔ ∃ m, Active st i m ∧ p = (destAt ms i, m.src) := by
  unfold remaining Active
  cases st.moves[i]? with
  | none => simp
  | some m =>
    by_cases h : m.isEliminated = true
    · simp only [h, ↓reduceIte, reduceCtorEq, Option.some.injEq, false_iff]
      rintro ⟨m', ⟨rfl, hm⟩, -⟩
      rw [h] at hm; cases hm
    simp only [h, Bool.false_eq_true, ↓reduceIte, Option.some.injEq]
    constructor
    · rintro rfl; exact ⟨m, ⟨rfl, by simpa using h⟩, rfl⟩
    · rintro ⟨m', ⟨rfl, -⟩, rfl⟩; rfl

/-! ## The initial moves -/

namespace Initial

variable (hms : Initial ms)
include hms

theorem dest_valid (hi : i < ms.length) : (destAt ms i).isInvalid = false := by
  have h := hms.needed ms[i] (getElem_mem hi)
  simp only [isRedundant, Bool.or_eq_false_iff] at h
  simpa [destAt, getElem?_eq_getElem hi] using h.1.2

theorem dest_not_constant (hi : i < ms.length) : (destAt ms i).isConstant = false := by
  have h := hms.storage ms[i] (getElem_mem hi)
  simpa [destAt, getElem?_eq_getElem hi] using h

theorem dest_inj (hi : i < ms.length) (hj : j < ms.length)
    (h : destAt ms i = destAt ms j) : i = j := by
  have hin := nodup_iff_injective_getElem.1 hms.nodup
  have := @hin ⟨i, by simpa using hi⟩ ⟨j, by simpa using hj⟩
    (by simpa [destAt, getElem?_eq_getElem, hi, hj] using h)
  simpa using this

theorem inv : Inv ms [] ⟨ms, []⟩ where
  length := rfl
  dest i m h := by
    have hm : ms[i]? = some m := h.1
    simp [destAt, hm]
  stack := by simp
  nodup := nodup_nil
  chain := by simp
  nontrivial i m h _ := by
    have hm : ms[i]? = some m := h.1
    have hr := hms.needed m (mem_of_getElem? hm)
    simp only [isRedundant, Bool.or_eq_false_iff, beq_eq_false_iff_ne] at hr
    simpa [destAt, hm] using hr.2
  resolves _ _ _ h := h

end Initial

/-! ## Single updates of a state -/

theorem active_set {ops : List Op} : Active ⟨st.moves.set i m, ops⟩ j m' ↔
      (j = i ∧ i < st.moves.length ∧ m' = m ∧ m.isEliminated = false) ∨ (j ≠ i ∧ Active st j m') := by
  unfold Active
  by_cases h : j = i
  · subst h
    simp only [getElem?_set_self', Option.map_eq_map, Option.map_eq_some_iff,
      true_and, ne_eq, not_true_eq_false, false_and, or_false]
    constructor
    · rintro ⟨⟨a, ha, rfl⟩, he⟩
      exact ⟨(List.getElem?_eq_some_iff.1 ha).1, rfl, he⟩
    · rintro ⟨hlt, rfl, he⟩
      exact ⟨⟨_, getElem?_eq_getElem hlt, rfl⟩, he⟩
  · simp [h, getElem?_set_ne (Ne.symm h)]

theorem eliminate_isEliminated (m : MoveOperands) : m.eliminate.isEliminated = true := rfl

theorem active_eliminate {ops : List Op} :
    Active ⟨st.moves.set i m.eliminate, ops⟩ j m' ↔ j ≠ i ∧ Active st j m' := by
  rw [active_set]
  simp [eliminate_isEliminated]

theorem remaining_eliminate (ms : List MoveOperands) (st : ResolverState) (i : Nat)
    (m : MoveOperands) (ops : List Op) :
    remaining ms ⟨st.moves.set i m.eliminate, ops⟩ = erase (remaining ms st) i := by
  funext j
  apply Option.ext
  intro p
  rw [remaining_eq_some, erase_eq_some, remaining_eq_some]
  simp only [active_eliminate]
  constructor
  · rintro ⟨m', ⟨hj, h⟩, hp⟩; exact ⟨hj, m', h, hp⟩
  · rintro ⟨hj, m', h, hp⟩; exact ⟨m', ⟨hj, h⟩, hp⟩

theorem redirectSrc_isEliminated {src dst : Location}
    (hs : src.isInvalid = false) (hd : dst.isInvalid = false) :
    (redirectSrc src dst m).isEliminated = m.isEliminated := by
  unfold redirectSrc
  split
  · rename_i h
    simp only [blocks, Bool.and_eq_true, Bool.not_eq_true'] at h
    rw [h.1]; exact hd
  split
  · rename_i h
    simp only [blocks, Bool.and_eq_true, Bool.not_eq_true'] at h
    rw [h.1]; exact hs
  · rfl

theorem redirectSrc_dest (src dst : Location) (m : MoveOperands) :
    (redirectSrc src dst m).dest = m.dest := by
  unfold redirectSrc
  split
  · rfl
  · split <;> rfl

theorem redirectSrc_src (src dst : Location) (hm : m.isEliminated = false) :
    (redirectSrc src dst m).src = rename src dst m.src := by
  unfold redirectSrc blocks rename
  by_cases h1 : m.src = src
  · simp [hm, h1, setSrc]
  · by_cases h2 : m.src = dst
    · subst h2; simp [hm, h1, setSrc]
    · simp [h1, h2]

/-- The moves after a swap: those left, reading from where the swap put their value. -/
theorem active_swap (hs : m.src.isInvalid = false) (hd : m.dest.isInvalid = false) :
    Active (st.addSwapToSchedule i m) j m' ↔ j ≠ i ∧ ∃ m0, Active st j m0 ∧ m'.dest = m0.dest ∧
      m'.src = rename m.src m.dest m0.src := by
  have hmp : Active (st.addSwapToSchedule i m) j m' ↔
      ∃ m0, Active ⟨st.moves.set i m.eliminate, []⟩ j m0 ∧ redirectSrc m.src m.dest m0 = m' := by
    unfold Active addSwapToSchedule
    simp only [getElem?_map, Option.map_eq_some_iff]
    constructor
    · rintro ⟨⟨m0, h, rfl⟩, he⟩
      rw [redirectSrc_isEliminated hs hd] at he
      exact ⟨m0, ⟨h, he⟩, rfl⟩
    · rintro ⟨m0, ⟨h, he⟩, rfl⟩
      exact ⟨⟨m0, h, rfl⟩, by rw [redirectSrc_isEliminated hs hd]; exact he⟩
  rw [hmp]
  constructor
  · rintro ⟨m0, h, rfl⟩
    obtain ⟨hj, h⟩ := active_eliminate.1 h
    exact ⟨hj, m0, h, redirectSrc_dest _ _ _, redirectSrc_src _ _ h.2⟩
  rintro ⟨hj, m0, h, hd', hs'⟩
  refine ⟨m0, active_eliminate.2 ⟨hj, h⟩, ?_⟩
  have h1 := redirectSrc_dest m.src m.dest m0
  have h2 := redirectSrc_src m.src m.dest h.2
  generalize redirectSrc m.src m.dest m0 = r at h1 h2
  cases r; cases m'
  simp_all

theorem remaining_swap (ms : List MoveOperands)
    (hs : m.src.isInvalid = false) (hd : m.dest.isInvalid = false) :
    remaining ms (st.addSwapToSchedule i m) =
      redirect m.src m.dest (erase (remaining ms st) i) := by
  funext j
  apply Option.ext
  rintro ⟨d, s⟩
  rw [remaining_eq_some, redirect_eq_some]
  constructor
  · rintro ⟨m', h, hp⟩
    obtain ⟨hj, m0, h0, -, hs'⟩ := (active_swap hs hd).1 h
    simp only [Prod.mk.injEq] at hp
    refine ⟨m0.src, erase_eq_some.2 ⟨hj, remaining_eq_some.2 ⟨m0, h0, by rw [hp.1]⟩⟩, ?_⟩
    rw [hp.2, hs']
  · rintro ⟨s', h, rfl⟩
    obtain ⟨hj, h⟩ := erase_eq_some.1 h
    obtain ⟨m0, h0, hp⟩ := remaining_eq_some.1 h
    simp only [Prod.mk.injEq] at hp
    refine ⟨⟨m0.dest, rename m.src m.dest m0.src⟩, (active_swap hs hd).2 ⟨hj, m0, h0, rfl, rfl⟩, ?_⟩
    rw [hp.1, hp.2]

/-! ## Preservation -/

theorem active_markPending (hm : Active st i m) : Active (st.setMove i m.markPending) j m' ↔
      (j = i ∧ m' = m.markPending) ∨ (j ≠ i ∧ Active st j m') := by
  rw [setMove, active_set]
  have hme : m.markPending.isEliminated = false := hm.2
  simp [hm.lt, hme]

/-- A pending move keeps its source. -/
theorem Active.markPending (hm : Active st i m)
    (hj : Active (st.setMove i m.markPending) j m') : ∃ m0, Active st j m0 ∧ m0.src = m'.src := by
  rcases (active_markPending hm).1 hj with ⟨rfl, rfl⟩ | ⟨-, hj⟩
  · exact ⟨m, hm, rfl⟩
  · exact ⟨m', hj, rfl⟩

namespace Inv

theorem lt (h : Inv ms stk st) (hm : Active st i m) : i < ms.length := h.length ▸ hm.lt

theorem stack_lt (h : Inv ms stk st) (hi : i ∈ stk) : i < ms.length := by
  obtain ⟨m, hm⟩ := h.stack i hi
  exact h.lt hm

/-- The moves in progress are the active ones without a destination. -/
theorem isPending_iff (hms : Initial ms) (h : Inv ms stk st) (hm : Active st i m) :
    m.isPending = true ↔ i ∈ stk := by
  have hs : m.src.isInvalid = false := hm.2
  have hd := h.dest i m hm
  by_cases hi : i ∈ stk
  · have hd' : m.dest.isInvalid = true := by rw [hd, if_pos hi]; rfl
    simp [isPending, hs, hd', hi]
  · simp [isPending, hs, hd, hi, hms.dest_valid (h.lt hm)]

/-- Marking a move that blocks the top of the stack as pending. -/
theorem markPending (h : Inv ms stk st) (hm : Active st i m) (hi : i ∉ stk)
    (ht : ∀ b ∈ stk.head?, m.src = destAt ms b) :
    Inv ms (i :: stk) (st.setMove i m.markPending) := by
  refine ⟨by simp [setMove, h.length], fun j m' hj => ?_, fun j hj => ?_,
    nodup_cons.2 ⟨hi, h.nodup⟩, ?_, fun j m' hj hjs => ?_, fun V σ τ hr => ?_⟩
  · rcases (active_markPending hm).1 hj with ⟨rfl, rfl⟩ | ⟨hne, hj⟩
    · simp [markPending]
    · rw [h.dest j m' hj]; simp [hne]
  · by_cases hji : j = i
    · exact ⟨_, (active_markPending hm).2 (.inl ⟨hji, rfl⟩)⟩
    · obtain ⟨m', hm'⟩ := h.stack j (by simpa [hji] using hj)
      exact ⟨m', (active_markPending hm).2 (.inr ⟨hji, hm'⟩)⟩
  · rw [isChain_cons]
    refine ⟨fun b hb m' hm' => ?_, h.chain.imp_of_mem_imp fun a b _ _ hab m' hm' => ?_⟩
    · obtain ⟨m0, hm0, he⟩ := hm.markPending hm'
      rw [← he, hm0.unique hm]
      exact ht b hb
    · obtain ⟨m0, hm0, he⟩ := hm.markPending hm'
      rw [← he]
      exact hab m0 hm0
  · simp only [mem_cons, not_or] at hjs
    obtain ⟨m0, hm0, he⟩ := hm.markPending hj
    rw [← he]
    exact h.nontrivial j m0 hm0 hjs.2
  · have hrm : remaining ms (st.setMove i m.markPending) = remaining ms st := by
      funext j
      apply Option.ext
      intro p
      rw [remaining_eq_some, remaining_eq_some]
      constructor
      · rintro ⟨m', hj, rfl⟩
        obtain ⟨m0, hm0, he⟩ := hm.markPending hj
        exact ⟨m0, hm0, by rw [he]⟩
      rintro ⟨m', hj, rfl⟩
      by_cases hji : j = i
      · subst hji
        exact ⟨_, (active_markPending hm).2 (.inl ⟨rfl, rfl⟩), by rw [hj.unique hm]; rfl⟩
      · exact ⟨m', (active_markPending hm).2 (.inr ⟨hji, hj⟩), rfl⟩
    rw [hrm]
    exact h.resolves V σ τ hr

/-- Dropping the top of the stack, the moves below keeping their destinations and sources. -/
theorem pop (h : Inv ms (i :: stk) st) (hl : st'.moves.length = ms.length)
    (hac : ∀ j m', Active st' j m' → j ≠ i ∧ ∃ m0, Active st j m0 ∧ m'.dest = m0.dest ∧
      (j ∈ stk → (∃ b ∈ stk, m0.src = destAt ms b ∧ stk.head? ≠ some b) → m'.src = m0.src) ∧
      (j ∉ stk → m0.src ≠ destAt ms j → m'.src ≠ destAt ms j))
    (hst : ∀ j ∈ stk, ∃ m', Active st' j m')
    (hrs : ∀ (V : Type) (σ τ : Location → V),
      Resolves (remaining ms st) (MoveSchedule.exec st.scheduledOps σ) τ →
        Resolves (remaining ms st') (MoveSchedule.exec st'.scheduledOps σ) τ) : Inv ms stk st' := by
  have hnd := nodup_cons.1 h.nodup
  refine ⟨hl, fun j m' hj => ?_, hst, hnd.2, ?_, fun j m' hj hjs => ?_, fun V σ τ hr => ?_⟩
  · obtain ⟨hne, m0, hm0, hd, -, -⟩ := hac j m' hj
    rw [hd, h.dest j m0 hm0]
    simp [hne]
  · have hc := (isChain_cons.1 h.chain).2
    refine hc.imp_of_mem_tail_imp fun a b ha hb hab m' hm' => ?_
    obtain ⟨-, m0, hm0, -, hs, -⟩ := hac a m' hm'
    rw [hs ha ⟨b, mem_of_mem_tail hb, hab m0 hm0, fun he => ?_⟩]
    · exact hab m0 hm0
    -- the head of a duplicate-free stack is not in its tail
    cases stk with
    | nil => cases he
    | cons c stk =>
      simp only [head?_cons, Option.some.injEq] at he
      subst he
      exact (nodup_cons.1 hnd.2).1 hb
  · obtain ⟨hne, m0, hm0, -, -, ht⟩ := hac j m' hj
    exact ht hjs (h.nontrivial j m0 hm0 (by simp [hne, hjs]))
  · exact hrs V σ τ (h.resolves V σ τ hr)

end Inv

/-! ## Performing one move -/

theorem exec_append (ops : List Op) (op : Op) (σ : Location → V) :
    MoveSchedule.exec (ops ++ [op]) σ = op.exec (MoveSchedule.exec ops σ) := by
  simp [MoveSchedule.exec]

/-- Removing the top of the stack without touching another move: by a copy, or by nothing. -/
theorem Inv.eliminate (h : Inv ms (i :: stk) st) (m : MoveOperands) (ops : List Op)
    (hrs : ∀ (V : Type) (σ τ : Location → V),
      Resolves (remaining ms st) (MoveSchedule.exec st.scheduledOps σ) τ →
        Resolves (erase (remaining ms st) i) (MoveSchedule.exec ops σ) τ) :
    Inv ms stk ⟨st.moves.set i m.eliminate, ops⟩ ∧
      Ext ms stk st ⟨st.moves.set i m.eliminate, ops⟩ := by
  have hi := (nodup_cons.1 h.nodup).1
  refine ⟨h.pop (by simp [h.length]) (fun j m' hj => ?_) (fun j hj => ?_) (fun V σ τ hr => ?_),
    fun j m' hj => ?_⟩
  · obtain ⟨hne, hj⟩ := active_eliminate.1 hj
    exact ⟨hne, m', hj, rfl, fun _ _ => rfl, fun _ h => h⟩
  · obtain ⟨m', hm'⟩ := h.stack j (.tail _ hj)
    exact ⟨m', active_eliminate.2 ⟨fun he => hi (he ▸ hj), hm'⟩⟩
  · rw [remaining_eliminate]
    exact hrs V σ τ hr
  · exact ⟨m', (active_eliminate.1 hj).2, rfl, fun _ _ => rfl⟩

/-- Removing the top of the stack by a swap: its source is the destination of the move below it,
and no unpending move reads its destination. -/
theorem Inv.swap (hms : Initial ms) (h : Inv ms (i :: stk) st) (hm : Active st i m)
    {b : Nat} (hb : stk.head? = some b)
    (hf : ∀ j m', Active st j m' → j ∉ i :: stk → m'.src ≠ destAt ms i) :
    Inv ms stk (st.addSwapToSchedule i (m.clearPending (destAt ms i))) ∧
      Ext ms stk st (st.addSwapToSchedule i (m.clearPending (destAt ms i))) := by
  have hi := (nodup_cons.1 h.nodup).1
  have hil := h.lt hm
  have hbm : b ∈ stk := mem_of_mem_head? hb
  have hbl := h.stack_lt (.tail _ hbm)
  have hbi : b ≠ i := fun he => hi (he ▸ hbm)
  have hsr : m.src = destAt ms b := (isChain_cons.1 h.chain).1 b hb m hm
  have hs : (m.clearPending (destAt ms i)).src.isInvalid = false := hm.2
  have hd : (m.clearPending (destAt ms i)).dest.isInvalid = false := hms.dest_valid hil
  -- the two exchanged locations are the destinations of `b` and `i`
  have hrn : ∀ l, rename (m.clearPending (destAt ms i)).src
      (m.clearPending (destAt ms i)).dest l = rename (destAt ms b) (destAt ms i) l := by
    intro l
    simp [clearPending, hsr]
  refine ⟨h.pop ?_ (fun j m' hj => ?_) (fun j hj => ?_) (fun V σ τ hr => ?_), fun j m' hj => ?_⟩
  · simp [addSwapToSchedule, h.length]
  · obtain ⟨hne, m0, hm0, hd', hs'⟩ := (active_swap hs hd).1 hj
    rw [hrn] at hs'
    refine ⟨hne, m0, hm0, hd', fun hjs => ?_, fun hjs ht => ?_⟩
    · rintro ⟨c, hc, hsc, hcb⟩
      have hcl := h.stack_lt (.tail _ hc)
      rw [hs', hsc, rename_other]
      · exact fun he => hcb (by rw [hb, hms.dest_inj hcl hbl he])
      · exact fun he => hi (hms.dest_inj hcl hil he ▸ hc)
    · have hjl := h.lt hm0
      have hnb : m0.src ≠ destAt ms i := hf j m0 hm0 (by simp [hne, hjs])
      rw [hs']
      by_cases hsb : m0.src = destAt ms b
      · rw [hsb, rename_left]
        exact fun he => hne (hms.dest_inj hil hjl he).symm
      · rw [rename_other hsb hnb]
        exact ht
  · obtain ⟨m0, hm0⟩ := h.stack j (.tail _ hj)
    exact ⟨⟨m0.dest, rename _ _ m0.src⟩,
      (active_swap hs hd).2 ⟨fun he => hi (he ▸ hj), m0, hm0, rfl, rfl⟩⟩
  · rw [remaining_swap ms hs hd]
    have hri : remaining ms st i = some (destAt ms i, m.src) := remaining_eq_some.2 ⟨m, hm, rfl⟩
    obtain ⟨mb, hmb⟩ := h.stack b (.tail _ hbm)
    have hrb : remaining ms st b = some (m.src, mb.src) :=
      remaining_eq_some.2 ⟨mb, hmb, by rw [hsr]⟩
    simp only [addSwapToSchedule]
    rw [exec_append]
    exact hr.exchange hri ⟨b, mb.src, hbi, hrb⟩
  · obtain ⟨hne, m0, hm0, hd', hs'⟩ := (active_swap hs hd).1 hj
    rw [hrn] at hs'
    refine ⟨m0, hm0, ?_, fun hjs => ?_⟩
    · rw [hs']
      by_cases h1 : m0.src = destAt ms b
      · rw [h1, rename_left, hms.dest_not_constant hil, hms.dest_not_constant hbl]
      · by_cases h2 : m0.src = destAt ms i
        · rw [h2, rename_right, hms.dest_not_constant hil, hms.dest_not_constant hbl]
        · rw [rename_other h1 h2]
    · rintro ⟨c, hc, hsc⟩
      have hcl := h.stack_lt (.tail _ hc)
      have hnb : m0.src ≠ destAt ms i := hf j m0 hm0 (by simp [hne, hjs])
      by_cases hsb : m0.src = destAt ms b
      · -- such a move now reads `i`'s destination, which is not one of the stack
        rw [hs', hsb, rename_left] at hsc
        exact absurd (hms.dest_inj hil hcl hsc ▸ hc) hi
      · rw [hs', rename_other hsb hnb]

/-- The end of `performMove`: the top of the stack is performed. -/
theorem finishMove_spec (hms : Initial ms) (h : Inv ms (i :: stk) st) (hm : Active st i m)
    (hfr : ∀ j m', Active st j m' → j ∉ i :: stk → m'.src ≠ destAt ms i) :
    ∃ st', st.finishMove i m (destAt ms i) = some st' ∧ Inv ms stk st' ∧ Ext ms stk st st' ∧
      ∀ m', ¬ Active st' i m' := by
  have hri : remaining ms st i = some (destAt ms i, m.src) := remaining_eq_some.2 ⟨m, hm, rfl⟩
  have hg : ∀ ops m', ¬ Active ⟨st.moves.set i m.eliminate, ops⟩ i m' :=
    fun ops m' ha => (active_eliminate.1 ha).1 rfl
  have hse : ∀ o ops, (⟨(st.moves.set i o).set i m.eliminate, ops⟩ : ResolverState) =
      ⟨st.moves.set i m.eliminate, ops⟩ := fun o ops => by rw [set_set]
  unfold finishMove
  by_cases hsl : m.src = destAt ms i
  · -- the last move of a cycle whose swaps already put its value in place
    have he := h.eliminate m st.scheduledOps fun V σ τ hr =>
      hr.trivial (by rw [hri, hsl])
    refine ⟨⟨st.moves.set i m.eliminate, st.scheduledOps⟩, ?_, he.1, he.2, hg _⟩
    simp only [clearPending, hsl, ↓reduceIte, setMove]
    exact congrArg some (hse _ _)
  · simp only [clearPending, hsl, ↓reduceIte]
    -- the only moves that can still read the destination are pending
    have hbk : ∀ j o, (st.moves.set i ⟨destAt ms i, m.src⟩)[j]? = some o →
        o.blocks (destAt ms i) = true → j ≠ i ∧ Active st j o ∧ o.src = destAt ms i := by
      intro j o hj hbl
      simp only [blocks, Bool.and_eq_true, Bool.not_eq_true', beq_iff_eq] at hbl
      have ha : Active ⟨st.moves.set i ⟨destAt ms i, m.src⟩, []⟩ j o := ⟨hj, hbl.1⟩
      rcases active_set.1 ha with ⟨-, -, rfl, -⟩ | ⟨hne, ha⟩
      · exact absurd hbl.2 hsl
      · exact ⟨hne, ha, hbl.2⟩
    cases hf : (st.setMove i ⟨destAt ms i, m.src⟩).moves.find?
        fun other => other.blocks (destAt ms i) with
    | some other =>
      obtain ⟨j, hj⟩ := mem_iff_getElem?.1 (mem_of_find?_eq_some hf)
      obtain ⟨hne, ha, hsr⟩ := hbk j other hj
        (by simpa using find?_some hf)
      have hjs : j ∈ stk := by
        by_contra hjs
        exact hfr j other ha (by simp [hne, hjs]) hsr
      have hp : other.isPending = true := (h.isPending_iff hms ha).2 (.tail _ hjs)
      obtain ⟨b, hb⟩ : ∃ b, stk.head? = some b := by
        cases stk with
        | nil => cases hjs
        | cons b _ => exact ⟨b, rfl⟩
      obtain ⟨h1, h2⟩ := h.swap hms hm hb hfr
      have hst : (st.setMove i ⟨destAt ms i, m.src⟩).addSwapToSchedule i ⟨destAt ms i, m.src⟩ =
          st.addSwapToSchedule i (m.clearPending (destAt ms i)) := by
        simp [addSwapToSchedule, setMove, clearPending]
      refine ⟨_, by simp [hp, hst], h1, h2, fun m' ha' => ?_⟩
      exact ((active_swap (m := m.clearPending (destAt ms i)) hm.2
        (hms.dest_valid (h.lt hm))).1 ha').1 rfl
    | none =>
      have hu : ∀ j d', j ≠ i → remaining ms st j ≠ some (d', destAt ms i) := by
        intro j d' hne hj
        obtain ⟨o, ho, hp⟩ := remaining_eq_some.1 hj
        simp only [Prod.mk.injEq] at hp
        have hme : o ∈ (st.setMove i ⟨destAt ms i, m.src⟩).moves := by
          refine mem_of_getElem? (i := j) ?_
          simp only [setMove]
          rw [getElem?_set_ne (Ne.symm hne)]
          exact ho.1
        have := find?_eq_none.1 hf o hme
        simp [blocks, ho.2, hp.2] at this
      have he := h.eliminate m (st.scheduledOps ++ [⟨.move, ⟨destAt ms i, m.src⟩⟩])
        fun V σ τ hr => by rw [exec_append]; exact hr.copy hri hu
      refine ⟨⟨st.moves.set i m.eliminate, _⟩, ?_, he.1, he.2, hg _⟩
      exact congrArg some (hse _ _)

/-- The moves a call may still perform. -/
def unpended (st : ResolverState) (stk : List Nat) : Finset Nat :=
  (Finset.range st.moves.length).filter fun j =>
    j ∉ stk ∧ ((st.moves[j]?).map (·.isEliminated)) = some false

theorem mem_unpended : j ∈ unpended st stk ↔ j ∉ stk ∧ ∃ m, Active st j m := by
  simp only [unpended, Finset.mem_filter, Finset.mem_range, Option.map_eq_some_iff]
  constructor
  · rintro ⟨-, hj, m, hm⟩; exact ⟨hj, m, hm⟩
  · rintro ⟨hj, m, hm⟩; exact ⟨hm.lt, hj, m, hm⟩

theorem unpended_subset (h : Ext ms stk st st') : unpended st' stk ⊆ unpended st stk := by
  intro j hj
  obtain ⟨hjs, m', hm'⟩ := mem_unpended.1 hj
  obtain ⟨m, hm, -⟩ := h j m' hm'
  exact mem_unpended.2 ⟨hjs, m, hm⟩

/-- **One call of `PerformMove`** on an unpended move that blocks the top of the stack performs it,
with enough fuel for the unpended moves. -/
theorem performMove_spec (hms : Initial ms) :
    ∀ (fuel : Nat) {stk : List Nat} {st : ResolverState} {i : Nat} {m : MoveOperands},
      Inv ms stk st → Active st i m → i ∉ stk → (∀ b ∈ stk.head?, m.src = destAt ms b) →
      (unpended st stk).card ≤ fuel →
      ∃ st', st.performMove fuel i = some st' ∧ Inv ms stk st' ∧ Ext ms stk st st' ∧
        ∀ m', ¬ Active st' i m' := by
  intro fuel
  induction fuel with
  | zero =>
    intro stk st i m _ hm hi _ hf
    have : i ∈ unpended st stk := mem_unpended.2 ⟨hi, m, hm⟩
    rw [Finset.card_eq_zero.1 (Nat.le_zero.1 hf)] at this
    simp at this
  | succ fuel ih =>
    intro stk st i m h hm hi ht hf
    have hd : m.dest = destAt ms i := by rw [h.dest i m hm, if_neg hi]
    have hdv : m.dest.isInvalid = false := by rw [hd]; exact hms.dest_valid (h.lt hm)
    have hsv : m.src.isInvalid = false := hm.2
    have hgr : (!m.isPending && !m.isRedundant && !m.src.isInvalid) = true := by
      have hne : m.src ≠ m.dest := by rw [hd]; exact h.nontrivial i m hm hi
      simp [isPending, isRedundant, isEliminated, hdv, hsv, hne]
    have h1 := h.markPending hm hi ht
    have ha1 : ∀ j m', Active (st.setMove i m.markPending) j m' →
        ∃ m0, Active st j m0 ∧ m0.src = m'.src := fun _ _ => hm.markPending
    generalize hst1 : st.setMove i m.markPending = st1 at h1 ha1
    have hfl : (unpended st1 (i :: stk)).card ≤ fuel := by
      have hlt : unpended st1 (i :: stk) ⊂ unpended st stk := by
        refine Finset.ssubset_iff_of_subset (fun j hj => ?_) |>.2
          ⟨i, mem_unpended.2 ⟨hi, m, hm⟩, fun hc => (mem_unpended.1 hc).1 (by simp)⟩
        obtain ⟨hjs, m', hm'⟩ := mem_unpended.1 hj
        obtain ⟨m0, hm0, -⟩ := ha1 j m' hm'
        exact mem_unpended.2 ⟨fun hc => hjs (.tail _ hc), m0, hm0⟩
      have := Finset.card_lt_card hlt
      omega
    -- the loop over the blocking moves: those before `k` no longer block
    obtain ⟨st2, hl, h2, hex, hfr⟩ := foldlM_range
      (fun s j => do
        let other ← s.moves[j]?
        if other.blocks m.dest && !other.isPending then s.performMove fuel j else pure s)
      (fun k s => Inv ms (i :: stk) s ∧ Ext ms (i :: stk) st1 s ∧
        ∀ j < k, ∀ o, Active s j o → j ∉ i :: stk → o.src ≠ destAt ms i)
      ⟨h1, Ext.refl _ _ _, fun _ hj => absurd hj (Nat.not_lt_zero _)⟩ (by
        rintro k hk s ⟨hs, hes, hns⟩
        have hks : k < s.moves.length := by rw [hs.length, ← h1.length]; exact hk
        obtain ⟨o, ho⟩ : ∃ o, s.moves[k]? = some o := ⟨_, getElem?_eq_getElem hks⟩
        simp only [ho, some_bind]
        by_cases hc : (o.blocks m.dest && !o.isPending) = true
        · rw [if_pos hc]
          simp only [blocks, Bool.and_eq_true, Bool.not_eq_true', beq_iff_eq, hd] at hc
          have hoa : Active s k o := ⟨ho, hc.1.1⟩
          have hks' : k ∉ i :: stk := fun hme => by
            rw [(hs.isPending_iff hms hoa).2 hme] at hc
            simp at hc
          have hcr := Finset.card_le_card (unpended_subset hes)
          obtain ⟨s', hp, hs', he', hg'⟩ := ih hs hoa hks'
            (by simpa using hc.1.2) (by omega)
          refine ⟨s', hp, hs', hes.trans he', fun j hj o' ho' hjs hsr => ?_⟩
          obtain ⟨o0, ho0, -, hkp⟩ := he' j o' ho'
          by_cases hjk : j = k
          · subst hjk; exact hg' o' ho'
          · exact hns j (by omega) o0 ho0 hjs
              ((hkp hjs ⟨i, by simp, hsr⟩).trans hsr)
        · rw [if_neg hc]
          refine ⟨s, rfl, hs, hes, fun j hj o' ho' hjs hsr => ?_⟩
          by_cases hjk : j = k
          · subst hjk
            have hoo : o' = o := by simpa [ho] using ho'.1.symm
            subst hoo
            have hnp : o'.isPending = false := by
              have := hs.isPending_iff hms ho'
              simpa [hjs] using this
            simp [blocks, ho'.2, hsr, hd, hnp] at hc
          · exact hns j (by omega) o' ho' hjs hsr)
    have hln2 : st1.moves.length = st2.moves.length := by rw [h1.length, h2.length]
    obtain ⟨m2, hm2⟩ := h2.stack i (by simp)
    have hpn : m2.isPending = true := (h2.isPending_iff hms hm2).2 (by simp)
    obtain ⟨st3, hfn, h3, hex3, hg⟩ := finishMove_spec hms h2 hm2
      (fun j o ho hjs => hfr j (hln2 ▸ ho.lt) o ho hjs)
    refine ⟨st3, ?_, h3, fun j m' hm' => ?_, hg⟩
    · unfold performMove
      have hmi : st.moves[i]? = some m := hm.1
      have hmi2 : st2.moves[i]? = some m2 := hm2.1
      simp only [hmi, Option.bind_eq_bind, Option.bind_some, hgr, guard_true, hst1]
      simp only [Option.bind_eq_bind] at hl
      rw [Option.pure_def, Option.bind_some, hl]
      simp only [Option.bind_some, hmi2, hpn, guard_true, Option.pure_def, hd]
      exact hfn
    · obtain ⟨o2, ho2, hc2, hk2⟩ := hex3 j m' hm'
      obtain ⟨o1, ho1, hc1, hk1⟩ := hex j o2 ho2
      obtain ⟨o0, ho0, hs0⟩ := ha1 j o1 ho1
      refine ⟨o0, ho0, by rw [hc2, hc1, hs0], fun hjs hb => ?_⟩
      have hji : j ≠ i := fun he => hg m' (he ▸ hm')
      have e2 := hk2 hjs hb
      obtain ⟨b, hbm, hbs⟩ := hb
      have e1 := hk1 (by simp [hji, hjs]) ⟨b, .tail _ hbm, by rw [e2, hbs]⟩
      rw [hs0, e1, e2]

/-! ## Resolving a parallel move -/

/-- The first loop performs every move whose source is not a constant. -/
theorem performMoves_spec (hms : Initial ms) :
    ∃ st, performMoves (ms.length + 1) ⟨ms, []⟩ = some st ∧ Inv ms [] st ∧
      ∀ i m, Active st i m → m.src.isConstant = true := by
  have hcr : ∀ s : ResolverState, s.moves.length = ms.length →
      (unpended s []).card ≤ ms.length + 1 := by
    intro s hs
    have := Finset.card_filter_le (Finset.range s.moves.length) fun j =>
      j ∉ ([] : List Nat) ∧ ((s.moves[j]?).map (·.isEliminated)) = some false
    rw [Finset.card_range] at this
    unfold unpended
    omega
  obtain ⟨st, hl, hin, hcs⟩ := foldlM_range
    (fun s j => do
      let m ← s.moves[j]?
      if !m.isEliminated && !m.src.isConstant then s.performMove (ms.length + 1) j else pure s)
    (fun k s => Inv ms [] s ∧ ∀ j < k, ∀ o, Active s j o → o.src.isConstant = true)
    ⟨hms.inv, fun _ hj => absurd hj (Nat.not_lt_zero _)⟩ (by
      rintro k hk s ⟨hs, hc⟩
      obtain ⟨o, ho⟩ : ∃ o, s.moves[k]? = some o :=
        ⟨_, getElem?_eq_getElem (by rw [hs.length]; exact hk)⟩
      simp only [ho, some_bind]
      by_cases hcn : (!o.isEliminated && !o.src.isConstant) = true
      · rw [if_pos hcn]
        simp only [Bool.and_eq_true, Bool.not_eq_true'] at hcn
        obtain ⟨s', hp, hs', he, hg⟩ := performMove_spec hms (ms.length + 1) hs ⟨ho, hcn.1⟩
          (by simp) (by simp) (hcr s hs.length)
        refine ⟨s', hp, hs', fun j hj o' ho' => ?_⟩
        by_cases hjk : j = k
        · subst hjk; exact absurd ho' (hg o')
        · obtain ⟨o0, ho0, hc0, -⟩ := he j o' ho'
          rw [hc0]
          exact hc j (by omega) o0 ho0
      · rw [if_neg hcn]
        refine ⟨s, rfl, hs, fun j hj o' ho' => ?_⟩
        by_cases hjk : j = k
        · subst hjk
          have hoo : o' = o := by simpa [ho] using ho'.1.symm
          subst hoo
          simpa [ho'.2] using hcn
        · exact hc j (by omega) o' ho')
  exact ⟨st, hl, hin, fun i m hm => hcs i (hin.lt hm) m hm⟩

/-- The unperformed moves of a list as pending pairs. -/
def pairsOf (l : List MoveOperands) (i : Nat) : Option (Location × Location) :=
  match l[i]? with
  | some m => if m.isEliminated then none else some (m.dest, m.src)
  | none => none

theorem pairsOf_eq_some (h : pairsOf l i = some p) :
    ∃ m ∈ l, m.isEliminated = false ∧ p = (m.dest, m.src) := by
  unfold pairsOf at h
  split at h
  next m hm =>
    split_ifs at h with he
    exact ⟨m, mem_of_getElem? hm, by simpa using he, (Option.some.inj h).symm⟩
  next => cases h

theorem remaining_eq_pairsOf (h : Inv ms [] st) : remaining ms st = pairsOf st.moves := by
  funext i
  unfold remaining pairsOf
  cases hm : st.moves[i]? with
  | none => rfl
  | some m =>
    by_cases he : m.isEliminated = true
    · simp [he]
    · have hd := h.dest i m ⟨hm, by simpa using he⟩
      simp [he, hd]

theorem Resolves.tail {σ τ : Location → V}
    (h : Resolves (erase (pairsOf (m :: l)) 0) σ τ) : Resolves (pairsOf l) σ τ := by
  refine ⟨fun i d s hi => h.dest (i + 1) d s (erase_eq_some.2 ⟨by omega, hi⟩), fun loc hl => ?_⟩
  refine h.other loc fun i s hi => ?_
  obtain ⟨hne, hi⟩ := erase_eq_some.1 hi
  obtain _ | j := i
  · omega
  exact hl j s hi

/-- The second loop performs the remaining moves, which read only constants. -/
theorem scheduleConstants_spec : ∀ (l : List MoveOperands) (ops : List Op),
    (∀ m ∈ l, m.isEliminated = false → m.src.isConstant = true ∧ m.dest.isConstant = false) →
    ∃ ops', scheduleConstants l ops = some ops' ∧ ∀ (V : Type) (σ τ : Location → V),
      Resolves (pairsOf l) (MoveSchedule.exec ops σ) τ → τ = MoveSchedule.exec ops' σ
  | [], ops, _ => ⟨ops, rfl, fun _ _ _ h => h.done fun _ => rfl⟩
  | m :: l, ops, h => by
    have ht : ∀ o ∈ l, o.isEliminated = false →
        o.src.isConstant = true ∧ o.dest.isConstant = false :=
      fun o ho => h o (.tail _ ho)
    by_cases he : m.isEliminated = true
    · obtain ⟨ops', hs, hr⟩ := scheduleConstants_spec l ops ht
      refine ⟨ops', by simpa [scheduleConstants, he] using hs, fun V σ τ hrs => ?_⟩
      refine hr V σ τ (Resolves.tail (m := m) ?_)
      have hsm : erase (pairsOf (m :: l)) 0 = pairsOf (m :: l) := by
        funext i
        unfold erase
        split
        · subst_vars; simp [pairsOf, he]
        · rfl
      rwa [hsm]
    · have he : m.isEliminated = false := by simpa using he
      obtain ⟨hc, hd⟩ := h m (by simp) he
      obtain ⟨ops', hs, hr⟩ := scheduleConstants_spec l (ops ++ [⟨.move, m⟩]) ht
      refine ⟨ops', by simpa [scheduleConstants, he, hc] using hs, fun V σ τ hrs => ?_⟩
      refine hr V σ τ (Resolves.tail (m := m) ?_)
      rw [exec_append]
      refine hrs.copy (by simp [pairsOf, he]) fun i d' hne hi => ?_
      -- a constant source is nobody's destination
      obtain ⟨o, ho, hoe, hp⟩ := pairsOf_eq_some hi
      have := (h o ho hoe).1
      rw [← (Prod.mk.inj hp).2, hd] at this
      cases this

theorem exec_from (ops : List Op) (σ : Location → V) :
    (MoveSchedule.from ops).exec σ = MoveSchedule.exec ops σ := by
  induction ops generalizing σ with
  | nil => rfl
  | cons op ops ih =>
    by_cases hk : op.kind = .nop
    · have hop : op.exec σ = σ := by simp [Op.exec, hk]
      have hf : MoveSchedule.from (op :: ops) = MoveSchedule.from ops := by
        simp [MoveSchedule.from, hk]
      rw [hf, ih, MoveSchedule.exec, MoveSchedule.exec, foldl_cons, hop]
    · have hf : MoveSchedule.from (op :: ops) = op :: MoveSchedule.from ops := by
        simp [MoveSchedule.from, hk]
      rw [hf]
      exact ih (op.exec σ)

/-- The effect of a list of moves performed at once. -/
def parallel {V : Type} (ms : List MoveOperands) (σ : Location → V) (loc : Location) : V :=
  match ms.find? fun m => m.dest = loc with
  | some m => σ m.src
  | none => σ loc

theorem parallel_dest (hnd : (ms.map (·.dest)).Nodup)
    (hm : m ∈ ms) (σ : Location → V) : parallel ms σ m.dest = σ m.src := by
  unfold parallel
  cases hf : ms.find? fun o => o.dest = m.dest with
  | none => simpa using find?_eq_none.1 hf m hm
  | some o =>
    have ho : o.dest = m.dest := by simpa using find?_some hf
    rw [inj_on_of_nodup_map hnd (mem_of_find?_eq_some hf) hm ho]

theorem parallel_other {loc : Location}
    (h : ∀ m ∈ ms, m.dest ≠ loc) (σ : Location → V) : parallel ms σ loc = σ loc := by
  unfold parallel
  rw [find?_eq_none.2 fun m hm => by simpa using h m hm]

theorem Initial.resolves_parallel (hms : Initial ms)
    (σ : Location → V) : Resolves (remaining ms ⟨ms, []⟩) σ (parallel ms σ) := by
  rw [remaining_eq_pairsOf hms.inv]
  refine ⟨fun i d s hi => ?_, fun loc hl => parallel_other (fun m hm he => ?_) σ⟩
  · obtain ⟨m, hm, -, hp⟩ := pairsOf_eq_some hi
    obtain ⟨rfl, rfl⟩ := Prod.mk.inj hp
    exact parallel_dest hms.nodup hm σ
  obtain ⟨i, hi⟩ := mem_iff_getElem?.1 hm
  have hr := hms.needed m hm
  simp only [isRedundant, Bool.or_eq_false_iff] at hr
  exact hl i m.src (by simp [pairsOf, hi, hr.1.1, he])

/-- **The schedule of a parallel move** whose needed moves have distinct destinations: the resolver
produces one (no assertion fails and the recursion ends), and executing it one operation at a time
gives every destination its source's initial value and leaves every other location alone. -/
theorem resolve_spec (pm : ParallelMoveInstr)
    (hd : ((pm.moves.filter fun m => !m.isRedundant).map (·.dest)).Nodup) :
    ∃ sched, resolve pm = some sched ∧ ∀ (V : Type) (σ : Location → V),
      (∀ m ∈ pm.moves, m.isRedundant = false → sched.exec σ m.dest = σ m.src) ∧
      ∀ loc, (∀ m ∈ pm.moves, m.isRedundant = false → m.dest ≠ loc) → sched.exec σ loc = σ loc := by
  have hme : ∀ m, m ∈ buildInitialMoveList pm ↔ m ∈ pm.moves ∧ m.isRedundant = false := by
    intro m; simp [buildInitialMoveList, mem_filter]
  have hms : Initial (buildInitialMoveList pm) :=
    ⟨fun m hm => ((hme m).1 hm).2, fun m hm => pm.dest_storage m ((hme m).1 hm).1, hd⟩
  obtain ⟨st, hst, hin, hc⟩ := performMoves_spec hms
  obtain ⟨ops, ho, hex⟩ := scheduleConstants_spec st.moves st.scheduledOps fun m hm he => by
    obtain ⟨i, hi⟩ := mem_iff_getElem?.1 hm
    have ha : Active st i m := ⟨hi, he⟩
    refine ⟨hc i m ha, ?_⟩
    rw [hin.dest i m ha]
    exact hms.dest_not_constant (hin.lt ha)
  refine ⟨MoveSchedule.from ops, by simp [resolve, hst, ho], fun V σ => ?_⟩
  have hef : (MoveSchedule.from ops).exec σ = parallel (buildInitialMoveList pm) σ := by
    rw [exec_from]
    refine (hex V σ _ ?_).symm
    rw [← remaining_eq_pairsOf hin]
    exact hin.resolves V σ _ (hms.resolves_parallel σ)
  rw [hef]
  refine ⟨fun m hm hr => parallel_dest hd ((hme m).2 ⟨hm, hr⟩) σ, fun loc hl => ?_⟩
  exact parallel_other (fun m hm => hl m ((hme m).1 hm).1 ((hme m).1 hm).2) σ

/-- A cycle of three registers, a stack slot copied from one of them and a constant. -/
def cycleWithFanOut : ParallelMoveInstr where
  moves := [⟨.register 1, .register 0⟩, ⟨.stackSlot 3 5, .register 1⟩, ⟨.register 2, .register 1⟩,
    ⟨.register 0, .register 2⟩, ⟨.register 4, .constant 7 false⟩]
  dest_storage := by decide

theorem resolve_cycleWithFanOut : ∃ sched, resolve cycleWithFanOut = some sched ∧
    ∀ (V : Type) (σ : Location → V),
      (∀ m ∈ cycleWithFanOut.moves, m.isRedundant = false → sched.exec σ m.dest = σ m.src) ∧
      ∀ loc, (∀ m ∈ cycleWithFanOut.moves, m.isRedundant = false → m.dest ≠ loc) →
        sched.exec σ loc = σ loc :=
  resolve_spec cycleWithFanOut (by decide)

example : resolve cycleWithFanOut = some
    [⟨.move, ⟨.stackSlot 3 5, .register 1⟩⟩, ⟨.swap, ⟨.register 0, .register 2⟩⟩,
      ⟨.swap, ⟨.register 2, .register 1⟩⟩, ⟨.move, ⟨.register 4, .constant 7 false⟩⟩] := by
  decide

/-! ## Scratch locations -/

section
variable {op : Op} {ops : MoveSchedule} {loc : Location} (v : V)

theorem Op.exec_update_overwrites (hr : op.reads loc = false) (hw : op.overwrites loc = true)
    (σ : Location → V) : op.exec (update σ loc v) = op.exec σ := by
  simp only [Op.reads, Op.overwrites, Bool.or_eq_false_iff, Bool.and_eq_true, beq_iff_eq,
    beq_eq_false_iff_ne] at hr hw
  obtain ⟨hk, rfl⟩ := hw
  simp [Op.exec, hk, copy, update_of_ne hr.1]

theorem Op.exec_update (hr : op.reads loc = false) (hw : op.overwrites loc = false)
    (σ : Location → V) : op.exec (update σ loc v) = update (op.exec σ) loc v := by
  simp only [Op.reads, Op.overwrites, Bool.or_eq_false_iff, Bool.and_eq_false_iff,
    beq_eq_false_iff_ne] at hr hw
  cases hk : op.kind with
  | nop => simp [Op.exec, hk]
  | move =>
    have hd : op.operands.dest ≠ loc := by simpa [hk] using hw
    simp [Op.exec, hk, copy, update_of_ne hr.1, update_comm hd]
  | swap =>
    have hd : op.operands.dest ≠ loc := by simpa [hk] using hr.2
    funext l
    by_cases hl : l = loc
    · subst hl
      simp [Op.exec, hk, exchange, rename_other hr.1.symm hd.symm]
    have : rename op.operands.src op.operands.dest l ≠ loc := by
      intro h
      have := congrArg (rename op.operands.src op.operands.dest) h
      rw [rename_rename, rename_other hr.1.symm hd.symm] at this
      exact hl this
    simp [Op.exec, hk, exchange, hl, this]

/-- A value no operation reads and some move overwrites has no effect. -/
theorem exec_update (hr : ∀ op ∈ ops, op.reads loc = false)
    (hw : ∃ op ∈ ops, op.overwrites loc = true) (σ : Location → V) :
    MoveSchedule.exec ops (update σ loc v) = ops.exec σ := by
  induction ops generalizing σ with
  | nil => simp at hw
  | cons op ops ih =>
    simp only [mem_cons, forall_eq_or_imp, exists_eq_or_imp] at hr hw
    simp only [MoveSchedule.exec, foldl_cons]
    cases h : op.overwrites loc with
    | true => rw [Op.exec_update_overwrites v hr.1 h]
    | false => rw [Op.exec_update v hr.1 h]; exact ih hr.2 (by simpa [h] using hw) _

end

/-- **A scratch location may be clobbered**: when `IsScratchLocation` accepts `loc` at operation
`k`, any value stored in it just before the operation leaves the final state as it is. -/
theorem exec_clobber_scratch (pm : ParallelMoveInstr) (sched : MoveSchedule)
    (_ : resolve pm = some sched) (k : Nat) (loc : Location)
    (hs : isScratchLocation sched k loc = true) (V : Type) (v : V) (σ : Location → V) :
    MoveSchedule.exec (sched.drop k)
      (update (MoveSchedule.exec (sched.take k) σ) loc v) = sched.exec σ := by
  simp only [isScratchLocation, Bool.and_eq_true, Bool.not_eq_true', any_eq_false,
    any_eq_true, Bool.not_eq_true] at hs
  obtain ⟨hr, op, hop, hw⟩ := hs
  rw [exec_update v hr ⟨op, ?_, hw⟩, MoveSchedule.exec, MoveSchedule.exec, ← List.foldl_append,
    take_append_drop]
  · rfl
  · rw [← drop_drop] at hop
    exact mem_of_mem_drop hop

theorem exec_clobber_cycleWithFanOut : ∃ sched, resolve cycleWithFanOut = some sched ∧
    isScratchLocation sched 0 (.register 4) = true ∧ ∀ (V : Type) (v : V) (σ : Location → V),
      MoveSchedule.exec (sched.drop 0) (update
        (MoveSchedule.exec (sched.take 0) σ) (.register 4) v) = sched.exec σ :=
  ⟨_, rfl, by decide, exec_clobber_scratch cycleWithFanOut _ rfl 0 (.register 4) (by decide)⟩

/-- The code of the emitter from operation `k` on: before an operation it may use the locations that
`IsScratchLocation` accepts. -/
inductive EmittedCode (sched : MoveSchedule) (V : Type) : Nat → Type
  | done : EmittedCode sched V sched.length
  | op {k : Nat} (h : k < sched.length) (rest : EmittedCode sched V (k + 1)) : EmittedCode sched V k
  | scratch {k : Nat} {loc : Location} (v : V) (h : isScratchLocation sched k loc = true)
    (rest : EmittedCode sched V k) : EmittedCode sched V k

def EmittedCode.exec {sched : MoveSchedule} {k : Nat} :
    EmittedCode sched V k → (Location → V) → Location → V
  | done, σ => σ
  | op _ rest, σ => rest.exec (sched[k].exec σ)
  | @scratch _ _ _ loc v _ rest, σ => rest.exec (update σ loc v)

/-- **Emitted code executes the schedule**, whatever it leaves in scratch locations at any time. -/
theorem EmittedCode.exec_eq {sched : MoveSchedule} {k : Nat} (code : EmittedCode sched V k)
    (σ : Location → V) : code.exec σ = MoveSchedule.exec (sched.drop k) σ := by
  induction code generalizing σ with
  | done => rw [drop_length, exec]; rfl
  | op h rest ih => rw [exec, ih, drop_eq_getElem_cons h]; rfl
  | scratch v h rest ih =>
    simp only [isScratchLocation, Bool.and_eq_true, Bool.not_eq_true', any_eq_false,
      any_eq_true, Bool.not_eq_true, ← drop_drop] at h
    obtain ⟨hr, op, hop, hw⟩ := h
    rw [exec, ih, exec_update v hr ⟨op, mem_of_mem_drop hop, hw⟩]

end Backend.Proof
