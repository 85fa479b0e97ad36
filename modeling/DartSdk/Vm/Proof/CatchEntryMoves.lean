import DartSdk.Lib.Fallible
import DartSdk.Vm.CatchEntryMoves
import DartSdk.Vm.Proof.DataStream
import DartSdk.Lib.Related
import Mathlib.Data.List.Induction

/-!
# Catch entry moves round-trip

The bytes are a list of entries, and each node of the trie stands for moves that can be read from
the entry of its offset.

* `Chain`: a list of moves, given from the back, that the chain of entries from an offset gives.
* `Trie.insert_ok`: the trie has chains only.
* `readSuffixLoop_spec`: the reader follows a chain to its end.
* `readMovesForPcOffset_spec`: the moves of each pc offset are read back.
-/

namespace Vm

open List Int CatchEntryMovesMapBuilder CatchEntryMove
open Fallible (ok_bind)

variable {w : Nat} {bs : List UInt8} {e : Entry} {es es' : List Entry} {l : List CatchEntryMove}
  {mapping : Int × List CatchEntryMove}

/-! ## Moves -/

theorem fits_toInt (x : Int32) : Fits 32 x.toInt := ⟨x.le_toInt, x.toInt_lt⟩

theorem CatchEntryMove.readFrom_writeTo (m : CatchEntryMove) :
    readFrom (m.writeTo ++ bs) = .ok (m, bs) := by
  rw [readFrom, writeTo, append_assoc]
  simp only [readRaw_write (show 8 ≤ 32 by decide) (fits_toInt _), ok_bind, Int32.ofInt_toInt]
  rfl

theorem CatchEntryMove.length_writeTo_pos (m : CatchEntryMove) : 0 < m.writeTo.length := by
  rw [writeTo, length_append]
  have := length_write_pos m.src.toInt
  omega

theorem length_le_flatMap_writeTo (l : List CatchEntryMove) :
    l.length ≤ (l.flatMap writeTo).length := by
  induction l with
  | nil => simp
  | cons m l ih =>
    have := m.length_writeTo_pos
    simp only [flatMap_cons, length_append, length_cons]
    omega

/-! ## Entries -/

/-- An entry of the map. Its moves are written from the back. -/
structure Entry where
  pcOffset : Int
  suffixLength : Nat
  suffixOffset : Int
  written : List CatchEntryMove

namespace Entry

def moves (e : Entry) : List UInt8 := e.written.flatMap CatchEntryMove.writeTo

def encode (e : Entry) : List UInt8 :=
  write e.pcOffset ++ write e.written.length ++ write e.suffixLength ++ write e.suffixOffset ++
    e.moves

/-- The numbers of an entry fit an `intptr_t`. -/
structure Small (w : Nat) (e : Entry) : Prop where
  pcOffset : Fits w e.pcOffset
  length : Fits w e.written.length
  suffixLength : Fits w e.suffixLength
  suffixOffset : Fits w e.suffixOffset

theorem readHeader (hw : 8 ≤ w) (h : Small w e) :
    ∃ bytes1 bytes2 bytes3, readRaw w (e.encode ++ bs) = .ok (e.pcOffset, bytes1) ∧
      readRaw w bytes1 = .ok (e.written.length, bytes2) ∧
      readRaw w bytes2 = .ok (e.suffixLength, bytes3) ∧
      readRaw w bytes3 = .ok (e.suffixOffset, e.moves ++ bs) := by
  rw [encode, append_assoc, append_assoc, append_assoc, append_assoc]
  exact ⟨_, _, _, readRaw_write hw h.pcOffset, readRaw_write hw h.length,
    readRaw_write hw h.suffixLength, readRaw_write hw h.suffixOffset⟩

theorem length_encode_pos (e : Entry) : 0 < e.encode.length := by
  have := length_write_pos e.pcOffset
  simp only [encode, length_append]
  omega

theorem length_written_le (e : Entry) : e.written.length ≤ e.encode.length := by
  have := length_le_flatMap_writeTo e.written
  simp only [encode, moves, length_append]
  omega

end Entry

/-- The bytes of a map. -/
def encodeAll (es : List Entry) : List UInt8 := es.flatMap Entry.encode

theorem encodeAll_append (es es' : List Entry) :
    encodeAll (es ++ es') = encodeAll es ++ encodeAll es' := flatMap_append

theorem encodeAll_cons (e : Entry) (es : List Entry) :
    encodeAll (e :: es) = e.encode ++ encodeAll es := flatMap_cons

theorem length_le_encodeAll (es : List Entry) : es.length ≤ (encodeAll es).length := by
  induction es with
  | nil => simp
  | cons e es ih =>
    have := e.length_encode_pos
    rw [encodeAll_cons, length_append, length_cons]
    omega

theorem length_encodeAll_le (es es' : List Entry) :
    (encodeAll es).length ≤ (encodeAll (es ++ es')).length := by
  rw [encodeAll_append, length_append]
  exact Nat.le_add_right ..

/-- The entry stands at the offset. -/
def HasEntry (es : List Entry) (offset : Int) (e : Entry) : Prop :=
  ∃ pre post, es = pre ++ e :: post ∧ offset = (encodeAll pre).length

theorem HasEntry.append {offset : Int} (h : HasEntry es offset e) :
    HasEntry (es ++ es') offset e := by
  obtain ⟨pre, post, rfl, ho⟩ := h
  exact ⟨pre, post ++ es', by simp, ho⟩

/-! ## Chains -/

/-- From the entry at the offset on, the entries have the moves, which are given from the back. Each
entry of the chain has at least one of them. -/
inductive Chain (es : List Entry) : Int → List CatchEntryMove → Prop
  | root : Chain es (-1) []
  | entry {offset : Int} {e : Entry} {l₁ l₂ : List CatchEntryMove} : HasEntry es offset e →
    Chain es e.suffixOffset l₁ → l₁.length = e.suffixLength → l₂ ≠ [] → l₂ <+: e.written →
    Chain es offset (l₁ ++ l₂)

theorem Chain.append {offset : Int} (h : Chain es offset l) : Chain (es ++ es') offset l := by
  induction h with
  | root => exact .root
  | entry he _ hl hne hp ih => exact .entry he.append ih hl hne hp

theorem Chain.offset_bounds {offset : Int} (h : Chain es offset l) :
    -1 ≤ offset ∧ offset ≤ (encodeAll es).length := by
  cases h with
  | root => omega
  | entry he =>
    obtain ⟨pre, post, rfl, rfl⟩ := he
    have := length_encodeAll_le pre (‹Entry› :: post)
    omega

/-- The nodes of a trie stand for chains. -/
def TrieOk (es : List Entry) (l : List CatchEntryMove) : Trie → Prop
  | .nil => True
  | .node move offset children siblings =>
    Chain es offset (l ++ [move]) ∧ (l ++ [move]).length ≤ (encodeAll es).length ∧
      TrieOk es (l ++ [move]) children ∧ TrieOk es l siblings

namespace Trie

variable {t : Trie} {l moves : List CatchEntryMove} {offset cur : Int}

theorem ok_append (h : TrieOk es l t) : TrieOk (es ++ es') l t := by
  induction t generalizing l with
  | nil => trivial
  | node move offset children siblings ih1 ih2 =>
    obtain ⟨h1, h2, h3, h4⟩ := h
    exact ⟨h1.append, h2.trans (length_encodeAll_le ..), ih1 h3, ih2 h4⟩

theorem follow_ok {move : CatchEntryMove} {children : Trie} (h : TrieOk es l t)
    (hf : follow move t = some (offset, children)) :
    Chain es offset (l ++ [move]) ∧ (l ++ [move]).length ≤ (encodeAll es).length ∧
      TrieOk es (l ++ [move]) children := by
  induction t with
  | nil => cases hf
  | node move' offset' children' siblings ih1 ih2 =>
    obtain ⟨h1, h2, h3, h4⟩ := h
    rw [follow] at hf
    split_ifs at hf with hm
    · cases hf
      subst hm
      exact ⟨h1, h2, h3⟩
    · exact ih2 h4 hf

/-- What the search for a common suffix finds. -/
structure Suffix (es : List Entry) (l moves : List CatchEntryMove) (r : Nat × Int) : Prop where
  le : r.1 ≤ moves.length
  chain : Chain es r.2 (l ++ moves.take r.1)
  length : l.length + r.1 ≤ (encodeAll es).length

/-- **The common suffix is a chain.** -/
theorem findSuffix_chain (h : TrieOk es l t) (hc : Chain es offset l)
    (hl : l.length ≤ (encodeAll es).length) : Suffix es l moves (findSuffix t offset moves) := by
  induction moves generalizing t l offset with
  | nil => exact ⟨le_rfl, by simpa [findSuffix] using hc, by simpa [findSuffix] using hl⟩
  | cons move moves ih =>
    rw [findSuffix]
    cases hf : follow move t with
    | none => exact ⟨Nat.zero_le _, by simpa using hc, by simpa using hl⟩
    | some r =>
      obtain ⟨offset', children⟩ := r
      obtain ⟨h1, h2, h3⟩ := follow_ok h hf
      obtain ⟨hle, hch, hln⟩ := ih h3 h1 h2
      simp only [length_append, length_singleton] at hln
      refine ⟨?_, ?_, ?_⟩
      · simpa using hle
      · simpa using hch
      · change l.length + ((findSuffix children offset' moves).1 + 1) ≤ (encodeAll es).length
        omega

theorem path_ok (h : ∀ j, 0 < j → j ≤ moves.length → Chain es cur (l ++ moves.take j) ∧
    l.length + j ≤ (encodeAll es).length) : TrieOk es l (path cur moves) := by
  induction moves generalizing l with
  | nil => trivial
  | cons move moves ih =>
    obtain ⟨h1, h2⟩ := h 1 (by decide) (by simp)
    refine ⟨by simpa using h1, by simpa using h2, ih fun j h0 hj => ?_, trivial⟩
    obtain ⟨h3, h4⟩ := h (j + 1) (by omega) (by simpa using hj)
    refine ⟨by simpa using h3, ?_⟩
    rw [length_append, length_singleton]
    omega

/-- **Adding the nodes of a mapping** keeps chains, if the moves that are not on a path already are
chains from the new entry on. -/
theorem insert_ok (h : TrieOk es l t)
    (hn : ∀ j, (findSuffix t offset moves).1 < j → j ≤ moves.length →
      Chain es cur (l ++ moves.take j) ∧ l.length + j ≤ (encodeAll es).length) :
    TrieOk es l (insert cur t moves) := by
  induction t generalizing l moves offset with
  | nil =>
    rw [insert]
    refine path_ok fun j h0 hj => hn j ?_ hj
    cases moves with
    | nil | cons move moves => exact h0
  | node move offset' children siblings ih1 ih2 =>
    cases moves with
    | nil => exact h
    | cons next moves =>
      obtain ⟨h1, h2, h3, h4⟩ := h
      rw [insert]
      split_ifs with hm
      · subst hm
        refine ⟨h1, h2, @ih1 (l ++ [move]) moves offset' h3 fun j hj hle => ?_, h4⟩
        have hf : (findSuffix (node move offset' children siblings) offset (move :: moves)).1 =
            (findSuffix children offset' moves).1 + 1 := by
          simp [findSuffix, follow]
        obtain ⟨h5, h6⟩ := hn (j + 1) (by omega) (by simpa using hle)
        refine ⟨by simpa using h5, ?_⟩
        rw [length_append, length_singleton]
        omega
      · refine ⟨h1, h2, h3, @ih2 l (next :: moves) offset h4 fun j hj hle => hn j ?_ hle⟩
        have hf : findSuffix (node move offset' children siblings) offset (next :: moves) =
            findSuffix siblings offset (next :: moves) := by
          simp [findSuffix, follow, hm]
        rwa [hf]

end Trie

/-! ## The builder -/

/-- The entry has the moves of the mapping. -/
structure Stored (es : List Entry) (mapping : Int × List CatchEntryMove) (e : Entry) :
    Prop where
  pcOffset : e.pcOffset = mapping.1
  suffix_le : e.suffixLength ≤ mapping.2.length
  chain : Chain es e.suffixOffset (mapping.2.reverse.take e.suffixLength)
  written : e.written = mapping.2.reverse.drop e.suffixLength
  suffixLength_le : e.suffixLength ≤ (encodeAll es).length

theorem Stored.append (h : Stored es mapping e) : Stored (es ++ es') mapping e := by
  exact ⟨h.pcOffset, h.suffix_le, h.chain.append, h.written,
    h.suffixLength_le.trans (length_encodeAll_le ..)⟩

namespace CatchEntryMovesMapBuilder

variable {b : CatchEntryMovesMapBuilder} {mappings : List (Int × List CatchEntryMove)}

/-- The state of the builder after some mappings. -/
structure Built (b : CatchEntryMovesMapBuilder) (mappings : List (Int × List CatchEntryMove))
    (es : List Entry) : Prop where
  stream : b.stream = encodeAll es
  trie : TrieOk es [] b.root
  stored : List.Forall₂ (Stored es) mappings es

theorem foldl_append (l : List CatchEntryMove) :
    l.foldl append b = { b with moves := b.moves ++ l } := by
  induction l generalizing b with
  | nil => simp
  | cons m l ih =>
    rw [foldl_cons, ih]
    simp [append]

/-- The entry that is written for a mapping. -/
def newEntry (b : CatchEntryMovesMapBuilder) (mapping : Int × List CatchEntryMove) : Entry :=
  let r := b.root.findSuffix rootOffset mapping.2.reverse
  ⟨mapping.1, r.1, r.2, mapping.2.reverse.drop r.1⟩

theorem addMapping_eq (mapping : Int × List CatchEntryMove) :
    (b.addMapping mapping).stream = b.stream ++ (b.newEntry mapping).encode ∧
      (b.addMapping mapping).root = b.root.insert b.stream.length mapping.2.reverse := by
  have hf : mapping.2.foldl append (b.newMapping mapping.1) =
      { b with moves := mapping.2, currentPcOffset := mapping.1 } := by
    rw [foldl_append]
    simp [newMapping]
  have hl : ∀ n : Nat, mapping.2.length - n = (mapping.2.reverse.drop n).length := by
    simp
  rw [addMapping, hf]
  refine ⟨?_, rfl⟩
  simp only [endMapping, newEntry, Entry.encode, Entry.moves, hl]
  rw [← hl, ← drop_reverse]

theorem stored_newEntry (h : TrieOk es [] b.root) (mapping : Int × List CatchEntryMove) :
    Stored es mapping (b.newEntry mapping) := by
  have hs : Trie.Suffix es [] mapping.2.reverse
      ((b.newEntry mapping).suffixLength, (b.newEntry mapping).suffixOffset) :=
    Trie.findSuffix_chain h .root (Nat.zero_le _)
  exact ⟨rfl, by simpa using hs.le, hs.chain, rfl, by simpa using hs.length⟩

/-- **One mapping.** -/
theorem Built.addMapping (h : Built b mappings es) (mapping : Int × List CatchEntryMove) :
    Built (b.addMapping mapping) (mappings ++ [mapping]) (es ++ [b.newEntry mapping]) := by
  obtain ⟨hst, hr⟩ := addMapping_eq mapping
  have hn := stored_newEntry h.trie mapping
  refine ⟨?_, ?_, ?_⟩
  · rw [hst, h.stream, encodeAll_append]
    simp [encodeAll]
  · rw [hr]
    refine @Trie.insert_ok _ _ [] _ rootOffset _ (Trie.ok_append h.trie) fun j hj hle => ?_
    have hsf : (b.newEntry mapping).suffixLength < j := hj
    have ht : mapping.2.reverse.take j =
        mapping.2.reverse.take (b.newEntry mapping).suffixLength ++
          (b.newEntry mapping).written.take (j - (b.newEntry mapping).suffixLength) := by
      rw [hn.written, ← take_add]
      congr 1
      omega
    constructor
    · rw [nil_append, ht]
      refine .entry ⟨es, [], rfl, by rw [h.stream]⟩ hn.chain.append ?_ ?_ ( take_prefix ..)
      · rw [length_take, length_reverse, Nat.min_eq_left hn.suffix_le]
      · rw [ne_eq, take_eq_nil_iff, not_or, hn.written, drop_eq_nil_iff]
        exact ⟨by omega, by omega⟩
    · have h1 := hn.suffixLength_le
      have h2 := (b.newEntry mapping).length_written_le
      have h3 := congrArg List.length hn.written
      rw [length_drop] at h3
      rw [encodeAll_append, length_append, length_nil, encodeAll_cons, length_append]
      omega
  · exact rel_append (h.stored.imp fun _ _ hs => hs.append) (.cons hn.append .nil)

/-- **The map has an entry for each mapping.** -/
theorem build_spec (mappings : List (Int × List CatchEntryMove)) :
    ∃ es : List Entry, build mappings = encodeAll es ∧ List.Forall₂ (Stored es) mappings es := by
  have h : ∀ l, ∃ es, Built (l.foldl addMapping {}) l es := by
    intro l
    induction l using List.reverseRecOn with
    | nil => exact ⟨[], rfl, trivial, .nil⟩
    | append_singleton l mapping ih =>
      obtain ⟨es, hes⟩ := ih
      rw [List.foldl_append, foldl_cons, foldl_nil]
      exact ⟨_, hes.addMapping mapping⟩
  obtain ⟨es, hes⟩ := h mappings
  exact ⟨es, hes.stream, hes.stored⟩

end CatchEntryMovesMapBuilder

/-! ## The reader -/

namespace CatchEntryMovesMapReader

variable {e : Entry} {l : List CatchEntryMove}

theorem skipMoves_spec : skipMoves l.length (l.flatMap writeTo ++ bs) = .ok bs := by
  induction l with
  | nil => rfl
  | cons m l ih =>
    rw [length_cons, skipMoves, flatMap_cons, append_assoc, m.readFrom_writeTo]
    exact ih

/-- The slots before `stop` are filled from the back. -/
theorem readPrefix_spec {done : List CatchEntryMove} {bef after : List (Option CatchEntryMove)} :
    readPrefix l.length (bef.length + l.length) (l.flatMap writeTo ++ bs)
        (bef ++ (List.replicate l.length none ++ (done.map some ++ after))) =
      .ok (bef ++ ((l.reverse ++ done).map some ++ after)) := by
  induction l generalizing done with
  | nil => simp [readPrefix]
  | cons m l ih =>
    have hst : (bef ++ (List.replicate (l.length + 1) none ++ (done.map some ++ after))).set
        (bef.length + l.length) (some m) =
        bef ++ (List.replicate l.length none ++ ((m :: done).map some ++ after)) := by
      rw [set_append_right _ _ (Nat.le_add_right ..), Nat.add_sub_cancel_left,
        replicate_succ', append_assoc,
        set_append_right _ _ (by simp), length_replicate, Nat.sub_self]
      simp
    rw [length_cons, readPrefix, flatMap_cons, append_assoc, m.readFrom_writeTo]
    change (if _ then _ else _) = _
    rw [if_pos (by simp; omega), ← Nat.add_assoc, Nat.add_sub_cancel, hst, ih]
    simp

/-- An entry is read at its offset. -/
theorem setPosition_spec {offset : Int} (h : HasEntry es offset e) :
    ∃ post, setPosition (encodeAll es) offset = .ok (e.encode ++ post) := by
  obtain ⟨pre, post, rfl, rfl⟩ := h
  refine ⟨encodeAll post, ?_⟩
  rw [encodeAll_append, encodeAll_cons, setPosition, if_pos (by simp), toNat_natCast, drop_left]

/-- The loop at an entry of a chain: what of the moves it reads, and where it goes on. -/
theorem readSuffixLoop_entry {offset : Int} {fuel : Nat} {l1 l2 : List CatchEntryMove}
    {bef : List (Option CatchEntryMove)} (hw : 8 ≤ w) (he : HasEntry es offset e)
    (hs : e.Small w) (hl : l1.length = e.suffixLength) (hp : l2 <+: e.written)
    (hpo : 0 < l1.length + l2.length) :
    readSuffixLoop w (encodeAll es) (fuel + 1) offset (l1.length + l2.length : Nat) bef.length
        (bef ++ List.replicate (l1.length + l2.length) none) =
      readSuffixLoop w (encodeAll es) fuel e.suffixOffset l1.length (bef.length + l2.length)
        (bef ++ l2.reverse.map some ++ List.replicate l1.length none) := by
  obtain ⟨post, hps⟩ := setPosition_spec he
  obtain ⟨b1, b2, b3, h1, h2, h3, h4⟩ := @Entry.readHeader w post e hw hs
  obtain ⟨l3, hl3⟩ := hp
  have hm : e.moves ++ post = l2.flatMap writeTo ++ (l3.flatMap writeTo ++ post) := by
    rw [Entry.moves, ← hl3, flatMap_append, append_assoc]
  have hr : ((l1.length + l2.length : Nat) : Int) - e.suffixLength = (l2.length : Nat) := by
    omega
  rw [readSuffixLoop, if_pos (by omega)]
  simp only [hps, h1, h2, h3, h4, ok_bind, hr]
  split_ifs with hl2
  · have hpr := @readPrefix_spec (l3.flatMap writeTo ++ post) l2 [] bef
      (List.replicate l1.length none)
    rw [map_nil, nil_append, List.append_nil] at hpr
    rw [toNat_natCast, hm, Nat.add_comm l1.length, replicate_add, hpr, ← append_assoc, ok_bind]
    congr 1
    omega
  · obtain rfl : l2 = [] := length_eq_zero_iff.1 (by omega)
    simp

/-- **The reader follows a chain to its end.** -/
theorem readSuffixLoop_spec {offset : Int} {fuel : Nat} {bef : List (Option CatchEntryMove)}
    (hw : 8 ≤ w) (hsm : ∀ e ∈ es, e.Small w) (h : Chain es offset l)
    (hf : l.length < fuel) :
    readSuffixLoop w (encodeAll es) fuel offset l.length bef.length
        (bef ++ List.replicate l.length none) = .ok (bef ++ l.reverse.map some) := by
  induction h generalizing fuel bef with
  | root =>
    obtain _ | fuel := fuel
    · omega
    simp [readSuffixLoop]
  | @entry offset e l1 l2 he _ hln hne hp ih =>
    have hps := length_pos_iff.2 hne
    rw [length_append] at hf ⊢
    obtain _ | fuel := fuel
    · omega
    have hm : e ∈ es := by
      obtain ⟨pre, post, rfl, -⟩ := he
      simp
    rw [readSuffixLoop_entry hw he (hsm e hm) hln hp (by omega)]
    have hih := @ih fuel (bef ++ l2.reverse.map some) (by omega)
    rw [length_append, length_map, length_reverse] at hih
    rw [hih, reverse_append, map_append, append_assoc]

theorem findEntryForPc_cons {fuel size : Nat} {pc : Int} (hw : 8 ≤ w) (hs : e.Small w) :
    findEntryForPc w size pc (fuel + 1) (encodeAll (e :: es)) =
      if pc = e.pcOffset then
        .ok (size - (encodeAll (e :: es)).length, (e.written.length + e.suffixLength : Nat))
      else findEntryForPc w size pc fuel (encodeAll es) := by
  obtain ⟨b1, b2, b3, h1, h2, h3, h4⟩ := @Entry.readHeader w (encodeAll es) e hw hs
  have hp : (encodeAll (e :: es)).length > 0 := by
    have := e.length_encode_pos
    rw [encodeAll_cons, length_append]
    omega
  rw [findEntryForPc, if_pos hp]
  simp only [encodeAll_cons, h1, h2, h3, h4, ok_bind, toNat_natCast, Entry.moves, skipMoves_spec]
  rfl

/-- **An entry is found** by its pc offset, if no entry before it has the same. -/
theorem findEntryForPc_spec {pre post : List Entry} {fuel size : Nat} (hw : 8 ≤ w)
    (hsm : ∀ e' ∈ pre ++ e :: post, e'.Small w) (hne : ∀ e' ∈ pre, e.pcOffset ≠ e'.pcOffset)
    (hf : pre.length < fuel) :
    findEntryForPc w size e.pcOffset fuel (encodeAll (pre ++ e :: post)) =
      .ok (size - (encodeAll (e :: post)).length, (e.written.length + e.suffixLength : Nat)) := by
  obtain _ | fuel := fuel
  · omega
  induction pre generalizing fuel with
  | nil =>
    rw [nil_append, findEntryForPc_cons hw (hsm e (by simp)), if_pos rfl]
  | cons e' pre ih =>
    simp only [length_cons] at hf
    rw [cons_append, findEntryForPc_cons hw (hsm e' (by simp)), if_neg (hne e' mem_cons_self)]
    obtain _ | fuel := fuel
    · omega
    exact ih (fun e'' h => hsm e'' (.tail _ h)) (fun e'' h => hne e'' (.tail _ h)) fuel (by omega)

/-- The numbers of the entries fit, if the map does. -/
theorem small_of_stored (hpc : Fits w mapping.1)
    (hsz : (encodeAll es).length < 2 ^ (w - 1)) (hm : e ∈ es) (h : Stored es mapping e) :
    e.Small w := by
  have hp : ((2 ^ (w - 1) : Nat) : Int) = 2 ^ (w - 1) := by
    rfl
  have hwr : e.written.length ≤ (encodeAll es).length := by
    obtain ⟨pre, post, rfl⟩ := append_of_mem hm
    have := e.length_written_le
    rw [encodeAll_append, encodeAll_cons]
    simp only [length_append]
    omega
  have hsf := h.suffixLength_le
  obtain ⟨h1, h2⟩ := h.chain.offset_bounds
  exact ⟨h.pcOffset ▸ hpc, ⟨by omega, by omega⟩, ⟨by omega, by omega⟩, ⟨by omega, by omega⟩⟩

theorem readCompressed_spec {offset : Int} (hw : 8 ≤ w)
    (hsm : ∀ e ∈ es, e.Small w) (he : HasEntry es offset e) (h : Stored es mapping e) :
    readCompressedCatchEntryMovesSuffix w (encodeAll es) offset
      (e.written.length + e.suffixLength : Nat) = .ok (mapping.2.map some) := by
  obtain ⟨pcOffset, moves⟩ := mapping
  have hc : Chain es e.suffixOffset (moves.reverse.take e.suffixLength) := h.chain
  have hln : (moves.reverse.take e.suffixLength).length = e.suffixLength := by
    rw [length_take, length_reverse, Nat.min_eq_left h.suffix_le]
  have hsp : moves.reverse.take e.suffixLength ++ e.written = moves.reverse := by
    rw [h.written, take_append_drop]
  generalize moves.reverse.take e.suffixLength = l at hc hln hsp
  have ht : l.length + e.written.length = moves.length := by
    rw [← length_append, hsp, length_reverse]
  rw [readCompressedCatchEntryMovesSuffix, toNat_natCast, Nat.add_comm e.written.length, ← hln]
  by_cases hp : 0 < moves.length
  · have hf := @readSuffixLoop_entry w es e offset (l.length + e.written.length + 1) l e.written
      [] hw he (hsm e (by obtain ⟨pre, post, rfl, -⟩ := he; simp)) hln (prefix_refl _)
      (by omega)
    have hr := @readSuffixLoop_spec w es l e.suffixOffset (l.length + e.written.length + 1)
      (e.written.reverse.map some) hw hsm hc (by omega)
    rw [length_map, length_reverse] at hr
    rw [nil_append, nil_append, length_nil, Nat.zero_add] at hf
    rw [hf, hr, ← map_append, ← reverse_append, hsp, reverse_reverse]
  · obtain rfl : moves = [] := length_eq_zero_iff.1 (by omega)
    rw [ht]
    rfl

/-- **Catch entry moves round-trip.** For each pc offset, the moves that were appended for it are
read. -/
theorem readMovesForPcOffset_spec {mappings : List (Int × List CatchEntryMove)} {pcOffset : Int}
    {moves : List CatchEntryMove} (hw : w = 32 ∨ w = 64)
    (hpcs : ∀ mapping ∈ mappings, Fits w mapping.1) (hnodup : (mappings.map Prod.fst).Nodup)
    (hsize : (CatchEntryMovesMapBuilder.build mappings).length < 2 ^ (w - 1))
    (hmem : (pcOffset, moves) ∈ mappings) :
    readMovesForPcOffset w (CatchEntryMovesMapBuilder.build mappings) pcOffset =
      .ok (moves.map some) := by
  have hw8 : 8 ≤ w := by omega
  obtain ⟨es, hb, hst⟩ := build_spec mappings
  rw [hb] at hsize ⊢
  have hsm : ∀ e ∈ es, e.Small w := by
    intro e he
    obtain ⟨mapping, hm, hs⟩ := Related.exists_left hst he
    exact small_of_stored (hpcs mapping hm) hsize he hs
  have hpc : es.map Entry.pcOffset = mappings.map Prod.fst :=
    Related.map_eq_map (hst.imp fun _ _ h => h.pcOffset)
  obtain ⟨e, he, hs⟩ := Related.exists_right hst hmem
  obtain ⟨pre, post, hsp⟩ := append_of_mem he
  have hne : ∀ e' ∈ pre, e.pcOffset ≠ e'.pcOffset := by
    intro e' he' heq
    rw [← hpc, hsp, map_append, map_cons, nodup_append] at hnodup
    exact hnodup.2.2 _ (mem_map_of_mem he') _ mem_cons_self heq.symm
  have hl : pre.length ≤ (encodeAll pre).length := length_le_encodeAll pre
  have hf := @findEntryForPc_spec w e pre post ((encodeAll es).length + 1) (encodeAll es).length
    hw8 (hsp ▸ hsm) hne (by rw [hsp, encodeAll_append, length_append]; omega)
  rw [← hsp, hs.pcOffset] at hf
  rw [readMovesForPcOffset, hf]
  refine readCompressed_spec hw8 hsm ⟨pre, post, hsp, ?_⟩ hs
  rw [hsp, encodeAll_append, length_append, Nat.add_sub_cancel]

/-- Two mappings that share their last move. -/
def sharedMappings : List (Int × List CatchEntryMove) :=
  [(4, [⟨1, 2⟩, ⟨3, 4⟩]), (9, [⟨5, 6⟩, ⟨3, 4⟩])]

theorem readMovesForPcOffset_spec_shared :
    readMovesForPcOffset 64 (CatchEntryMovesMapBuilder.build sharedMappings) 9 =
      .ok ([⟨5, 6⟩, ⟨3, 4⟩].map some) := by
  refine readMovesForPcOffset_spec (.inr rfl) ?_ (by decide) ?_ (by decide)
  · simp [sharedMappings, Fits]
  simp [sharedMappings, build, addMapping, finalizeCatchEntryMovesMap, endMapping,
    append, newMapping, Trie.findSuffix,
    Trie.follow, Trie.insert, Trie.path, writeTo, write, kMinDataPerByte,
    kMaxDataPerByte, rootOffset]

end CatchEntryMovesMapReader

end Vm
