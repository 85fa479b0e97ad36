import Mathlib.Data.List.Basic

/-!
# Dual-pivot quicksort

`Sort` of `sdk/lib/internal/sort.dart`. Indices are integers, and an access outside the list is an
error. Loops and recursive calls have a bound on their number; to reach it would be the error
`diverged`.

The loop that partitions by two pivots and its copy that clears the middle partition of the pivots
are one definition, which is given the two tests that differ.
-/

namespace Internal.Sort

variable {E : Type}

inductive SortError where
  | rangeError
  /-- `throw "OutOfRange"`. -/
  | outOfRange
  | diverged
  deriving DecidableEq, Repr

def INSERTION_SORT_THRESHOLD : Int := 32

/-- `a[i]`. -/
def get (a : List E) (i : Int) : Except SortError E :=
  match if i < 0 then none else a[i.toNat]? with
  | some x => .ok x
  | none => .error .rangeError

/-- `a[i] = x`. -/
def set (a : List E) (i : Int) (x : E) : Except SortError (List E) :=
  if 0 ≤ i ∧ i < a.length then .ok (a.set i.toNat x) else .error .rangeError

/-- `a[i] = a[j]`. -/
def copy (a : List E) (i j : Int) : Except SortError (List E) := do
  let x ← get a j
  set a i x

section

variable (compare : E → E → Int)

/-! ## Insertion sort -/

/-- The `while` loop of `_insertionSort`: the list and the place `j` for the element. -/
def insertionShift (left : Int) (el : E) : Nat → List E → Int → Except SortError (List E × Int)
  | 0, _, _ => .error .diverged
  | fuel + 1, a, j =>
    if j > left then do
      let x ← get a (j - 1)
      if compare x el > 0 then do
        let a ← copy a j (j - 1)
        insertionShift left el fuel a (j - 1)
      else .ok (a, j)
    else .ok (a, j)

/-- The `for` loop of `_insertionSort`. -/
def insertionLoop (left right : Int) : Nat → List E → Int → Except SortError (List E)
  | 0, _, _ => .error .diverged
  | fuel + 1, a, i =>
    if i ≤ right then do
      let el ← get a i
      let (a, j) ← insertionShift compare left el (a.length + 1) a i
      let a ← set a j el
      insertionLoop left right fuel a (i + 1)
    else .ok a

variable (a : List E) (left right : Int)

def insertionSort : Except SortError (List E) :=
  insertionLoop compare left right (a.length + 1) a (left + 1)

/-! ## The choice of the pivots -/

/-- One comparator of the sorting network. -/
def order (x y : E) : E × E := if compare x y > 0 then (y, x) else (x, y)

/-- The sorting network for five elements. -/
def network (el1 el2 el3 el4 el5 : E) : E × E × E × E × E :=
  let (el1, el2) := order compare el1 el2
  let (el4, el5) := order compare el4 el5
  let (el1, el3) := order compare el1 el3
  let (el2, el3) := order compare el2 el3
  let (el1, el4) := order compare el1 el4
  let (el3, el4) := order compare el3 el4
  let (el2, el5) := order compare el2 el5
  let (el2, el3) := order compare el2 el3
  let (el4, el5) := order compare el4 el5
  (el1, el2, el3, el4, el5)

/-- The list and the two pivots. The cells `left` and `right` are free. -/
def choosePivots : Except SortError (List E × E × E) := do
  let sixth := (right - left + 1).tdiv 6
  let index1 := left + sixth
  let index5 := right - sixth
  let index3 := (left + right).tdiv 2
  let index2 := index3 - sixth
  let index4 := index3 + sixth
  let el1 ← get a index1
  let el2 ← get a index2
  let el3 ← get a index3
  let el4 ← get a index4
  let el5 ← get a index5
  let (el1, el2, el3, el4, el5) := network compare el1 el2 el3 el4 el5
  let a ← set a index1 el1
  let a ← set a index3 el3
  let a ← set a index5 el5
  let a ← copy a index2 left
  let a ← copy a index4 right
  return (a, el2, el4)

/-! ## Partitions -/

/-- The list and the first and the last index of the middle partition. -/
structure Partition (E : Type) where
  a : List E
  less : Int
  great : Int

/-- The element `ak` at `k` goes to the end of the first partition. -/
def lower (s : Partition E) (k : Int) (ak : E) : Except SortError (Partition E) :=
  if k ≠ s.less then do
    let a ← copy s.a k s.less
    let a ← set a s.less ak
    .ok { s with a, less := s.less + 1 }
  else .ok { s with less := s.less + 1 }

/-- The triple exchange. -/
def tripleExchange (s : Partition E) (k : Int) (ak : E) : Except SortError (Partition E) := do
  let a ← copy s.a k s.less
  let a ← copy a s.less s.great
  let a ← set a s.great ak
  return { a, less := s.less + 1, great := s.great - 1 }

/-- The exchange of the elements at `k` and `great`. -/
def exchange (s : Partition E) (k : Int) (ak : E) : Except SortError (Partition E) := do
  let a ← copy s.a k s.great
  let a ← set a s.great ak
  return { s with a, great := s.great - 1 }

/-- The `while` loop if the pivots are equal: `ak` is greater than the pivot. -/
def equalUpper (pivot : E) (k : Int) (ak : E) :
    Nat → Partition E → Except SortError (Partition E)
  | 0, _ => .error .diverged
  | fuel + 1, s => do
    let ag ← get s.a s.great
    if compare ag pivot > 0 then
      equalUpper pivot k ak fuel { s with great := s.great - 1 }
    else if compare ag pivot < 0 then tripleExchange s k ak
    else exchange s k ak

/-- The partition if the pivots are equal. -/
def equalLoop (pivot : E) : Nat → Partition E → Int → Except SortError (Partition E)
  | 0, _, _ => .error .diverged
  | fuel + 1, s, k =>
    if k ≤ s.great then do
      let ak ← get s.a k
      if compare ak pivot = 0 then equalLoop pivot fuel s (k + 1)
      else if compare ak pivot < 0 then do
        let s ← lower s k ak
        equalLoop pivot fuel s (k + 1)
      else do
        let s ← equalUpper compare pivot k ak (s.a.length + 1) s
        equalLoop pivot fuel s (k + 1)
    else .ok s

/-- The `while` loop of a partition by two pivots: `ak` belongs to the third partition. -/
def upper (pivot1 pivot2 : E) (isHigh : Int → Bool) (k : Int) (ak : E) :
    Nat → Partition E → Except SortError (Partition E)
  | 0, _ => .error .diverged
  | fuel + 1, s => do
    let ag ← get s.a s.great
    if isHigh (compare ag pivot2) then
      if s.great - 1 < k then .ok { s with great := s.great - 1 }
      else upper pivot1 pivot2 isHigh k ak fuel { s with great := s.great - 1 }
    else if compare ag pivot1 < 0 then tripleExchange s k ak
    else exchange s k ak

/-- The partition by two pivots. An element is in the first partition if its comparison with the
first pivot is low, and in the third one if its comparison with the second pivot is high. -/
def partitionLoop (pivot1 pivot2 : E) (isLow isHigh : Int → Bool) :
    Nat → Partition E → Int → Except SortError (Partition E)
  | 0, _, _ => .error .diverged
  | fuel + 1, s, k =>
    if k ≤ s.great then do
      let ak ← get s.a k
      if isLow (compare ak pivot1) then do
        let s ← lower s k ak
        partitionLoop pivot1 pivot2 isLow isHigh fuel s (k + 1)
      else if isHigh (compare ak pivot2) then do
        let s ← upper compare pivot1 pivot2 isHigh k ak (s.a.length + 1) s
        partitionLoop pivot1 pivot2 isLow isHigh fuel s (k + 1)
      else partitionLoop pivot1 pivot2 isLow isHigh fuel s (k + 1)
    else .ok s

/-- The first partition: less than `pivot1`, between the pivots, greater than `pivot2`. -/
def partition (pivot1 pivot2 : E) (s : Partition E) : Except SortError (Partition E) :=
  partitionLoop compare pivot1 pivot2 (· < 0) (· > 0) (s.a.length + 1) s s.less

/-- `while (compare(a[less], pivot1) == 0) less++`. -/
def skipLess (pivot : E) (a : List E) : Nat → Int → Except SortError Int
  | 0, _ => .error .diverged
  | fuel + 1, less => do
    let x ← get a less
    if compare x pivot = 0 then skipLess pivot a fuel (less + 1) else .ok less

/-- `while (compare(a[great], pivot2) == 0) great--`. -/
def skipGreat (pivot : E) (a : List E) : Nat → Int → Except SortError Int
  | 0, _ => .error .diverged
  | fuel + 1, great => do
    let x ← get a great
    if compare x pivot = 0 then skipGreat pivot a fuel (great - 1) else .ok great

/-- The second partition, by equality with the pivots. -/
def clearPivots (pivot1 pivot2 : E) (s : Partition E) : Except SortError (Partition E) := do
  let less ← skipLess compare pivot1 s.a (s.a.length + 1) s.less
  let great ← skipGreat compare pivot2 s.a (s.a.length + 1) s.great
  partitionLoop compare pivot1 pivot2 (· = 0) (· = 0) (s.a.length + 1) { s with less, great } less

/-- The pivots go to their places. -/
def placePivots (pivot1 pivot2 : E) (s : Partition E) : Except SortError (List E) := do
  let a ← copy s.a left (s.less - 1)
  let a ← set a (s.less - 1) pivot1
  let a ← copy a right (s.great + 1)
  set a (s.great + 1) pivot2

/-! ## Recursion -/

/-- `_doSort` and `_dualPivotQuicksort`. -/
def doSort : Nat → List E → Int → Int → Except SortError (List E)
  | 0, _, _, _ => .error .diverged
  | fuel + 1, a, left, right =>
    if right - left ≤ INSERTION_SORT_THRESHOLD then insertionSort compare a left right
    else do
      let sixth := (right - left + 1).tdiv 6
      let index1 := left + sixth
      let index5 := right - sixth
      let (a, pivot1, pivot2) ← choosePivots compare a left right
      let start : Partition E := { a, less := left + 1, great := right - 1 }
      if compare pivot1 pivot2 = 0 then do
        let s ← equalLoop compare pivot1 (a.length + 1) start start.less
        let a ← placePivots left right pivot1 pivot2 s
        let a ← doSort fuel a left (s.less - 2)
        doSort fuel a (s.great + 2) right
      else do
        let s ← partition compare pivot1 pivot2 start
        let a ← placePivots left right pivot1 pivot2 s
        let a ← doSort fuel a left (s.less - 2)
        let a ← doSort fuel a (s.great + 2) right
        if s.less < index1 ∧ s.great > index5 then do
          let s ← clearPivots compare pivot1 pivot2 { s with a }
          doSort fuel s.a s.less s.great
        else doSort fuel a s.less s.great

def sort : Except SortError (List E) :=
  doSort compare (a.length + 1) a 0 (a.length - 1)

def sortRange (start stop : Int) : Except SortError (List E) :=
  if start < 0 ∨ stop > a.length ∨ stop < start then .error .outOfRange
  else doSort compare (a.length + 1) a start (stop - 1)

end

example : sort (fun x y : Int => x - y) [3, 1, 2, 1] = .ok [1, 1, 2, 3] := by decide

end Internal.Sort
