import Qblaze.Lib.Slice
import Qblaze.Sort

/-!
# Partition and quicksort in place (`src/shamelessly_stolen_from_libstd.rs`)

The functions of `Qblaze.Sort` as the programs on a slice that they are in the source: each access
through a pointer is a step, and a pointer out of the slice is an error.

* `InPlace.insertionSort_exec`, `InPlace.partitionBy_exec`, `InPlace.choosePivot_exec`,
  `InPlace.seqQuicksort_exec`: each program, alone, makes no error and computes the function of
  `Qblaze.Sort`.
* `InPlace.quicksort_sorts`: the sequential quicksort sorts, and so does the parallel one in every
  interleaving of the accesses of its tasks.
-/

namespace Qblaze

open Lib

namespace InPlace

variable {α : Type}

/-! ## The programs -/

section Programs

variable (isLess : α → α → Bool) (p : α → Bool)

/-- The loop of `insert_tail`: the items above `sift` have moved up; the gap is at `sift + 1`. -/
def siftDown (tmp : α) : Nat → Code α Unit
  | 0 => do
    let x ← Code.get 0
    Code.set 1 x
    Code.set 0 tmp
  | sift + 1 => do
    let x ← Code.get (sift + 1)
    Code.set (sift + 2) x
    let y ← Code.get sift
    if isLess tmp y then siftDown tmp sift else Code.set (sift + 1) tmp

/-- `insert_tail`; `v_base` is the start of the slice. -/
def insertTail : Nat → Code α Unit
  | 0 => .fault
  | sift + 1 => do
    let x ← Code.get (sift + 1)
    let y ← Code.get sift
    if isLess x y then do
      let tmp ← Code.get (sift + 1)
      siftDown isLess tmp sift
    else pure ()

/-- The loop of `insertion_sort`, with `n` indices from `i` left. -/
def insertionLoop : Nat → Nat → Code α Unit
  | 0, _ => pure ()
  | n + 1, i => do
    insertTail isLess i
    insertionLoop n (i + 1)

/-- `insertion_sort`, for a slice with `len` items. -/
def insertionSort (len : Nat) : Code α Unit := insertionLoop isLess (len - 1) 1

/-- The first loop of `partition_by`, with `n` items between the pointers. -/
def scanLeft : Nat → Nat → Code α Nat
  | 0, left => pure left
  | n + 1, left => do
    let x ← Code.get left
    if p x then scanLeft n (left + 1) else pure left

/-- The second loop of `partition_by`; `none` if the pointers meet. -/
def scanRight (left : Nat) : Nat → Code α (Option Nat)
  | 0 => .fault
  | right + 1 =>
    if right ≤ left then pure none
    else do
      let x ← Code.get right
      if p x then pure (some right) else scanRight left right

/-- `ptr::copy_nonoverlapping(left, gap_pos, 1)`: to the gap, or to `gap_value` before there is
one. -/
def moveToGap (x : α) : Option (Nat × α) → Code α α
  | none => pure x
  | some (g, gapValue) => do
    Code.set g x
    pure gapValue

/-- `ptr::copy(gap_value, gap_pos, 1)` -/
def fillGap : Option (Nat × α) → Code α Unit
  | none => pure ()
  | some (g, gapValue) => Code.set g gapValue

/-- The outer loop of `partition_by` and its end. -/
def partitionLoop : Nat → Nat → Nat → Option (Nat × α) → Code α Nat
  | 0, _, _, _ => .fault
  | n + 1, left, right, gap => do
    let left ← scanLeft p (right - left) left
    match ← scanRight p left right with
    | none => do
      fillGap gap
      pure left
    | some right => do
      let x ← Code.get left
      let gapValue ← moveToGap x gap
      let y ← Code.get right
      Code.set left y
      partitionLoop n (left + 1) right (some (right, gapValue))

/-- `partition_by` -/
def partitionBy (len : Nat) : Code α Nat :=
  if len = 0 then pure 0 else partitionLoop p (len + 1) 0 len none

/-- `sort2` of `choose_pivot` -/
def sort2 (a b : Nat) : Code α (Nat × Nat) := do
  let x ← Code.get a
  let y ← Code.get b
  pure (if isLess x y then (b, a) else (a, b))

/-- `sort3` of `choose_pivot` -/
def sort3 (a b c : Nat) : Code α (Nat × Nat × Nat) := do
  let (a, b) ← sort2 isLess a b
  let (b, c) ← sort2 isLess b c
  let (a, b) ← sort2 isLess a b
  pure (a, b, c)

/-- `sort_adjacent` of `choose_pivot` -/
def sortAdjacent : Nat → Code α Nat
  | 0 => .fault
  | a + 1 => do
    let (_, a, _) ← sort3 isLess a (a + 1) (a + 2)
    pure a

/-- `choose_pivot` -/
def choosePivot (len : Nat) : Code α Nat :=
  let a := len / 4 * 1
  let b := len / 4 * 2
  let c := len / 4 * 3
  if 8 ≤ len then
    if 100 ≤ len then do
      let a ← sortAdjacent isLess a
      let b ← sortAdjacent isLess b
      let c ← sortAdjacent isLess c
      let (_, b, _) ← sort3 isLess a b c
      pure b
    else do
      let (_, b, _) ← sort3 isLess a b c
      pure b
  else pure b

/-- `v.swap(i, j)` -/
def swap (i j : Nat) : Code α Unit := do
  let x ← Code.get i
  let y ← Code.get j
  Code.set i y
  Code.set j x

/-- `partition_pivot_impl` -/
def partitionPivotImpl (len : Nat) : Code α Nat := do
  let pivot ← choosePivot isLess len
  swap 0 pivot
  let pivot ← Code.get 0
  let numLt ← (partitionBy (fun x => isLess x pivot) (len - 1)).shift 1
  swap 0 numLt
  pure numLt

/-- `partition_pivot`: the length of the first part, which the pivot follows. -/
def partitionPivot (len : Nat) : Code α Nat := do
  let numLt ← partitionPivotImpl isLess len
  if numLt < len then pure numLt else .fault

/-- The loop of `seq_quicksort`; `n` bounds the turns and the calls inside of them. -/
def seqLoop : Nat → Nat → Code α Unit
  | n, len =>
    if 20 < len then
      match n with
      | 0 => .fault
      | n + 1 => do
        let numLt ← partitionPivot isLess len
        (seqLoop n numLt).shift 0
        (seqLoop n (len - numLt - 1)).shift (numLt + 1)
    else insertionSort isLess len

/-- `seq_quicksort`; `size` is the size of an item. -/
def seqQuicksort (size len : Nat) : Code α Unit :=
  if size = 0 then pure () else seqLoop isLess len len

/-- The sides of a pivot, with `left` and `right` items: `par_recurse` goes on with the larger one,
and submits the smaller one if there is something to do. -/
def sides (left right : Nat) : List (Nat × Nat) :=
  let (v, submit) := if left ≤ right then ((left + 1, right), (0, left))
    else ((0, left), (left + 1, right))
  v :: if 1 < submit.2 then [submit] else []

/-- One turn of `par_recurse`: the parts for its next turn and for the tasks that it submits. -/
def parRecurse (size len : Nat) : Code α (List (Nat × Nat)) :=
  if max (2 ^ 16 / size) 40 < len then do
    let numLt ← partitionPivot isLess len
    pure (sides numLt (len - numLt - 1))
  else do
    seqQuicksort isLess size len
    pure []

/-- `par_quicksort` -/
def parQuicksort (single : Bool) (size len : Nat) : Code α (List (Nat × Nat)) :=
  if size = 0 then pure []
  else if single then do
    seqQuicksort isLess size len
    pure []
  else parRecurse isLess size len

end Programs

/-! ## Insertion sort -/

section Insertion

variable {isLess : α → α → Bool}

theorem getElem?_mid (l : List α) (x : α) (r : List α) :
    (l.reverse ++ x :: r)[l.length]? = some x := by
  rw [List.getElem?_append_right (by simp)]
  simp

theorem getElem?_mid' (l : List α) (x y : α) (r : List α) :
    (l.reverse ++ x :: y :: r)[l.length + 1]? = some y := by
  rw [List.getElem?_append_right (by simp)]
  simp

theorem set_mid' (l : List α) (x y z : α) (r : List α) :
    (l.reverse ++ x :: y :: r).set (l.length + 1) z = l.reverse ++ x :: z :: r := by
  rw [List.set_append_right _ _ (by simp)]
  simp

/-- The loop of `insert_tail` with the items below the gap in reverse. The item in the gap, `z`, is
a copy of the one above it, or the one that is inserted. -/
theorem siftDown_exec {tmp y : α} (h : isLess tmp y = true) (l : List α) (z : α) (r : List α) :
    (siftDown isLess tmp l.length).exec (l.reverse ++ y :: z :: r) =
      some ((), (Qblaze.insertTail isLess tmp (y :: l)).reverse ++ r) := by
  induction l generalizing y z r with
  | nil =>
    simp [siftDown, Qblaze.insertTail, h, Code.exec_bind, Code.exec_get (x := y), Code.exec_set]
  | cons y' l ih =>
    have hv : (y' :: l).reverse ++ y :: y :: r = l.reverse ++ y' :: y :: (y :: r) := by simp
    have hins : Qblaze.insertTail isLess tmp (y :: y' :: l) =
        y :: Qblaze.insertTail isLess tmp (y' :: l) := if_pos h
    have hget : ((y' :: l).reverse ++ y :: z :: r)[l.length + 1]? = some y :=
      getElem?_mid (y' :: l) y (z :: r)
    have hset : ((y' :: l).reverse ++ y :: z :: r).set (l.length + 2) y =
        (y' :: l).reverse ++ y :: y :: r := set_mid' (y' :: l) y z y r
    rw [List.length_cons, siftDown, Code.exec_get_then hget, Code.exec_set_then (by simp), hset, hv,
      Code.exec_get_then (getElem?_mid ..), hins]
    by_cases hy : isLess tmp y' = true
    · rw [if_pos hy, ih hy]
      simp
    · rw [if_neg hy, Code.exec_set _ (by simp), set_mid', Qblaze.insertTail, if_neg hy]
      simp

/-- `insert_tail`: the item after a sorted part `y :: l` in reverse goes to its place. -/
theorem insertTail_exec (y : α) (l : List α) (x : α) (r : List α) :
    (insertTail isLess (l.length + 1)).exec (l.reverse ++ y :: x :: r) =
      some ((), (Qblaze.insertTail isLess x (y :: l)).reverse ++ r) := by
  rw [insertTail, Code.exec_get_then (getElem?_mid' ..), Code.exec_get_then (getElem?_mid ..)]
  by_cases h : isLess x y = true
  · rw [if_pos h, Code.exec_get_then (getElem?_mid' ..), siftDown_exec h]
  · rw [if_neg h, Qblaze.insertTail, if_neg h]
    simp

theorem insertionLoop_exec (y : α) (l r : List α) :
    (insertionLoop isLess r.length (l.length + 1)).exec ((y :: l).reverse ++ r) =
      some ((), (r.foldl (fun acc x => Qblaze.insertTail isLess x acc) (y :: l)).reverse) := by
  induction r generalizing y l with
  | nil =>
    rw [List.append_nil]
    rfl
  | cons x r ih =>
    have hv : (y :: l).reverse ++ x :: r = l.reverse ++ y :: x :: r := by simp
    have hlen := (@insertTail_perm _ isLess x (y :: l)).length_eq
    rw [List.length_cons, insertionLoop, hv, Code.exec_then (insertTail_exec y l x r),
      List.foldl_cons]
    cases hins : Qblaze.insertTail isLess x (y :: l) with
    | nil =>
      rw [hins] at hlen
      cases hlen
    | cons y' l' =>
      have hl : l'.length = l.length + 1 := by simpa [hins] using hlen
      have := ih y' l'
      rwa [hl] at this

/-- `insertion_sort` in place -/
theorem insertionSort_exec (v : List α) :
    (insertionSort isLess v.length).exec v = some ((), Qblaze.insertionSort isLess v) := by
  cases v with
  | nil => rfl
  | cons x r => exact insertionLoop_exec x [] r

end Insertion

/-! ## Partition -/

section Partition

variable {p : α → Bool} {v : List α} {left right n : Nat} {gap : Option (Nat × α)}

theorem scanLeft_exec (h : left + n ≤ v.length) :
    (scanLeft p n left).exec v = some (Qblaze.scanLeft p v n left, v) := by
  induction n generalizing left with
  | zero => rfl
  | succ n ih =>
    have hx : v[left]? = some v[left] := List.getElem?_eq_getElem (by omega)
    rw [scanLeft, Code.exec_get_then hx, Qblaze.scanLeft, hx]
    by_cases hp : p v[left] = true
    · rw [if_pos hp, ih (by omega)]
      simp only [hp, if_true]
    · rw [if_neg hp, Code.exec_pure]
      simp only [hp, Bool.false_eq_true, if_false]

theorem scanRight_exec (h0 : 0 < right) (h : right ≤ v.length) :
    (scanRight p left right).exec v = some (Qblaze.scanRight p v left right, v) := by
  induction right with
  | zero => omega
  | succ r ih =>
    have hx : v[r]? = some v[r] := List.getElem?_eq_getElem (by omega)
    rw [scanRight, Qblaze.scanRight]
    by_cases hr : r ≤ left
    · rw [if_pos hr, if_pos hr, Code.exec_pure]
    · rw [if_neg hr, if_neg hr, Code.exec_get_then hx, hx]
      by_cases hp : p v[r] = true
      · rw [if_pos hp, Code.exec_pure]
        simp only [hp, if_true]
      · rw [if_neg hp, ih (by omega) (by omega)]
        simp only [hp, Bool.false_eq_true, if_false]

theorem fillGap_exec (h : ∀ g gv, gap = some (g, gv) → g < v.length) :
    (fillGap gap).exec v = some ((), Qblaze.fillGap v gap) := by
  cases gap with
  | none => rfl
  | some gg => exact Code.exec_set gg.2 (h gg.1 gg.2 rfl)

/-- `partition_by` in place, from any turn of its outer loop. -/
theorem partitionLoop_exec (hi : PartInv p v left right gap) (h0 : 0 < right)
    (hn : right - left < n) : (partitionLoop p n left right gap).exec v =
      some ((Qblaze.partitionLoop p n v left right gap).2.1,
        Qblaze.fillGap (Qblaze.partitionLoop p n v left right gap).1
          (Qblaze.partitionLoop p n v left right gap).2.2) := by
  induction n generalizing v left right gap with
  | zero => omega
  | succ n ih =>
    have hle := hi.le
    have hlen := hi.len
    obtain ⟨h1, h2, h3, h4⟩ := @scanLeft_spec _ p v left (right - left) (by omega)
    rw [partitionLoop, Qblaze.partitionLoop, Code.exec_then (scanLeft_exec (by omega))]
    generalize Qblaze.scanLeft p v (right - left) left = l at *
    rw [Code.exec_then (scanRight_exec h0 hlen)]
    cases hs : Qblaze.scanRight p v l right with
    | none =>
      simp only
      rw [Code.exec_then (fillGap_exec fun g gv h => (hi.hole g gv h).2.1), Code.exec_pure]
    | some r =>
      obtain ⟨hlr, hrr, ⟨y, hy, hpy⟩, hscan'⟩ := scanRight_some hlen hs
      obtain ⟨x, hx, hpx⟩ := h4 (by omega)
      have hll : l < v.length := (List.getElem?_eq_some_iff.mp hx).1
      simp only [hx, hy]
      rw [Code.exec_get_then hx]
      cases gap with
      | none =>
        have hi' := hi.turn h1 hlr hrr hx hy hpx hpy h3 hscan' (.inl ⟨rfl, rfl, rfl⟩)
        rw [moveToGap, Code.exec_then (Code.exec_pure x), Code.exec_get_then hy,
          Code.exec_set_then hll]
        exact ih hi' (by omega) (by omega)
      | some gg =>
        obtain ⟨g, gv⟩ := gg
        have hi' := hi.turn h1 hlr hrr hx hy hpx hpy h3 hscan' (.inr ⟨g, gv, rfl, rfl, rfl⟩)
        obtain ⟨hrg, hgl, -⟩ := hi.hole g gv rfl
        have hmove : (moveToGap x (some (g, gv))).exec v = some (gv, v.set g x) := by
          rw [moveToGap, Code.exec_set_then hgl, Code.exec_pure]
        have hy' : (v.set g x)[r]? = some y := by
          rw [List.getElem?_set_ne (by omega)]
          exact hy
        rw [Code.exec_then hmove, Code.exec_get_then hy', Code.exec_set_then (by simpa using hll)]
        exact ih hi' (by omega) (by omega)

/-- `partition_by` in place -/
theorem partitionBy_exec (p : α → Bool) (v : List α) :
    (partitionBy p v.length).exec v =
      some ((Qblaze.partitionBy p v).2, (Qblaze.partitionBy p v).1) := by
  unfold partitionBy
  cases v with
  | nil => rfl
  | cons x v =>
    rw [if_neg (by simp)]
    exact partitionLoop_exec (partInv_initial p _) (Nat.succ_pos _) (Nat.lt_succ_self _)

end Partition

/-! ## The pivot -/

section Pivot

variable {isLess : α → α → Bool} {v : List α} {S : Nat → Prop} {a b c : Nat}

theorem sort2_exec (ha : a < v.length) (hb : b < v.length) :
    (sort2 isLess a b).exec v = some (Qblaze.sort2 isLess v a b, v) := by
  have hx : v[a]? = some v[a] := List.getElem?_eq_getElem ha
  have hy : v[b]? = some v[b] := List.getElem?_eq_getElem hb
  rw [sort2, Code.exec_get_then hx, Code.exec_get_then hy, Code.exec_pure, Qblaze.sort2, hx, hy]

/-- `sort2` reads at its arguments and returns them. -/
theorem sort2_within (ha : S a) (hb : S b) :
    (sort2 isLess a b).Within S fun r => S r.1 ∧ S r.2 := by
  refine ⟨ha, fun x => ⟨hb, fun y => ?_⟩⟩
  show S (if isLess x y then (b, a) else (a, b)).1 ∧ S (if isLess x y then (b, a) else (a, b)).2
  split
  · exact ⟨hb, ha⟩
  · exact ⟨ha, hb⟩

/-- `sort3` reads at its arguments and returns them. -/
theorem sort3_within (ha : S a) (hb : S b) (hc : S c) :
    (sort3 isLess a b c).Within S fun r => S r.1 ∧ S r.2.1 ∧ S r.2.2 :=
  (sort2_within ha hb).bind fun _ h1 => (sort2_within h1.2 hc).bind fun _ h2 =>
    (sort2_within h1.1 h2.1).bind fun _ h3 => ⟨h3.1, h3.2, h2.2⟩

/-- What `sort2` returns for indices in bounds. -/
theorem sort2_lt (ha : a < v.length) (hb : b < v.length) :
    (Qblaze.sort2 isLess v a b).1 < v.length ∧ (Qblaze.sort2 isLess v a b).2 < v.length := by
  have hin : (sort2 isLess a b).Within (· < v.length) _ := sort2_within ha hb
  obtain ⟨r, w, hr, hlt⟩ := hin.exec fun _ h => h
  rw [sort2_exec ha hb] at hr
  cases hr
  exact hlt

theorem sort3_exec (ha : a < v.length) (hb : b < v.length) (hc : c < v.length) :
    (sort3 isLess a b c).exec v = some (Qblaze.sort3 isLess v a b c, v) := by
  have h1 := @sort2_lt _ isLess _ _ _ ha hb
  have h2 := @sort2_lt _ isLess _ _ _ h1.2 hc
  rw [sort3, Code.exec_then (sort2_exec ha hb), Code.exec_then (sort2_exec h1.2 hc),
    Code.exec_then (sort2_exec h1.1 h2.1)]
  rfl

theorem sortAdjacent_exec (h0 : 0 < a) (ha : a + 1 < v.length) :
    (sortAdjacent isLess a).exec v = some (Qblaze.sortAdjacent isLess v a, v) := by
  cases a with
  | zero => omega
  | succ a =>
    rw [sortAdjacent, Code.exec_then (sort3_exec (by omega) (by omega) (by omega))]
    rfl

/-- The median of three neighbours is one of them. -/
theorem sortAdjacent_within (h0 : 0 < a) (hs : ∀ i, a ≤ i + 1 → i ≤ a + 1 → S i) :
    (sortAdjacent isLess a).Within S fun i => S i := by
  cases a with
  | zero => omega
  | succ a =>
    exact (sort3_within (hs _ (by omega) (by omega)) (hs _ (by omega) (by omega))
      (hs _ (by omega) (by omega))).bind fun _ h => h.2.1

theorem sortAdjacent_lt (h0 : 0 < a) (ha : a + 1 < v.length) :
    Qblaze.sortAdjacent isLess v a < v.length := by
  have hin : (sortAdjacent isLess a).Within (· < v.length) _ :=
    sortAdjacent_within h0 fun _ _ hi => Nat.lt_of_le_of_lt hi ha
  obtain ⟨r, w, hr, hlt⟩ := hin.exec fun _ h => h
  rw [sortAdjacent_exec h0 ha] at hr
  cases hr
  exact hlt

/-- Where `choose_pivot` reads: at the quarters and, in slices with at least 100 items, next to
them. -/
def PivotRead (len i : Nat) : Prop :=
  ∃ m, 1 ≤ m ∧ m ≤ 3 ∧
    (i = len / 4 * m ∨ 100 ≤ len ∧ (i + 1 = len / 4 * m ∨ i = len / 4 * m + 1))

theorem PivotRead.lt {len i : Nat} (h : PivotRead len i) (hl : 8 ≤ len) : i < len := by
  obtain ⟨m, h1, h3, h⟩ := h
  obtain rfl | rfl | rfl : m = 1 ∨ m = 2 ∨ m = 3 := by omega
  all_goals omega

/-- `choose_pivot` reads at these indices only, which are in bounds, and returns an index. -/
theorem choosePivot_within (len : Nat) : (choosePivot isLess len).Within
    (fun i => PivotRead len i ∧ i < len) (fun i => 0 < len → i < len) := by
  unfold choosePivot
  by_cases h8 : 8 ≤ len
  · have hq : ∀ m, 1 ≤ m → m ≤ 3 → PivotRead len (len / 4 * m) ∧ len / 4 * m < len := by
      intro m h1 h3
      have h : PivotRead len (len / 4 * m) := ⟨m, h1, h3, .inl rfl⟩
      exact ⟨h, h.lt h8⟩
    rw [if_pos h8]
    by_cases h100 : 100 ≤ len
    · have hadj : ∀ m, 1 ≤ m → m ≤ 3 → ∀ i, len / 4 * m ≤ i + 1 → i ≤ len / 4 * m + 1 →
          PivotRead len i ∧ i < len := by
        intro m h1 h3 i hle hge
        have h : PivotRead len i := ⟨m, h1, h3, by omega⟩
        exact ⟨h, h.lt h8⟩
      rw [if_pos h100]
      exact (sortAdjacent_within (by omega) (hadj 1 (by omega) (by omega))).bind fun _ ha =>
        (sortAdjacent_within (by omega) (hadj 2 (by omega) (by omega))).bind fun _ hb =>
        (sortAdjacent_within (by omega) (hadj 3 (by omega) (by omega))).bind fun _ hc =>
        (sort3_within ha hb hc).bind fun _ h _ => h.2.1.2
    · rw [if_neg h100]
      exact (sort3_within (hq 1 (by omega) (by omega)) (hq 2 (by omega) (by omega))
        (hq 3 (by omega) (by omega))).bind fun _ h _ => h.2.1.2
  · rw [if_neg h8]
    intro h0
    show len / 4 * 2 < len
    omega

/-- `choose_pivot` in place -/
theorem choosePivot_exec (v : List α) :
    (choosePivot isLess v.length).exec v = some (Qblaze.choosePivot isLess v, v) := by
  unfold choosePivot Qblaze.choosePivot
  by_cases h8 : 8 ≤ v.length
  · rw [if_pos h8, if_pos h8]
    by_cases h100 : 100 ≤ v.length
    · have hadj : ∀ m, 1 ≤ m → m ≤ 3 →
          (sortAdjacent isLess (v.length / 4 * m)).exec v =
            some (Qblaze.sortAdjacent isLess v (v.length / 4 * m), v) ∧
          Qblaze.sortAdjacent isLess v (v.length / 4 * m) < v.length := by
        intro m h1 h3
        have h0 : 0 < v.length / 4 * m := Nat.mul_pos (by omega) h1
        have hle := Nat.mul_le_mul_left (v.length / 4) h3
        exact ⟨sortAdjacent_exec h0 (by omega), sortAdjacent_lt h0 (by omega)⟩
      obtain ⟨ha, hal⟩ := hadj 1 (by omega) (by omega)
      obtain ⟨hb, hbl⟩ := hadj 2 (by omega) (by omega)
      obtain ⟨hc, hcl⟩ := hadj 3 (by omega) (by omega)
      simp only [if_pos h100]
      rw [Code.exec_then ha, Code.exec_then hb, Code.exec_then hc,
        Code.exec_then (sort3_exec hal hbl hcl)]
      rfl
    · simp only [if_neg h100]
      rw [Code.exec_then (sort3_exec (by omega) (by omega) (by omega))]
      rfl
  · rw [if_neg h8, if_neg h8]
    rfl

/-- `v.swap` in place -/
theorem swap_exec {i j : Nat} (hi : i < v.length) (hj : j < v.length) :
    (swap i j).exec v = some ((), swapAt v i j) := by
  have hx : v[i]? = some v[i] := List.getElem?_eq_getElem hi
  have hy : v[j]? = some v[j] := List.getElem?_eq_getElem hj
  rw [swap, Code.exec_get_then hx, Code.exec_get_then hy, Code.exec_set_then hi,
    Code.exec_set _ (by rw [List.length_set]; exact hj), swapAt, hx, hy]

/-- `partition_pivot_impl` in place, with the pivot in front. -/
theorem partitionPivotImpl_exec {pivot : α} {rest : List α} (h : 0 < v.length)
    (hv : swapAt v 0 (Qblaze.choosePivot isLess v) = pivot :: rest) :
    (partitionPivotImpl isLess v.length).exec v =
      some ((Qblaze.partitionBy (fun x => isLess x pivot) rest).2,
        swapAt (pivot :: (Qblaze.partitionBy (fun x => isLess x pivot) rest).1) 0
          (Qblaze.partitionBy (fun x => isLess x pivot) rest).2) := by
  have hp := @choosePivot_exec _ isLess v
  have hpl : Qblaze.choosePivot isLess v < v.length := by
    obtain ⟨b, w, hb, hlt⟩ := (@choosePivot_within _ isLess v.length).exec fun _ hi => hi.2
    rw [hp] at hb
    cases hb
    exact hlt h
  have hlen : v.length = rest.length + 1 := by
    rw [← (swapAt_perm v 0 (Qblaze.choosePivot isLess v)).length_eq, hv, List.length_cons]
  obtain ⟨hperm, hk, -⟩ := partitionBy_spec (fun x => isLess x pivot) rest
  -- the partition works on the items after the pivot
  have hpart := Code.exec_shift [pivot] [] (partitionBy_exec (fun x => isLess x pivot) rest)
  rw [List.append_nil, List.append_nil] at hpart
  rw [partitionPivotImpl, Code.exec_then hp, Code.exec_then (swap_exec h hpl), hv,
    Code.exec_get_then (x := pivot) rfl, hlen, Nat.add_sub_cancel]
  refine (Code.exec_then hpart).trans ?_
  exact Code.exec_then (swap_exec (Nat.succ_pos _) (Nat.lt_succ_of_le hk))

/-- `partition_pivot` in place: the slice is the first part, the pivot and the last part. -/
theorem partitionPivot_exec (h : 0 < v.length) : ∃ left pivot right,
    Qblaze.partitionPivot isLess v = some (left, pivot, right) ∧
    (partitionPivot isLess v.length).exec v = some (left.length, left ++ pivot :: right) := by
  obtain ⟨left, pivot, right, hpp⟩ := @partitionPivot_isSome _ isLess v h
  refine ⟨left, pivot, right, hpp, ?_⟩
  have hplen := (partitionPivot_spec hpp).1.length_eq
  unfold Qblaze.partitionPivot at hpp
  split at hpp
  · cases hpp
  · rename_i piv rest hv
    simp only at hpp
    have himpl := partitionPivotImpl_exec h hv
    generalize (Qblaze.partitionBy (fun x => isLess x piv) rest).2 = k at *
    generalize swapAt (piv :: (Qblaze.partitionBy (fun x => isLess x piv) rest).1) 0 k = w at *
    split at hpp
    · cases hpp
    · rename_i hdrop
      cases hpp
      have hk : k < w.length := by
        by_contra hk
        rw [List.drop_of_length_le (by omega)] at hdrop
        cases hdrop
      have hw := Code.length_exec himpl
      rw [partitionPivot, Code.exec_then himpl, if_pos (by omega), Code.exec_pure, ← hdrop,
        List.take_append_drop, List.length_take, Nat.min_eq_left (by omega)]

end Pivot

/-! ## Quicksort -/

section Quicksort

variable {isLess : α → α → Bool} {v : List α} {n : Nat}

theorem seqLoop_exec (h : v.length ≤ n) :
    (seqLoop isLess n v.length).exec v = some ((), Qblaze.seqQuicksort isLess n v) := by
  induction n generalizing v with
  | zero =>
    rw [seqLoop, if_neg (by omega)]
    exact insertionSort_exec v
  | succ n ih =>
    rw [seqLoop, Qblaze.seqQuicksort]
    by_cases h20 : 20 < v.length
    · obtain ⟨left, pivot, right, hpp, hexec⟩ := @partitionPivot_exec _ isLess v (by omega)
      have hlen := (partitionPivot_spec hpp).1.length_eq
      rw [List.length_append, List.length_cons] at hlen
      rw [if_pos h20, if_pos h20, hpp, Code.exec_then hexec,
        show v.length - left.length - 1 = right.length by omega]
      have hleft := Code.exec_shift [] (pivot :: right) (@ih left (by omega))
      have hright := Code.exec_shift (Qblaze.seqQuicksort isLess n left ++ [pivot]) []
        (@ih right (by omega))
      rw [List.length_append, (seqQuicksort_perm n left).length_eq] at hright
      simp only [List.append_nil, List.append_assoc, List.singleton_append] at hright
      exact (Code.exec_then hleft).trans hright
    · rw [if_neg h20, if_neg h20]
      exact insertionSort_exec v

/-- `seq_quicksort` in place -/
theorem seqQuicksort_exec {size : Nat} (hs : size ≠ 0) (v : List α) :
    (seqQuicksort isLess size v.length).exec v =
      some ((), Qblaze.seqQuicksort isLess v.length v) := by
  rw [seqQuicksort, if_neg hs]
  exact seqLoop_exec (Nat.le_refl _)

/-- A task that is at its end. -/
theorem ends_nil (body : Nat → Code α (List (Nat × Nat))) (v : List α) :
    ∃ m, Tasks.Ends body (.done []) v v m :=
  Tasks.Ends.parts (by simp) List.Pairwise.nil rfl (fun _ _ => rfl) (by simp)

/-- A slice with at most one item is not changed. -/
theorem eq_of_perm_of_length {w : List α} (h : w.Perm v) (hv : v.length ≤ 1) : w = v := by
  match v, hv with
  | [], _ => exact h.eq_nil
  | [x], _ => exact List.perm_singleton.mp h

theorem mem_sides {a b : Nat} {r : Nat × Nat} (h : r ∈ sides a b) :
    r = (0, a) ∨ r = (a + 1, b) := by
  unfold sides at h
  split_ifs at h <;> grind

theorem nodup_sides {a b : Nat} : (sides a b).Nodup := by
  unfold sides
  split_ifs <;> simp <;> split_ifs <;> simp

/-- A side that is not left to do has nothing to sort. -/
theorem left_le_of_sides {a b : Nat} (h : (0, a) ∉ sides a b) : a ≤ 1 := by
  unfold sides at h
  grind

theorem right_le_of_sides {a b : Nat} (h : (a + 1, b) ∉ sides a b) : b ≤ 1 := by
  unfold sides at h
  grind

/-- Two parts around a pivot, of which those that are left to tasks end and the others do not
change. -/
theorem ends_split {body : Nat → Code α (List (Nat × Nat))} {left right left' right' : List α}
    (pivot : α) {rs : List (Nat × Nat)} (hl : left'.length = left.length)
    (hr : right'.length = right.length)
    (hrs : ∀ r ∈ rs, r = (0, left.length) ∨ r = (left.length + 1, right.length)) (hd : rs.Nodup)
    (h0 : (0, left.length) ∈ rs → ∃ n, Tasks.Ends body (body left.length) left left' n)
    (h0' : (0, left.length) ∉ rs → left' = left)
    (h1 : (left.length + 1, right.length) ∈ rs →
      ∃ n, Tasks.Ends body (body right.length) right right' n)
    (h1' : (left.length + 1, right.length) ∉ rs → right' = right) :
    ∃ n, Tasks.Ends body (.done rs) (left ++ pivot :: right) (left' ++ pivot :: right') n := by
  have hleft (l r : List α) : sub (0, l.length) (l ++ pivot :: r) = l := by simp [sub]
  have hright (l r : List α) : sub (l.length + 1, r.length) (l ++ pivot :: r) = r := by
    simp [sub]
  refine Tasks.Ends.parts (fun r hm => ?_) ?_ (by simp [hl, hr]) (fun p hp => ?_) fun r hm => ?_
  · rw [List.length_append, List.length_cons]
    rcases hrs r hm with rfl | rfl
    · exact Nat.le_trans (Nat.le_of_eq (Nat.zero_add _)) (Nat.le_add_right ..)
    · show left.length + 1 + right.length ≤ _
      omega
  · refine hd.imp_of_mem fun {r u} hm hm' hne => ?_
    rcases hrs r hm with rfl | rfl <;> rcases hrs u hm' with rfl | rfl
    · exact absurd rfl hne
    · exact .inl (by simp)
    · exact .inr (by simp)
    · exact absurd rfl hne
  · by_cases hpl : p < left.length
    · rw [List.getElem?_append_left hpl, List.getElem?_append_left (by omega)]
      rw [h0' fun hm => hp _ hm ⟨Nat.zero_le p, by simpa using hpl⟩]
    · rw [List.getElem?_append_right (by omega), List.getElem?_append_right (by omega), hl]
      cases hj : p - left.length with
      | zero => rfl
      | succ j =>
        rw [List.getElem?_cons_succ, List.getElem?_cons_succ]
        by_cases hm : (left.length + 1, right.length) ∈ rs
        · have hnot := hp _ hm
          simp only [Inside] at hnot
          rw [List.getElem?_eq_none (by omega), List.getElem?_eq_none (by omega)]
        · rw [h1' hm]
  · rcases hrs r hm with rfl | rfl
    · rw [hleft, ← hl, hleft, hl]
      exact h0 hm
    · rw [hright, ← hl, ← hr, hright, hl, hr]
      exact h1 hm

/-- A task that sorts its part alone. -/
theorem seqQuicksort_ends {size : Nat} (hs : size ≠ 0) (body : Nat → Code α (List (Nat × Nat)))
    (v : List α) : ∃ m, Tasks.Ends body (do seqQuicksort isLess size v.length; pure []) v
      (Qblaze.seqQuicksort isLess v.length v) m := by
  obtain ⟨m, hm⟩ := ends_nil body (Qblaze.seqQuicksort isLess v.length v)
  exact hm.of_exec (Code.exec_then (seqQuicksort_exec hs v))

/-- The tasks of `par_recurse`, one after the other. -/
theorem parRecurse_ends {size : Nat} (hs : size ≠ 0) (h : v.length ≤ n) :
    ∃ m, Tasks.Ends (parRecurse isLess size) (parRecurse isLess size v.length) v
      (Qblaze.parRecurse isLess (max (2 ^ 16 / size) 40) n v) m := by
  have hseq := @seqQuicksort_ends _ isLess size hs (parRecurse isLess size)
  induction n generalizing v with
  | zero =>
    have hbody : parRecurse isLess size v.length =
        (do seqQuicksort isLess size v.length; pure []) := if_neg (by omega)
    rw [hbody, Qblaze.parRecurse]
    exact hseq v
  | succ n ih =>
    rw [Qblaze.parRecurse]
    by_cases hmax : max (2 ^ 16 / size) 40 < v.length
    · obtain ⟨left, pivot, right, hpp, hexec⟩ := @partitionPivot_exec _ isLess v (by omega)
      have hlen := (partitionPivot_spec hpp).1.length_eq
      rw [List.length_append, List.length_cons] at hlen
      rw [if_pos hmax, hpp]
      have hbody : (parRecurse isLess size v.length).exec v =
          some (sides left.length right.length, left ++ pivot :: right) := by
        rw [parRecurse, if_pos hmax, Code.exec_then hexec,
          show v.length - left.length - 1 = right.length by omega, Code.exec_pure]
      have hl := @parRecurse_perm _ isLess (max (2 ^ 16 / size) 40) n left
      have hr := @parRecurse_perm _ isLess (max (2 ^ 16 / size) 40) n right
      obtain ⟨m, hm⟩ := ends_split pivot hl.length_eq hr.length_eq (fun _ => mem_sides)
        nodup_sides
        (fun _ => ih (by omega)) (fun hn => eq_of_perm_of_length hl (left_le_of_sides hn))
        (fun _ => ih (by omega)) fun hn => eq_of_perm_of_length hr (right_le_of_sides hn)
      exact hm.of_exec hbody
    · have hbody : parRecurse isLess size v.length =
          (do seqQuicksort isLess size v.length; pure []) := if_neg hmax
      rw [hbody, if_neg hmax]
      exact hseq v

/-- A zero-sized type has one value. -/
theorem sorted_of_zst (hw : StrictWeak isLess) (h : ∀ a b : α, a = b) (v : List α) :
    Sorted isLess v := by
  refine List.pairwise_of_forall fun a b => ?_
  rw [h b a]
  cases hx : isLess a a with
  | false => rfl
  | true => exact hx.symm.trans (hw.asymm a a hx)

/-- The tasks of `par_quicksort`, one after the other, sort. -/
theorem parQuicksort_ends (hw : StrictWeak isLess) {size : Nat} (hs : size = 0 → ∀ a b : α, a = b)
    (single : Bool) (v : List α) : ∃ w m, w.Perm v ∧ Sorted isLess w ∧
      Tasks.Ends (parQuicksort isLess single size) (parQuicksort isLess single size v.length) v w
        m := by
  by_cases h0 : size = 0
  · obtain ⟨m, hm⟩ := ends_nil (parQuicksort isLess single size) v
    refine ⟨v, m, List.Perm.refl v, sorted_of_zst hw (hs h0) v, ?_⟩
    rw [parQuicksort, if_pos h0]
    exact hm
  · cases single with
    | true =>
      have hbody : parQuicksort isLess true size v.length =
          (do seqQuicksort isLess size v.length; pure []) := by
        rw [parQuicksort, if_neg h0, if_pos rfl]
      obtain ⟨k, hk⟩ := @seqQuicksort_ends _ isLess size h0 (parQuicksort isLess true size) v
      exact ⟨_, k, seqQuicksort_perm _ v, seqQuicksort_sorted hw _ v, hbody ▸ hk⟩
    | false =>
      have hbody : parQuicksort isLess false size = parRecurse isLess size := by
        funext len
        rw [parQuicksort, if_neg h0, if_neg Bool.false_ne_true]
      obtain ⟨k, hk⟩ := @parRecurse_ends _ isLess v _ size h0 (Nat.le_refl v.length)
      exact ⟨_, k, parRecurse_perm _ _ v, parRecurse_sorted hw _ _ v, hbody ▸ hk⟩

variable (isLess) in
/-- `quicksort` sorts. The sequential one, alone, ends with a sorted permutation, without an access
out of bounds. The parallel one does so in every interleaving of its tasks, which work on disjoint
parts and have no access out of their parts. `partition_by` splits by any predicate, and
`choose_pivot` reads in bounds, next to the quarters only in slices with at least 100 items. -/
theorem quicksort_sorts (hw : StrictWeak isLess) {size : Nat} (hs : size = 0 → ∀ a b : α, a = b)
    (v : List α) :
    (∃ w, (seqQuicksort isLess size v.length).exec v = some ((), w) ∧ w.Perm v ∧ Sorted isLess w) ∧
    (∀ single, ∃ w, w.Perm v ∧ Sorted isLess w ∧
      (Tasks.system (parQuicksort isLess single size) v).Halts (fun s => s.tasks = [] ∧ s.mem = w) ∧
      ∀ s, (Tasks.system (parQuicksort isLess single size) v).Reach s →
        (s.tasks.Pairwise fun t u => Apart t.part u.part) ∧
        ∀ i t, s.tasks[i]? = some t → ∃ s', Tasks.Step (parQuicksort isLess single size) i s s') ∧
    (∀ p, ∃ w k, (partitionBy p v.length).exec v = some (k, w) ∧ Partitioned p v w k) ∧
    (choosePivot isLess v.length).Within (fun i => PivotRead v.length i ∧ i < v.length)
      (fun i => 0 < v.length → i < v.length) := by
  refine ⟨?_, fun single => ?_, fun p => ?_, choosePivot_within _⟩
  · by_cases h0 : size = 0
    · refine ⟨v, ?_, List.Perm.refl v, sorted_of_zst hw (hs h0) v⟩
      rw [seqQuicksort, if_pos h0]
      rfl
    · exact ⟨_, seqQuicksort_exec h0 v, seqQuicksort_perm _ v, seqQuicksort_sorted hw _ v⟩
  · obtain ⟨w, m, hp, hsort, hm⟩ := parQuicksort_ends hw hs single v
    obtain ⟨hh, hr⟩ := hm.parallel hp.length_eq
    exact ⟨w, hp, hsort, hh, hr⟩
  · exact ⟨_, _, partitionBy_exec p v, partitionBy_spec p v⟩

/-- Numbers in the wrong order, as many as are sorted in parallel. -/
theorem quicksort_sorts_range :
    (seqQuicksort (fun a b : Nat => decide (a < b)) 8 10000).exec (List.range 10000).reverse =
      some ((), List.range 10000) ∧
    (Tasks.system (parQuicksort (fun a b : Nat => decide (a < b)) false 8) (List.range 10000).reverse).Halts
      (fun s => s.tasks = [] ∧ s.mem = List.range 10000) := by
  have hw : StrictWeak fun a b : Nat => decide (a < b) :=
    ⟨fun a b h => by simp at h ⊢; omega, fun a b c h h' => by simp at h h' ⊢; omega⟩
  have hrange : ∀ w, w.Perm (List.range 10000).reverse → Sorted (fun a b : Nat => decide (a < b)) w →
      w = List.range 10000 := by
    intro w hp hs
    have hle : w.Pairwise fun a b => a ≤ b := hs.imp fun h => by simpa using h
    exact (hp.trans (List.reverse_perm _)).eq_of_pairwise (fun a b _ _ => Nat.le_antisymm) hle
      List.pairwise_le_range
  have hlen : (List.range 10000).reverse.length = 10000 := by simp
  have hsize : 8 = 0 → ∀ a b : Nat, a = b := fun h => absurd h (by decide)
  obtain ⟨⟨w, hexec, hp, hs⟩, hpar, -⟩ := quicksort_sorts (fun a b : Nat => decide (a < b)) hw hsize
    (List.range 10000).reverse
  obtain ⟨w', hp', hs', hh, -⟩ := hpar false
  rw [hrange w hp hs, hlen] at hexec
  rw [hrange w' hp' hs'] at hh
  exact ⟨hexec, hh⟩

end Quicksort

end InPlace

end Qblaze
