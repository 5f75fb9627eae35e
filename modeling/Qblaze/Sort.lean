import Mathlib.Data.List.Basic
import Mathlib.Order.Basic
import Mathlib.Algebra.Group.Nat.Defs
import Mathlib.Tactic.Common

/-!
# Partition and quicksort (`src/shamelessly_stolen_from_libstd.rs`)

`partitionBy` moves the elements that satisfy a predicate to the front, with two pointers and a gap
that carries one element to the end of the loop. `seqQuicksort` and `parRecurse` are built on it;
the tasks that `parRecurse` submits work on disjoint parts of the slice, so that its result does
not depend on the order in which they run.

* `partitionBy_spec`: a permutation, split at the returned index.
* `seqQuicksort_perm`, `seqQuicksort_sorted`, and the same for `parQuicksort`: for every strict
  weak order, the result is a sorted permutation.
-/

namespace Qblaze

variable {α : Type}

/-! ## Partition -/

/-- The first loop of `partition_by`: skip up to `n` elements that satisfy `p`. -/
def scanLeft (p : α → Bool) (v : List α) : Nat → Nat → Nat
  | 0, left => left
  | n + 1, left =>
    match v[left]? with
    | some x => if p x then scanLeft p v n (left + 1) else left
    | none => left

/-- The second loop of `partition_by`: the last element before `right` that satisfies `p`, or
`none` if the pointers meet. -/
def scanRight (p : α → Bool) (v : List α) (left : Nat) : Nat → Option Nat
  | 0 => none
  | right + 1 =>
    if right ≤ left then none
    else
      match v[right]? with
      | some x => if p x then some right else scanRight p v left right
      | none => none

/-- The outer loop of `partition_by`. The gap is a position whose element has been moved, with the
element that belongs there in the end. -/
def partitionLoop (p : α → Bool) :
    Nat → List α → Nat → Nat → Option (Nat × α) → List α × Nat × Option (Nat × α)
  | 0, v, left, _, gap => (v, left, gap)
  | n + 1, v, left, right, gap =>
    let left := scanLeft p v (right - left) left
    match scanRight p v left right with
    | none => (v, left, gap)
    | some right =>
      match v[left]?, v[right]? with
      | some x, some y =>
        match gap with
        | none => partitionLoop p n (v.set left y) (left + 1) right (some (right, x))
        | some (g, gv) =>
          partitionLoop p n ((v.set g x).set left y) (left + 1) right (some (right, gv))
      | _, _ => (v, left, gap)

/-- The slice with the gap filled. -/
def fillGap (v : List α) : Option (Nat × α) → List α
  | none => v
  | some (g, gv) => v.set g gv

/-- `partition_by`: the slice after it, and the number of elements that satisfy `p`. -/
def partitionBy (p : α → Bool) (v : List α) : List α × Nat :=
  let (v, k, gap) := partitionLoop p (v.length + 1) v 0 v.length none
  (fillGap v gap, k)

section Partition

variable {p : α → Bool} {v : List α} {left right n i g : Nat} {gap : Option (Nat × α)} {x gv : α}

theorem scanLeft_spec (h : left + n ≤ v.length) :
    left ≤ scanLeft p v n left ∧ scanLeft p v n left ≤ left + n ∧
    (∀ i x, left ≤ i → i < scanLeft p v n left → v[i]? = some x → p x = true) ∧
    (scanLeft p v n left < left + n → ∃ x, v[scanLeft p v n left]? = some x ∧ p x = false) := by
  induction n generalizing left with
  | zero =>
    refine ⟨Nat.le_refl _, Nat.le_refl _, fun i x h1 h2 => ?_, fun h => absurd h (Nat.lt_irrefl _)⟩
    exact absurd (Nat.lt_of_le_of_lt h1 h2) (Nat.lt_irrefl _)
  | succ n ih =>
    have hx : v[left]? = some v[left] := List.getElem?_eq_getElem (by omega)
    unfold scanLeft
    rw [hx]
    simp only
    split
    · rename_i hp
      obtain ⟨h1, h2, h3, h4⟩ := @ih (left + 1) (by omega)
      refine ⟨by omega, by omega, fun i x hi hlt hv => ?_, fun hlt => h4 (by omega)⟩
      by_cases hil : i = left
      · subst hil
        rw [hx] at hv
        cases hv
        exact hp
      · exact h3 i x (by omega) hlt hv
    · rename_i hp
      refine ⟨Nat.le_refl _, by omega, fun i x h1 h2 => ?_, fun _ => ⟨_, hx, by simpa using hp⟩⟩
      exact absurd (Nat.lt_of_le_of_lt h1 h2) (Nat.lt_irrefl _)

theorem scanRight_none (h : right ≤ v.length) (hs : scanRight p v left right = none)
    (hi : left < i) (hir : i < right) (hv : v[i]? = some x) : p x = false := by
  induction right with
  | zero => omega
  | succ r ih =>
    have hr : v[r]? = some v[r] := List.getElem?_eq_getElem (by omega)
    unfold scanRight at hs
    rw [hr] at hs
    split at hs
    · omega
    · simp only at hs
      split at hs
      · cases hs
      · rename_i hp
        by_cases hir' : i = r
        · subst hir'
          rw [hr] at hv
          cases hv
          simpa using hp
        · exact ih (by omega) hs (by omega)

theorem scanRight_some {r : Nat} (h : right ≤ v.length) (hs : scanRight p v left right = some r) :
    left < r ∧ r < right ∧ (∃ x, v[r]? = some x ∧ p x = true) ∧
      ∀ i x, r < i → i < right → v[i]? = some x → p x = false := by
  induction right with
  | zero => cases hs
  | succ m ih =>
    have hm : v[m]? = some v[m] := List.getElem?_eq_getElem (by omega)
    unfold scanRight at hs
    rw [hm] at hs
    split at hs
    · cases hs
    · simp only at hs
      split at hs
      · rename_i hp
        cases hs
        refine ⟨by omega, by omega, ⟨_, hm, hp⟩, fun i x h1 h2 => by omega⟩
      · rename_i hp
        obtain ⟨h1, h2, h3, h4⟩ := ih (by omega) hs
        refine ⟨h1, by omega, h3, fun i x hi hlt hv => ?_⟩
        by_cases him : i = m
        · subst him
          rw [hm] at hv
          cases hv
          simpa using hp
        · exact h4 i x hi (by omega) hv

theorem length_fillGap : (fillGap v gap).length = v.length := by
  cases gap with
  | none => rfl
  | some gg => exact List.length_set ..

theorem getElem?_fillGap (h : ∀ g gv, gap = some (g, gv) → i ≠ g) : (fillGap v gap)[i]? = v[i]? := by
  cases gap with
  | none => rfl
  | some gg => exact List.getElem?_set_ne (h gg.1 gg.2 rfl).symm

/-- The invariant of the outer loop. -/
structure PartInv (p : α → Bool) (v : List α) (left right : Nat) (gap : Option (Nat × α)) : Prop where
  le : left ≤ right
  len : right ≤ v.length
  hole : ∀ g gv, gap = some (g, gv) → right ≤ g ∧ g < v.length ∧ p gv = false
  low : ∀ i x, i < left → (fillGap v gap)[i]? = some x → p x = true
  high : ∀ i x, right ≤ i → (fillGap v gap)[i]? = some x → p x = false

/-- Two positions are exchanged. -/
theorem swap_perm {j : Nat} (hi : i < v.length) (hj : j < v.length) :
    ((v.set i v[j]).set j v[i]).Perm v := List.set_set_perm hi hj

/-- One turn of the outer loop: the elements at `l` and `r` go to the other side. With the gap
filled, it is a rotation of at most three elements. -/
theorem fillGap_turn {l r : Nat} {y : α} (hlr : l < r) (hl : v[l]? = some x) (hr : v[r]? = some y)
    (hg : ∀ g gv, gap = some (g, gv) → r < g ∧ g < v.length) :
    match gap with
    | none => (fillGap (v.set l y) (some (r, x))).Perm (fillGap v gap)
    | some (g, gv) => (fillGap ((v.set g x).set l y) (some (r, gv))).Perm (fillGap v gap) := by
  obtain ⟨hll, rfl⟩ := List.getElem?_eq_some_iff.mp hl
  obtain ⟨hrl, rfl⟩ := List.getElem?_eq_some_iff.mp hr
  cases gap with
  | none => exact swap_perm hll hrl
  | some gg =>
    obtain ⟨g, gv⟩ := gg
    obtain ⟨hrg, hgl⟩ := hg g gv rfl
    simp only [fillGap]
    -- first `l` and `r` are exchanged in the filled slice, and then `r` and `g`
    have h1 : (((v.set g gv).set l v[r]).set r v[l]).Perm (v.set g gv) := by
      have := swap_perm (v := v.set g gv) (i := l) (j := r) (by simpa using hll) (by simpa using hrl)
      rwa [List.getElem_set_ne (by omega), List.getElem_set_ne (by omega)] at this
    have h2 : (((((v.set g gv).set l v[r]).set r v[l]).set r gv).set g v[l]).Perm
        (((v.set g gv).set l v[r]).set r v[l]) := by
      have := swap_perm (v := ((v.set g gv).set l v[r]).set r v[l]) (i := r) (j := g)
        (by simpa using hrl) (by simpa using hgl)
      rwa [List.getElem_set_ne (by omega), List.getElem_set_ne (by omega), List.getElem_set_self,
        List.getElem_set_self] at this
    refine List.Perm.trans (List.Perm.of_eq ?_) (h2.trans h1)
    rw [List.set_set, List.set_comm _ _ (by omega : r ≠ g), List.set_comm _ _ (by omega : l ≠ g),
      List.set_set]

/-- The invariant after a turn that exchanges `l` and `r`. -/
theorem PartInv.turn (hi : PartInv p v left right gap) {l r : Nat} {y : α} (hll : left ≤ l)
    (hlr : l < r) (hrr : r < right) (hl : v[l]? = some x) (hr : v[r]? = some y)
    (hx : p x = false) (hy : p y = true)
    (hscan : ∀ i x, left ≤ i → i < l → v[i]? = some x → p x = true)
    (hscan' : ∀ i x, r < i → i < right → v[i]? = some x → p x = false) {v' : List α}
    {gap' : α} (hv' : (gap = none ∧ v' = v.set l y ∧ gap' = x) ∨
      ∃ g gv, gap = some (g, gv) ∧ v' = (v.set g x).set l y ∧ gap' = gv) :
    PartInv p v' (l + 1) r (some (r, gap')) := by
  obtain ⟨hle, hlen, hhole, hlow, hhigh⟩ := hi
  have hrl : r < v.length := by omega
  have hlen' : v'.length = v.length := by
    rcases hv' with ⟨-, rfl, -⟩ | ⟨g, gv, -, rfl, -⟩ <;> simp
  -- away from `l` and the gap, the slice is unchanged
  have hsame : ∀ i, i ≠ l → (∀ g gv, gap = some (g, gv) → i ≠ g) → v'[i]? = v[i]? := by
    intro i h1 h2
    rcases hv' with ⟨-, rfl, -⟩ | ⟨g, gv, hg, rfl, -⟩
    · rw [List.getElem?_set_ne (Ne.symm h1)]
    · rw [List.getElem?_set_ne (Ne.symm h1), List.getElem?_set_ne (h2 g gv hg).symm]
  have hatl : v'[l]? = some y := by
    rcases hv' with ⟨-, rfl, -⟩ | ⟨g, gv, -, rfl, -⟩
    · exact List.getElem?_set_self (by omega)
    · exact List.getElem?_set_self (by rw [List.length_set]; omega)
  have hpg : p gap' = false := by
    rcases hv' with ⟨-, -, rfl⟩ | ⟨g, gv, hg, -, rfl⟩
    · exact hx
    · exact (hhole g _ hg).2.2
  refine ⟨hlr, by omega, fun g gv h => ?_, fun i z hi hz => ?_, fun i z hi hz => ?_⟩
  · cases h
    exact ⟨Nat.le_refl _, by omega, hpg⟩
  · have hgap : ∀ g gv, gap = some (g, gv) → i ≠ g := fun g gv h => by
      have := (hhole g gv h).1
      omega
    rw [getElem?_fillGap fun g gv h => by cases h; omega] at hz
    by_cases hil : i = l
    · subst hil
      rw [hatl] at hz
      cases hz
      exact hy
    · rw [hsame i hil hgap] at hz
      by_cases hi' : i < left
      · exact hlow i z hi' (by rw [getElem?_fillGap hgap]; exact hz)
      · exact hscan i z (by omega) (by omega) hz
  · by_cases hir : i = r
    · subst hir
      rw [fillGap, List.getElem?_set_self (by omega)] at hz
      cases hz
      exact hpg
    · rw [getElem?_fillGap fun g gv h => by cases h; exact hir] at hz
      by_cases hig : ∃ gv, gap = some (i, gv)
      · -- the old gap now holds `x`
        obtain ⟨gv, hg⟩ := hig
        have hgl := (hhole i gv hg).2.1
        rcases hv' with ⟨h0, -, -⟩ | ⟨g, gv', hg', rfl, -⟩
        · rw [h0] at hg; cases hg
        · rw [hg] at hg'
          cases hg'
          rw [List.getElem?_set_ne (by omega), List.getElem?_set_self hgl] at hz
          cases hz
          exact hx
      · have hgap : ∀ g gv, gap = some (g, gv) → i ≠ g := fun g gv h e => hig ⟨gv, e ▸ h⟩
        rw [hsame i (by omega) hgap] at hz
        by_cases hi' : i < right
        · exact hscan' i z (by omega) hi' hz
        · exact hhigh i z (by omega) (by rw [getElem?_fillGap hgap]; exact hz)

/-- What `partition_by` promises of its result. -/
def Partitioned (p : α → Bool) (v w : List α) (k : Nat) : Prop :=
  w.Perm v ∧ k ≤ w.length ∧ (∀ i x, i < k → w[i]? = some x → p x = true) ∧
    ∀ i x, k ≤ i → w[i]? = some x → p x = false

theorem partitionLoop_spec (hi : PartInv p v left right gap) (hn : right - left < n) :
    Partitioned p (fillGap v gap) (fillGap (partitionLoop p n v left right gap).1
      (partitionLoop p n v left right gap).2.2) (partitionLoop p n v left right gap).2.1 := by
  induction n generalizing v left right gap with
  | zero => omega
  | succ n ih =>
    have hle := hi.le
    have hlen := hi.len
    obtain ⟨h1, h2, h3, h4⟩ := @scanLeft_spec _ p v left (right - left) (by omega)
    unfold partitionLoop
    generalize hlq : scanLeft p v (right - left) left = l at *
    simp only
    cases hs : scanRight p v l right with
    | none =>
      -- the pointers have met
      simp only
      have hgap : ∀ i, i < right → ∀ g gv, gap = some (g, gv) → i ≠ g := fun i hir g gv h => by
        have := (hi.hole g gv h).1
        omega
      refine ⟨List.Perm.refl _, by rw [length_fillGap]; omega, fun i z hil hz => ?_,
        fun i z hil hz => ?_⟩
      · by_cases hi' : i < left
        · exact hi.low i z hi' hz
        · rw [getElem?_fillGap (hgap i (by omega))] at hz
          exact h3 i z (by omega) hil hz
      · by_cases hi' : i < right
        · rw [getElem?_fillGap (hgap i hi')] at hz
          by_cases hie : i = l
          · subst hie
            obtain ⟨x, hx, hpx⟩ := h4 (by omega)
            rw [hx] at hz
            cases hz
            exact hpx
          · exact scanRight_none hlen hs (by omega) hi' hz
        · exact hi.high i z (by omega) hz
    | some r =>
      obtain ⟨hlr, hrr, ⟨y, hy, hpy⟩, hscan'⟩ := scanRight_some hlen hs
      obtain ⟨x, hx, hpx⟩ := h4 (by omega)
      have hperm := @fillGap_turn _ v gap x _ _ y hlr hx hy fun g gv h => by
        have := hi.hole g gv h
        omega
      simp only [hx, hy]
      cases gap with
      | none =>
        have hi' := hi.turn h1 hlr hrr hx hy hpx hpy h3 hscan' (.inl ⟨rfl, rfl, rfl⟩)
        obtain ⟨g1, g2⟩ := ih hi' (by omega)
        exact ⟨g1.trans hperm, g2⟩
      | some gg =>
        have hi' := hi.turn h1 hlr hrr hx hy hpx hpy h3 hscan'
          (.inr ⟨gg.1, gg.2, rfl, rfl, rfl⟩)
        obtain ⟨g1, g2⟩ := ih hi' (by omega)
        exact ⟨g1.trans hperm, g2⟩

/-- Before the loop. -/
theorem partInv_initial (p : α → Bool) (v : List α) : PartInv p v 0 v.length none := by
  refine ⟨Nat.zero_le _, Nat.le_refl _, fun g gv h => ?_, fun i x h => absurd h (Nat.not_lt_zero i),
    fun i x h hx => ?_⟩
  · cases h
  · rw [fillGap, List.getElem?_eq_none h] at hx
    cases hx

/-- `partition_by` returns a permutation whose first `k` elements satisfy `p` and whose others do
not. -/
theorem partitionBy_spec (p : α → Bool) (v : List α) :
    Partitioned p v (partitionBy p v).1 (partitionBy p v).2 :=
  partitionLoop_spec (partInv_initial p v) (Nat.lt_succ_self _)

end Partition

/-- The two sides of a partition, as lists. -/
theorem Partitioned.split {p : α → Bool} {v w : List α} {k : Nat} (h : Partitioned p v w k) :
    (∀ x ∈ w.take k, p x = true) ∧ ∀ x ∈ w.drop k, p x = false := by
  obtain ⟨-, -, h1, h2⟩ := h
  refine ⟨fun x hx => ?_, fun x hx => ?_⟩
  · obtain ⟨i, hi⟩ := List.mem_iff_getElem?.mp hx
    rw [List.getElem?_take] at hi
    split at hi
    · exact h1 i x (by assumption) hi
    · cases hi
  · obtain ⟨i, hi⟩ := List.mem_iff_getElem?.mp hx
    rw [List.getElem?_drop] at hi
    exact h2 (k + i) x (Nat.le_add_right ..) hi

/-! ## Quicksort -/

/-- `insert_tail`, on the sorted part in reverse: `tmp` moves down while it is less. -/
def insertTail (isLess : α → α → Bool) (tmp : α) : List α → List α
  | [] => [tmp]
  | sift :: rest => if isLess tmp sift then sift :: insertTail isLess tmp rest else tmp :: sift :: rest

/-- `insertion_sort` -/
def insertionSort (isLess : α → α → Bool) (v : List α) : List α :=
  (v.foldl (fun sorted x => insertTail isLess x sorted) []).reverse

/-- `v.swap(i, j)` -/
def swapAt (v : List α) (i j : Nat) : List α :=
  match v[i]?, v[j]? with
  | some x, some y => (v.set i y).set j x
  | _, _ => v

/-- `sort2` of `choose_pivot`, on indices. -/
def sort2 (isLess : α → α → Bool) (v : List α) (a b : Nat) : Nat × Nat :=
  match v[a]?, v[b]? with
  | some x, some y => if isLess x y then (b, a) else (a, b)
  | _, _ => (a, b)

/-- `sort3` of `choose_pivot`, on indices. -/
def sort3 (isLess : α → α → Bool) (v : List α) (a b c : Nat) : Nat × Nat × Nat :=
  let (a, b) := sort2 isLess v a b
  let (b, c) := sort2 isLess v b c
  let (a, b) := sort2 isLess v a b
  (a, b, c)

/-- `sort_adjacent` of `choose_pivot`: the median of three neighbours. -/
def sortAdjacent (isLess : α → α → Bool) (v : List α) (a : Nat) : Nat :=
  (sort3 isLess v (a - 1) a (a + 1)).2.1

/-- `choose_pivot` -/
def choosePivot (isLess : α → α → Bool) (v : List α) : Nat :=
  let len := v.length
  let a := len / 4 * 1
  let b := len / 4 * 2
  let c := len / 4 * 3
  if len ≥ 8 then
    let (a, b, c) := if len ≥ 100 then
        (sortAdjacent isLess v a, sortAdjacent isLess v b, sortAdjacent isLess v c)
      else (a, b, c)
    (sort3 isLess v a b c).2.1
  else b

/-- `partition_pivot`: the elements less than the pivot, the pivot, and the others. -/
def partitionPivot (isLess : α → α → Bool) (v : List α) : Option (List α × α × List α) :=
  match swapAt v 0 (choosePivot isLess v) with
  | [] => none
  | pivot :: rest =>
    let (rest, numLt) := partitionBy (fun x => isLess x pivot) rest
    let v := swapAt (pivot :: rest) 0 numLt
    match v.drop numLt with
    | [] => none
    | pivot :: right => some (v.take numLt, pivot, right)

/-- `seq_quicksort`; `n` bounds the depth of the recursion, and the length of the slice is enough. -/
def seqQuicksort (isLess : α → α → Bool) : Nat → List α → List α
  | 0, v => insertionSort isLess v
  | n + 1, v =>
    if 20 < v.length then
      match partitionPivot isLess v with
      | some (left, pivot, right) =>
        seqQuicksort isLess n left ++ pivot :: seqQuicksort isLess n right
      | none => v
    else insertionSort isLess v

/-- `par_recurse`, with the slices up to `maxSeq` sorted sequentially. -/
def parRecurse (isLess : α → α → Bool) (maxSeq : Nat) : Nat → List α → List α
  | 0, v => seqQuicksort isLess v.length v
  | n + 1, v =>
    if maxSeq < v.length then
      match partitionPivot isLess v with
      | some (left, pivot, right) =>
        parRecurse isLess maxSeq n left ++ pivot :: parRecurse isLess maxSeq n right
      | none => v
    else seqQuicksort isLess v.length v

/-- `par_quicksort`; `size` is the size of an element. -/
def parQuicksort (isLess : α → α → Bool) (single : Bool) (size : Nat) (v : List α) : List α :=
  if single then seqQuicksort isLess v.length v
  else parRecurse isLess (max (2 ^ 16 / size) 40) v.length v

section Quicksort

variable {isLess : α → α → Bool} {v : List α} {n : Nat}

theorem insertTail_perm (tmp : α) (l : List α) : (insertTail isLess tmp l).Perm (tmp :: l) := by
  induction l with
  | nil => exact List.Perm.refl _
  | cons s l ih =>
    unfold insertTail
    split
    · exact (ih.cons s).trans (List.Perm.swap tmp s l)
    · exact List.Perm.refl _

theorem insertionSort_perm (v : List α) : (insertionSort isLess v).Perm v := by
  have hfold : ∀ (v acc : List α),
      (v.foldl (fun sorted x => insertTail isLess x sorted) acc).Perm (v ++ acc) := by
    intro v
    induction v with
    | nil => exact fun acc => List.Perm.refl _
    | cons x v ih =>
      intro acc
      rw [List.foldl_cons]
      refine (ih _).trans ((List.Perm.append_left v (insertTail_perm x acc)).trans ?_)
      exact List.perm_middle
  have := (List.reverse_perm _).trans (hfold v [])
  rwa [List.append_nil] at this

theorem swapAt_perm (v : List α) (i j : Nat) : (swapAt v i j).Perm v := by
  unfold swapAt
  split
  · rename_i x y hx hy
    obtain ⟨hi, rfl⟩ := List.getElem?_eq_some_iff.mp hx
    obtain ⟨hj, rfl⟩ := List.getElem?_eq_some_iff.mp hy
    exact swap_perm hi hj
  · exact List.Perm.refl _

/-- The pivot and the two sides. -/
theorem partitionPivot_spec {left right : List α} {pivot : α}
    (h : partitionPivot isLess v = some (left, pivot, right)) :
    (left ++ pivot :: right).Perm v ∧ (∀ x ∈ left, isLess x pivot = true) ∧
      ∀ x ∈ right, isLess x pivot = false := by
  unfold partitionPivot at h
  have hp0 := swapAt_perm v 0 (choosePivot isLess v)
  split at h
  · cases h
  · rename_i piv rest hrest
    rw [hrest] at hp0
    obtain ⟨hperm, hk, hlt, hge⟩ := partitionBy_spec (fun x => isLess x piv) rest
    generalize partitionBy (fun x => isLess x piv) rest = pr at *
    obtain ⟨w, k⟩ := pr
    simp only at h hperm hk hlt hge
    -- the pivot goes to index `k`, and the element there to the front
    obtain ⟨y, hy⟩ : ∃ y, (piv :: w)[k]? = some y :=
      ⟨_, List.getElem?_eq_getElem (by rw [List.length_cons]; omega)⟩
    have hV : swapAt (piv :: w) 0 k = ((piv :: w).set 0 y).set k piv := by
      unfold swapAt
      rw [hy]
      rfl
    have hVk : (swapAt (piv :: w) 0 k)[k]? = some piv := by
      rw [hV]
      exact List.getElem?_set_self (by simp only [List.length_set, List.length_cons]; omega)
    have hVi : ∀ i x, i ≠ k → (swapAt (piv :: w) 0 k)[i]? = some x →
        ∃ j, w[j]? = some x ∧ (i < k → j < k) ∧ (k < i → k ≤ j) := by
      intro i x hik hx
      rw [hV, List.getElem?_set_ne (Ne.symm hik)] at hx
      cases i with
      | zero =>
        rw [List.set_cons_zero, List.getElem?_cons_zero] at hx
        cases hx
        obtain ⟨m, rfl⟩ : ∃ m, k = m + 1 := ⟨k - 1, by omega⟩
        rw [List.getElem?_cons_succ] at hy
        exact ⟨m, hy, fun _ => by omega, fun h => by omega⟩
      | succ i =>
        rw [List.set_cons_zero, List.getElem?_cons_succ] at hx
        exact ⟨i, hx, fun h => by omega, fun h => by omega⟩
    have hpermV := swapAt_perm (piv :: w) 0 k
    generalize swapAt (piv :: w) 0 k = V at *
    split at h
    · cases h
    · rename_i _ _ hdrop
      cases h
      have hsplit : V.take k ++ pivot :: right = V := by
        rw [← hdrop, List.take_append_drop]
      have hpiv : pivot = piv := by
        have h0 : (V.drop k)[0]? = V[k]? := by rw [List.getElem?_drop, Nat.add_zero]
        rw [hdrop, hVk, List.getElem?_cons_zero] at h0
        cases h0; rfl
      subst hpiv
      refine ⟨?_, fun x hx => ?_, fun x hx => ?_⟩
      · rw [hsplit]
        exact hpermV.trans ((hperm.cons pivot).trans hp0)
      · obtain ⟨i, hi⟩ := List.mem_iff_getElem?.mp hx
        rw [List.getElem?_take] at hi
        split at hi
        · rename_i hik
          obtain ⟨j, hj, h1, -⟩ := hVi i x (by omega) hi
          exact hlt j x (h1 hik) hj
        · cases hi
      · obtain ⟨i, hi⟩ := List.mem_iff_getElem?.mp hx
        have hi' : V[k + (i + 1)]? = some x := by
          rw [← List.getElem?_drop, hdrop, List.getElem?_cons_succ]
          exact hi
        obtain ⟨j, hj, -, h2⟩ := hVi (k + (i + 1)) x (by omega) hi'
        exact hge j x (h2 (by omega)) hj

theorem partitionPivot_isSome (h : 0 < v.length) :
    ∃ left pivot right, partitionPivot isLess v = some (left, pivot, right) := by
  unfold partitionPivot
  have hp0 := swapAt_perm v 0 (choosePivot isLess v)
  split
  · rename_i hnil
    rw [hnil] at hp0
    have := hp0.length_eq
    simp only [List.length_nil] at this
    omega
  · rename_i piv rest hrest
    obtain ⟨hperm, hk, -, -⟩ := partitionBy_spec (fun x => isLess x piv) rest
    generalize partitionBy (fun x => isLess x piv) rest = pr at *
    obtain ⟨w, k⟩ := pr
    simp only at hk ⊢
    have hlen := (swapAt_perm (piv :: w) 0 k).length_eq
    split
    · rename_i hdrop
      have := congrArg List.length hdrop
      rw [List.length_drop, hlen, List.length_cons, List.length_nil] at this
      omega
    · exact ⟨_, _, _, rfl⟩

theorem seqQuicksort_perm (n : Nat) (v : List α) : (seqQuicksort isLess n v).Perm v := by
  induction n generalizing v with
  | zero => exact insertionSort_perm v
  | succ n ih =>
    unfold seqQuicksort
    split
    · split
      · rename_i left pivot right h
        refine List.Perm.trans ?_ (partitionPivot_spec h).1
        exact (ih left).append ((ih right).cons pivot)
      · exact List.Perm.refl _
    · exact insertionSort_perm v

theorem parRecurse_perm (maxSeq n : Nat) (v : List α) : (parRecurse isLess maxSeq n v).Perm v := by
  induction n generalizing v with
  | zero => exact seqQuicksort_perm _ v
  | succ n ih =>
    unfold parRecurse
    split
    · split
      · rename_i left pivot right h
        refine List.Perm.trans ?_ (partitionPivot_spec h).1
        exact (ih left).append ((ih right).cons pivot)
      · exact List.Perm.refl _
    · exact seqQuicksort_perm _ v

theorem parQuicksort_perm (single : Bool) (size : Nat) (v : List α) :
    (parQuicksort isLess single size v).Perm v := by
  unfold parQuicksort
  split
  · exact seqQuicksort_perm _ v
  · exact parRecurse_perm _ _ v

/-! ### Sorted -/

/-- `isLess` is a strict weak order: `¬ isLess b a` is a total preorder. -/
structure StrictWeak (isLess : α → α → Bool) : Prop where
  asymm : ∀ a b, isLess a b = true → isLess b a = false
  trans : ∀ a b c, isLess b a = false → isLess c b = false → isLess c a = false

/-- In order for `isLess`. -/
def Sorted (isLess : α → α → Bool) (v : List α) : Prop := v.Pairwise fun a b => isLess b a = false

variable (hw : StrictWeak isLess)

include hw

theorem insertTail_sorted {tmp : α} {l : List α} (h : Sorted isLess l.reverse) :
    Sorted isLess (insertTail isLess tmp l).reverse := by
  unfold Sorted at *
  rw [List.pairwise_reverse] at *
  induction l with
  | nil => exact List.pairwise_singleton _ _
  | cons s l ih =>
    obtain ⟨hs, hl⟩ := List.pairwise_cons.mp h
    unfold insertTail
    split
    · rename_i hlt
      refine List.pairwise_cons.mpr ⟨fun a ha => ?_, ih hl⟩
      rcases List.mem_cons.mp ((insertTail_perm tmp l).mem_iff.mp ha) with rfl | ha
      · exact hw.asymm _ _ hlt
      · exact hs a ha
    · rename_i hlt
      have hlt : isLess tmp s = false := by simpa using hlt
      refine List.pairwise_cons.mpr ⟨fun a ha => ?_, h⟩
      rcases List.mem_cons.mp ha with rfl | ha
      · exact hlt
      · exact hw.trans _ _ _ (hs a ha) hlt

theorem insertionSort_sorted (v : List α) : Sorted isLess (insertionSort isLess v) := by
  have hfold : ∀ (v acc : List α), Sorted isLess acc.reverse →
      Sorted isLess (v.foldl (fun sorted x => insertTail isLess x sorted) acc).reverse := by
    intro v
    induction v with
    | nil => exact fun acc h => h
    | cons x v ih => exact fun acc h => ih _ (insertTail_sorted hw h)
  exact hfold v [] List.Pairwise.nil

/-- Sorted sides around a pivot. -/
theorem sorted_pivot {left right left' right' : List α} {pivot : α}
    (h : (∀ x ∈ left, isLess x pivot = true) ∧ ∀ x ∈ right, isLess x pivot = false)
    (hl : left'.Perm left) (hr : right'.Perm right) (hls : Sorted isLess left')
    (hrs : Sorted isLess right') : Sorted isLess (left' ++ pivot :: right') := by
  refine List.pairwise_append.mpr ⟨hls, List.pairwise_cons.mpr ⟨fun a ha => ?_, hrs⟩, ?_⟩
  · exact h.2 a (hr.mem_iff.mp ha)
  · intro a ha b hb
    have hap := h.1 a (hl.mem_iff.mp ha)
    rcases List.mem_cons.mp hb with rfl | hb
    · exact hw.asymm _ _ hap
    · exact hw.trans _ _ _ (hw.asymm _ _ hap) (h.2 b (hr.mem_iff.mp hb))

theorem seqQuicksort_sorted (n : Nat) (v : List α) : Sorted isLess (seqQuicksort isLess n v) := by
  induction n generalizing v with
  | zero => exact insertionSort_sorted hw v
  | succ n ih =>
    unfold seqQuicksort
    split
    · rename_i hlen
      obtain ⟨left, pivot, right, h⟩ := @partitionPivot_isSome _ isLess v (by omega)
      rw [h]
      exact sorted_pivot hw (partitionPivot_spec h).2 (seqQuicksort_perm n left)
        (seqQuicksort_perm n right) (ih left) (ih right)
    · exact insertionSort_sorted hw v

theorem parRecurse_sorted (maxSeq n : Nat) (v : List α) :
    Sorted isLess (parRecurse isLess maxSeq n v) := by
  induction n generalizing v with
  | zero => exact seqQuicksort_sorted hw _ v
  | succ n ih =>
    unfold parRecurse
    split
    · rename_i hlen
      obtain ⟨left, pivot, right, h⟩ := @partitionPivot_isSome _ isLess v (by omega)
      rw [h]
      exact sorted_pivot hw (partitionPivot_spec h).2 (parRecurse_perm maxSeq n left)
        (parRecurse_perm maxSeq n right) (ih left) (ih right)
    · exact seqQuicksort_sorted hw _ v

theorem parQuicksort_sorted (single : Bool) (size : Nat) (v : List α) :
    Sorted isLess (parQuicksort isLess single size v) := by
  unfold parQuicksort
  split
  · exact seqQuicksort_sorted hw _ v
  · exact parRecurse_sorted hw _ _ v

end Quicksort

end Qblaze
