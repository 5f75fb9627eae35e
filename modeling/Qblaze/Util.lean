import Mathlib.Data.List.Basic
import Mathlib.Order.Lattice
import Mathlib.Order.Nat
import Mathlib.Algebra.Group.Nat.Defs
import Mathlib.Tactic.Common

/-!
# Merging sorted slices in chunks (`src/util.rs`)

The elements of a state vector are merged by a key. `mergeChunkPairs` splits two slices into pairs
of chunks such that every key of a pair is below every key of the next pair; the pairs are then
merged by themselves.

* `mergeBoundaries_spec`: the binary search finds a cut, and none of its assertions fails.
* `mergeChunkPairs_spec`: the pairs make up the two slices, and are separated.
* `mergeChunkPairs_splits`: all that `merge_chunk_pairs` promises, in one place.
* `mergeEq_pairs`, `mergeDistinct_pairs`: merging the pairs is merging the slices, for every number
  of chunks.
-/

namespace Qblaze

variable {α K : Type} [LinearOrder K]

/-! ## The boundary of a chunk -/

/-- What one round of the loop of `merge_boundaries` finds. -/
inductive Boundary where
  | done (n0 n1 : Nat)
  | fewer
  | more

/-- The second comparison of a round, for `n0` elements of `c0` and `n1` elements of `c1`. -/
def compareLast (f : α → K) (c0 c1 : List α) (n0 n1 : Nat) : Option Boundary :=
  if 0 < n1 ∧ n0 < c0.length then
    match c0[n0]?, c1[n1 - 1]? with
    | some a, some b =>
      -- matching keys, so the last item is not taken
      if f a = f b then some (.done n0 (n1 - 1))
      else if f a < f b then some .more
      else some (.done n0 n1)
    | _, _ => none
  else some (.done n0 n1)

/-- The comparisons of one round. -/
def boundaryStep (f : α → K) (c0 c1 : List α) (n0 n1 : Nat) : Option Boundary :=
  if 0 < n0 ∧ n1 < c1.length then
    match c0[n0 - 1]?, c1[n1]? with
    | some a, some b =>
      if f a = f b then some (.done (n0 - 1) n1)
      else if f b < f a then some .fewer
      else compareLast f c0 c1 n0 n1
    | _, _ => none
  else compareLast f c0 c1 n0 n1

/-- The loop of `merge_boundaries`; `none` is a failed assertion. -/
def boundaryLoop (f : α → K) (c0 c1 : List α) (target n0Min n0Max : Nat) : Option (Nat × Nat) :=
  let n0 := (n0Min + n0Max) / 2
  match boundaryStep f c0 c1 n0 (target - n0) with
  | none => none
  | some (.done n0 n1) => some (n0, n1)
  | some .fewer =>
    if 0 < n0 ∧ n0Min ≤ n0 - 1 then boundaryLoop f c0 c1 target n0Min (n0 - 1) else none
  | some .more =>
    if n0 + 1 ≤ n0Max then boundaryLoop f c0 c1 target (n0 + 1) n0Max else none
termination_by n0Max - n0Min
decreasing_by all_goals omega

/-- `merge_boundaries`: how many elements of each slice make up `target` elements. -/
def mergeBoundaries (f : α → K) (c0 c1 : List α) (target : Nat) : Option (Nat × Nat) :=
  boundaryLoop f c0 c1 target (target - c1.length) (min c0.length target)

/-- The keys of `a` are below the keys of `b`. -/
def Before (f : α → K) (a b : List α) : Prop := ∀ x ∈ a, ∀ y ∈ b, f x < f y

/-- Strictly increasing keys. -/
def Increasing (f : α → K) (l : List α) : Prop := l.Pairwise fun a b => f a < f b

/-- `n0` and `n1` elements come before the others. -/
structure Cut (f : α → K) (c0 c1 : List α) (n0 n1 : Nat) : Prop where
  le0 : n0 ≤ c0.length
  le1 : n1 ≤ c1.length
  before : Before f (c0.take n0 ++ c1.take n1) (c0.drop n0 ++ c1.drop n1)

variable {f : α → K} {c0 c1 : List α} {n0 n1 target : Nat}

theorem Increasing.lt {l : List α} (h : Increasing f l) {i j : Nat} {a b : α} (hij : i < j)
    (ha : l[i]? = some a) (hb : l[j]? = some b) : f a < f b := by
  obtain ⟨hi, rfl⟩ := List.getElem?_eq_some_iff.mp ha
  obtain ⟨hj, rfl⟩ := List.getElem?_eq_some_iff.mp hb
  exact List.pairwise_iff_getElem.mp h i j hi hj hij

theorem Increasing.le {l : List α} (h : Increasing f l) {i j : Nat} {a b : α} (hij : i ≤ j)
    (ha : l[i]? = some a) (hb : l[j]? = some b) : f a ≤ f b := by
  rcases Nat.lt_or_eq_of_le hij with hlt | rfl
  · exact (h.lt hlt ha hb).le
  · rw [ha] at hb
    cases hb
    exact le_refl _

theorem mem_take_iff {l : List α} {n : Nat} {a : α} :
    a ∈ l.take n ↔ ∃ i, i < n ∧ l[i]? = some a := by
  rw [List.mem_iff_getElem?]
  constructor
  · rintro ⟨i, hi⟩
    rw [List.getElem?_take] at hi
    split at hi
    · exact ⟨i, by assumption, hi⟩
    · cases hi
  · rintro ⟨i, hi, ha⟩
    exact ⟨i, by rw [List.getElem?_take, if_pos hi, ha]⟩

theorem mem_drop_iff {l : List α} {n : Nat} {a : α} :
    a ∈ l.drop n ↔ ∃ i, n ≤ i ∧ l[i]? = some a := by
  rw [List.mem_iff_getElem?]
  constructor
  · rintro ⟨i, hi⟩
    rw [List.getElem?_drop] at hi
    exact ⟨n + i, Nat.le_add_right .., hi⟩
  · rintro ⟨i, hi, ha⟩
    exact ⟨i - n, by rw [List.getElem?_drop, Nat.add_sub_cancel' hi, ha]⟩

/-- Two comparisons decide a cut: the last key taken of each slice is below the first key left of
the other. -/
theorem cut_of_adjacent (h0 : Increasing f c0) (h1 : Increasing f c1) (hn0 : n0 ≤ c0.length)
    (hn1 : n1 ≤ c1.length)
    (ha : ∀ a b, 0 < n0 → c0[n0 - 1]? = some a → c1[n1]? = some b → f a < f b)
    (hb : ∀ a b, 0 < n1 → c1[n1 - 1]? = some a → c0[n0]? = some b → f a < f b) :
    Cut f c0 c1 n0 n1 := by
  refine ⟨hn0, hn1, fun x hx y hy => ?_⟩
  rcases List.mem_append.mp hx with hx | hx <;> rcases List.mem_append.mp hy with hy | hy <;>
    obtain ⟨i, hi, hx⟩ := mem_take_iff.mp hx <;> obtain ⟨j, hj, hy⟩ := mem_drop_iff.mp hy
  · exact h0.lt (Nat.lt_of_lt_of_le hi hj) hx hy
  · obtain ⟨hlt, -⟩ := List.getElem?_eq_some_iff.mp hy
    have hl : c0[n0 - 1]? = some c0[n0 - 1] := List.getElem?_eq_getElem (by omega)
    have hr : c1[n1]? = some c1[n1] := List.getElem?_eq_getElem (by omega)
    calc f x ≤ f c0[n0 - 1] := h0.le (by omega) hx hl
      _ < f c1[n1] := ha _ _ (by omega) hl hr
      _ ≤ f y := h1.le hj hr hy
  · obtain ⟨hlt, -⟩ := List.getElem?_eq_some_iff.mp hy
    have hl : c1[n1 - 1]? = some c1[n1 - 1] := List.getElem?_eq_getElem (by omega)
    have hr : c0[n0]? = some c0[n0] := List.getElem?_eq_getElem (by omega)
    calc f x ≤ f c1[n1 - 1] := h1.le (by omega) hx hl
      _ < f c0[n0] := hb _ _ (by omega) hl hr
      _ ≤ f y := h0.le hj hr hy
  · exact h1.lt (Nat.lt_of_lt_of_le hi hj) hx hy

/-- What a round may return: it ends only at a cut, and else its comparison tells which way. -/
def RoundOk (f : α → K) (c0 c1 : List α) (n0 n1 : Nat) (r : Option Boundary) : Prop :=
  (∃ m0 m1, r = some (.done m0 m1) ∧ Cut f c0 c1 m0 m1 ∧
    (m0 + m1 = n0 + n1 ∨ m0 + m1 + 1 = n0 + n1)) ∨
  (r = some .fewer ∧ ∃ a b, 0 < n0 ∧ c0[n0 - 1]? = some a ∧ c1[n1]? = some b ∧ f b < f a) ∨
  (r = some .more ∧ ∃ a b, 0 < n1 ∧ c0[n0]? = some a ∧ c1[n1 - 1]? = some b ∧ f a < f b)

theorem compareLast_ok (h0 : Increasing f c0) (h1 : Increasing f c1) (hn0 : n0 ≤ c0.length)
    (hn1 : n1 ≤ c1.length)
    (hfirst : ∀ a b, 0 < n0 → c0[n0 - 1]? = some a → c1[n1]? = some b → f a < f b) :
    RoundOk f c0 c1 n0 n1 (compareLast f c0 c1 n0 n1) := by
  unfold compareLast
  split
  · rename_i hc
    have hl : c0[n0]? = some c0[n0] := List.getElem?_eq_getElem (by omega)
    have hm : c1[n1 - 1]? = some c1[n1 - 1] := List.getElem?_eq_getElem (by omega)
    rw [hl, hm]
    simp only
    split
    · rename_i heq
      -- the pair with equal keys stays together
      refine .inl ⟨_, _, rfl, cut_of_adjacent h0 h1 hn0 (by omega) (fun a b hp ha hb => ?_)
        fun a b hp ha hb => ?_, .inr (by omega)⟩
      · rw [hm] at hb
        cases hb
        rw [← heq]
        exact h0.lt (by omega) ha hl
      · rw [hl] at hb
        cases hb
        rw [heq]
        exact h1.lt (by omega) ha hm
    · rename_i hne
      split
      · rename_i hlt
        exact .inr (.inr ⟨rfl, _, _, hc.1, hl, hm, hlt⟩)
      · rename_i hlt
        refine .inl ⟨_, _, rfl, cut_of_adjacent h0 h1 hn0 hn1 hfirst fun a b hp ha hb => ?_,
          .inl rfl⟩
        rw [hm] at ha
        rw [hl] at hb
        cases ha
        cases hb
        exact lt_of_le_of_ne (not_lt.mp hlt) (Ne.symm hne)
  · rename_i hc
    refine .inl ⟨_, _, rfl, cut_of_adjacent h0 h1 hn0 hn1 hfirst fun a b hp ha hb => ?_, .inl rfl⟩
    obtain ⟨hlt, -⟩ := List.getElem?_eq_some_iff.mp hb
    exact absurd ⟨hp, hlt⟩ hc

theorem boundaryStep_ok (h0 : Increasing f c0) (h1 : Increasing f c1) (hn0 : n0 ≤ c0.length)
    (hn1 : n1 ≤ c1.length) : RoundOk f c0 c1 n0 n1 (boundaryStep f c0 c1 n0 n1) := by
  unfold boundaryStep
  split
  · rename_i hc
    have hl : c0[n0 - 1]? = some c0[n0 - 1] := List.getElem?_eq_getElem (by omega)
    have hm : c1[n1]? = some c1[n1] := List.getElem?_eq_getElem (by omega)
    rw [hl, hm]
    simp only
    split
    · rename_i heq
      refine .inl ⟨_, _, rfl, cut_of_adjacent h0 h1 (by omega) hn1 (fun a b hp ha hb => ?_)
        fun a b hp ha hb => ?_, .inr (by omega)⟩
      · rw [hm] at hb
        cases hb
        rw [← heq]
        exact h0.lt (by omega) ha hl
      · rw [hl] at hb
        cases hb
        rw [heq]
        exact h1.lt (by omega) ha hm
    · rename_i hne
      split
      · rename_i hlt
        exact .inr (.inl ⟨rfl, _, _, hc.1, hl, hm, hlt⟩)
      · rename_i hlt
        refine compareLast_ok h0 h1 hn0 hn1 fun a b hp ha hb => ?_
        rw [hl] at ha
        rw [hm] at hb
        cases ha
        cases hb
        exact lt_of_le_of_ne (not_lt.mp hlt) hne
  · rename_i hc
    refine compareLast_ok h0 h1 hn0 hn1 fun a b hp ha hb => ?_
    obtain ⟨hlt, -⟩ := List.getElem?_eq_some_iff.mp hb
    exact absurd ⟨hp, hlt⟩ hc

/-- The bounds of the loop: each one is the initial bound, or comes from a comparison. -/
structure BoundInv (f : α → K) (c0 c1 : List α) (target n0Min n0Max : Nat) : Prop where
  le : n0Min ≤ n0Max
  lower : target - c1.length ≤ n0Min
  upper : n0Max ≤ c0.length ∧ n0Max ≤ target
  fromMore : n0Min = target - c1.length ∨
    ∃ a b, 0 < n0Min ∧ c0[n0Min - 1]? = some a ∧ c1[target - n0Min]? = some b ∧ f a < f b
  fromFewer : n0Max = min c0.length target ∨
    ∃ a b, 0 < target - n0Max ∧ c0[n0Max]? = some a ∧ c1[target - n0Max - 1]? = some b ∧ f b < f a

theorem boundaryLoop_spec (h0 : Increasing f c0) (h1 : Increasing f c1) {n0Min n0Max : Nat}
    (hi : BoundInv f c0 c1 target n0Min n0Max) :
    ∃ m0 m1, boundaryLoop f c0 c1 target n0Min n0Max = some (m0, m1) ∧ Cut f c0 c1 m0 m1 ∧
      (m0 + m1 = target ∨ m0 + m1 + 1 = target) := by
  induction hn : n0Max - n0Min using Nat.strongRecOn generalizing n0Min n0Max with
  | _ n ih =>
    have hle := hi.le
    have hmin := hi.lower
    have hmax := hi.upper
    rw [boundaryLoop]
    generalize hmid : (n0Min + n0Max) / 2 = n0
    have hstep := @boundaryStep_ok _ _ _ f c0 c1 n0 (target - n0) h0 h1 (by omega) (by omega)
    rcases hstep with ⟨m0, m1, hs, hc, hm⟩ | ⟨hs, a, b, hp, ha, hb, hlt⟩ | ⟨hs, a, b, hp, ha, hb, hlt⟩
    · rw [hs]
      exact ⟨m0, m1, rfl, hc, by omega⟩
    · rw [hs]
      obtain ⟨hlen, -⟩ := List.getElem?_eq_some_iff.mp hb
      -- `n0` is not the lower bound: there the comparison went the other way
      have hgt : n0Min ≤ n0 - 1 := by
        by_contra hcon
        have he : n0Min = n0 := by omega
        rcases hi.fromMore with hm | ⟨a', b', -, ha', hb', hlt'⟩
        · omega
        · rw [he] at ha' hb'
          rw [ha] at ha'
          rw [hb] at hb'
          cases ha'
          cases hb'
          exact lt_asymm hlt hlt'
      simp only [hp, hgt, and_self, if_true]
      refine ih _ (by omega) ⟨hgt, hmin, ⟨by omega, by omega⟩, hi.fromMore,
        .inr ⟨a, b, by omega, ha, ?_, hlt⟩⟩ rfl
      rw [show target - (n0 - 1) - 1 = target - n0 by omega]
      exact hb
    · rw [hs]
      obtain ⟨hlen, -⟩ := List.getElem?_eq_some_iff.mp ha
      have hgt : n0 + 1 ≤ n0Max := by
        by_contra hcon
        have he : n0Max = n0 := by omega
        rcases hi.fromFewer with hm | ⟨a', b', -, ha', hb', hlt'⟩
        · omega
        · rw [he] at ha' hb'
          rw [ha] at ha'
          rw [hb] at hb'
          cases ha'
          cases hb'
          exact lt_asymm hlt hlt'
      simp only [hgt, if_true]
      refine ih _ (by omega) ⟨hgt, by omega, hmax, .inr ⟨a, b, by omega, ha, ?_, hlt⟩,
        hi.fromFewer⟩ rfl
      rw [show target - (n0 + 1) = target - n0 - 1 by omega]
      exact hb

/-- `merge_boundaries` finds a cut of `target` elements, or of one fewer, and none of its assertions
fails. -/
theorem mergeBoundaries_spec (h0 : Increasing f c0) (h1 : Increasing f c1)
    (ht : target ≤ c0.length + c1.length) :
    ∃ m0 m1, mergeBoundaries f c0 c1 target = some (m0, m1) ∧ Cut f c0 c1 m0 m1 ∧
      (m0 + m1 = target ∨ m0 + m1 + 1 = target) := by
  refine boundaryLoop_spec h0 h1 ⟨?_, Nat.le_refl _, ⟨Nat.min_le_left .., Nat.min_le_right ..⟩,
    .inl rfl, .inl rfl⟩
  omega

/-! ## Pairs of chunks -/

/-- The loop of `merge_chunk_pairs` over the numbers `i`, with what is left of the two slices and the
number `at` of elements before them. Products wrap at 64 bits. -/
def pairsLoop (f : α → K) (n count : Nat) :
    List Nat → List α → List α → Nat → Option (List (List α × List α))
  | [], c0, c1, _ => some (if c0.isEmpty && c1.isEmpty then [] else [(c0, c1)])
  | i :: is, c0, c1, done =>
    let target := n * i % 2 ^ 64 / count - done
    if target = 0 then pairsLoop f n count is c0 c1 done
    else do
      let (n0, n1) ← mergeBoundaries f c0 c1 target
      let rest ← pairsLoop f n count is (c0.drop n0) (c1.drop n1) (done + n0 + n1)
      return (c0.take n0, c1.take n1) :: rest

/-- `merge_chunk_pairs` -/
def mergeChunkPairs (f : α → K) (c0 c1 : List α) (count : Nat) :
    Option (List (List α × List α)) :=
  pairsLoop f (c0.length + c1.length) count (List.range' 1 (count - 1)) c0 c1 0

/-- The calls of `merge_boundaries` that the loop of `merge_chunk_pairs` makes: the two slices and the
target of each one. -/
def pairsCalls (f : α → K) (n count : Nat) :
    List Nat → List α → List α → Nat → List (List α × List α × Nat)
  | [], _, _, _ => []
  | i :: is, c0, c1, done =>
    let target := n * i % 2 ^ 64 / count - done
    if target = 0 then pairsCalls f n count is c0 c1 done
    else (c0, c1, target) :: match mergeBoundaries f c0 c1 target with
      | none => []
      | some (n0, n1) =>
        pairsCalls f n count is (c0.drop n0) (c1.drop n1) (done + n0 + n1)

/-- The calls of `merge_boundaries` that `merge_chunk_pairs` makes. -/
def boundaryCalls (f : α → K) (c0 c1 : List α) (count : Nat) : List (List α × List α × Nat) :=
  pairsCalls f (c0.length + c1.length) count (List.range' 1 (count - 1)) c0 c1 0

/-- Every key of a pair is below every key of the pairs after it. -/
def Separated (f : α → K) (ps : List (List α × List α)) : Prop :=
  ps.Pairwise fun p q => Before f (p.1 ++ p.2) (q.1 ++ q.2)

/-- The pairs make up `c0` and `c1`, and are separated. -/
structure Chunked (f : α → K) (c0 c1 : List α) (ps : List (List α × List α)) : Prop where
  left : (ps.map (·.1)).flatten = c0
  right : (ps.map (·.2)).flatten = c1
  separated : Separated f ps

theorem Chunked.cons {m0 m1 : Nat} {ps : List (List α × List α)} (hc : Cut f c0 c1 m0 m1)
    (h : Chunked f (c0.drop m0) (c1.drop m1) ps) :
    Chunked f c0 c1 ((c0.take m0, c1.take m1) :: ps) := by
  refine ⟨?_, ?_, List.pairwise_cons.mpr ⟨fun p hp x hx y hy => hc.before x hx y ?_, h.separated⟩⟩
  · rw [List.map_cons, List.flatten_cons, h.left, List.take_append_drop]
  · rw [List.map_cons, List.flatten_cons, h.right, List.take_append_drop]
  · rw [← h.left, ← h.right, List.mem_append, List.mem_flatten, List.mem_flatten]
    rcases List.mem_append.mp hy with hy | hy
    · exact .inl ⟨p.1, List.mem_map.mpr ⟨p, hp, rfl⟩, hy⟩
    · exact .inr ⟨p.2, List.mem_map.mpr ⟨p, hp, rfl⟩, hy⟩

/-- A call of `merge_boundaries` returns a cut of as many elements as asked for, or of one fewer. -/
def CallOk (f : α → K) (call : List α × List α × Nat) : Prop :=
  ∃ n0 n1, mergeBoundaries f call.1 call.2.1 call.2.2 = some (n0, n1) ∧
    Cut f call.1 call.2.1 n0 n1 ∧ (n0 + n1 = call.2.2 ∨ n0 + n1 + 1 = call.2.2)

/-- A wrapped product is not above the product, so that no target is past the end. -/
theorem target_le {n count done i l : Nat} (hi : i < count) (hn : n = done + l) :
    n * i % 2 ^ 64 / count - done ≤ l := by
  have h1 : n * i % 2 ^ 64 / count ≤ n * i / count := Nat.div_le_div_right (Nat.mod_le _ _)
  have h2 : n * i / count ≤ n := by
    rw [Nat.div_le_iff_le_mul_add_pred (by omega)]
    have : n * i ≤ n * count := Nat.mul_le_mul_left n (Nat.le_of_lt hi)
    rw [Nat.mul_comm count n]
    omega
  omega

theorem pairsLoop_spec {n count done : Nat} {is : List Nat} (his : ∀ i ∈ is, i < count)
    (h0 : Increasing f c0) (h1 : Increasing f c1) (hn : n = done + (c0.length + c1.length)) :
    ∃ ps, pairsLoop f n count is c0 c1 done = some ps ∧ Chunked f c0 c1 ps ∧
      ps.length ≤ is.length + 1 ∧ ∀ call ∈ pairsCalls f n count is c0 c1 done, CallOk f call := by
  induction is generalizing c0 c1 done with
  | nil =>
    rw [pairsLoop, pairsCalls]
    by_cases he : (c0.isEmpty && c1.isEmpty) = true
    · rw [if_pos he]
      rw [Bool.and_eq_true, List.isEmpty_iff, List.isEmpty_iff] at he
      obtain ⟨rfl, rfl⟩ := he
      exact ⟨_, rfl, ⟨rfl, rfl, List.Pairwise.nil⟩, by simp, by simp⟩
    · rw [if_neg he]
      exact ⟨_, rfl, ⟨by simp, by simp, List.pairwise_singleton _ _⟩, by simp, by simp⟩
  | cons i is ih =>
    have htarget := target_le (his i (List.mem_cons_self ..)) hn
    have his' : ∀ i ∈ is, i < count := fun j hj => his j (List.mem_cons_of_mem _ hj)
    rw [pairsLoop, pairsCalls]
    simp only
    split
    · obtain ⟨ps, hps, hch, hlen, hcalls⟩ := ih his' h0 h1 hn
      refine ⟨ps, hps, hch, ?_, hcalls⟩
      rw [List.length_cons]
      omega
    · obtain ⟨m0, m1, hm, hc, hsum⟩ := mergeBoundaries_spec h0 h1 htarget
      have hl0 := hc.le0
      have hl1 := hc.le1
      have hrest : n = done + m0 + m1 + ((c0.drop m0).length + (c1.drop m1).length) := by
        rw [List.length_drop, List.length_drop]
        omega
      obtain ⟨ps, hps, hch, hlen, hcalls⟩ := ih his' (h0.sublist (List.drop_sublist m0 c0))
        (h1.sublist (List.drop_sublist m1 c1)) hrest
      rw [hm]
      refine ⟨_, ?_, hch.cons hc, ?_, fun call hcall => ?_⟩
      · simp only [Option.bind_eq_bind, Option.bind_some, hps]
        rfl
      · rw [List.length_cons, List.length_cons]
        omega
      · rcases List.mem_cons.mp hcall with rfl | hcall
        · exact ⟨m0, m1, hm, hc, hsum⟩
        · exact hcalls call hcall

/-- `merge_chunk_pairs`: for every number of chunks, the pairs make up the slices and are
separated. -/
theorem mergeChunkPairs_spec (h0 : Increasing f c0) (h1 : Increasing f c1) (count : Nat) :
    ∃ ps, mergeChunkPairs f c0 c1 count = some ps ∧ Chunked f c0 c1 ps ∧
      ps.length ≤ count - 1 + 1 ∧ ∀ call ∈ boundaryCalls f c0 c1 count, CallOk f call := by
  have his : ∀ i ∈ List.range' 1 (count - 1), i < count := by
    intro i hi
    obtain ⟨k, hk, rfl⟩ := List.mem_range'.mp hi
    omega
  have h := pairsLoop_spec his h0 h1 (Nat.zero_add _).symm
  rw [List.length_range'] at h
  exact h

/-! ## Merging -/

/-- `merge_distinct`, as the list of what it writes. -/
def mergeDistinct (f : α → K) : List α → List α → List α
  | [], v2 => v2
  | v1, [] => v1
  | h1 :: t1, h2 :: t2 =>
    if f h1 ≤ f h2 then h1 :: mergeDistinct f t1 (h2 :: t2) else h2 :: mergeDistinct f (h1 :: t1) t2

/-- `MergeEq` -/
inductive MergeEq (α : Type) where
  | lhs (a : α)
  | rhs (b : α)
  | both (a b : α)

/-- `merge_eq`, as the list of what it writes. -/
def mergeEq (f : α → K) : List α → List α → List (MergeEq α)
  | [], v2 => v2.map .rhs
  | v1, [] => v1.map .lhs
  | e1 :: v1, e2 :: v2 =>
    if f e1 = f e2 then .both e1 e2 :: mergeEq f v1 v2
    else if f e1 < f e2 then .lhs e1 :: mergeEq f v1 (e2 :: v2)
    else .rhs e2 :: mergeEq f (e1 :: v1) v2

theorem mergeDistinct_nil_left (v : List α) : mergeDistinct f [] v = v := by
  rw [mergeDistinct]

theorem mergeDistinct_nil_right (v : List α) : mergeDistinct f v [] = v := by
  cases v <;> simp [mergeDistinct]

theorem mergeEq_nil_left (v : List α) : mergeEq f [] v = v.map .rhs := by
  rw [mergeEq]

theorem mergeEq_nil_right (v : List α) : mergeEq f v [] = v.map .lhs := by
  cases v <;> simp [mergeEq]

theorem mergeDistinct_left {a b c : List α} (h : Before f a c) :
    mergeDistinct f (a ++ b) c = a ++ mergeDistinct f b c := by
  induction a with
  | nil => rfl
  | cons x a ih =>
    cases c with
    | nil => rw [mergeDistinct_nil_right, mergeDistinct_nil_right]
    | cons z c =>
      have hx : f x ≤ f z := (h x (List.mem_cons_self ..) z (List.mem_cons_self ..)).le
      rw [List.cons_append, mergeDistinct, if_pos hx, List.cons_append,
        ih fun y hy => h y (List.mem_cons_of_mem _ hy)]

theorem mergeDistinct_right {a b c : List α} (h : Before f a c) :
    mergeDistinct f c (a ++ b) = a ++ mergeDistinct f c b := by
  induction a with
  | nil => rfl
  | cons x a ih =>
    cases c with
    | nil => rw [mergeDistinct_nil_left, mergeDistinct_nil_left]
    | cons z c =>
      have hx : ¬ f z ≤ f x := not_le.mpr (h x (List.mem_cons_self ..) z (List.mem_cons_self ..))
      rw [List.cons_append, mergeDistinct, if_neg hx, List.cons_append,
        ih fun y hy => h y (List.mem_cons_of_mem _ hy)]

theorem mergeEq_left {a b c : List α} (h : Before f a c) :
    mergeEq f (a ++ b) c = a.map .lhs ++ mergeEq f b c := by
  induction a with
  | nil => rfl
  | cons x a ih =>
    cases c with
    | nil => rw [mergeEq_nil_right, mergeEq_nil_right, List.map_append]
    | cons z c =>
      have hx : f x < f z := h x (List.mem_cons_self ..) z (List.mem_cons_self ..)
      rw [List.cons_append, mergeEq, if_neg hx.ne, if_pos hx,
        ih fun y hy => h y (List.mem_cons_of_mem _ hy)]
      rfl

theorem mergeEq_right {a b c : List α} (h : Before f a c) :
    mergeEq f c (a ++ b) = a.map .rhs ++ mergeEq f c b := by
  induction a with
  | nil => rfl
  | cons x a ih =>
    cases c with
    | nil => rw [mergeEq_nil_left, mergeEq_nil_left, List.map_append]
    | cons z c =>
      have hx : f x < f z := h x (List.mem_cons_self ..) z (List.mem_cons_self ..)
      rw [List.cons_append, mergeEq, if_neg hx.ne', if_neg hx.not_gt,
        ih fun y hy => h y (List.mem_cons_of_mem _ hy)]
      rfl

theorem Before.of_cons_left {x : α} {a b : List α} (h : Before f (x :: a) b) : Before f a b :=
  fun y hy => h y (List.mem_cons_of_mem _ hy)

theorem Before.mono {a a' b b' : List α} (h : Before f a b) (ha : ∀ x ∈ a', x ∈ a)
    (hb : ∀ y ∈ b', y ∈ b) : Before f a' b' :=
  fun x hx y hy => h x (ha x hx) y (hb y hy)

/-- Merging slices that come one after the other. -/
theorem mergeDistinct_append {a0 a1 b0 b1 : List α} (h : Before f (a0 ++ a1) (b0 ++ b1)) :
    mergeDistinct f (a0 ++ b0) (a1 ++ b1) = mergeDistinct f a0 a1 ++ mergeDistinct f b0 b1 := by
  induction a0, a1 using mergeDistinct.induct f with
  | case1 a1 =>
    rw [mergeDistinct_nil_left]
    exact mergeDistinct_right (h.mono (fun x hx => by simpa using hx) fun y hy => by simp at hy; simp [hy])
  | case2 a0 _ =>
    rw [mergeDistinct_nil_right]
    exact mergeDistinct_left (h.mono (fun x hx => by simpa using hx) fun y hy => by simp at hy; simp [hy])
  | case3 h1 t1 h2 t2 hle ih =>
    rw [List.cons_append, List.cons_append, mergeDistinct, if_pos hle, mergeDistinct, if_pos hle,
      List.cons_append, ← List.cons_append, ih h.of_cons_left]
  | case4 h1 t1 h2 t2 hle ih =>
    rw [List.cons_append, List.cons_append, mergeDistinct, if_neg hle, mergeDistinct, if_neg hle,
      List.cons_append, ← List.cons_append,
      ih (h.mono (fun x hx => by simp at hx ⊢; tauto) fun y hy => hy)]

theorem mergeEq_append {a0 a1 b0 b1 : List α} (h : Before f (a0 ++ a1) (b0 ++ b1)) :
    mergeEq f (a0 ++ b0) (a1 ++ b1) = mergeEq f a0 a1 ++ mergeEq f b0 b1 := by
  induction a0, a1 using mergeEq.induct f with
  | case1 a1 =>
    rw [mergeEq_nil_left]
    exact mergeEq_right (h.mono (fun x hx => by simpa using hx) fun y hy => by simp at hy; simp [hy])
  | case2 a0 _ =>
    rw [mergeEq_nil_right]
    exact mergeEq_left (h.mono (fun x hx => by simpa using hx) fun y hy => by simp at hy; simp [hy])
  | case3 e1 v1 e2 v2 heq ih =>
    rw [List.cons_append, List.cons_append, mergeEq, if_pos heq, mergeEq, if_pos heq,
      List.cons_append, ih (h.mono (fun x hx => by simp at hx ⊢; tauto) fun y hy => hy)]
  | case4 e1 v1 e2 v2 hne hlt ih =>
    rw [List.cons_append, List.cons_append, mergeEq, if_neg hne, if_pos hlt, mergeEq, if_neg hne,
      if_pos hlt, List.cons_append, ← List.cons_append, ih h.of_cons_left]
  | case5 e1 v1 e2 v2 hne hlt ih =>
    rw [List.cons_append, List.cons_append, mergeEq, if_neg hne, if_neg hlt, mergeEq, if_neg hne,
      if_neg hlt, List.cons_append, ← List.cons_append,
      ih (h.mono (fun x hx => by simp at hx ⊢; tauto) fun y hy => hy)]

/-- A function of two slices that splits where the keys do can be computed pair by pair. -/
theorem Chunked.flatten_eq {β : Type} {g : List α → List α → List β} (hnil : g [] [] = [])
    (hg : ∀ {a0 a1 b0 b1}, Before f (a0 ++ a1) (b0 ++ b1) →
      g (a0 ++ b0) (a1 ++ b1) = g a0 a1 ++ g b0 b1)
    {ps : List (List α × List α)} (h : Chunked f c0 c1 ps) :
    (ps.map fun p => g p.1 p.2).flatten = g c0 c1 := by
  induction ps generalizing c0 c1 with
  | nil =>
    rw [← h.left, ← h.right]
    exact hnil.symm
  | cons p ps ih =>
    obtain ⟨hp, hps⟩ := List.pairwise_cons.mp h.separated
    rw [List.map_cons, List.flatten_cons, ih ⟨rfl, rfl, hps⟩, ← h.left, ← h.right, List.map_cons,
      List.map_cons, List.flatten_cons, List.flatten_cons, hg]
    intro x hx y hy
    rcases List.mem_append.mp hy with hy | hy
    · obtain ⟨l, hl, hy⟩ := List.mem_flatten.mp hy
      obtain ⟨r, hr, rfl⟩ := List.mem_map.mp hl
      exact hp r hr x hx y (List.mem_append_left _ hy)
    · obtain ⟨l, hl, hy⟩ := List.mem_flatten.mp hy
      obtain ⟨r, hr, rfl⟩ := List.mem_map.mp hl
      exact hp r hr x hx y (List.mem_append_right _ hy)

theorem mergeDistinct_pairs {ps : List (List α × List α)} (h : Chunked f c0 c1 ps) :
    (ps.map fun p => mergeDistinct f p.1 p.2).flatten = mergeDistinct f c0 c1 :=
  h.flatten_eq (mergeDistinct_nil_left []) mergeDistinct_append

theorem mergeEq_pairs {ps : List (List α × List α)} (h : Chunked f c0 c1 ps) :
    (ps.map fun p => mergeEq f p.1 p.2).flatten = mergeEq f c0 c1 :=
  h.flatten_eq (mergeEq_nil_left []) mergeEq_append

/-- `merge_chunk_pairs` splits two slices safely: every search for a boundary succeeds, the pairs make
up the slices, are at most `count` and are separated, and merging them one by one is merging the
slices. -/
theorem mergeChunkPairs_splits (h0 : Increasing f c0) (h1 : Increasing f c1) {count : Nat}
    (hcount : 1 ≤ count) :
    (∀ s0 s1 target, (s0, s1, target) ∈ boundaryCalls f c0 c1 count →
      ∃ n0 n1, mergeBoundaries f s0 s1 target = some (n0, n1) ∧
        n0 ≤ s0.length ∧ n1 ≤ s1.length ∧ (n0 + n1 = target ∨ n0 + n1 = target - 1)) ∧
    ∃ ps, mergeChunkPairs f c0 c1 count = some ps ∧
      (ps.map (·.1)).flatten = c0 ∧ (ps.map (·.2)).flatten = c1 ∧ ps.length ≤ count ∧
      (ps.Pairwise fun p q => ∀ x ∈ p.1 ++ p.2, ∀ y ∈ q.1 ++ q.2, f x < f y) ∧
      (ps.map fun p => mergeEq f p.1 p.2).flatten = mergeEq f c0 c1 ∧
      (ps.map fun p => mergeDistinct f p.1 p.2).flatten = mergeDistinct f c0 c1 := by
  obtain ⟨ps, hps, hch, hlen, hcalls⟩ := mergeChunkPairs_spec h0 h1 count
  constructor
  · intro s0 s1 target hcall
    obtain ⟨n0, n1, hn, hc, hsum⟩ := hcalls _ hcall
    exact ⟨n0, n1, hn, hc.le0, hc.le1, by simp only at hsum; omega⟩
  · exact ⟨ps, hps, hch.left, hch.right, by omega, hch.separated, mergeEq_pairs hch,
      mergeDistinct_pairs hch⟩

/-- Two slices that share a key, in two chunks. -/
theorem mergeChunkPairs_splits_shared :
    ∃ ps, mergeChunkPairs id [1, 2] [2, 3] 2 = some ps ∧ ps.length ≤ 2 := by
  have h0 : Increasing id [1, 2] := by simp [Increasing]
  have h1 : Increasing id [2, 3] := by simp [Increasing]
  obtain ⟨-, ps, hps, -, -, hlen, -⟩ := mergeChunkPairs_splits h0 h1 (Nat.le_succ 1)
  exact ⟨ps, hps, hlen⟩

/-! ## What merging yields -/

theorem mergeDistinct_perm (v1 v2 : List α) : (mergeDistinct f v1 v2).Perm (v1 ++ v2) := by
  induction v1, v2 using mergeDistinct.induct f with
  | case1 v2 => rw [mergeDistinct_nil_left]; exact List.Perm.refl _
  | case2 v1 _ => rw [mergeDistinct_nil_right, List.append_nil]
  | case3 h1 t1 h2 t2 hle ih =>
    rw [mergeDistinct, if_pos hle]
    exact ih.cons h1
  | case4 h1 t1 h2 t2 hle ih =>
    rw [mergeDistinct, if_neg hle]
    exact (ih.cons h2).trans List.perm_middle.symm

theorem mergeDistinct_sorted {v1 v2 : List α} (h1 : Increasing f v1) (h2 : Increasing f v2) :
    (mergeDistinct f v1 v2).Pairwise fun a b => f a ≤ f b := by
  induction v1, v2 using mergeDistinct.induct f with
  | case1 v2 => rw [mergeDistinct_nil_left]; exact h2.imp fun h => h.le
  | case2 v1 _ => rw [mergeDistinct_nil_right]; exact h1.imp fun h => h.le
  | case3 a t1 b t2 hle ih =>
    rw [mergeDistinct, if_pos hle]
    refine List.pairwise_cons.mpr ⟨fun x hx => ?_, ih h1.of_cons h2⟩
    rcases List.mem_append.mp ((mergeDistinct_perm t1 (b :: t2)).mem_iff.mp hx) with hx | hx
    · exact (List.rel_of_pairwise_cons h1 hx).le
    · rcases List.mem_cons.mp hx with rfl | hx
      · exact hle
      · exact hle.trans (List.rel_of_pairwise_cons h2 hx).le
  | case4 a t1 b t2 hle ih =>
    have hlt : f b < f a := not_le.mp hle
    rw [mergeDistinct, if_neg hle]
    refine List.pairwise_cons.mpr ⟨fun x hx => ?_, ih h1 h2.of_cons⟩
    rcases List.mem_append.mp ((mergeDistinct_perm (a :: t1) t2).mem_iff.mp hx) with hx | hx
    · rcases List.mem_cons.mp hx with rfl | hx
      · exact hlt.le
      · exact (hlt.trans (List.rel_of_pairwise_cons h1 hx)).le
    · exact (List.rel_of_pairwise_cons h2 hx).le

/-- The key of what `merge_eq` writes. -/
def MergeEq.key (f : α → K) : MergeEq α → K
  | lhs a => f a
  | rhs b => f b
  | both a _ => f a

/-- What `merge_eq` writes for two slices. -/
def MergeEq.From (f : α → K) (v1 v2 : List α) : MergeEq α → Prop
  | lhs a => a ∈ v1 ∧ ∀ b ∈ v2, f a ≠ f b
  | rhs b => b ∈ v2 ∧ ∀ a ∈ v1, f a ≠ f b
  | both a b => a ∈ v1 ∧ b ∈ v2 ∧ f a = f b

theorem mem_mergeEq {v1 v2 : List α} (h1 : Increasing f v1) (h2 : Increasing f v2)
    {m : MergeEq α} : m ∈ mergeEq f v1 v2 ↔ m.From f v1 v2 := by
  induction v1, v2 using mergeEq.induct f with
  | case1 v2 =>
    rw [mergeEq_nil_left]
    cases m <;> simp [MergeEq.From]
  | case2 v1 _ =>
    rw [mergeEq_nil_right]
    cases m <;> simp [MergeEq.From]
  | case3 e1 v1 e2 v2 heq ih =>
    have hlt1 : ∀ x ∈ v1, f e1 < f x := fun x hx => List.rel_of_pairwise_cons h1 hx
    have hlt2 : ∀ x ∈ v2, f e2 < f x := fun x hx => List.rel_of_pairwise_cons h2 hx
    rw [mergeEq, if_pos heq, List.mem_cons, ih h1.of_cons h2.of_cons]
    cases m with
    | lhs a =>
      simp only [MergeEq.From, List.mem_cons, reduceCtorEq, false_or, forall_eq_or_imp]
      constructor
      · rintro ⟨ha, hb⟩
        exact ⟨.inr ha, heq ▸ (hlt1 a ha).ne', hb⟩
      · rintro ⟨rfl | ha, hne, hb⟩
        · exact absurd heq hne
        · exact ⟨ha, hb⟩
    | rhs b =>
      simp only [MergeEq.From, List.mem_cons, reduceCtorEq, false_or, forall_eq_or_imp]
      constructor
      · rintro ⟨hb, ha⟩
        exact ⟨.inr hb, heq ▸ (hlt2 b hb).ne, ha⟩
      · rintro ⟨rfl | hb, hne, ha⟩
        · exact absurd heq hne
        · exact ⟨hb, ha⟩
    | both a b =>
      simp only [MergeEq.From, List.mem_cons, MergeEq.both.injEq]
      constructor
      · rintro (⟨rfl, rfl⟩ | ⟨ha, hb, hab⟩)
        · exact ⟨.inl rfl, .inl rfl, heq⟩
        · exact ⟨.inr ha, .inr hb, hab⟩
      · rintro ⟨rfl | ha, rfl | hb, hab⟩
        · exact .inl ⟨rfl, rfl⟩
        · exact absurd (heq.symm.trans hab) (hlt2 b hb).ne
        · exact absurd (heq.trans hab.symm) (hlt1 a ha).ne
        · exact .inr ⟨ha, hb, hab⟩
  | case4 e1 v1 e2 v2 hne hlt ih =>
    have hlt2 : ∀ x ∈ e2 :: v2, f e1 < f x := fun x hx => by
      rcases List.mem_cons.mp hx with rfl | hx
      · exact hlt
      · exact hlt.trans (List.rel_of_pairwise_cons h2 hx)
    rw [mergeEq, if_neg hne, if_pos hlt, List.mem_cons, ih h1.of_cons h2]
    cases m with
    | lhs a =>
      simp only [MergeEq.From, List.mem_cons, MergeEq.lhs.injEq]
      constructor
      · rintro (rfl | ⟨ha, hb⟩)
        · exact ⟨.inl rfl, fun b hb => (hlt2 b (List.mem_cons.mpr hb)).ne⟩
        · exact ⟨.inr ha, hb⟩
      · rintro ⟨rfl | ha, hb⟩
        · exact .inl rfl
        · exact .inr ⟨ha, hb⟩
    | rhs b =>
      simp only [MergeEq.From, List.mem_cons, reduceCtorEq, false_or, forall_eq_or_imp]
      constructor
      · rintro ⟨hb, ha⟩
        exact ⟨hb, (hlt2 b (List.mem_cons.mpr hb)).ne, ha⟩
      · rintro ⟨hb, -, ha⟩
        exact ⟨hb, ha⟩
    | both a b =>
      simp only [MergeEq.From, List.mem_cons, reduceCtorEq, false_or]
      constructor
      · rintro ⟨ha, hb, hab⟩
        exact ⟨.inr ha, hb, hab⟩
      · rintro ⟨rfl | ha, hb, hab⟩
        · exact absurd hab (hlt2 b (List.mem_cons.mpr hb)).ne
        · exact ⟨ha, hb, hab⟩
  | case5 e1 v1 e2 v2 hne hlt ih =>
    have hgt : f e2 < f e1 := lt_of_le_of_ne (not_lt.mp hlt) (Ne.symm hne)
    have hlt1 : ∀ x ∈ e1 :: v1, f e2 < f x := fun x hx => by
      rcases List.mem_cons.mp hx with rfl | hx
      · exact hgt
      · exact hgt.trans (List.rel_of_pairwise_cons h1 hx)
    rw [mergeEq, if_neg hne, if_neg hlt, List.mem_cons, ih h1 h2.of_cons]
    cases m with
    | lhs a =>
      simp only [MergeEq.From, List.mem_cons, reduceCtorEq, false_or, forall_eq_or_imp]
      constructor
      · rintro ⟨ha, hb⟩
        exact ⟨ha, (hlt1 a (List.mem_cons.mpr ha)).ne', hb⟩
      · rintro ⟨ha, -, hb⟩
        exact ⟨ha, hb⟩
    | rhs b =>
      simp only [MergeEq.From, List.mem_cons, MergeEq.rhs.injEq]
      constructor
      · rintro (rfl | ⟨hb, ha⟩)
        · exact ⟨.inl rfl, fun a ha => (hlt1 a (List.mem_cons.mpr ha)).ne'⟩
        · exact ⟨.inr hb, ha⟩
      · rintro ⟨rfl | hb, ha⟩
        · exact .inl rfl
        · exact .inr ⟨hb, ha⟩
    | both a b =>
      simp only [MergeEq.From, List.mem_cons, reduceCtorEq, false_or]
      constructor
      · rintro ⟨ha, hb, hab⟩
        exact ⟨ha, .inr hb, hab⟩
      · rintro ⟨ha, rfl | hb, hab⟩
        · exact absurd hab (hlt1 a (List.mem_cons.mpr ha)).ne'
        · exact ⟨ha, hb, hab⟩

theorem mergeEq_sorted {v1 v2 : List α} (h1 : Increasing f v1) (h2 : Increasing f v2) :
    (mergeEq f v1 v2).Pairwise fun m m' => m.key f < m'.key f := by
  induction v1, v2 using mergeEq.induct f with
  | case1 v2 => rw [mergeEq_nil_left]; exact List.pairwise_map.mpr h2
  | case2 v1 _ => rw [mergeEq_nil_right]; exact List.pairwise_map.mpr h1
  | case3 e1 v1 e2 v2 heq ih =>
    rw [mergeEq, if_pos heq]
    refine List.pairwise_cons.mpr ⟨fun m hm => ?_, ih h1.of_cons h2.of_cons⟩
    rw [mem_mergeEq h1.of_cons h2.of_cons] at hm
    cases m with
    | lhs a => exact List.rel_of_pairwise_cons h1 hm.1
    | rhs b => exact heq.trans_lt (List.rel_of_pairwise_cons h2 hm.1)
    | both a b => exact List.rel_of_pairwise_cons h1 hm.1
  | case4 e1 v1 e2 v2 hne hlt ih =>
    rw [mergeEq, if_neg hne, if_pos hlt]
    refine List.pairwise_cons.mpr ⟨fun m hm => ?_, ih h1.of_cons h2⟩
    rw [mem_mergeEq h1.of_cons h2] at hm
    cases m with
    | lhs a => exact List.rel_of_pairwise_cons h1 hm.1
    | rhs b =>
      rcases List.mem_cons.mp hm.1 with rfl | hb
      · exact hlt
      · exact hlt.trans (List.rel_of_pairwise_cons h2 hb)
    | both a b => exact List.rel_of_pairwise_cons h1 hm.1
  | case5 e1 v1 e2 v2 hne hlt ih =>
    have hgt : f e2 < f e1 := lt_of_le_of_ne (not_lt.mp hlt) (Ne.symm hne)
    have hlt1 : ∀ x ∈ e1 :: v1, f e2 < f x := fun x hx => by
      rcases List.mem_cons.mp hx with rfl | hx
      · exact hgt
      · exact hgt.trans (List.rel_of_pairwise_cons h1 hx)
    rw [mergeEq, if_neg hne, if_neg hlt]
    refine List.pairwise_cons.mpr ⟨fun m hm => ?_, ih h1 h2.of_cons⟩
    rw [mem_mergeEq h1 h2.of_cons] at hm
    cases m with
    | lhs a => exact hlt1 a hm.1
    | rhs b => exact List.rel_of_pairwise_cons h2 hm.1
    | both a b => exact hlt1 a hm.1

end Qblaze
