import Mathlib.Data.Finset.Card
import Qblaze.QubitSet

/-!
# The storage of sets of qubits (`src/qubit_set.rs`)

`QubitSet` of `Qblaze.QubitSet` is a list of words. The source stores one word in place and more of
them in a box, and its iterator keeps a word index and what is left of that word. `QubitSetData` and
`QubitSetIter` are the source's, and they are compared with finite sets of qubits.

- **Words** (`Stores`): the words of a set have the bits of its members and no others; every
  operation keeps this, whatever the number of words.
- **The iterator** (`calls_left`, `left_iter`): its calls give the members in increasing order, then `None`.
- **Refinement** (`toSet_ops`): the operations are those of `QubitSet`.
- **Runs** (`sets_refine`): a run of operations on any number of sets does what it does to the finite
  sets, and `remove` returns what it should.
-/

namespace Qblaze

open Lib QubitSet

/-- `QubitSetData`, of which the source keeps the number of words in `n_words`. -/
inductive QubitSetData where
  | single (w : BitVec 64)
  | multi (words : List (BitVec 64)) (h : 2 ≤ words.length)

namespace QubitSetData

variable {d : QubitSetData} {q : Qubit} {R : Finset Qubit}

def new : QubitSetData := single 0#64

def words : QubitSetData → List (BitVec 64)
  | single w => [w]
  | multi words _ => words

/-- Change one word in place. -/
def modify (d : QubitSetData) (i : Nat) (f : BitVec 64 → BitVec 64) : QubitSetData :=
  match d with
  | single w => if i = 0 then single (f w) else single w
  | multi words h => multi (words.modify i f) (by rw [List.length_modify]; exact h)

/-- `QubitSet::grow`; `none` is the failed assertion. -/
def grow (d : QubitSetData) (newN : Nat) : Option QubitSetData :=
  if h : 2 ≤ newN then
    match d with
    | single v => some (multi (v :: List.replicate (newN - 1) 0#64) (by simp; omega))
    | multi words _ =>
      -- `Vec::resize`
      some (multi (words.take newN ++ List.replicate (newN - words.length) 0#64) (by simp; omega))
  else none

def len (d : QubitSetData) : Nat := (d.words.map Word.countOnes).sum

def contains (d : QubitSetData) (q : Qubit) : Bool := bitAt d.words q.val

/-- `QubitSet::remove`, with the bit that it returns. -/
def remove (d : QubitSetData) (q : Qubit) : Bool × QubitSetData :=
  match d.words[q.val / 64]? with
  | none => (false, d)
  | some v => (decide (v &&& 1#64 <<< (q.val % 64) ≠ 0#64),
      d.modify (q.val / 64) fun v => v &&& ~~~(1#64 <<< (q.val % 64)))

def clear : QubitSetData → QubitSetData
  | single _ => single 0#64
  | multi words h => multi (words.map fun _ => 0#64) (by simpa using h)

/-- `QubitSet::insert`; `none` is a panic. -/
def insert (d : QubitSetData) (q : Qubit) : Option QubitSetData :=
  let i := q.val / 64
  (if d.words.length ≤ i then d.grow (i + 1) else some d).bind fun d =>
    if i < d.words.length then some (d.modify i fun v => v ||| 1#64 <<< (q.val % 64)) else none

def extend (d : QubitSetData) (qs : List Qubit) : Option QubitSetData := qs.foldlM insert d

/-- One round of the loop of `intersection`; `none` is an index out of bounds. -/
def intersectWord (d e r : QubitSetData) (i : Nat) : Option QubitSetData := do
  let v ← d.words[i]?
  let w ← e.words[i]?
  if i < r.words.length then return r.modify i fun _ => v &&& w else none

/-- `QubitSet::intersection` -/
def intersection (d e : QubitSetData) : Option QubitSetData :=
  let n := min d.words.length e.words.length
  (if new.words.length < n then new.grow n else some new).bind fun r =>
    (List.range n).foldlM (intersectWord d e) r

end QubitSetData

/-! ## The iterator -/

/-- `QubitSetIter`: the words, the index of the current one, and what is left of it. -/
structure QubitSetIter where
  words : List (BitVec 64)
  i : Nat
  v : BitVec 64

namespace QubitSetIter

/-- The loop of `next`: the index of the last word that was read, and the word if it is not zero. -/
def skip (words : List (BitVec 64)) (i : Nat) (v : BitVec 64) : Nat × Option (BitVec 64) :=
  if v = 0#64 then
    match _h : words[i + 1]? with
    | none => (i, none)
    | some v => skip words (i + 1) v
  else (i, some v)
termination_by words.length - i
decreasing_by
  have := (List.getElem?_eq_some_iff.mp _h).1
  omega

/-- `QubitSetIter::next`; the outer `none` is the panic of `Qubit::from_index`. -/
def next (it : QubitSetIter) : Option (Option Qubit × QubitSetIter) :=
  match skip it.words it.i it.v with
  | (i, none) => some (none, { it with i := i })
  | (i, some v) => do
    let q ← Qubit.tryFromIndex (i <<< 6 ||| Word.trailingZeros v)
    return (some q, { it with i := i, v := v &&& (v - 1#64) })

/-- The results of the next `n` calls. -/
def calls : Nat → QubitSetIter → Option (List (Option Qubit))
  | 0, _ => some []
  | n + 1, it => do
    let (q, it) ← it.next
    let l ← it.calls n
    return q :: l

/-- The bits that are still to come. -/
def left (it : QubitSetIter) : List Nat := members it.i (it.v :: it.words.drop (it.i + 1))

theorem skip_members (words : List (BitVec 64)) (i : Nat) (v : BitVec 64) :
    match skip words i v with
    | (i', none) => v = 0#64 ∧ members i (v :: words.drop (i + 1)) = [] ∧ words.length ≤ i' + 1
    | (i', some v') => v' ≠ 0#64 ∧
        members i (v :: words.drop (i + 1)) = members i' (v' :: words.drop (i' + 1)) := by
  fun_induction skip words i v with
  | case1 i h =>
    have hlen := List.getElem?_eq_none_iff.mp h
    simp [List.drop_of_length_le hlen, members, Word.bits_zero, hlen]
  | case2 i v h ih =>
    obtain ⟨hlt, he⟩ := List.getElem?_eq_some_iff.mp h
    have hm : members i (0#64 :: words.drop (i + 1)) = members (i + 1) (v :: words.drop (i + 1 + 1)) := by
      rw [members, Word.bits_zero, List.map_nil, List.nil_append, List.drop_eq_getElem_cons hlt, he]
    rw [hm]
    split
    · rename_i h'
      rw [h'] at ih
      exact ⟨rfl, ih.2⟩
    · rename_i h'
      rw [h'] at ih
      exact ih
  | case3 i v h => exact ⟨h, rfl⟩

/-- A call gives the first of the bits that are left, or `None` if there is none. -/
theorem next_left (it : QubitSetIter) (hb : ∀ k ∈ it.left, k < 62 * 64) :
    (it.left = [] ∧ ∃ it', it.next = some (none, it') ∧ it'.left = []) ∨
    ∃ (q : Qubit) (it' : QubitSetIter), it.left = q.val :: it'.left ∧ it.next = some (some q, it') := by
  have h := skip_members it.words it.i it.v
  cases hs : skip it.words it.i it.v with
  | mk i o =>
    rw [hs] at h
    cases o with
    | none =>
      obtain ⟨hv, hm, hlen⟩ := h
      refine .inl ⟨hm, { it with i := i }, by simp [next, hs], ?_⟩
      simp [left, hv, members, Word.bits_zero, List.drop_of_length_le hlen]
    | some v =>
      obtain ⟨hv, hm⟩ := h
      have hlt : Word.trailingZeros v < 64 := BitVec.lt_of_getLsbD (Word.trailingZeros_spec hv).1
      have hleft : it.left = (64 * i + Word.trailingZeros v) ::
          left { it with i := i, v := v &&& (v - 1#64) } := by
        rw [left, hm, left, members, members, Word.bits_eq_cons hv, List.map_cons, List.cons_append]
      have hq : 64 * i + Word.trailingZeros v < 62 * 64 :=
        hb _ (by rw [hleft]; exact List.mem_cons_self ..)
      refine .inr ⟨⟨_, hq⟩, _, hleft, ?_⟩
      have hi : Qubit.tryFromIndex (64 * i + Word.trailingZeros v) = some ⟨_, hq⟩ := dif_pos hq
      simp [next, hs, shift_or hlt, hi]

/-- The calls give what is left, then `None` for ever. -/
theorem calls_left (n : Nat) (it : QubitSetIter) (l : List Qubit) (h : it.left = l.map Fin.val) :
    it.calls n = some ((List.range n).map (l[·]?)) := by
  induction n generalizing it l with
  | zero => rfl
  | succ n ih =>
    have hb : ∀ k ∈ it.left, k < 62 * 64 := by
      rw [h]
      intro k hk
      obtain ⟨q, -, rfl⟩ := List.mem_map.mp hk
      exact q.isLt
    rcases next_left it hb with ⟨h0, it', hn, h'⟩ | ⟨q, it', hl, hn⟩
    · have hnil : l = [] := by
        rw [h0] at h
        exact List.map_eq_nil_iff.mp h.symm
      subst hnil
      simp [calls, hn, ih it' [] h', List.range_succ_eq_map, Function.comp_def]
    · cases l with
      | nil =>
        rw [hl] at h
        cases h
      | cons q' l =>
        rw [hl, List.map_cons, List.cons.injEq] at h
        obtain ⟨hq, ht⟩ := h
        rw [← Fin.ext hq]
        simp [calls, hn, ih it' l ht, List.range_succ_eq_map, Function.comp_def]

end QubitSetIter

namespace QubitSetData

variable {d e : QubitSetData} {q : Qubit} {R S : Finset Qubit}

theorem words_ne_nil (d : QubitSetData) : d.words ≠ [] := by
  cases d with
  | single w => exact List.cons_ne_nil _ _
  | multi words h =>
    intro hn
    rw [show words = [] from hn] at h
    exact absurd h (by decide)

/-- `QubitSet::iter` -/
def iter (d : QubitSetData) : QubitSetIter := ⟨d.words, 0, d.words.head d.words_ne_nil⟩

theorem left_iter (d : QubitSetData) : d.iter.left = members 0 d.words := by
  show members 0 (d.words.head _ :: d.words.drop 1) = _
  rw [List.drop_one, List.cons_head_tail]

/-! ## Words -/

theorem words_modify (d : QubitSetData) (i : Nat) (f : BitVec 64 → BitVec 64) :
    (d.modify i f).words = d.words.modify i f := by
  cases d with
  | single w =>
    cases i with
    | zero => rfl
    | succ i => simp [modify, words]
  | multi words h => rfl

/-- Growing appends empty words. -/
theorem grow_spec {n : Nat} (h : d.words.length < n) :
    ∃ e, d.grow n = some e ∧ e.words = growTo d.words n := by
  cases d with
  | single w =>
    have h2 : 2 ≤ n := h
    exact ⟨_, by rw [grow, dif_pos h2], rfl⟩
  | multi words hw =>
    have h2 : 2 ≤ n := Nat.le_trans hw (Nat.le_of_lt h)
    refine ⟨_, by rw [grow, dif_pos h2], ?_⟩
    have ht : words.take n = words := List.take_of_length_le (Nat.le_of_lt h)
    show words.take n ++ _ = _
    rw [ht]
    rfl

/-- `insert` first grows the set if it has to, and does not panic. -/
theorem insert_spec (d : QubitSetData) (q : Qubit) : ∃ e, d.insert q = some e ∧
    e.words = (growTo d.words (q.val / 64 + 1)).modify (q.val / 64)
      fun v => v ||| 1#64 <<< (q.val % 64) := by
  by_cases h : d.words.length ≤ q.val / 64
  · obtain ⟨e, hg, he⟩ := grow_spec (Nat.lt_succ_of_le h)
    have hlen : q.val / 64 < e.words.length := by
      rw [he, length_growTo]
      omega
    refine ⟨_, by simp only [insert, h, if_true, hg, Option.bind_some, hlen]; rfl, ?_⟩
    rw [words_modify, he]
  · have hlen : q.val / 64 < d.words.length := Nat.lt_of_not_le h
    have hg : growTo d.words (q.val / 64 + 1) = d.words := by
      rw [growTo, Nat.sub_eq_zero_of_le hlen, List.replicate_zero, List.append_nil]
    refine ⟨_, by simp only [insert, h, if_false, Option.bind_some, hlen, if_true]; rfl, ?_⟩
    rw [words_modify, hg]

/-- The loop of `intersection`, after `j` words. -/
theorem intersection_loop {r : QubitSetData} {n : Nat} (hr : r.words.length = n)
    (hn : n = min d.words.length e.words.length) (j : Nat) (hj : j ≤ n) :
    ∃ r', (List.range j).foldlM (intersectWord d e) r = some r' ∧
      r'.words.length = n ∧
      ∀ i, i < j → r'.words[i]? = (List.zipWith (· &&& ·) d.words e.words)[i]? := by
  induction j with
  | zero => exact ⟨r, rfl, hr, fun i hi => absurd hi (Nat.not_lt_zero i)⟩
  | succ j ih =>
    obtain ⟨r', hf, hlen, hw⟩ := ih (Nat.le_of_succ_le hj)
    have hd : j < d.words.length := by omega
    have he : j < e.words.length := by omega
    refine ⟨r'.modify j fun _ => d.words[j] &&& e.words[j], ?_, ?_, fun i hi => ?_⟩
    · rw [List.range_succ, List.foldlM_append, hf]
      have hlt : j < n := hj
      simp [intersectWord, List.getElem?_eq_getElem hd, List.getElem?_eq_getElem he, hlen, hlt]
    · rw [words_modify, List.length_modify]
      exact hlen
    · rw [words_modify, List.getElem?_modify]
      by_cases hij : j = i
      · subst hij
        have hlt : j < r'.words.length := by omega
        rw [List.getElem?_zipWith, List.getElem?_eq_getElem hd, List.getElem?_eq_getElem he,
          List.getElem?_eq_getElem hlt]
        simp
      · simp only [hij, if_false]
        rw [hw i (by omega)]
        simp

theorem intersection_spec (d e : QubitSetData) : ∃ r, d.intersection e = some r ∧
    r.words = List.zipWith (· &&& ·) d.words e.words := by
  have hd := List.length_pos_of_ne_nil d.words_ne_nil
  have he := List.length_pos_of_ne_nil e.words_ne_nil
  obtain ⟨r, hr, hlen⟩ : ∃ r, (if new.words.length < min d.words.length e.words.length then
      new.grow (min d.words.length e.words.length) else some new) = some r ∧
      r.words.length = min d.words.length e.words.length := by
    have hone : new.words.length = 1 := rfl
    by_cases h : new.words.length < min d.words.length e.words.length
    · obtain ⟨r, hg, hw⟩ := grow_spec h
      refine ⟨r, by rw [if_pos h, hg], ?_⟩
      rw [hw, length_growTo]
      omega
    · exact ⟨new, if_neg h, by omega⟩
  obtain ⟨r', hf, hlen', hw⟩ := intersection_loop hlen rfl _ (Nat.le_refl _)
  refine ⟨r', by simp only [intersection, hr, Option.bind_some]; exact hf, ?_⟩
  refine List.ext_getElem? fun i => ?_
  by_cases hi : i < min d.words.length e.words.length
  · exact hw i hi
  · rw [List.getElem?_eq_none (by omega), List.getElem?_eq_none (by rw [List.length_zipWith]; omega)]

theorem words_remove (d : QubitSetData) (q : Qubit) : (d.remove q).2.words =
    d.words.modify (q.val / 64) fun v => v &&& ~~~(1#64 <<< (q.val % 64)) := by
  unfold remove
  split
  · rename_i hn
    exact (List.modify_eq_self (List.getElem?_eq_none_iff.mp hn)).symm
  · exact words_modify ..

theorem remove_fst (d : QubitSetData) (q : Qubit) : (d.remove q).1 = d.contains q := by
  unfold remove contains bitAt
  split <;> simp_all

theorem words_clear (d : QubitSetData) : d.clear.words = d.words.map fun _ => 0#64 := by
  cases d <;> rfl

/-! ## The operations of `QubitSet` -/

/-- A stored set as the list of its words. -/
def toSet (d : QubitSetData) (h : d.words.length ≤ 62) : QubitSet :=
  ⟨d.words, List.length_pos_of_ne_nil d.words_ne_nil, h⟩

/-- On sets of up to 62 words each operation is the operation of `QubitSet`, and the set keeps to
that size. -/
theorem toSet_ops (hd : d.words.length ≤ 62) (he : e.words.length ≤ 62) (q : Qubit) :
    (∃ r hr, d.insert q = some r ∧ r.toSet hr = (d.toSet hd).insert q) ∧
    (∃ r hr, d.remove q = (((d.toSet hd).remove q).1, r) ∧ r.toSet hr = ((d.toSet hd).remove q).2) ∧
    (∃ hr, d.clear.toSet hr = (d.toSet hd).clear) ∧
    ∃ r hr, d.intersection e = some r ∧ r.toSet hr = (d.toSet hd).intersection (e.toSet he) := by
  have hset : ∀ (r : QubitSetData) (s : QubitSet), r.words = s.words → ∃ hr, r.toSet hr = s := by
    intro r s hw
    refine ⟨hw ▸ s.le, ?_⟩
    cases s
    cases hw
    rfl
  refine ⟨?_, ?_, hset _ _ (words_clear d), ?_⟩
  · obtain ⟨r, hi, hw⟩ := insert_spec d q
    obtain ⟨hr, h⟩ := hset r ((d.toSet hd).insert q) hw
    exact ⟨r, hr, hi, h⟩
  · obtain ⟨hr, h⟩ := hset (d.remove q).2 ((d.toSet hd).remove q).2 (words_remove d q)
    exact ⟨_, hr, Prod.ext (remove_fst d q) rfl, h⟩
  · obtain ⟨r, hi, hw⟩ := intersection_spec d e
    obtain ⟨hr, h⟩ := hset r ((d.toSet hd).intersection (e.toSet he)) hw
    exact ⟨r, hr, hi, h⟩

/-! ## Finite sets -/

/-- The bits of the words are those of the members of `R`. -/
def Stores (d : QubitSetData) (R : Finset Qubit) : Prop :=
  ∀ k, bitAt d.words k = true ↔ ∃ q ∈ R, q.val = k

theorem Stores.contains (h : d.Stores R) (q : Qubit) : d.contains q = decide (q ∈ R) := by
  rw [Bool.eq_iff_iff, decide_eq_true_iff, QubitSetData.contains, h q.val]
  exact ⟨fun ⟨r, hr, he⟩ => Fin.ext he ▸ hr, fun hq => ⟨q, hq, rfl⟩⟩

theorem stores_new : new.Stores ∅ := by
  intro k
  have hk : bitAt new.words k = false := by
    rw [bitAt_eq, show new.words = [0#64] from rfl, List.getElem?_singleton]
    split <;> simp
  simp [hk]

theorem Stores.insert (h : d.Stores R) (q : Qubit) :
    ∃ e, d.insert q = some e ∧ e.Stores (Insert.insert q R) := by
  obtain ⟨e, he, hw⟩ := insert_spec d q
  refine ⟨e, he, fun k => ?_⟩
  rw [hw, bitAt_setBit (by rw [length_growTo]; omega), bitAt_growTo, Bool.or_eq_true,
    decide_eq_true_iff, h k]
  constructor
  · rintro (⟨r, hr, rfl⟩ | rfl)
    · exact ⟨r, Finset.mem_insert_of_mem hr, rfl⟩
    · exact ⟨q, Finset.mem_insert_self q R, rfl⟩
  · rintro ⟨r, hr, rfl⟩
    rcases Finset.mem_insert.mp hr with rfl | hr
    · exact .inr rfl
    · exact .inl ⟨r, hr, rfl⟩

theorem Stores.extend (h : d.Stores R) (qs : List Qubit) :
    ∃ e, d.extend qs = some e ∧ e.Stores (R ∪ qs.toFinset) := by
  unfold QubitSetData.extend
  induction qs generalizing d R with
  | nil => exact ⟨d, rfl, by simpa using h⟩
  | cons q qs ih =>
    obtain ⟨e, he, hs⟩ := h.insert q
    obtain ⟨e', he', hs'⟩ := ih hs
    refine ⟨e', by rw [List.foldlM_cons, he]; exact he', ?_⟩
    rwa [List.toFinset_cons, Finset.union_insert, ← Finset.insert_union]

theorem Stores.remove (h : d.Stores R) (q : Qubit) :
    (d.remove q).1 = decide (q ∈ R) ∧ (d.remove q).2.Stores (R.erase q) := by
  refine ⟨(remove_fst d q).trans (h.contains q), fun k => ?_⟩
  rw [words_remove, bitAt_clearBit, Bool.and_eq_true, decide_eq_true_iff, h k]
  constructor
  · rintro ⟨⟨r, hr, rfl⟩, hne⟩
    exact ⟨r, Finset.mem_erase.mpr ⟨fun e => hne (e ▸ rfl), hr⟩, rfl⟩
  · rintro ⟨r, hr, rfl⟩
    obtain ⟨hne, hr⟩ := Finset.mem_erase.mp hr
    exact ⟨⟨r, hr, rfl⟩, fun e => hne (Fin.ext e)⟩

theorem stores_clear (d : QubitSetData) : d.clear.Stores ∅ := by
  intro k
  have hk : bitAt d.clear.words k = false := by
    rw [bitAt_eq, words_clear, List.getElem?_map]
    cases d.words[k / 64]? <;> simp
  simp [hk]

theorem Stores.grow (h : d.Stores R) {n : Nat} (hn : d.words.length < n) :
    ∃ e, d.grow n = some e ∧ e.Stores R := by
  obtain ⟨e, he, hw⟩ := grow_spec hn
  refine ⟨e, he, fun k => ?_⟩
  rw [hw, bitAt_growTo, h k]

theorem Stores.intersection (hd : d.Stores R) (he : e.Stores S) :
    ∃ r, d.intersection e = some r ∧ r.Stores (R ∩ S) := by
  obtain ⟨r, hr, hw⟩ := intersection_spec d e
  refine ⟨r, hr, fun k => ?_⟩
  rw [hw, bitAt_zipWith, Bool.and_eq_true, hd k, he k]
  constructor
  · rintro ⟨⟨q, hq, rfl⟩, q', hq', hv⟩
    exact ⟨q, Finset.mem_inter.mpr ⟨hq, Fin.ext hv ▸ hq'⟩, rfl⟩
  · rintro ⟨q, hq, rfl⟩
    obtain ⟨h1, h2⟩ := Finset.mem_inter.mp hq
    exact ⟨⟨q, h1, rfl⟩, q, h2, rfl⟩

/-- The bits of the words, as qubits: the members in increasing order. -/
theorem Stores.members (h : d.Stores R) : ∃ l : List Qubit, QubitSet.members 0 d.words = l.map Fin.val ∧
    l.Pairwise (· < ·) ∧ ∀ q, q ∈ l ↔ q ∈ R := by
  have hb : ∀ k ∈ QubitSet.members 0 d.words, ∃ q : Qubit, q.val = k := by
    intro k hk
    obtain ⟨q, -, rfl⟩ := (h k).mp (by simpa using (mem_members.mp hk).2)
    exact ⟨q, rfl⟩
  obtain ⟨l, hl⟩ : ∃ l : List Qubit, QubitSet.members 0 d.words = l.map Fin.val := by
    generalize QubitSet.members 0 d.words = m at hb
    induction m with
    | nil => exact ⟨[], rfl⟩
    | cons k m ih =>
      obtain ⟨q, rfl⟩ := hb k (List.mem_cons_self ..)
      obtain ⟨l, rfl⟩ := ih fun k hk => hb k (List.mem_cons_of_mem _ hk)
      exact ⟨q :: l, rfl⟩
  refine ⟨l, hl, ?_, fun q => ?_⟩
  · have hs := members_sorted 0 d.words
    rw [hl, List.pairwise_map] at hs
    exact hs.imp fun h => Fin.lt_def.mpr h
  · have hq : q ∈ l ↔ q.val ∈ QubitSet.members 0 d.words := by
      rw [hl, List.mem_map]
      exact ⟨fun hq => ⟨q, hq, rfl⟩, fun ⟨r, hr, he⟩ => Fin.ext he ▸ hr⟩
    have hk := h.contains q
    rw [hq, mem_members, Nat.mul_zero, Nat.sub_zero]
    simp only [Nat.zero_le, true_and]
    rw [show bitAt d.words q.val = d.contains q from rfl, hk, decide_eq_true_iff]

/-- `len` is the number of members. -/
theorem Stores.len (h : d.Stores R) : d.len = R.card := by
  obtain ⟨l, hl, hs, hm⟩ := h.members
  have hR : R = l.toFinset := by
    ext q
    rw [List.mem_toFinset, hm]
  rw [hR, List.toFinset_card_of_nodup (hs.imp fun h => h.ne), QubitSetData.len, ← length_members 0, hl,
    List.length_map]

/-- The iterator yields the members in increasing order, then `None` for ever. -/
theorem Stores.iter (h : d.Stores R) : ∃ l : List Qubit, l.Pairwise (· < ·) ∧ (∀ q, q ∈ l ↔ q ∈ R) ∧
    ∀ n, d.iter.calls n = some ((List.range n).map (l[·]?)) := by
  obtain ⟨l, hl, hs, hm⟩ := h.members
  exact ⟨l, hs, hm, fun n => QubitSetIter.calls_left n _ l (d.left_iter.trans hl)⟩

end QubitSetData

/-! ## Runs -/

open QubitSetData

/-- An operation on sets that are stored in numbered variables. -/
inductive SetOp where
  | new (i : Nat)
  | insert (i : Nat) (q : Qubit)
  | extend (i : Nat) (qs : List Qubit)
  | remove (i : Nat) (q : Qubit)
  | clear (i : Nat)
  | clone (i j : Nat)
  | intersection (i j k : Nat)
  /-- `grow` by `extra + 1` words: its callers never shrink a set. -/
  | grow (i extra : Nat)

namespace SetOp

/-- Run an operation; `none` is a panic, and the list has what `remove` returned. -/
def run (σ : Nat → QubitSetData) : SetOp → Option ((Nat → QubitSetData) × List Bool)
  | new i => some (Function.update σ i QubitSetData.new, [])
  | insert i q => do return (Function.update σ i (← (σ i).insert q), [])
  | extend i qs => do return (Function.update σ i (← (σ i).extend qs), [])
  | remove i q => some (Function.update σ i ((σ i).remove q).2, [((σ i).remove q).1])
  | clear i => some (Function.update σ i (σ i).clear, [])
  | clone i j => some (Function.update σ i (σ j), [])
  | intersection i j k => do return (Function.update σ i (← (σ j).intersection (σ k)), [])
  | grow i extra => do
    return (Function.update σ i (← (σ i).grow ((σ i).words.length + (extra + 1))), [])

/-- What the operation does to finite sets. -/
def refer (ρ : Nat → Finset Qubit) : SetOp → (Nat → Finset Qubit) × List Bool
  | new i => (Function.update ρ i ∅, [])
  | insert i q => (Function.update ρ i (Insert.insert q (ρ i)), [])
  | extend i qs => (Function.update ρ i (ρ i ∪ qs.toFinset), [])
  | remove i q => (Function.update ρ i ((ρ i).erase q), [decide (q ∈ ρ i)])
  | clear i => (Function.update ρ i ∅, [])
  | clone i j => (Function.update ρ i (ρ j), [])
  | intersection i j k => (Function.update ρ i (ρ j ∩ ρ k), [])
  | grow _ _ => (ρ, [])

def runAll : (Nat → QubitSetData) → List SetOp → Option ((Nat → QubitSetData) × List Bool)
  | σ, [] => some (σ, [])
  | σ, op :: ops => do
    let (σ, out) ← op.run σ
    let (σ, outs) ← runAll σ ops
    return (σ, out ++ outs)

def referAll : (Nat → Finset Qubit) → List SetOp → (Nat → Finset Qubit) × List Bool
  | ρ, [] => (ρ, [])
  | ρ, op :: ops =>
    let (ρ, out) := op.refer ρ
    let (ρ, outs) := referAll ρ ops
    (ρ, out ++ outs)

variable {σ : Nat → QubitSetData} {ρ : Nat → Finset Qubit}

theorem stores_update (h : ∀ i, (σ i).Stores (ρ i)) {d : QubitSetData} {R : Finset Qubit}
    (hd : d.Stores R) (i : Nat) :
    ∀ j, (Function.update σ i d j).Stores (Function.update ρ i R j) := by
  intro j
  by_cases hj : j = i
  · subst hj
    rw [Function.update_self, Function.update_self]
    exact hd
  · rw [Function.update_of_ne hj, Function.update_of_ne hj]
    exact h j

/-- One operation keeps the variables in step with the finite sets. -/
theorem run_stores (h : ∀ i, (σ i).Stores (ρ i)) (op : SetOp) :
    ∃ σ', op.run σ = some (σ', (op.refer ρ).2) ∧ ∀ i, (σ' i).Stores ((op.refer ρ).1 i) := by
  cases op with
  | new i => exact ⟨_, rfl, stores_update h stores_new i⟩
  | insert i q =>
    obtain ⟨e, he, hs⟩ := (h i).insert q
    exact ⟨_, by rw [run, he]; rfl, stores_update h hs i⟩
  | extend i qs =>
    obtain ⟨e, he, hs⟩ := (h i).extend qs
    exact ⟨_, by rw [run, he]; rfl, stores_update h hs i⟩
  | remove i q =>
    obtain ⟨hv, hs⟩ := (h i).remove q
    exact ⟨_, by rw [run, hv]; rfl, stores_update h hs i⟩
  | clear i => exact ⟨_, rfl, stores_update h (stores_clear (σ i)) i⟩
  | clone i j => exact ⟨_, rfl, stores_update h (h j) i⟩
  | intersection i j k =>
    obtain ⟨e, he, hs⟩ := (h j).intersection (h k)
    exact ⟨_, by rw [run, he]; rfl, stores_update h hs i⟩
  | grow i extra =>
    obtain ⟨e, he, hs⟩ := (h i).grow (n := (σ i).words.length + (extra + 1)) (by omega)
    refine ⟨_, by rw [run, he]; rfl, ?_⟩
    have := stores_update h hs i
    rwa [Function.update_eq_self] at this

theorem runAll_stores (h : ∀ i, (σ i).Stores (ρ i)) (ops : List SetOp) :
    ∃ σ', runAll σ ops = some (σ', (referAll ρ ops).2) ∧
      ∀ i, (σ' i).Stores ((referAll ρ ops).1 i) := by
  induction ops generalizing σ ρ with
  | nil => exact ⟨σ, rfl, h⟩
  | cons op ops ih =>
    obtain ⟨σ', hr, h'⟩ := run_stores h op
    obtain ⟨σ'', hr', h''⟩ := ih h'
    exact ⟨σ'', by rw [runAll, hr]; simp only [Option.bind_eq_bind, Option.bind_some, hr']; rfl, h''⟩

/-- Sets of qubits refine finite sets: no run panics, `remove` returns whether the qubit was a member,
and at the end every set has the members, the length and the iterator that it should. -/
theorem sets_refine (ops : List SetOp) : ∃ σ,
    runAll (fun _ => QubitSetData.new) ops = some (σ, (referAll (fun _ => ∅) ops).2) ∧
    ∀ i, (∀ q, (σ i).contains q = decide (q ∈ (referAll (fun _ => ∅) ops).1 i)) ∧
      (σ i).len = ((referAll (fun _ => ∅) ops).1 i).card ∧
      ∃ l : List Qubit, l.Pairwise (· < ·) ∧ (∀ q, q ∈ l ↔ q ∈ (referAll (fun _ => ∅) ops).1 i) ∧
        ∀ n, (σ i).iter.calls n = some ((List.range n).map (l[·]?)) := by
  obtain ⟨σ, hr, hs⟩ := runAll_stores (fun _ => stores_new) ops
  exact ⟨σ, hr, fun i => ⟨fun q => (hs i).contains q, (hs i).len, (hs i).iter⟩⟩

end SetOp

end Qblaze
