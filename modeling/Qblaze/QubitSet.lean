import Qblaze.Lib.Word
import Qblaze.Qubit

/-!
# Sets of qubits (`src/qubit_set.rs`)

A set is one or more 64-bit words; qubit `q` is bit `q & 63` of word `q >> 6`. A set grows when a
qubit past its last word is inserted. `contains` is the set that the words stand for, and every
operation is described by what it does to `contains`; `iter` lists it in increasing order.
-/

namespace Qblaze

open Lib

/-- `QubitSet`: one to 62 words. -/
structure QubitSet where
  words : List (BitVec 64)
  pos : 0 < words.length
  le : words.length ≤ 62

namespace QubitSet

variable {s t : QubitSet} {q r : Qubit}

def new : QubitSet := ⟨[0#64], by decide, by decide⟩

instance : Inhabited QubitSet := ⟨new⟩

def len (s : QubitSet) : Nat := (s.words.map Word.countOnes).sum

/-- Bit `i & 63` of word `i >> 6`, of a list of words. -/
def bitAt (words : List (BitVec 64)) (i : Nat) : Bool :=
  match words[i / 64]? with
  | none => false
  | some v => decide (v &&& 1#64 <<< (i % 64) ≠ 0#64)

def contains (s : QubitSet) (q : Qubit) : Bool := bitAt s.words q.val

/-- `QubitSet::remove`, with the bit that it returns. -/
def remove (s : QubitSet) (q : Qubit) : Bool × QubitSet :=
  (s.contains q,
    { words := s.words.modify (q.val / 64) fun v => v &&& ~~~(1#64 <<< (q.val % 64))
      pos := by rw [List.length_modify]; exact s.pos
      le := by rw [List.length_modify]; exact s.le })

def clear (s : QubitSet) : QubitSet where
  words := s.words.map fun _ => 0#64
  pos := by rw [List.length_map]; exact s.pos
  le := by rw [List.length_map]; exact s.le

/-- `QubitSet::grow`, to `n` words. -/
def growTo (words : List (BitVec 64)) (n : Nat) : List (BitVec 64) :=
  words ++ List.replicate (n - words.length) 0#64

def insert (s : QubitSet) (q : Qubit) : QubitSet where
  words := (growTo s.words (q.val / 64 + 1)).modify (q.val / 64) fun v => v ||| 1#64 <<< (q.val % 64)
  pos := by
    have := s.pos
    rw [List.length_modify, growTo, List.length_append]
    omega
  le := by
    have := s.le
    have := q.isLt
    rw [List.length_modify, growTo, List.length_append, List.length_replicate]
    omega

def extend (s : QubitSet) (qs : List Qubit) : QubitSet := qs.foldl insert s

/-- `QubitSetIter`: the words after the current one, the index of the current word, and what is
left of it. -/
structure Iter where
  rest : List (BitVec 64)
  i : Nat
  v : BitVec 64

/-- Take the lowest bit of the current word. -/
def Iter.takeBit (rest : List (BitVec 64)) (i : Nat) (v : BitVec 64) : Nat × Iter :=
  (i <<< 6 ||| Word.trailingZeros v, ⟨rest, i, v &&& (v - 1#64)⟩)

/-- `QubitSetIter::next`: skip the empty words and take the lowest bit. -/
def Iter.nextFrom : List (BitVec 64) → Nat → BitVec 64 → Option (Nat × Iter)
  | [], i, v => if v = 0#64 then none else some (takeBit [] i v)
  | w :: rest, i, v =>
    if v = 0#64 then nextFrom rest (i + 1) w else some (takeBit (w :: rest) i v)

def Iter.next (it : Iter) : Option (Nat × Iter) := nextFrom it.rest it.i it.v

/-- The first `n` items of an iterator. -/
def Iter.take : Nat → Iter → List Nat
  | 0, _ => []
  | n + 1, it =>
    match it.next with
    | none => []
    | some (q, it) => q :: it.take n

/-- `QubitSet::iter`, as the list of what it yields. -/
def iter (s : QubitSet) : List Qubit :=
  ((Iter.mk s.words.tail 0 (s.words.head (List.ne_nil_of_length_pos s.pos))).take
    (64 * s.words.length)).filterMap Qubit.tryFromIndex

/-- `QubitSet::intersection` -/
def intersection (s t : QubitSet) : QubitSet where
  words := List.zipWith (· &&& ·) s.words t.words
  pos := by
    have := s.pos
    have := t.pos
    rw [List.length_zipWith]
    omega
  le := by
    have := s.le
    rw [List.length_zipWith]
    omega

/-! ## Membership -/

theorem bitAt_eq (words : List (BitVec 64)) (i : Nat) :
    bitAt words i = (words[i / 64]?.getD 0#64).getLsbD (i % 64) := by
  unfold bitAt
  cases words[i / 64]? with
  | none => simp
  | some v =>
    rw [Option.getD_some, Bool.eq_iff_iff, decide_eq_true_iff]
    exact Word.and_shiftLeft_ne_zero

theorem div_mod_eq {i j : Nat} (h1 : i / 64 = j / 64) (h2 : i % 64 = j % 64) : i = j := by
  omega

theorem contains_new : new.contains q = false := by
  unfold contains
  rw [bitAt_eq, Bool.eq_false_iff]
  intro h
  have hw : (new.words[q.val / 64]?.getD 0#64) = 0#64 := by
    rw [new, List.getElem?_singleton]
    split <;> rfl
  rw [hw] at h
  simp at h

theorem contains_clear : s.clear.contains q = false := by
  unfold contains clear
  rw [bitAt_eq, List.getElem?_map]
  cases s.words[q.val / 64]? <;> simp

theorem bitAt_clearBit (words : List (BitVec 64)) (i k : Nat) :
    bitAt (words.modify (i / 64) fun v => v &&& ~~~(1#64 <<< (i % 64))) k =
      (bitAt words k && decide (k ≠ i)) := by
  rw [bitAt_eq, bitAt_eq, List.getElem?_modify]
  by_cases hw : i / 64 = k / 64
  · simp only [hw, if_true]
    cases words[k / 64]? with
    | none => simp
    | some v =>
      simp only [Option.map_eq_map, Option.map_some, Option.getD_some, Word.getLsbD_clear]
      congr 1
      rw [decide_eq_decide, not_iff_not]
      exact ⟨fun h => div_mod_eq hw.symm h, fun h => h ▸ rfl⟩
  · have : k ≠ i := fun h => hw (h ▸ rfl)
    simp [hw, this]

theorem bitAt_setBit {words : List (BitVec 64)} {i : Nat} (h : i / 64 < words.length) (k : Nat) :
    bitAt (words.modify (i / 64) fun v => v ||| 1#64 <<< (i % 64)) k =
      (bitAt words k || decide (k = i)) := by
  rw [bitAt_eq, bitAt_eq, List.getElem?_modify]
  by_cases hw : i / 64 = k / 64
  · simp only [hw, if_true]
    rw [hw] at h
    rw [List.getElem?_eq_getElem h]
    simp only [Option.map_eq_map, Option.map_some, Option.getD_some]
    rw [Word.getLsbD_set (Nat.mod_lt _ (by decide))]
    congr 1
    rw [decide_eq_decide]
    exact ⟨fun h => div_mod_eq hw.symm h, fun h => h ▸ rfl⟩
  · have : k ≠ i := fun h => hw (h ▸ rfl)
    simp [hw, this]

theorem bitAt_growTo (words : List (BitVec 64)) (n k : Nat) :
    bitAt (growTo words n) k = bitAt words k := by
  rw [bitAt_eq, bitAt_eq]
  unfold growTo
  by_cases hi : k / 64 < words.length
  · rw [List.getElem?_append_left hi]
  · rw [List.getElem?_append_right (by omega),
      List.getElem?_eq_none (by omega : words.length ≤ k / 64), List.getElem?_replicate]
    split <;> rfl

theorem bitAt_zipWith (words words' : List (BitVec 64)) (k : Nat) :
    bitAt (List.zipWith (· &&& ·) words words') k = (bitAt words k && bitAt words' k) := by
  rw [bitAt_eq, bitAt_eq, bitAt_eq, List.getElem?_zipWith]
  cases words[k / 64]? <;> cases words'[k / 64]? <;> simp

theorem length_growTo (words : List (BitVec 64)) (n : Nat) :
    (growTo words n).length = max words.length n := by
  unfold growTo
  rw [List.length_append, List.length_replicate]
  omega

theorem contains_remove : (s.remove q).2.contains r = (s.contains r && decide (r ≠ q)) := by
  unfold contains remove
  rw [bitAt_clearBit]
  simp only [ne_eq, Fin.ext_iff]

theorem contains_insert : (s.insert q).contains r = (s.contains r || decide (r = q)) := by
  unfold contains insert
  rw [bitAt_setBit (by rw [length_growTo]; omega), bitAt_growTo]
  simp only [Fin.ext_iff]

theorem contains_extend (qs : List Qubit) :
    (s.extend qs).contains r = (s.contains r || decide (r ∈ qs)) := by
  unfold extend
  induction qs generalizing s with
  | nil => simp
  | cons q qs ih =>
    rw [List.foldl_cons, ih, contains_insert]
    simp only [List.mem_cons, Bool.decide_or, Bool.or_assoc]

theorem contains_intersection :
    (s.intersection t).contains q = (s.contains q && t.contains q) :=
  bitAt_zipWith s.words t.words q.val

/-! ## The iterator -/

/-- The bits of a list of words, the first of which has index `i`. -/
def members (i : Nat) : List (BitVec 64) → List Nat
  | [] => []
  | v :: rest => (Word.bits v).map (64 * i + ·) ++ members (i + 1) rest

theorem shift_or {i j : Nat} (hj : j < 64) : i <<< 6 ||| j = 64 * i + j := by
  rw [← Nat.shiftLeft_add_eq_or_of_lt (by simpa using hj), Nat.shiftLeft_eq]
  omega

theorem nextFrom_members (rest : List (BitVec 64)) (i : Nat) (v : BitVec 64) :
    match Iter.nextFrom rest i v with
    | none => members i (v :: rest) = []
    | some (q, it) => members i (v :: rest) = q :: members it.i (it.v :: it.rest) := by
  have hbit : ∀ (rest : List (BitVec 64)) (i : Nat) (v : BitVec 64), v ≠ 0#64 →
      members i (v :: rest) = (i <<< 6 ||| Word.trailingZeros v) ::
        members i ((v &&& (v - 1#64)) :: rest) := by
    intro rest i v hv
    have hlt : Word.trailingZeros v < 64 := BitVec.lt_of_getLsbD (Word.trailingZeros_spec hv).1
    rw [shift_or hlt, members, members, Word.bits_eq_cons hv, List.map_cons, List.cons_append]
  induction rest generalizing i v with
  | nil =>
    unfold Iter.nextFrom
    by_cases hv : v = 0#64
    · rw [if_pos hv]
      simp [members, hv, Word.bits_zero]
    · rw [if_neg hv]
      exact hbit _ _ _ hv
  | cons w rest ih =>
    unfold Iter.nextFrom
    by_cases hv : v = 0#64
    · rw [if_pos hv]
      have : members i (v :: w :: rest) = members (i + 1) (w :: rest) := by
        rw [members, hv, Word.bits_zero, List.map_nil, List.nil_append]
      rw [this]
      exact ih (i + 1) w
    · rw [if_neg hv]
      exact hbit _ _ _ hv

theorem take_members (n : Nat) (it : Iter) :
    it.take n = (members it.i (it.v :: it.rest)).take n := by
  induction n generalizing it with
  | zero => rfl
  | succ n ih =>
    have h := nextFrom_members it.rest it.i it.v
    unfold Iter.take Iter.next
    cases hn : Iter.nextFrom it.rest it.i it.v with
    | none => rw [hn] at h; simp only at h; rw [h]; rfl
    | some r =>
      rw [hn] at h
      simp only at h
      rw [h, List.take_succ_cons, ← ih]

theorem length_members_le (i : Nat) (words : List (BitVec 64)) :
    (members i words).length ≤ 64 * words.length := by
  induction words generalizing i with
  | nil => exact Nat.le_refl _
  | cons v rest ih =>
    have h1 : (Word.bits v).length ≤ 64 := by
      have := List.length_filter_le v.getLsbD (List.range 64)
      rwa [List.length_range] at this
    have h2 := ih (i + 1)
    rw [members, List.length_append, List.length_map, List.length_cons]
    omega

theorem mem_members {i k : Nat} {words : List (BitVec 64)} :
    k ∈ members i words ↔ 64 * i ≤ k ∧ bitAt words (k - 64 * i) = true := by
  induction words generalizing i with
  | nil => simp [members, bitAt]
  | cons v rest ih =>
    rw [members, List.mem_append, List.mem_map, ih]
    constructor
    · rintro (⟨j, hj, rfl⟩ | ⟨hi, hb⟩)
      · have hv := Word.mem_bits.mp hj
        have hlt : j < 64 := BitVec.lt_of_getLsbD hv
        refine ⟨by omega, ?_⟩
        rw [bitAt_eq, show (64 * i + j - 64 * i) / 64 = 0 by omega,
          show (64 * i + j - 64 * i) % 64 = j by omega]
        exact hv
      · refine ⟨by omega, ?_⟩
        rw [bitAt_eq] at hb ⊢
        rw [show (k - 64 * i) / 64 = (k - 64 * (i + 1)) / 64 + 1 by omega, List.getElem?_cons_succ,
          show (k - 64 * i) % 64 = (k - 64 * (i + 1)) % 64 by omega]
        exact hb
    · rintro ⟨hi, hb⟩
      rw [bitAt_eq] at hb
      by_cases hk : k < 64 * (i + 1)
      · left
        rw [show (k - 64 * i) / 64 = 0 by omega, show (k - 64 * i) % 64 = k - 64 * i by omega] at hb
        exact ⟨k - 64 * i, Word.mem_bits.mpr hb, by omega⟩
      · right
        rw [show (k - 64 * i) / 64 = (k - 64 * (i + 1)) / 64 + 1 by omega, List.getElem?_cons_succ,
          show (k - 64 * i) % 64 = (k - 64 * (i + 1)) % 64 by omega] at hb
        exact ⟨by omega, by rw [bitAt_eq]; exact hb⟩

theorem members_sorted (i : Nat) (words : List (BitVec 64)) :
    (members i words).Pairwise (· < ·) := by
  induction words generalizing i with
  | nil => exact List.Pairwise.nil
  | cons v rest ih =>
    refine List.pairwise_append.mpr ⟨?_, ih (i + 1), fun a ha b hb => ?_⟩
    · exact List.pairwise_map.mpr ((Word.bits_sorted v).imp fun h => Nat.add_lt_add_left h _)
    · obtain ⟨j, hj, rfl⟩ := List.mem_map.mp ha
      have hlt : j < 64 := BitVec.lt_of_getLsbD (Word.mem_bits.mp hj)
      have := (mem_members.mp hb).1
      omega

theorem length_members (i : Nat) (words : List (BitVec 64)) :
    (members i words).length = (words.map Word.countOnes).sum := by
  induction words generalizing i with
  | nil => rfl
  | cons v rest ih =>
    rw [members, List.length_append, List.length_map, ih, List.map_cons, List.sum_cons,
      Word.length_bits]

/-- The indices that `iter` goes through. -/
theorem iter_eq (s : QubitSet) : s.iter = (members 0 s.words).filterMap Qubit.tryFromIndex := by
  have hw : s.words.head (List.ne_nil_of_length_pos s.pos) :: s.words.tail = s.words :=
    List.cons_head_tail _
  unfold iter
  rw [take_members]
  simp only [hw]
  rw [List.take_of_length_le (length_members_le 0 s.words)]

theorem lt_of_mem_members (s : QubitSet) {k : Nat} (h : k ∈ members 0 s.words) : k < 62 * 64 := by
  obtain ⟨-, hb⟩ := mem_members.mp h
  rw [Nat.mul_zero, Nat.sub_zero] at hb
  unfold bitAt at hb
  cases hw : s.words[k / 64]? with
  | none => rw [hw] at hb; cases hb
  | some v =>
    obtain ⟨hlt, -⟩ := List.getElem?_eq_some_iff.mp hw
    have := s.le
    omega

theorem iter_map_val (s : QubitSet) : s.iter.map Fin.val = members 0 s.words := by
  rw [iter_eq, List.map_filterMap]
  have : ∀ l : List Nat, (∀ k ∈ l, k < 62 * 64) →
      l.filterMap (fun k => (Qubit.tryFromIndex k).map Fin.val) = l := by
    intro l hl
    induction l with
    | nil => rfl
    | cons k l ih =>
      have hk := hl k (List.mem_cons_self ..)
      rw [List.filterMap_cons_some (b := k), ih fun k' hk' => hl k' (List.mem_cons_of_mem _ hk')]
      simp [Qubit.tryFromIndex, hk]
  exact this _ fun k hk => s.lt_of_mem_members hk

/-- `iter` lists the members. -/
theorem mem_iter : q ∈ s.iter ↔ s.contains q = true := by
  have h : q ∈ s.iter ↔ q.val ∈ s.iter.map Fin.val := by
    rw [List.mem_map]
    exact ⟨fun h => ⟨q, h, rfl⟩, fun ⟨r, hr, he⟩ => Fin.ext he ▸ hr⟩
  rw [h, iter_map_val, mem_members]
  unfold contains
  simp

theorem iter_sorted (s : QubitSet) : s.iter.Pairwise (· < ·) := by
  have h := members_sorted 0 s.words
  rw [← iter_map_val, List.pairwise_map] at h
  exact h.imp fun h => Fin.lt_def.mpr h

theorem length_iter (s : QubitSet) : s.iter.length = s.len := by
  have := congrArg List.length s.iter_map_val
  rw [List.length_map, length_members] at this
  exact this

theorem len_eq_zero : s.len = 0 ↔ ∀ q, s.contains q = false := by
  rw [← length_iter, List.length_eq_zero_iff, List.eq_nil_iff_forall_not_mem]
  simp only [mem_iter, Bool.not_eq_true]

/-- A set with one element. -/
theorem len_eq_one : s.len = 1 ↔ ∃ q, s.iter = [q] := by
  rw [← length_iter, List.length_eq_one_iff]

end QubitSet

end Qblaze
