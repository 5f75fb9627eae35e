import Mathlib.Data.BitVec
import Mathlib.Data.List.Sort

/-!
# The set bits of a machine word

`bits v` lists the set bits of a word in increasing order. The usual loop over them takes the lowest
one (`trailingZeros`) and clears it with `v & (v - 1)`; `bits_eq_cons` says that this is the list,
and `length_bits` that `countOnes` is its length.

`getLsbD_set`, `getLsbD_clear` and `getLsbD_flip` describe what the masks `1 << i` do bit by bit.
-/

namespace Lib.Word

variable {w : Nat} {v : BitVec w} {i j : Nat}

/-- The number of trailing zeros; `w` if there is no set bit. -/
def trailingZeros (v : BitVec w) : Nat := ((List.range w).find? v.getLsbD).getD w

/-- The number of set bits. -/
def countOnes (v : BitVec w) : Nat := (List.range w).countP v.getLsbD

/-- The set bits, in increasing order. -/
def bits (v : BitVec w) : List Nat := (List.range w).filter v.getLsbD

theorem mem_bits : i ∈ bits v ↔ v.getLsbD i = true := by
  simp only [bits, List.mem_filter, List.mem_range, and_iff_right_iff_imp]
  exact BitVec.lt_of_getLsbD

theorem bits_sorted (v : BitVec w) : (bits v).Pairwise (· < ·) :=
  List.pairwise_lt_range.filter _

theorem length_bits (v : BitVec w) : (bits v).length = countOnes v :=
  (List.countP_eq_length_filter ..).symm

theorem bits_zero : bits (0#w) = [] := by
  simp [bits]

/-- The lowest set bit. -/
theorem trailingZeros_spec (h : v ≠ 0#w) :
    v.getLsbD (trailingZeros v) = true ∧ ∀ i < trailingZeros v, v.getLsbD i = false := by
  have hex : ∃ i < w, v.getLsbD i = true := by
    by_contra hno
    refine h (BitVec.eq_of_getLsbD_eq fun i hi => ?_)
    simp only [BitVec.getLsbD_zero]
    cases hv : v.getLsbD i with
    | false => rfl
    | true => exact absurd ⟨i, hi, hv⟩ hno
  unfold trailingZeros
  cases hf : (List.range w).find? v.getLsbD with
  | none =>
    obtain ⟨i, hi, hv⟩ := hex
    have := List.find?_eq_none.mp hf i (List.mem_range.mpr hi)
    exact absurd hv this
  | some k =>
    refine ⟨by simpa using List.find?_some hf, fun i hi => ?_⟩
    rw [Option.getD_some] at hi
    obtain ⟨-, as, bs, hr, has⟩ := List.find?_eq_some_iff_append.mp hf
    have hk : as.length = k := by
      have := congrArg (fun l : List Nat => l[as.length]?) hr
      simp only [List.getElem?_append_right (le_refl _), Nat.sub_self,
        List.getElem?_cons_zero] at this
      have hlen : as.length < w := by
        have := congrArg List.length hr
        simp only [List.length_range, List.length_append, List.length_cons] at this
        omega
      simpa [List.getElem?_range hlen] using this
    have hmem : i ∈ as := by
      have hi' : i < as.length := by omega
      have hia : as[i]? = some i := by
        have := congrArg (fun l : List Nat => l[i]?) hr
        simp only [List.getElem?_append_left hi'] at this
        rw [← this, List.getElem?_range]
        have := congrArg List.length hr
        simp only [List.length_range, List.length_append, List.length_cons] at this
        omega
      exact List.mem_of_getElem? hia
    simpa using has i hmem

/-- `v & (v - 1)` clears the lowest set bit. -/
theorem getLsbD_clear_lowest (hj : v.getLsbD j = true) (hlow : ∀ i < j, v.getLsbD i = false) :
    (v &&& (v - 1#w)).getLsbD i = (v.getLsbD i && decide (i ≠ j)) := by
  have hjw : j < w := BitVec.lt_of_getLsbD hj
  -- `v = 2 ^ j * (2 * m + 1)`
  obtain ⟨m, hm⟩ : ∃ m, v.toNat = 2 ^ j * (2 * m + 1) := by
    have hmod : v.toNat % 2 ^ j = 0 := by
      refine Nat.eq_of_testBit_eq fun i => ?_
      rw [Nat.testBit_mod_two_pow, Nat.zero_testBit, Bool.and_eq_false_imp]
      intro hi
      exact hlow i (of_decide_eq_true hi)
    have hodd : v.toNat / 2 ^ j % 2 = 1 := by
      have : v.toNat.testBit j = true := hj
      rw [Nat.testBit_eq_decide_div_mod_eq] at this
      exact of_decide_eq_true this
    refine ⟨v.toNat / 2 ^ j / 2, ?_⟩
    have h1 := Nat.div_add_mod v.toNat (2 ^ j)
    have h2 := Nat.div_add_mod (v.toNat / 2 ^ j) 2
    rw [hodd] at h2
    rw [h2]
    omega
  have hpos : 0 < 2 ^ j := Nat.two_pow_pos j
  have hsub : (v - 1#w).toNat = 2 ^ j * (2 * m) + (2 ^ j - 1) := by
    have hv1 : 1 ≤ v.toNat := by
      rw [hm]
      exact Nat.mul_pos hpos (by omega)
    have hone : (1#w).toNat = 1 := by
      rw [BitVec.toNat_ofNat]
      exact Nat.mod_eq_of_lt (Nat.one_lt_two_pow (by omega))
    rw [BitVec.toNat_sub_of_le (by rw [BitVec.le_def, hone]; exact hv1), hone, hm, Nat.mul_add]
    omega
  have hb : (v - 1#w).getLsbD i = if i < j then true else (2 * m).testBit (i - j) := by
    show (v - 1#w).toNat.testBit i = _
    rw [hsub, Nat.testBit_two_pow_mul_add _ (by omega : 2 ^ j - 1 < 2 ^ j), Nat.testBit_two_pow_sub_one]
    split
    · simp [*]
    · rfl
  have hv : v.getLsbD i = if i < j then false else (2 * m + 1).testBit (i - j) := by
    show v.toNat.testBit i = _
    rw [hm]
    have := Nat.testBit_two_pow_mul_add (2 * m + 1) (b := 0) hpos i
    rw [Nat.add_zero, Nat.zero_testBit] at this
    exact this
  rw [BitVec.getLsbD_and, hb]
  rcases Nat.lt_trichotomy i j with h | h | h
  · rw [hlow i h]; rfl
  · subst h
    simp
  · obtain ⟨d, hd⟩ : ∃ d, i - j = d + 1 := ⟨i - j - 1, by omega⟩
    rw [hv, if_neg (by omega), if_neg (by omega), hd, Nat.testBit_add_one, Nat.testBit_add_one,
      show (2 * m + 1) / 2 = m by omega, show 2 * m / 2 = m by omega, Bool.and_self,
      decide_eq_true (by omega), Bool.and_true]

/-- The loop over the set bits. -/
theorem bits_eq_cons (h : v ≠ 0#w) :
    bits v = trailingZeros v :: bits (v &&& (v - 1#w)) := by
  obtain ⟨hj, hlow⟩ := trailingZeros_spec h
  have hclear : ∀ i, (v &&& (v - 1#w)).getLsbD i = (v.getLsbD i && decide (i ≠ trailingZeros v)) :=
    fun i => getLsbD_clear_lowest hj hlow
  refine (bits_sorted v).eq_of_mem_iff (List.pairwise_cons.mpr ⟨fun i hi => ?_, bits_sorted _⟩) ?_
  · rw [mem_bits, hclear, Bool.and_eq_true, decide_eq_true_iff] at hi
    by_contra hlt
    have := hlow i (by omega)
    rw [hi.1] at this; cases this
  · intro i
    rw [List.mem_cons, mem_bits, mem_bits, hclear, Bool.and_eq_true, decide_eq_true_iff]
    constructor
    · intro hv
      by_cases hi : i = trailingZeros v
      · exact .inl hi
      · exact .inr ⟨hv, hi⟩
    · rintro (rfl | ⟨hv, -⟩)
      · exact hj
      · exact hv

/-! ## Masks -/

theorem getLsbD_shiftLeft_one : ((1#w) <<< j).getLsbD i = (decide (i = j) && decide (i < w)) := by
  rw [← BitVec.twoPow_eq, BitVec.getLsbD_twoPow]
  by_cases h : i = j
  · subst h; simp
  · simp [h, Ne.symm h]

/-- Bit `j` as the test `v & (1 << j) != 0`. -/
theorem and_shiftLeft_ne_zero : v &&& 1#w <<< j ≠ 0#w ↔ v.getLsbD j = true := by
  rw [← BitVec.twoPow_eq, BitVec.and_twoPow]
  cases hv : v.getLsbD j with
  | false => simp
  | true =>
    have hj := BitVec.lt_of_getLsbD hv
    simp only [if_true, ne_eq, iff_true]
    intro h
    have := congrArg (fun x : BitVec w => x.getLsbD j) h
    simp [hj] at this

theorem getLsbD_set (hj : j < w) :
    (v ||| 1#w <<< j).getLsbD i = (v.getLsbD i || decide (i = j)) := by
  rw [BitVec.getLsbD_or, getLsbD_shiftLeft_one]
  by_cases h : i = j
  · subst h; simp [hj]
  · simp [h]

theorem getLsbD_clear : (v &&& ~~~(1#w <<< j)).getLsbD i = (v.getLsbD i && decide (i ≠ j)) := by
  rw [BitVec.getLsbD_and, BitVec.getLsbD_not, getLsbD_shiftLeft_one]
  by_cases hv : v.getLsbD i = true
  · have hi := BitVec.lt_of_getLsbD hv
    simp [hi]
  · simp [hv]

theorem getLsbD_flip (hj : j < w) :
    (v ^^^ 1#w <<< j).getLsbD i = (v.getLsbD i ^^ decide (i = j)) := by
  rw [BitVec.getLsbD_xor, getLsbD_shiftLeft_one]
  by_cases h : i = j
  · subst h; simp [hj]
  · simp [h]

end Lib.Word
