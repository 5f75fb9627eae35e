import Mathlib.Algebra.Order.Floor.Semiring
import Mathlib.SetTheory.Cardinal.Finite
import Mathlib.Order.Interval.Finset.Fin
import Qblaze.Exact
import Qblaze.Simulator.Basic

/-!
# The outcome of a measurement

`measure` turns 64 random bits into an outcome. The smaller one of the two probabilities is scaled to
`2 ^ 64` and rounded down, and the bits are compared with it from the side of its outcome.

* `reported_spec`: the outcome is one if the bits are at least a threshold, for both branches and both
  values of `invert`.
* `outcome_faithful`: no outcome of probability zero is reported, the outcome is monotone in the bits,
  and it is one for as many of their values as its probability says, up to rounding.
-/

namespace Qblaze

namespace Simulator

/-- `as u64` of a number that fits is its floor. -/
theorem toNat_asU64 {r : ℝ} (h0 : 0 ≤ r) (h1 : r < 2 ^ 64) : (asU64 r).toNat = ⌊r⌋₊ := by
  have hlt : ⌊r⌋₊ < 2 ^ 64 := by
    rw [Nat.floor_lt h0]
    exact_mod_cast h1
  show (min (⌊r⌋).toNat (2 ^ 64 - 1)) % 2 ^ 64 = ⌊r⌋₊
  rw [Int.floor_toNat, Nat.min_eq_left (by omega), Nat.mod_eq_of_lt hlt]

theorem toNat_not (b : BitVec 64) : (~~~b).toNat = 2 ^ 64 - 1 - b.toNat := BitVec.toNat_not

/-- The smaller probability decides. Either it is that of 0, and the bits from its scaled value on
give 1, or it is that of 1, and as many of the largest bits give 1. -/
theorem reported_spec {r0 r1 : ℝ} (h0 : 0 ≤ r0) (h1 : 0 ≤ r1) (h : 0 < r0 + r1) (invert : Bool) :
    ∃ p, 0 ≤ p ∧ p ≤ 1 / 2 ∧
      ((∀ bias, (reported invert r0 r1 bias).2 = (p, 1 - p) ∧
          ((reported invert r0 r1 bias).1 = true ↔ ⌊p * 2 ^ 64⌋₊ ≤ bias.toNat)) ∨
        ∀ bias, (reported invert r0 r1 bias).2 = (1 - p, p) ∧
          ((reported invert r0 r1 bias).1 = true ↔ 2 ^ 64 - ⌊p * 2 ^ 64⌋₊ ≤ bias.toNat)) := by
  have hsum0 : r1 / (r0 + r1) = 1 - r0 / (r0 + r1) := by
    rw [eq_sub_iff_add_eq, ← add_div, add_comm r1 r0, div_self h.ne']
  have hsum1 : r0 / (r0 + r1) = 1 - r1 / (r0 + r1) := by
    rw [hsum0]
    ring
  have hpow : ∀ {p : ℝ}, 0 ≤ p → p ≤ 1 / 2 → (asU64 (p * 2 ^ 64)).toNat = ⌊p * 2 ^ 64⌋₊ ∧
      ⌊p * 2 ^ 64⌋₊ < 2 ^ 64 := by
    intro p hp hp'
    have hlt : p * 2 ^ 64 < 2 ^ 64 := by nlinarith
    refine ⟨toNat_asU64 (by positivity) hlt, ?_⟩
    rw [Nat.floor_lt (by positivity)]
    exact_mod_cast hlt
  by_cases hle : r0 ≤ r1
  · have hp0 : 0 ≤ r0 / (r0 + r1) := div_nonneg h0 h.le
    have hp1 : r0 / (r0 + r1) ≤ 1 / 2 := by
      rw [div_le_div_iff₀ h two_pos]
      linarith
    obtain ⟨hu, hlt⟩ := hpow hp0 hp1
    refine ⟨r0 / (r0 + r1), hp0, hp1, ?_⟩
    cases invert with
    | false =>
      refine .inl fun bias => ⟨by rw [← hsum0]; rfl, ?_⟩
      simp [reported, selectOutcome, hle, BitVec.le_def, hu]
    | true =>
      refine .inr fun bias => ⟨by rw [← hsum0]; rfl, ?_⟩
      have := bias.isLt
      simp only [reported, selectOutcome, hle, BitVec.le_def, hu, if_true, toNat_not,
        Bool.not_eq_true', decide_eq_false_iff_not]
      omega
  · have hp0 : 0 ≤ r1 / (r0 + r1) := div_nonneg h1 h.le
    have hp1 : r1 / (r0 + r1) ≤ 1 / 2 := by
      rw [div_le_div_iff₀ h two_pos]
      linarith
    obtain ⟨hu, hlt⟩ := hpow hp0 hp1
    refine ⟨r1 / (r0 + r1), hp0, hp1, ?_⟩
    cases invert with
    | false =>
      refine .inr fun bias => ⟨by rw [← hsum1]; rfl, ?_⟩
      have := bias.isLt
      simp only [reported, selectOutcome, hle, BitVec.lt_def, hu, if_false, toNat_not,
        Bool.false_eq_true, decide_eq_true_iff]
      omega
    | true =>
      refine .inl fun bias => ⟨by rw [← hsum1]; rfl, ?_⟩
      have := bias.isLt
      simp [reported, selectOutcome, hle, BitVec.lt_def, hu]

/-- The outcome that is chosen has weight. -/
theorem selectOutcome_weight {r0 r1 : ℝ} (h0 : 0 ≤ r0) (h1 : 0 ≤ r1) (h : r0 + r1 ≠ 0) (invert : Bool)
    (bias : BitVec 64) : (if selectOutcome invert r0 r1 bias then r1 else r0) ≠ 0 := by
  have hzero : asU64 (0 / (r0 + r1) * 2 ^ 64 : ℝ) = 0#64 := by
    unfold asU64
    rw [zero_div, zero_mul, show Scalar.floor (0 : ℝ) = 0 from Int.floor_zero]
    rfl
  unfold selectOutcome
  simp only
  generalize (if invert then ~~~bias else bias) = b
  by_cases hle : r0 ≤ r1
  · rw [if_pos hle]
    split
    · rintro rfl
      exact h (by linarith)
    · rename_i hsel
      intro hr
      rw [hr] at hsel
      rw [hr] at hzero
      rw [hzero, decide_eq_true_iff] at hsel
      exact hsel (by simp [BitVec.le_def])
  · rw [if_neg hle]
    split
    · rename_i hsel
      intro hr
      rw [hr] at hsel
      rw [hr] at hzero
      rw [hzero, decide_eq_true_iff] at hsel
      exact absurd hsel (by simp [BitVec.lt_def])
    · intro hr
      exact hle (by linarith)

/-- The number of bit patterns from `k` on. -/
theorem card_le_toNat (k : Nat) :
    Nat.card {b : BitVec 64 // k ≤ b.toNat} = 2 ^ 64 - k := by
  have e : {b : BitVec 64 // k ≤ b.toNat} ≃ {n : ℕ // n ∈ Finset.Ico k (2 ^ 64)} :=
    ⟨fun b => ⟨b.1.toNat, Finset.mem_Ico.mpr ⟨b.2, b.1.isLt⟩⟩,
      fun n => ⟨BitVec.ofNat 64 n.1, by
        rw [BitVec.toNat_ofNat, Nat.mod_eq_of_lt (Finset.mem_Ico.mp n.2).2]
        exact (Finset.mem_Ico.mp n.2).1⟩,
      fun b => Subtype.ext (by simp),
      fun n => Subtype.ext (by
        show (BitVec.ofNat 64 n.1).toNat = n.1
        rw [BitVec.toNat_ofNat, Nat.mod_eq_of_lt (Finset.mem_Ico.mp n.2).2])⟩
  rw [Nat.card_congr e, Nat.card_eq_fintype_card, Fintype.card_coe, Nat.card_Ico]

theorem ceil_sub_floor {r : ℝ} (h : 0 ≤ r) {n : Nat} (hn : ⌊r⌋₊ < n) : n - ⌊r⌋₊ = ⌈(n : ℝ) - r⌉₊ := by
  have hlt := Nat.lt_floor_add_one r
  have hle := Nat.floor_le h
  symm
  rw [Nat.ceil_eq_iff (by omega), Nat.cast_sub (by omega), Nat.cast_sub (by omega)]
  push_cast
  constructor <;> linarith

/-- What `measure` returns. -/
theorem measure_reports {env : Env} {q : Qubit} {bias : BitVec 64} {sim sim' t : Simulator ℝ}
    {invert : Bool} {r0 r1 : ℝ} (hr : r0 + r1 ≠ 0)
    (h : (premeasure env q).result sim = .ok ((invert, r0, r1), sim')) {a : Bool × Option (ℝ × ℝ)}
    (hm : (measure env q bias).result sim = .ok (a, t)) :
    a = ((reported invert r0 r1 bias).1, some (reported invert r0 r1 bias).2) := by
  have hpre : Lib.Run.Wp (fun _ => True) (fun _ => True) (premeasure env q) sim
      fun r _ => r = (invert, r0, r1) := by
    refine ⟨fun _ _ => trivial, fun _ _ => trivial, fun b u hb => ?_⟩
    rw [h] at hb
    cases hb
    rfl
  refine (Lib.Run.Wp.bind (R := fun a _ => a = ((reported invert r0 r1 bias).1,
    some (reported invert r0 r1 bias).2)) hpre fun r u hru => ?_).ends a t hm
  subst hru
  simp only [if_neg hr]
  exact .bind .any fun _ _ _ => .pure rfl

/-- The outcome of `measure` is faithful to the probabilities that it reports. -/
theorem outcome_faithful {r0 r1 : ℝ} (h0 : 0 ≤ r0) (h1 : 0 ≤ r1) (h : r0 ≠ 0 ∨ r1 ≠ 0)
    (invert : Bool) {p0 p1 : ℝ} (hp0 : p0 = (if invert then r1 else r0) / (r0 + r1))
    (hp1 : p1 = (if invert then r0 else r1) / (r0 + r1)) :
    -- what `measure` returns
    (∀ env q bias (sim sim' : Simulator ℝ),
      (premeasure env q).result sim = .ok ((invert, r0, r1), sim') →
      ∀ a t, (measure env q bias).result sim = .ok (a, t) →
        a = ((reported invert r0 r1 bias).1, some (p0, p1))) ∧
    -- no outcome of probability zero
    (∀ bias, (reported invert r0 r1 bias).1 = true → p1 ≠ 0) ∧
    (∀ bias, (reported invert r0 r1 bias).1 = false → p0 ≠ 0) ∧
    -- monotone
    (∀ bias bias', bias ≤ bias' → (reported invert r0 r1 bias).1 = true →
      (reported invert r0 r1 bias').1 = true) ∧
    -- as often as it should be
    (Nat.card {bias // (reported invert r0 r1 bias).1 = true} = ⌊p1 * 2 ^ 64⌋₊ ∨
      Nat.card {bias // (reported invert r0 r1 bias).1 = true} = ⌈p1 * 2 ^ 64⌉₊) ∧
    -- the ends of the range
    (1 / 2 ^ 64 ≤ p0 → (reported invert r0 r1 0).1 = false) ∧
    (1 / 2 ^ 64 ≤ p1 → (reported invert r0 r1 (BitVec.allOnes 64)).1 = true) := by
  have hpos : 0 < r0 + r1 := by
    rcases h with h | h
    · exact add_pos_of_pos_of_nonneg (lt_of_le_of_ne h0 h.symm) h1
    · exact add_pos_of_nonneg_of_pos h0 (lt_of_le_of_ne h1 h.symm)
  have hprob : ∀ bias, (reported invert r0 r1 bias).2 = (p0, p1) := by
    intro bias
    rw [hp0, hp1]
    cases invert <;> rfl
  refine ⟨fun env q bias sim sim' hpre a t hm => ?_, ?_⟩
  · rw [measure_reports hpos.ne' hpre hm, hprob]
  obtain ⟨p, hp, hp', hspec⟩ := reported_spec h0 h1 hpos invert
  have hscale : ⌊p * 2 ^ 64⌋₊ < 2 ^ 64 := by
    rw [Nat.floor_lt (by positivity)]
    push_cast
    nlinarith
  have hone : 1 / 2 ^ 64 ≤ p → 1 ≤ ⌊p * 2 ^ 64⌋₊ := by
    intro hle
    refine Nat.le_floor ?_
    rw [div_le_iff₀ (by positivity)] at hle
    exact_mod_cast hle
  have hzero : 1 ≤ ⌊p * 2 ^ 64⌋₊ → p ≠ 0 := by
    rintro hle rfl
    simp at hle
  have hmax : (BitVec.allOnes 64).toNat = 2 ^ 64 - 1 := BitVec.toNat_allOnes
  rcases hspec with hspec | hspec
  · -- the outcome 0 is the less likely one
    obtain ⟨rfl, rfl⟩ : p0 = p ∧ p1 = 1 - p := by
      have := (hspec 0).1
      rw [hprob] at this
      exact ⟨congrArg Prod.fst this, congrArg Prod.snd this⟩
    have hiff : ∀ bias, (reported invert r0 r1 bias).1 = true ↔ ⌊p0 * 2 ^ 64⌋₊ ≤ bias.toNat :=
      fun bias => (hspec bias).2
    refine ⟨fun _ _ => by linarith, fun bias hb => ?_, fun bias bias' hle hb => ?_, .inr ?_,
      fun hle => ?_, fun _ => ?_⟩
    · rw [Bool.eq_false_iff, Ne, hiff] at hb
      exact hzero (by omega)
    · rw [hiff] at hb ⊢
      exact hb.trans hle
    · simp only [hiff]
      rw [card_le_toNat, ceil_sub_floor (by positivity) hscale, sub_mul, one_mul]
      norm_num
    · rw [Bool.eq_false_iff, Ne, hiff]
      have := hone hle
      have hz : (0 : BitVec 64).toNat = 0 := rfl
      omega
    · rw [hiff, hmax]
      omega
  · obtain ⟨rfl, rfl⟩ : p0 = 1 - p ∧ p1 = p := by
      have := (hspec 0).1
      rw [hprob] at this
      exact ⟨congrArg Prod.fst this, congrArg Prod.snd this⟩
    have hiff : ∀ bias, (reported invert r0 r1 bias).1 = true ↔
        2 ^ 64 - ⌊p1 * 2 ^ 64⌋₊ ≤ bias.toNat := fun bias => (hspec bias).2
    refine ⟨fun bias hb => ?_, fun _ _ => by linarith, fun bias bias' hle hb => ?_, .inl ?_,
      fun _ => ?_, fun hle => ?_⟩
    · rw [hiff] at hb
      have := bias.isLt
      exact hzero (by omega)
    · rw [hiff] at hb ⊢
      exact hb.trans hle
    · simp only [hiff]
      rw [card_le_toNat]
      omega
    · rw [Bool.eq_false_iff, Ne, hiff]
      have hz : (0 : BitVec 64).toNat = 0 := rfl
      omega
    · rw [hiff, hmax]
      have := hone hle
      omega

/-- A qubit with equal weights. -/
theorem outcome_faithful_half : (reported false (1 : ℝ) 1 0).1 = false ∧
    (reported false (1 : ℝ) 1 (BitVec.allOnes 64)).1 = true := by
  have h := @outcome_faithful 1 1 zero_le_one zero_le_one (.inl one_ne_zero) false (1 / 2) (1 / 2)
    (by norm_num) (by norm_num)
  exact ⟨h.2.2.2.2.2.1 (by norm_num), h.2.2.2.2.2.2 (by norm_num)⟩

end Simulator

end Qblaze
