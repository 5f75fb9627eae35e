import Mathlib.Analysis.SpecialFunctions.Complex.Arg
import Mathlib.Analysis.SpecialFunctions.Trigonometric.Basic
import Mathlib.Analysis.Real.Sqrt
import Qblaze.U3

/-!
# Exact arithmetic

The scalars are the real numbers, the functions of `Scalar` are the real functions and the
threshold of `accumulate` is zero, so that it drops exactly the zeros. A `Cplx ℝ` is a complex
number (`toC`).

* `Cplx.toC_fromArg`: `Complex::from_arg` is the exponential (`Angle.phase`), a homomorphism from the
  angles to the unit circle.
* `halfSinCos_eq`: `half_sin_cos` is the sine and cosine of half the angle.
-/

namespace Qblaze

noncomputable instance : Scalar ℝ where
  sin := Real.sin
  cos := Real.cos
  sqrt := Real.sqrt
  atan2 y x := Complex.arg ⟨x, y⟩
  pi := Real.pi
  floor := Int.floor

noncomputable instance : Eps ℝ := ⟨0⟩

/-! ## Complex numbers -/

namespace Cplx

/-- The complex number. -/
def toC (a : Cplx ℝ) : ℂ := ⟨a.re, a.im⟩

variable (a b : Cplx ℝ) (r : ℝ)

theorem toC_injective : Function.Injective toC := by
  intro a b h
  exact Cplx.ext (congrArg Complex.re h) (congrArg Complex.im h)

@[simp] theorem toC_zero : (ZERO : Cplx ℝ).toC = 0 := rfl

@[simp] theorem toC_one : (ONE : Cplx ℝ).toC = 1 := rfl

@[simp] theorem toC_add : (a + b).toC = a.toC + b.toC := rfl

@[simp] theorem toC_neg : (-a).toC = -a.toC := rfl

@[simp] theorem toC_mul : (a * b).toC = a.toC * b.toC := by
  apply Complex.ext
  · rfl
  · show a.re * b.im + a.im * b.re = a.re * b.im + a.im * b.re
    rfl

@[simp] theorem toC_ofScalar : (ofScalar r).toC = r := rfl

@[simp] theorem toC_scale : (a.scale r).toC = a.toC * r := by
  apply Complex.ext <;> simp [toC, scale]

@[simp] theorem toC_divScale : (a.divScale r).toC = a.toC / r := by
  apply Complex.ext
  · rw [Complex.div_ofReal_re]; rfl
  · rw [Complex.div_ofReal_im]; rfl

@[simp] theorem toC_mulI : a.mulI.toC = a.toC * Complex.I := by
  apply Complex.ext <;> simp [toC, mulI]

@[simp] theorem toC_divI : a.divI.toC = a.toC * -Complex.I := by
  apply Complex.ext <;> simp [toC, divI]

theorem norm2_eq : a.norm2 = Complex.normSq a.toC := rfl

/-- With a threshold of zero, `accumulate` drops exactly the zeros. -/
theorem accumulate_exact : accumulate a b = (a + b, decide ((a + b).toC ≠ 0)) := by
  have h : ∀ c : Cplx ℝ, 0 < c.normInf ↔ c.toC ≠ 0 := by
    intro c
    unfold normInf
    rw [lt_max_iff, abs_pos, abs_pos, ← not_iff_not, not_or, not_not, not_not, not_not]
    exact ⟨fun h => Complex.ext h.1 h.2, fun h => ⟨congrArg Complex.re h, congrArg Complex.im h⟩⟩
  unfold accumulate
  simp only [Prod.mk.injEq, true_and, decide_eq_decide]
  rw [show (Eps.eps : ℝ) = 0 from rfl, zero_mul]
  exact h _

end Cplx

/-! ## Angles -/

namespace Angle

/-- The angle in `[0, 2 * pi)`. -/
noncomputable def rad (a : Angle) : ℝ := a.toNat * (2 * Real.pi / 2 ^ 64)

/-- The point of the unit circle. -/
noncomputable def phase (a : Angle) : ℂ := Complex.exp (rad a * Complex.I)

variable (a b : Angle)

theorem toNat_add_cast : ∃ k : ℕ, (a.toNat + b.toNat : ℝ) = 2 ^ 64 * k + (a + b).toNat := by
  refine ⟨(a.toNat + b.toNat) / 2 ^ 64, ?_⟩
  rw [BitVec.toNat_add]
  exact_mod_cast (Nat.div_add_mod (a.toNat + b.toNat) (2 ^ 64)).symm

theorem rad_add : ∃ k : ℕ, rad a + rad b = rad (a + b) + k * (2 * Real.pi) := by
  obtain ⟨k, hk⟩ := toNat_add_cast a b
  refine ⟨k, ?_⟩
  unfold rad
  rw [← add_mul, hk]
  ring

theorem phase_add : phase (a + b) = phase a * phase b := by
  obtain ⟨k, hk⟩ := rad_add a b
  have hexp : Complex.exp (k * (2 * Real.pi * Complex.I)) = 1 := Complex.exp_nat_mul_two_pi_mul_I k
  unfold phase
  rw [← Complex.exp_add, ← add_mul, ← Complex.ofReal_add, hk]
  push_cast
  rw [add_mul, Complex.exp_add, show (k * (2 * Real.pi) * Complex.I : ℂ) =
    k * (2 * Real.pi * Complex.I) by ring, hexp, mul_one]

@[simp] theorem phase_zero : phase ZERO = 1 := by
  simp [phase, rad, ZERO]

theorem phase_neg_mul : phase (-a) * phase a = 1 := by
  rw [← phase_add, BitVec.add_comm, ← sub_eq_add_neg, sub_self]
  exact phase_zero

theorem phase_ne_zero : phase a ≠ 0 := Complex.exp_ne_zero _

theorem norm_phase : ‖phase a‖ = 1 := Complex.norm_exp_ofReal_mul_I _

theorem rad_PI : rad PI = Real.pi := by
  unfold rad PI
  norm_num
  ring

theorem rad_PI_1_2 : rad PI_1_2 = Real.pi / 2 := by
  unfold rad PI_1_2
  norm_num
  ring

theorem rad_PI_1_4 : rad PI_1_4 = Real.pi / 4 := by
  unfold rad PI_1_4
  norm_num
  ring

theorem rad_sub : ∃ k : ℕ, rad (a - b) = rad a - rad b + k * (2 * Real.pi) := by
  obtain ⟨k, hk⟩ := rad_add (a - b) b
  rw [sub_add_cancel] at hk
  exact ⟨k, by linarith⟩

theorem cos_rad_sub : Real.cos (rad (a - b)) = Real.cos (rad a - rad b) := by
  obtain ⟨k, hk⟩ := rad_sub a b
  rw [hk, Real.cos_add_nat_mul_two_pi]

theorem sin_rad_sub : Real.sin (rad (a - b)) = Real.sin (rad a - rad b) := by
  obtain ⟨k, hk⟩ := rad_sub a b
  rw [hk, Real.sin_add_nat_mul_two_pi]

theorem phase_eq : phase a = ⟨Real.cos (rad a), Real.sin (rad a)⟩ := by
  apply Complex.ext
  · exact Complex.exp_ofReal_mul_I_re _
  · exact Complex.exp_ofReal_mul_I_im _

theorem phase_PI : phase PI = -1 := by
  rw [phase_eq, rad_PI, Real.cos_pi, Real.sin_pi]
  apply Complex.ext <;> simp

theorem phase_PI_1_2 : phase PI_1_2 = Complex.I := by
  rw [phase_eq, rad_PI_1_2, Real.cos_pi_div_two, Real.sin_pi_div_two]
  rfl

theorem phase_PI_3_2 : phase PI_3_2 = -Complex.I := by
  rw [show PI_3_2 = PI + PI_1_2 from rfl, phase_add, phase_PI, phase_PI_1_2, neg_one_mul]

theorem phase_PI_1_4 : phase PI_1_4 = ⟨1 / Real.sqrt 2, 1 / Real.sqrt 2⟩ := by
  have h : Real.sqrt 2 / 2 = 1 / Real.sqrt 2 := by
    rw [div_eq_div_iff two_ne_zero (by simp), Real.mul_self_sqrt two_pos.le, one_mul]
  rw [phase_eq, rad_PI_1_4, Real.cos_pi_div_four, Real.sin_pi_div_four, h]

/-- Below `pi`, `to_radians` is the angle. -/
theorem toRadians_eq {a : Angle} (h : a.toNat ≤ PI_1_2.toNat) : (toRadians a : ℝ) = rad a := by
  have hp : PI_1_2.toNat = 2 ^ 62 := rfl
  rw [hp] at h
  have hne : a ≠ PI := by
    rintro rfl
    exact absurd h (by decide)
  unfold toRadians rad
  rw [if_neg hne, BitVec.toInt_eq_toNat_of_lt (by omega)]
  rfl

/-- Half angles, for an angle that is not above `pi`. -/
theorem rad_sub_of_le {a b : Angle} (h : b.toNat ≤ a.toNat) : rad (a - b) = rad a - rad b := by
  unfold rad
  rw [BitVec.toNat_sub_of_le (BitVec.le_def.mpr h), Nat.cast_sub h]
  ring

theorem unsignedGt_iff {a b : Angle} : unsignedGt a b = true ↔ b.toNat < a.toNat := by
  unfold unsignedGt
  rw [decide_eq_true_iff, BitVec.lt_def]

/-- The last step of `sin_cos`: sine and cosine change places above `pi / 4`. -/
theorem sinCos_flip {d : Angle} (h : d.toNat ≤ PI_1_2.toNat) :
    (if unsignedGt d PI_1_4 then
        (Real.cos (toRadians (if unsignedGt d PI_1_4 then PI_1_2 - d else d)),
          Real.sin (toRadians (if unsignedGt d PI_1_4 then PI_1_2 - d else d)))
      else
        (Real.sin (toRadians (if unsignedGt d PI_1_4 then PI_1_2 - d else d)),
          Real.cos (toRadians (if unsignedGt d PI_1_4 then PI_1_2 - d else d)))) =
      (Real.sin (rad d), Real.cos (rad d)) := by
  by_cases hf : unsignedGt d PI_1_4 = true
  · have hle : (PI_1_2 - d).toNat ≤ PI_1_2.toNat := by
      rw [BitVec.toNat_sub_of_le (BitVec.le_def.mpr h)]
      exact Nat.sub_le _ _
    simp only [hf, if_true]
    rw [toRadians_eq hle, rad_sub_of_le h, rad_PI_1_2, Real.cos_pi_div_two_sub,
      Real.sin_pi_div_two_sub]
  · simp only [hf, Bool.false_eq_true, if_false]
    rw [toRadians_eq h]

theorem toNat_neg_le {a : Angle} (h : isNegative a = true) : (-a).toNat ≤ PI.toNat := by
  unfold isNegative at h
  rw [decide_eq_true_iff, BitVec.lt_def] at h
  have hp : PI.toNat = 2 ^ 63 := rfl
  rw [BitVec.toNat_neg]
  rw [hp] at h ⊢
  omega

theorem toNat_le_of_not_negative {a : Angle} (h : ¬ isNegative a = true) : a.toNat ≤ PI.toNat := by
  unfold isNegative at h
  rw [decide_eq_true_iff, BitVec.lt_def, not_lt] at h
  exact h

/-- The middle step of `sin_cos`, on `[0, pi]`. -/
theorem reduce_le {d : Angle} (h : d.toNat ≤ PI.toNat) :
    (if unsignedGt d PI_1_2 then PI - d else d).toNat ≤ PI_1_2.toNat := by
  have hp : PI.toNat = 2 ^ 63 := rfl
  have hh : PI_1_2.toNat = 2 ^ 62 := rfl
  split
  · rename_i hf
    rw [unsignedGt_iff] at hf
    rw [BitVec.toNat_sub_of_le (BitVec.le_def.mpr h)]
    omega
  · rename_i hf
    rw [unsignedGt_iff] at hf
    omega

/-- `sin_cos` reduces the angle to `[0, pi / 4]`; the result is the sine and the cosine. -/
theorem sinCos_eq : (sinCos a : ℝ × ℝ) = (Real.sin (rad a), Real.cos (rad a)) := by
  have hd : (if isNegative a then -a else a).toNat ≤ PI.toNat := by
    split
    · exact toNat_neg_le (by assumption)
    · exact toNat_le_of_not_negative (by assumption)
  have h1 := sinCos_flip (reduce_le hd)
  unfold sinCos
  simp only
  rw [show (Scalar.cos : ℝ → ℝ) = Real.cos from rfl, show (Scalar.sin : ℝ → ℝ) = Real.sin from rfl]
  simp only [h1]
  have h2 : ∀ d : Angle, Real.sin (rad (if unsignedGt d PI_1_2 then PI - d else d)) =
      Real.sin (rad d) := by
    intro d
    split
    · rw [sin_rad_sub, rad_PI, Real.sin_pi_sub]
    · rfl
  have h3 : ∀ d : Angle, (if unsignedGt d PI_1_2 then
      -Real.cos (rad (if unsignedGt d PI_1_2 then PI - d else d)) else
      Real.cos (rad (if unsignedGt d PI_1_2 then PI - d else d))) = Real.cos (rad d) := by
    intro d
    split
    · rw [cos_rad_sub, rad_PI, Real.cos_pi_sub, neg_neg]
    · rfl
  have hneg : rad ZERO = 0 := by simp [rad, ZERO]
  rw [h2, h3]
  by_cases hn : isNegative a = true
  · simp only [hn, if_true]
    have hz : -a = ZERO - a := (BitVec.zero_sub a).symm
    rw [hz, sin_rad_sub, cos_rad_sub, hneg, zero_sub, Real.sin_neg, Real.cos_neg, neg_neg]
  · simp only [hn, Bool.false_eq_true, if_false]

theorem toRadians_half {d : Angle} (h : d.toNat ≤ PI.toNat) :
    (if unsignedGt d PI_1_2 then
        (Real.cos (toRadians (if unsignedGt d PI_1_2 then PI - d else d) / 2),
          Real.sin (toRadians (if unsignedGt d PI_1_2 then PI - d else d) / 2))
      else
        (Real.sin (toRadians (if unsignedGt d PI_1_2 then PI - d else d) / 2),
          Real.cos (toRadians (if unsignedGt d PI_1_2 then PI - d else d) / 2))) =
      (Real.sin (rad d / 2), Real.cos (rad d / 2)) := by
  rw [toRadians_eq (reduce_le h)]
  by_cases hf : unsignedGt d PI_1_2 = true
  · simp only [hf, if_true]
    rw [rad_sub_of_le h, rad_PI, sub_div, Real.cos_pi_div_two_sub, Real.sin_pi_div_two_sub]
  · simp only [hf, Bool.false_eq_true, if_false]

/-- `half_sin_cos`: the sine and the cosine of half the angle. -/
theorem halfSinCos_eq : (halfSinCos a : ℝ × ℝ) = (Real.sin (rad a / 2), Real.cos (rad a / 2)) := by
  have hd : (if isNegative a then -a else a).toNat ≤ PI.toNat := by
    split
    · exact toNat_neg_le (by assumption)
    · exact toNat_le_of_not_negative (by assumption)
  unfold halfSinCos
  simp only
  rw [show (Scalar.cos : ℝ → ℝ) = Real.cos from rfl, show (Scalar.sin : ℝ → ℝ) = Real.sin from rfl]
  simp only [toRadians_half hd]
  by_cases hn : isNegative a = true
  · simp only [hn, if_true]
    have hrad : rad (-a) = 2 * Real.pi - rad a := by
      unfold isNegative at hn
      rw [decide_eq_true_iff, BitVec.lt_def] at hn
      have hlt := a.isLt
      have hneg : (-a).toNat = 2 ^ 64 - a.toNat := by
        rw [BitVec.toNat_neg]
        exact Nat.mod_eq_of_lt (by omega)
      unfold rad
      rw [hneg, Nat.cast_sub hlt.le]
      push_cast
      ring
    rw [hrad, sub_div, mul_div_cancel_left₀ _ (two_ne_zero' ℝ), Real.sin_pi_sub, Real.cos_pi_sub,
      neg_neg]
  · simp only [hn, Bool.false_eq_true, if_false]

/-! ## Angles of numbers -/

/-- Rounding moves a number by at most a half. -/
theorem roundTiesEven_error (x : ℝ) : |(roundTiesEven x : ℝ) - x| ≤ 1 / 2 := by
  have hlo := Int.floor_le x
  have hhi := Int.lt_floor_add_one x
  unfold roundTiesEven
  simp only [Scalar.floor]
  rw [abs_le]
  split_ifs <;> push_cast <;> constructor <;> linarith

/-- An integer that is nearer than a half is the one that is rounded to. -/
theorem roundTiesEven_eq {x : ℝ} {n : ℤ} (h : |x - n| < 1 / 2) : roundTiesEven x = n := by
  have herr := roundTiesEven_error x
  rw [abs_lt] at h
  rw [abs_le] at herr
  have hlt : ((roundTiesEven x : ℤ) : ℝ) < (n + 1 : ℤ) := by push_cast; linarith
  have hgt : ((n - 1 : ℤ) : ℝ) < (roundTiesEven x : ℤ) := by push_cast; linarith
  have hlt' := Int.cast_lt.mp hlt
  have hgt' := Int.cast_lt.mp hgt
  omega

/-- Turns that are near a multiple of `2 ^ -52` give the angle of the multiple. -/
theorem fromTurns_near {v : ℝ} {k : ℕ} (h0 : 0 < k) (hk : k < 2 ^ 52) (h : |2 ^ 52 * v - k| < 1 / 4) :
    fromTurns v = BitVec.ofNat 64 (2 ^ 12 * k) := by
  have h1 : (1 : ℝ) ≤ k := by exact_mod_cast h0
  have h2 : (k : ℝ) + 1 ≤ 2 ^ 52 := by exact_mod_cast hk
  obtain ⟨hlo, hhi⟩ := abs_lt.mp h
  have hpos : 0 < v := by linarith
  have hfloor : ⌊v⌋ = 0 := Int.floor_eq_zero_iff.mpr ⟨hpos.le, by linarith⟩
  obtain ⟨hulo, huhi⟩ := abs_le.mp (roundTiesEven_error (2 ^ 64 * v))
  have hmantissa : roundTiesEven ((roundTiesEven (2 ^ 64 * v) : ℝ) / 2 ^ 12) = k := by
    refine roundTiesEven_eq ?_
    rw [abs_lt]
    push_cast
    constructor <;> linarith
  unfold fromTurns
  simp only [abs_of_pos hpos, Scalar.floor, hfloor, Int.cast_zero, sub_zero, hmantissa, if_neg hpos.not_gt]
  exact BitVec.ofInt_natCast 64 (2 ^ 12 * k)

end Angle

/-- `Complex::from_arg` is a point of the unit circle. -/
@[simp] theorem Cplx.toC_fromArg (a : Angle) : (Cplx.fromArg a : Cplx ℝ).toC = a.phase := by
  unfold Cplx.fromArg
  rw [Angle.sinCos_eq, Angle.phase_eq]
  rfl

end Qblaze
