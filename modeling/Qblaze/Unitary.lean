import Qblaze.Lib.OneQubit
import Qblaze.Exact
import Qblaze.Rotation

/-!
# The matrices of the gates

A `U3` is the matrix that `U4::from` makes of it, with exact sines and cosines, and it matters up to
a global phase. Angles wrap at a full turn and half angles change their sign when they do, so that
every law of the angles holds for the matrices up to a sign.

* `new_mat`: `U3::new` preserves the gate, and its `theta` is in `[0, pi]`.
* `fromYZY_mat`, `compose_mat`: the closed forms of `from_yzy` are products of matrices.
* `lowerRow_eq`: on the last branch of `from_yzy`, the row that the angles are computed from.
* `u3_semantics`: all of it, with the inverse and the decompositions.
-/

namespace Qblaze

open Angle

/-! ## Half angles -/

namespace Angle

/-- The rotation around the Y axis. -/
noncomputable def rotY (a : Angle) : Mat := Mat.rot (rad a / 2)

/-- The rotation around the Z axis, with the phase on `true`. -/
noncomputable def rotZ (a : Angle) : Mat := Mat.diag (phase a)

theorem rotZ_add (a b : Angle) : rotZ (a + b) = rotZ a * rotZ b := by
  rw [rotZ, phase_add, ← Mat.diag_mul]
  rfl

theorem rotZ_zero : rotZ ZERO = 1 := by
  rw [rotZ, phase_zero, Mat.diag_one]

theorem rotZ_PI : rotZ PI = Mat.diag (-1) := by
  rw [rotZ, phase_PI]

theorem rotY_zero : rotY ZERO = 1 := by
  rw [rotY, show rad ZERO / 2 = 0 by simp [rad, ZERO], Mat.rot_zero]

theorem rotY_PI : rotY PI = Mat.rot (Real.pi / 2) := by
  rw [rotY, rad_PI]

theorem rotY_add (a b : Angle) : UpToPhase (rotY a * rotY b) (rotY (a + b)) := by
  obtain ⟨k, hk⟩ := rad_add a b
  rw [rotY, rotY, rotY, Mat.rot_mul, ← add_div, hk, add_div,
    show (k * (2 * Real.pi) / 2 : ℝ) = k * Real.pi by ring]
  exact Mat.rot_add_pi _ k

theorem rotY_neg (a : Angle) : UpToPhase (rotY (-a)) (Mat.rot (-(rad a / 2))) := by
  have h := rotY_add (-a) a
  rw [neg_add_cancel, show (0 : Angle) = ZERO from rfl, rotY_zero] at h
  have hm := h.mul (UpToPhase.refl (Mat.rot (-(rad a / 2))))
  rw [Matrix.mul_assoc, rotY, rotY, Mat.rot_mul, add_neg_cancel, Mat.rot_zero, Matrix.mul_one,
    Matrix.one_mul] at hm
  exact hm

/-- A half turn around the Z axis inverts a rotation around the Y axis. -/
theorem rotZ_PI_rotY (a : Angle) : UpToPhase (rotZ PI * rotY a) (rotY (-a) * rotZ PI) := by
  rw [rotZ_PI, rotY, ← Mat.rot_diag_neg]
  exact (rotY_neg a).symm.mul (UpToPhase.refl _)

theorem rotY_PI_rotZ (a : Angle) : UpToPhase (rotY PI * rotZ a) (rotZ (-a) * rotY PI) := by
  have h : phase a * phase (-a) = 1 := by rw [mul_comm, phase_neg_mul]
  rw [rotY_PI, rotZ, rotZ, Mat.rot_diag_of_exchange Real.cos_pi_div_two Real.sin_pi_div_two h]
  exact UpToPhase.smul (norm_phase a) _

end Angle

/-! ## The matrix of a gate -/

namespace U3

/-- The matrix of a gate. -/
noncomputable def mat (g : U3) : Mat := rotZ g.phi * rotY g.theta * rotZ g.lambda

/-- The entries of the matrix. -/
theorem mat_eq (g : U3) : g.mat = Mat.mk (Real.cos (rad g.theta / 2))
    (-(phase g.lambda * Real.sin (rad g.theta / 2))) (phase g.phi * Real.sin (rad g.theta / 2))
    (phase (g.phi + g.lambda) * Real.cos (rad g.theta / 2)) := by
  rw [mat, rotZ, rotZ, rotY, Mat.diag, Mat.diag, Mat.rot, Mat.mk_mul, Mat.mk_mul, phase_add]
  congr 1 <;> ring

/-- The matrix that `U4::from` makes. -/
theorem ofU3_mat (g : U3) : g.mat = Mat.mk (U4.ofU3 g : U4 ℝ).v00.toC (U4.ofU3 g : U4 ℝ).v11.toC
    (U4.ofU3 g : U4 ℝ).v01.toC (U4.ofU3 g : U4 ℝ).v10.toC := by
  rw [mat_eq, U4.ofU3, halfSinCos_eq]
  simp only [Cplx.toC_scale, Cplx.toC_fromArg, Cplx.toC_ofScalar]
  push_cast
  congr 1
  ring

theorem mat_unitary (g : U3) : g.mat ∈ Matrix.unitaryGroup Bool ℂ :=
  mul_mem (mul_mem (Mat.diag_unitary (norm_phase _)) (Mat.rot_unitary _))
    (Mat.diag_unitary (norm_phase _))

theorem mat_rz (a : Angle) : (rz a).mat = rotZ a := by
  rw [mat, rz, rotY_zero, rotZ_zero, Matrix.mul_one, Matrix.mul_one]

/-- `U3::new` preserves the gate. -/
theorem new_mat (t p l : Angle) : UpToPhase (new t p l).mat (rotZ p * rotY t * rotZ l) := by
  rcases new_cases t p l with ⟨rfl, he⟩ | ⟨rfl, he⟩ | ⟨-, -, -, he⟩ | ⟨-, -, -, he⟩
  · rw [he, mat, rotY_zero, rotZ_zero, Matrix.mul_one, Matrix.mul_one, Matrix.mul_one, rotZ_add]
    exact UpToPhase.refl _
  · rw [he, mat, rotZ_zero, Matrix.mul_one, sub_eq_add_neg, rotZ_add, Matrix.mul_assoc,
      Matrix.mul_assoc]
    exact (UpToPhase.refl _).mul (rotY_PI_rotZ l).symm
  · rw [he, mat, add_comm l PI, rotZ_add, rotZ_add]
    have h := (rotZ_PI_rotY (-t)).mul (UpToPhase.refl (rotZ PI))
    rw [neg_neg, Matrix.mul_assoc (rotY t), ← rotZ_add, PI_add_PI, show (0 : Angle) = ZERO from rfl,
      rotZ_zero, Matrix.mul_one] at h
    have hm := ((UpToPhase.refl (rotZ p)).mul h).mul (UpToPhase.refl (rotZ l))
    simpa only [Matrix.mul_assoc] using hm
  · rw [he]
    exact UpToPhase.refl _

theorem new_theta_le (t p l : Angle) : (new t p l).theta.toNat ≤ PI.toNat := by
  rcases new_cases t p l with ⟨-, he⟩ | ⟨-, he⟩ | ⟨-, -, hn, he⟩ | ⟨-, -, hn, he⟩
  · rw [he]
    exact (by decide : ZERO.toNat ≤ PI.toNat)
  · rw [he]
  · rw [he]
    exact toNat_neg_le hn
  · rw [he]
    exact toNat_le_of_not_negative (by rw [hn]; exact Bool.false_ne_true)

/-! ## Composition -/

/-- The branches of `from_yzy` before the last one. -/
def ClosedForm (ry1 rz ry2 : Angle) : Prop :=
  rz = ZERO ∨ rz = PI ∨ ry1 = ZERO ∨ ry1 = PI ∨ ry2 = ZERO ∨ ry2 = PI ∨
    (ry1 = PI_1_2 ∧ ry2 = PI_1_2)

instance (ry1 rz ry2 : Angle) : Decidable (ClosedForm ry1 rz ry2) :=
  inferInstanceAs (Decidable (_ ∨ _))

/-- The other calls of `from_yzy` take the last branch. -/
theorem fromYZY_of_not_closedForm {F : Type} [Field F] [LinearOrder F] [Scalar F]
    {ry1 rz ry2 : Angle} (h : ¬ ClosedForm ry1 rz ry2) :
    fromYZY F ry1 rz ry2 = fromMatrix F ry1 rz ry2 := by
  simp only [ClosedForm, not_or] at h
  obtain ⟨h1, h2, h3, h4, h5, h6, h7⟩ := h
  rw [fromYZY, if_neg h1, if_neg h2, if_neg h3, if_neg h4, if_neg h5, if_neg h6, if_neg h7]

/-- A phase between two quarter turns around the Y axis. -/
theorem rotY_rotZ_rotY (z : Angle) : rotY PI_1_2 * rotZ z * rotY PI_1_2 =
    Mat.mk ((1 - phase z) / 2) (-(1 + phase z) / 2) ((1 + phase z) / 2) ((phase z - 1) / 2) := by
  have hr : ((Real.sqrt 2 / 2 : ℝ) : ℂ) * ((Real.sqrt 2 / 2 : ℝ) : ℂ) = 1 / 2 := by
    rw [← Complex.ofReal_mul, show Real.sqrt 2 / 2 * (Real.sqrt 2 / 2) = 1 / 2 by
      rw [div_mul_div_comm, Real.mul_self_sqrt two_pos.le]; norm_num]
    norm_num
  rw [rotY, rotZ, rad_PI_1_2, show Real.pi / 2 / 2 = Real.pi / 4 by ring, Mat.rot, Mat.diag,
    Real.cos_pi_div_four, Real.sin_pi_div_four, Mat.mk_mul, Mat.mk_mul]
  congr 1
  · linear_combination (1 - phase z) * hr
  · linear_combination (-1 - phase z) * hr
  · linear_combination (1 + phase z) * hr
  · linear_combination (phase z - 1) * hr

/-- Between two quarter turns around the Y axis, a rotation around the Z axis is one around the X
axis. -/
theorem rotY_quarter (z : Angle) :
    UpToPhase (rotZ PI_1_2 * rotY (PI - z) * rotZ PI_1_2) (rotY PI_1_2 * rotZ z * rotY PI_1_2) := by
  obtain ⟨k, hk⟩ := rad_sub PI z
  have hs : UpToPhase (rotY (PI - z)) (Mat.rot (Real.pi / 2 - rad z / 2)) := by
    rw [rotY, hk, rad_PI, add_div, show (k * (2 * Real.pi) / 2 : ℝ) = k * Real.pi by ring, sub_div]
    exact Mat.rot_add_pi _ k
  refine (((UpToPhase.refl _).mul hs).mul (UpToPhase.refl _)).trans ?_
  have hone : (Real.sin (rad z / 2) : ℂ) ^ 2 + (Real.cos (rad z / 2) : ℂ) ^ 2 = 1 := by
    exact_mod_cast Real.sin_sq_add_cos_sq (rad z / 2)
  have hphase : phase z = (Real.cos (rad z / 2) + Real.sin (rad z / 2) * Complex.I) ^ 2 := by
    rw [Complex.ofReal_cos, Complex.ofReal_sin, ← Complex.exp_mul_I, ← Complex.exp_nat_mul, phase]
    congr 1
    push_cast
    ring
  rw [rotY_rotZ_rotY, rotZ, phase_PI_1_2, Mat.rot, Mat.diag, Real.cos_pi_div_two_sub,
    Real.sin_pi_div_two_sub, Mat.mk_mul, Mat.mk_mul, hphase]
  -- the sides differ by the phase of the half angle and a quarter turn
  refine ⟨Real.sin (rad z / 2) + Real.cos (rad z / 2) * Complex.I, ?_, ?_⟩
  · rw [Complex.norm_add_mul_I, Real.sin_sq_add_cos_sq, Real.sqrt_one]
  · rw [Mat.smul_mk]
    generalize (Real.sin (rad z / 2) : ℂ) = s at hone ⊢
    generalize (Real.cos (rad z / 2) : ℂ) = c at hone ⊢
    have hI : Complex.I ^ 2 = -1 := Complex.I_sq
    have hsub : 1 - (c + s * Complex.I) ^ 2 = -2 * s * Complex.I * (c + s * Complex.I) := by
      linear_combination -hone + s ^ 2 * hI
    have hadd : 1 + (c + s * Complex.I) ^ 2 = 2 * c * (c + s * Complex.I) := by
      linear_combination -hone + s ^ 2 * hI
    have hprod : (s + c * Complex.I) * (c + s * Complex.I) = Complex.I := by
      linear_combination Complex.I * hone + s * c * hI
    generalize hf : s + c * Complex.I = f at hprod ⊢
    congr 1
    · linear_combination -(f / 2) * hsub + s * Complex.I * hprod + s * hI
    · linear_combination f / 2 * hadd + c * hprod
    · linear_combination -(f / 2) * hadd - c * hprod
    · linear_combination f / 2 * hsub - s * Complex.I * hprod

/-- The closed forms of `from_yzy`. -/
theorem fromYZY_mat {F : Type} [Field F] [LinearOrder F] [Scalar F] {ry1 rz ry2 : Angle}
    (h : ClosedForm ry1 rz ry2) :
    UpToPhase (fromYZY F ry1 rz ry2).mat (rotY ry2 * rotZ rz * rotY ry1) := by
  have hform : ∀ {t p l : Angle}, fromYZY F ry1 rz ry2 = new t p l →
      UpToPhase (rotZ p * rotY t * rotZ l) (rotY ry2 * rotZ rz * rotY ry1) →
      UpToPhase (fromYZY F ry1 rz ry2).mat (rotY ry2 * rotZ rz * rotY ry1) := fun {t p l} he hm => by
    rw [he]
    exact (new_mat t p l).trans hm
  rcases h with rfl | rfl | rfl | rfl | rfl | rfl | ⟨rfl, rfl⟩
  · refine hform (fromYZY_zero _ _) ?_
    rw [rotZ_zero, Matrix.one_mul, Matrix.mul_one, Matrix.mul_one, add_comm]
    exact (rotY_add ry2 ry1).symm
  · refine hform (fromYZY_pi _ _) ?_
    rw [rotZ_zero, Matrix.one_mul, sub_eq_add_neg, Matrix.mul_assoc]
    refine ((rotY_add ry2 (-ry1)).symm.mul (UpToPhase.refl _)).trans ?_
    rw [Matrix.mul_assoc]
    exact (UpToPhase.refl _).mul (rotZ_PI_rotY ry1).symm
  · refine hform (fromYZY_zero_left _ _) ?_
    rw [rotZ_zero, Matrix.one_mul, rotY_zero, Matrix.mul_one]
    exact UpToPhase.refl _
  · refine hform (fromYZY_pi_left _ _) ?_
    rw [rotZ_zero, Matrix.one_mul, Matrix.mul_assoc]
    refine ((rotY_add ry2 PI).symm.mul (UpToPhase.refl _)).trans ?_
    have h := rotY_PI_rotZ (-rz)
    rw [neg_neg] at h
    rw [Matrix.mul_assoc]
    exact (UpToPhase.refl _).mul h
  · refine hform (fromYZY_zero_right _ _) ?_
    rw [rotZ_zero, Matrix.mul_one, rotY_zero, Matrix.one_mul]
    exact UpToPhase.refl _
  · refine hform (fromYZY_pi_right _ _) ?_
    rw [rotZ_zero, Matrix.mul_one, add_comm]
    refine ((UpToPhase.refl _).mul (rotY_add PI ry1).symm).trans ?_
    rw [← Matrix.mul_assoc]
    exact (rotY_PI_rotZ rz).symm.mul (UpToPhase.refl _)
  · exact hform (fromYZY_half _) (rotY_quarter rz)

/-- `compose` is the product of the matrices where `from_yzy` is. -/
theorem compose_mat_of_fromYZY (F : Type) [Field F] [LinearOrder F] [Scalar F] {a b : U3}
    (h : UpToPhase (fromYZY F a.theta (a.phi + b.lambda) b.theta).mat
      (rotY b.theta * rotZ (a.phi + b.lambda) * rotY a.theta)) :
    UpToPhase (compose F a b).mat (b.mat * a.mat) := by
  refine (new_mat _ _ _).trans ?_
  have hm := ((UpToPhase.refl (rotZ b.phi)).mul h).mul (UpToPhase.refl (rotZ a.lambda))
  rw [add_comm a.phi b.lambda, rotZ_add b.lambda] at hm
  rw [mat, mat, add_comm _ b.phi, add_comm a.lambda, rotZ_add, rotZ_add, add_comm a.phi b.lambda]
  rw [mat] at hm
  simpa only [Matrix.mul_assoc] using hm

theorem compose_mat (F : Type) [Field F] [LinearOrder F] [Scalar F] {a b : U3}
    (h : ClosedForm a.theta (a.phi + b.lambda) b.theta) :
    UpToPhase (compose F a b).mat (b.mat * a.mat) :=
  compose_mat_of_fromYZY F (fromYZY_mat h)

/-! ## The inverse and the decompositions -/

theorem rotY_inverse (a : Angle) : UpToPhase (rotY (-a) * rotY a) 1 := by
  have h := rotY_add (-a) a
  rw [neg_add_cancel, show (0 : Angle) = ZERO from rfl, rotY_zero] at h
  exact h

theorem rotZ_inverse (a : Angle) : rotZ (-a) * rotZ a = 1 := by
  rw [← rotZ_add, neg_add_cancel, show (0 : Angle) = ZERO from rfl, rotZ_zero]

/-- `U3::adjoint` is the inverse, on both sides. -/
theorem adjoint_mat (g : U3) :
    UpToPhase (g.adjoint.mat * g.mat) 1 ∧ UpToPhase (g.mat * g.adjoint.mat) 1 := by
  have hnew := new_mat (-g.theta) (-g.lambda) (-g.phi)
  have hneg : ∀ a : Angle, rotZ a * rotZ (-a) = 1 := fun a => by
    have h := rotZ_inverse (-a)
    rwa [neg_neg] at h
  have hnegY : UpToPhase (rotY g.theta * rotY (-g.theta)) 1 := by
    have h := rotY_inverse (-g.theta)
    rwa [neg_neg] at h
  constructor
  · refine (hnew.mul (UpToPhase.refl g.mat)).trans ?_
    have h := ((UpToPhase.refl (rotZ (-g.lambda))).mul (rotY_inverse g.theta)).mul
      (UpToPhase.refl (rotZ g.lambda))
    rw [Matrix.mul_one, rotZ_inverse] at h
    have he : rotZ (-g.lambda) * rotY (-g.theta) * rotZ (-g.phi) * g.mat =
        rotZ (-g.lambda) * (rotY (-g.theta) * rotY g.theta) * rotZ g.lambda := by
      rw [mat, Matrix.mul_assoc, Matrix.mul_assoc (rotZ g.phi), ← Matrix.mul_assoc (rotZ (-g.phi)),
        rotZ_inverse, Matrix.one_mul]
      simp only [Matrix.mul_assoc]
    rw [he]
    exact h
  · refine ((UpToPhase.refl g.mat).mul hnew).trans ?_
    have h := ((UpToPhase.refl (rotZ g.phi)).mul hnegY).mul (UpToPhase.refl (rotZ (-g.phi)))
    rw [Matrix.mul_one, hneg] at h
    have he : g.mat * (rotZ (-g.lambda) * rotY (-g.theta) * rotZ (-g.phi)) =
        rotZ g.phi * (rotY g.theta * rotY (-g.theta)) * rotZ (-g.phi) := by
      rw [mat, Matrix.mul_assoc, ← Matrix.mul_assoc (rotZ g.lambda),
        ← Matrix.mul_assoc (rotZ g.lambda), hneg, Matrix.one_mul]
      simp only [Matrix.mul_assoc]
    rw [he]
    exact h

theorem mat_X : X.mat = rotZ PI * rotY PI := by
  rw [mat, X, rotZ_zero, Matrix.mul_one]

theorem mat_rx (a : Angle) : UpToPhase (rx a).mat (rotZ PI_3_2 * rotY a * rotZ PI_1_2) :=
  new_mat a PI_3_2 PI_1_2

theorem mat_H : H.mat = rotY PI_1_2 * rotZ PI := by
  rw [mat, H, rotZ_zero, Matrix.one_mul]

end U3

namespace Angle

theorem rotZ_diag (a : Angle) (b : Bool) : rotZ a (!b) b = 0 := by
  cases b <;> rfl

/-- The rotation around the X axis, as a matrix that treats both values alike. -/
noncomputable def rotX (a : Angle) : Mat := rotZ PI_3_2 * rotY a * rotZ PI_1_2

theorem rotX_eq (a : Angle) : rotX a = Mat.mk (Real.cos (rad a / 2))
    (-(Complex.I * Real.sin (rad a / 2))) (-(Complex.I * Real.sin (rad a / 2)))
    (Real.cos (rad a / 2)) := by
  have h := U3.mat_eq ⟨a, PI_3_2, PI_1_2⟩
  rw [U3.mat] at h
  rw [rotX, h, phase_add, phase_PI_1_2, phase_PI_3_2]
  congr 1
  · ring
  · rw [neg_mul, Complex.I_mul_I, neg_neg, one_mul]

theorem rotX_zero : rotX ZERO = 1 := by
  rw [rotX, rotY_zero, Matrix.mul_one, ← rotZ_add, show PI_3_2 + PI_1_2 = ZERO by decide, rotZ_zero]

end Angle

namespace U3

variable {g : U3} {a b : Angle} {prec : Nat}

/-- `to_cx_rz`, with the angle that was rounded. -/
theorem toCxRz_mat {c : Bool} (hfix : Fixed prec g.theta) (h : g.toCxRz prec = some (c, a)) :
    UpToPhase g.mat (rotZ a * if c then X.mat else 1) := by
  unfold toCxRz at h
  rw [hfix] at h
  simp only at h
  split at h
  · rename_i ht
    cases h
    rw [mat, ht, rotY_zero, Matrix.mul_one, rotZ_add, if_neg Bool.false_ne_true, Matrix.mul_one]
    exact UpToPhase.refl _
  · rename_i ht0
    split at h
    · rename_i ht
      cases h
      rw [mat, ht, if_pos rfl, mat_X, ← Matrix.mul_assoc, ← rotZ_add,
        show PI + g.phi - g.lambda + PI = g.phi + -g.lambda by linear_combination PI_add_PI, rotZ_add,
        Matrix.mul_assoc, Matrix.mul_assoc]
      exact (UpToPhase.refl _).mul (rotY_PI_rotZ g.lambda)
    · cases h

/-- `to_rz_rx`, with the angles that were rounded. -/
theorem toRzRx_mat (hfix : Fixed prec g.theta) (hphi : Fixed prec g.phi)
    (h : g.toRzRx prec = some (a, b)) : UpToPhase g.mat ((rx b).mat * rotZ a) := by
  have hrx : ∀ x : Angle, UpToPhase ((rx b).mat * rotZ x)
      (rotZ PI_3_2 * rotY b * rotZ (PI_1_2 + x)) := fun x => by
    have hm := (mat_rx b).mul (UpToPhase.refl (rotZ x))
    rw [Matrix.mul_assoc _ _ (rotZ x), ← rotZ_add] at hm
    exact hm
  refine UpToPhase.trans ?_ (hrx a).symm
  unfold toRzRx at h
  rw [hfix, hphi] at h
  simp only at h
  split at h
  · rename_i ht
    cases h
    rw [mat, ht, rotY_zero, Matrix.mul_one, Matrix.mul_one, ← rotZ_add, ← rotZ_add,
      show PI_3_2 + (PI_1_2 + (g.phi + g.lambda)) = PI_3_2 + PI_1_2 + (g.phi + g.lambda) by ring,
      show PI_3_2 + PI_1_2 + (g.phi + g.lambda) = g.phi + g.lambda from zero_add _]
    exact UpToPhase.refl _
  split at h
  · rename_i ht
    cases h
    have hm := (UpToPhase.refl (rotZ PI_3_2)).mul (rotY_PI_rotZ (PI_1_2 + (PI - g.phi + g.lambda)))
    have hl := (UpToPhase.refl (rotZ g.phi)).mul (rotY_PI_rotZ g.lambda)
    have hc : PI_3_2 + -(PI_1_2 + (PI - g.phi + g.lambda)) = g.phi + -g.lambda := by
      rw [show PI_3_2 + -(PI_1_2 + (PI - g.phi + g.lambda)) =
        PI_3_2 - PI_1_2 - PI + (g.phi + -g.lambda) by ring]
      exact zero_add _
    rw [← Matrix.mul_assoc, ← Matrix.mul_assoc, ← rotZ_add, hc] at hm
    rw [← Matrix.mul_assoc, ← Matrix.mul_assoc, ← rotZ_add] at hl
    rw [mat, ht]
    exact hl.trans hm.symm
  split at h
  · rename_i hp
    cases h
    rw [mat, hp, add_sub_cancel]
    exact UpToPhase.refl _
  split at h
  · rename_i hp
    rw [Option.some.injEq, Prod.mk.injEq] at h
    obtain ⟨rfl, rfl⟩ := h
    -- a half turn on each side inverts the rotation
    have hl : rotZ (PI_1_2 + (g.lambda + PI_1_2)) = rotZ PI * rotZ g.lambda := by
      rw [← rotZ_add, ← PI_1_2_add_PI_1_2,
        show PI_1_2 + (g.lambda + PI_1_2) = PI_1_2 + PI_1_2 + g.lambda by ring]
    have hm := ((UpToPhase.refl (rotZ PI_3_2)).mul (rotZ_PI_rotY g.theta)).mul
      (UpToPhase.refl (rotZ g.lambda))
    rw [← Matrix.mul_assoc, ← rotZ_add, show PI_3_2 + PI = PI_1_2 by decide] at hm
    rw [mat, hp, hl]
    simpa only [Matrix.mul_assoc] using hm
  · cases h

/-- `to_rz_h_rz`, with the angle that was rounded. -/
theorem toRzHRz_mat (hfix : Fixed prec g.theta) (h : g.toRzHRz prec = some (a, b)) :
    UpToPhase g.mat (rotZ b * H.mat * rotZ a) := by
  unfold toRzHRz at h
  rw [hfix] at h
  split at h
  · cases h
  · rename_i ht
    cases h
    rw [not_not] at ht
    rw [mat, ht, mat_H, Matrix.mul_assoc, Matrix.mul_assoc, Matrix.mul_assoc, ← rotZ_add, add_sub_cancel]
    exact UpToPhase.refl _

end U3

/-! ## The last branch of `from_yzy` -/

namespace Angle

variable {a b : Angle}

/-- Between `0` and `pi`. -/
def Proper (a : Angle) : Prop := 0 < a.toNat ∧ a.toNat < PI.toNat

theorem toNat_shift (a : Angle) : (a + (PI - 1#64)).toNat = (a.toNat + (2 ^ 63 - 1)) % 2 ^ 64 := by
  rw [BitVec.toNat_add]
  rfl

theorem signedGt_iff (ha : a.Proper) (hb : b.Proper) : signedGt a b = true ↔ b.toNat < a.toNat := by
  obtain ⟨ha0, hap⟩ := ha
  obtain ⟨hb0, hbp⟩ := hb
  have hp : PI.toNat = 2 ^ 63 := rfl
  rw [hp] at hap hbp
  unfold signedGt
  rw [decide_eq_true_iff, BitVec.lt_def, toNat_shift, toNat_shift, Nat.mod_eq_of_lt (by omega),
    Nat.mod_eq_of_lt (by omega)]
  omega

theorem signedGt_neg (ha : a.Proper) (hb : b.Proper) : signedGt a (-b) = true := by
  obtain ⟨ha0, hap⟩ := ha
  obtain ⟨hb0, hbp⟩ := hb
  have hp : PI.toNat = 2 ^ 63 := rfl
  rw [hp] at hap hbp
  unfold signedGt
  rw [decide_eq_true_iff, BitVec.lt_def, toNat_shift, toNat_shift, BitVec.toNat_neg,
    Nat.mod_eq_of_lt (by omega : 2 ^ 64 - b.toNat < 2 ^ 64),
    Nat.mod_eq_of_lt (by omega : a.toNat + (2 ^ 63 - 1) < 2 ^ 64)]
  omega

theorem halfDiffSinCos_of_gt (h : signedGt a b = true) :
    (halfDiffSinCos a b : ℝ × ℝ) = halfSinCos (a - b) := by
  rw [halfDiffSinCos]
  simp only [h, Bool.not_true, Bool.false_eq_true, if_false]

theorem halfDiffSinCos_of_not_gt (h : signedGt a b = false) :
    (halfDiffSinCos a b : ℝ × ℝ) = (-(halfSinCos (b - a) : ℝ × ℝ).1, (halfSinCos (b - a)).2) := by
  rw [halfDiffSinCos]
  simp only [h, Bool.not_false, if_true]

/-- `half_diff_sin_cos`: half the difference of the angles, with its sign. -/
theorem halfDiffSinCos_eq (ha : a.Proper) (hb : b.Proper) : (halfDiffSinCos a b : ℝ × ℝ) =
    (Real.sin ((rad a - rad b) / 2), Real.cos ((rad a - rad b) / 2)) := by
  by_cases h : b.toNat < a.toNat
  · rw [halfDiffSinCos_of_gt ((signedGt_iff ha hb).mpr h), halfSinCos_eq, rad_sub_of_le h.le]
  · have hgt : signedGt a b = false := Bool.eq_false_iff.mpr fun hs => h ((signedGt_iff ha hb).mp hs)
    rw [halfDiffSinCos_of_not_gt hgt, halfSinCos_eq, rad_sub_of_le (Nat.le_of_not_lt h),
      show (rad b - rad a) / 2 = -((rad a - rad b) / 2) by ring, Real.sin_neg, Real.cos_neg, neg_neg]

/-- `half_sum_sin_cos`: half the sum of the angles. -/
theorem halfSumSinCos_eq (ha : a.Proper) (hb : b.Proper) : (halfSumSinCos a b : ℝ × ℝ) =
    (Real.sin ((rad a + rad b) / 2), Real.cos ((rad a + rad b) / 2)) := by
  have hsum : rad (a + b) = rad a + rad b := by
    have hlt : a.toNat + b.toNat < 2 ^ 64 := by
      have hp : PI.toNat = 2 ^ 63 := rfl
      have ha' := ha.2
      have hb' := hb.2
      omega
    unfold rad
    rw [BitVec.toNat_add, Nat.mod_eq_of_lt hlt]
    push_cast
    ring
  rw [halfSumSinCos, halfDiffSinCos_of_gt (signedGt_neg ha hb), sub_neg_eq_add, halfSinCos_eq, hsum]

end Angle

namespace U3

/-- The rotation around the Z axis with determinant one. -/
noncomputable def detRz (a : Angle) : Mat :=
  Mat.mk (Complex.exp (-(rad a / 2 : ℝ) * Complex.I)) 0 0 (Complex.exp ((rad a / 2 : ℝ) * Complex.I))

/-- The lower row of a product of rotations with determinant one. -/
theorem lowerRow_product (x y : ℝ) (z : Angle) :
    (Mat.rot y * detRz z * Mat.rot x) true false =
      (⟨Real.cos (rad z / 2) * Real.sin (x + y), Real.sin (rad z / 2) * Real.sin (x - y)⟩ : ℂ) ∧
    (Mat.rot y * detRz z * Mat.rot x) true true =
      (⟨Real.cos (rad z / 2) * Real.cos (x + y), Real.sin (rad z / 2) * Real.cos (x - y)⟩ : ℂ) := by
  rw [Mat.rot, Mat.rot, detRz, Mat.mk_mul, Mat.mk_mul, Mat.mk_true_false, Mat.mk_true_true,
    Complex.mk_eq_add_mul_I, Complex.mk_eq_add_mul_I, ← Complex.ofReal_neg, Complex.exp_mul_I,
    Complex.exp_mul_I, ← Complex.ofReal_cos, ← Complex.ofReal_sin, ← Complex.ofReal_cos,
    ← Complex.ofReal_sin, Real.cos_neg, Real.sin_neg, Real.sin_add, Real.sin_sub, Real.cos_add,
    Real.cos_sub]
  push_cast
  constructor <;> ring

/-- Up to a positive factor, the row is that of the product with determinant one. -/
theorem lowerRow_eq {ry1 ry2 : Angle} (h1 : ry1.Proper) (h2 : ry2.Proper) (rz : Angle) :
    ∃ r : ℝ, 0 < r ∧
      (lowerRow ℝ ry1 rz ry2).1.toC = r * (rotY ry2 * detRz rz * rotY ry1) true false ∧
      (lowerRow ℝ ry1 rz ry2).2.toC = r * (rotY ry2 * detRz rz * rotY ry1) true true := by
  obtain ⟨hm10, hm11⟩ := lowerRow_product (rad ry1 / 2) (rad ry2 / 2) rz
  have hsqrt : Real.sqrt 2 * (Real.sqrt 2 / 2) = 1 := by
    rw [mul_div_assoc', Real.mul_self_sqrt two_pos.le, div_self two_ne_zero]
  have hmul : ∀ r x y : ℝ, (r : ℂ) * (⟨x, y⟩ : ℂ) = ⟨r * x, r * y⟩ := fun r x y => by
    apply Complex.ext <;> simp
  unfold rotY lowerRow
  rw [hm10, hm11, halfDiffSinCos_eq h1 h2, halfSumSinCos_eq h1 h2, add_div, sub_div]
  simp only [hmul]
  split
  · rename_i hz
    refine ⟨Real.sqrt 2, by positivity, ?_⟩
    rw [hz, rad_PI_1_2, show Real.pi / 2 / 2 = Real.pi / 4 by ring, Real.cos_pi_div_four,
      Real.sin_pi_div_four]
    simp only [← mul_assoc, hsqrt, one_mul]
    exact ⟨rfl, rfl⟩
  split
  · rename_i hz
    have h3 : rad PI_3_2 / 2 = Real.pi - Real.pi / 4 := by
      unfold rad PI_3_2
      norm_num
      ring
    refine ⟨Real.sqrt 2, by positivity, ?_⟩
    rw [hz, h3, Real.cos_pi_sub, Real.sin_pi_sub, Real.cos_pi_div_four, Real.sin_pi_div_four]
    simp only [neg_mul, mul_neg, ← mul_assoc, hsqrt, one_mul]
    exact ⟨rfl, rfl⟩
  · refine ⟨1, one_pos, ?_⟩
    rw [halfSinCos_eq]
    simp only [one_mul]
    exact ⟨rfl, rfl⟩

/-- The gates as matrices, up to a global phase: what `U4::from` makes of a gate, `U3::new`, the
inverse, the decompositions, `compose` on the closed forms of `from_yzy`, and the row that the last
branch computes the angles from. -/
theorem u3_semantics :
    (∀ g : U3, g.mat = Mat.mk (U4.ofU3 g : U4 ℝ).v00.toC (U4.ofU3 g : U4 ℝ).v11.toC
      (U4.ofU3 g : U4 ℝ).v01.toC (U4.ofU3 g : U4 ℝ).v10.toC) ∧
    (∀ t p l : Angle, UpToPhase (new t p l).mat (U3.mk t p l).mat ∧
      (new t p l).theta.toNat ≤ PI.toNat) ∧
    (∀ g : U3, UpToPhase (g.adjoint.mat * g.mat) 1 ∧ UpToPhase (g.mat * g.adjoint.mat) 1) ∧
    (∀ (g : U3) (prec : Nat), 64 ≤ prec →
      (∀ c a, g.toCxRz prec = some (c, a) →
        UpToPhase g.mat ((rz a).mat * if c then X.mat else 1)) ∧
      (∀ a b, g.toRzRx prec = some (a, b) → UpToPhase g.mat ((rx b).mat * (rz a).mat)) ∧
      (∀ a b, g.toRzHRz prec = some (a, b) →
        UpToPhase g.mat ((rz b).mat * H.mat * (rz a).mat))) ∧
    (∀ a b : U3, ClosedForm a.theta (a.phi + b.lambda) b.theta →
      UpToPhase (compose ℝ a b).mat (b.mat * a.mat)) ∧
    (∀ ry1 rz ry2 : Angle, ¬ ClosedForm ry1 rz ry2 → ry1.Proper → ry2.Proper →
      fromYZY ℝ ry1 rz ry2 = fromMatrix ℝ ry1 rz ry2 ∧
      ∃ r : ℝ, 0 < r ∧
        (lowerRow ℝ ry1 rz ry2).1.toC = r * (rotY ry2 * detRz rz * rotY ry1) true false ∧
        (lowerRow ℝ ry1 rz ry2).2.toC = r * (rotY ry2 * detRz rz * rotY ry1) true true) := by
  refine ⟨ofU3_mat, fun t p l => ⟨new_mat t p l, new_theta_le t p l⟩, adjoint_mat,
    fun g prec hp => ?_, fun a b h => compose_mat ℝ h,
    fun ry1 rz ry2 h h1 h2 => ⟨fromYZY_of_not_closedForm h, lowerRow_eq h1 h2 rz⟩⟩
  have hfix : ∀ x : Angle, Fixed prec x := fun x => by rw [Fixed, Angle.round, if_pos hp]
  refine ⟨fun c a h => ?_, fun a b h => ?_, fun a b h => ?_⟩
  · rw [mat_rz]
    exact toCxRz_mat (hfix _) h
  · rw [mat_rz]
    exact toRzRx_mat (hfix _) (hfix _) h
  · rw [mat_rz, mat_rz]
    exact toRzHRz_mat (hfix _) h

/-- Two Hadamard gates are on the closed form of two quarter turns. -/
theorem u3_semantics_hadamard : UpToPhase (compose ℝ H H).mat (H.mat * H.mat) := by
  obtain ⟨-, -, -, -, h, -⟩ := u3_semantics
  exact h H H (by decide)

end U3

end Qblaze
