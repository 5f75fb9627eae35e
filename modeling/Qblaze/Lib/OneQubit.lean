import Mathlib.Analysis.SpecialFunctions.Trigonometric.Basic
import Mathlib.Data.Matrix.Mul
import Mathlib.Data.Fintype.Sum
import Mathlib.LinearAlgebra.UnitaryGroup

/-!
# Gates on one qubit, up to a global phase

`UpToPhase` is equality up to a factor on the unit circle, in any complex vector space: matrices,
states, operators. It is an equivalence, and a congruence for products.

The gates on one qubit are the matrices over `Bool`. `rot x` is the rotation by the half angle `x`,
and `diag w` the phase `w` on the value `true`. They satisfy the relations that bring a product of
rotations to the form `diag w * rot x * diag w'`.
-/

namespace Qblaze

/-! ## Equality up to a phase -/

section

variable {V : Type} [AddCommMonoid V] [Module ℂ V]

/-- Equality up to a factor on the unit circle. -/
def UpToPhase (a b : V) : Prop := ∃ c : ℂ, ‖c‖ = 1 ∧ a = c • b

variable {a b d : V}

theorem UpToPhase.refl (a : V) : UpToPhase a a := ⟨1, norm_one, (one_smul ℂ a).symm⟩

theorem UpToPhase.of_eq (h : a = b) : UpToPhase a b := h ▸ refl a

theorem UpToPhase.smul {c : ℂ} (hc : ‖c‖ = 1) (a : V) : UpToPhase (c • a) a := ⟨c, hc, rfl⟩

theorem UpToPhase.symm (h : UpToPhase a b) : UpToPhase b a := by
  obtain ⟨c, hc, rfl⟩ := h
  have hne : c ≠ 0 := norm_ne_zero_iff.mp (by rw [hc]; exact one_ne_zero)
  refine ⟨c⁻¹, by rw [norm_inv, hc, inv_one], ?_⟩
  rw [smul_smul, inv_mul_cancel₀ hne, one_smul]

theorem UpToPhase.trans (h : UpToPhase a b) (h' : UpToPhase b d) : UpToPhase a d := by
  obtain ⟨c, hc, rfl⟩ := h
  obtain ⟨c', hc', rfl⟩ := h'
  exact ⟨c * c', by rw [norm_mul, hc, hc', one_mul], smul_smul c c' d⟩

/-- A linear map keeps it. -/
theorem UpToPhase.map {W : Type} [AddCommMonoid W] [Module ℂ W] (f : V →ₗ[ℂ] W)
    (h : UpToPhase a b) : UpToPhase (f a) (f b) := by
  obtain ⟨c, hc, rfl⟩ := h
  exact ⟨c, hc, f.map_smul c b⟩

end

theorem UpToPhase.mul {A : Type} [Semiring A] [Algebra ℂ A] {a b a' b' : A} (h : UpToPhase a b)
    (h' : UpToPhase a' b') : UpToPhase (a * a') (b * b') := by
  obtain ⟨c, hc, rfl⟩ := h
  obtain ⟨c', hc', rfl⟩ := h'
  exact ⟨c * c', by rw [norm_mul, hc, hc', one_mul], smul_mul_smul_comm c b c' b'⟩

/-! ## Matrices of one qubit -/

/-- A gate on one qubit. -/
abbrev Mat := Matrix Bool Bool ℂ

namespace Mat

/-- The matrix with the given entries, row by row. -/
def mk (a b c d : ℂ) : Mat := fun i j =>
  match i, j with
  | false, false => a
  | false, true => b
  | true, false => c
  | true, true => d

variable {a b c d a' b' c' d' : ℂ}

@[simp] theorem mk_false_false : mk a b c d false false = a := rfl
@[simp] theorem mk_false_true : mk a b c d false true = b := rfl
@[simp] theorem mk_true_false : mk a b c d true false = c := rfl
@[simp] theorem mk_true_true : mk a b c d true true = d := rfl

theorem ext4 {M N : Mat} (h00 : M false false = N false false) (h01 : M false true = N false true)
    (h10 : M true false = N true false) (h11 : M true true = N true true) : M = N := by
  ext i j
  cases i <;> cases j <;> assumption

theorem mk_mul : mk a b c d * mk a' b' c' d' =
    mk (a * a' + b * c') (a * b' + b * d') (c * a' + d * c') (c * b' + d * d') := by
  apply ext4 <;> simp [Matrix.mul_apply, add_comm]

theorem one_eq : (1 : Mat) = mk 1 0 0 1 := by
  apply ext4 <;> simp

theorem smul_mk (w : ℂ) : w • mk a b c d = mk (w * a) (w * b) (w * c) (w * d) := by
  apply ext4 <;> simp

/-- The rotation by the half angle `x`. -/
noncomputable def rot (x : ℝ) : Mat := mk (Real.cos x) (-Real.sin x) (Real.sin x) (Real.cos x)

/-- The phase `w` on the value `true`. -/
def diag (w : ℂ) : Mat := mk 1 0 0 w

theorem rot_zero : rot 0 = 1 := by
  rw [rot, one_eq]
  simp

theorem diag_one : diag 1 = 1 := one_eq.symm

theorem rot_mul (x y : ℝ) : rot x * rot y = rot (x + y) := by
  rw [rot, rot, rot, mk_mul, Real.cos_add, Real.sin_add]
  push_cast
  congr 1 <;> ring

theorem diag_mul (w z : ℂ) : diag w * diag z = diag (w * z) := by
  rw [diag, diag, diag, mk_mul]
  congr 1 <;> ring

/-- Half turns change the sign only. -/
theorem rot_add_pi (x : ℝ) (k : ℕ) : UpToPhase (rot (x + k * Real.pi)) (rot x) := by
  refine ⟨(-1) ^ k, by simp, ?_⟩
  rw [rot, rot, smul_mk, Real.cos_add_nat_mul_pi, Real.sin_add_nat_mul_pi]
  push_cast
  congr 1
  ring

/-- A sign on `true` inverts a rotation. -/
theorem diag_rot_diag (x : ℝ) : diag (-1) * rot x * diag (-1) = rot (-x) := by
  rw [diag, rot, rot, mk_mul, mk_mul, Real.cos_neg, Real.sin_neg]
  push_cast
  congr 1 <;> ring

theorem rot_diag_neg (x : ℝ) : rot (-x) * diag (-1) = diag (-1) * rot x := by
  rw [← diag_rot_diag, Matrix.mul_assoc, diag_mul, neg_one_mul, neg_neg, diag_one, Matrix.mul_one]

/-- A rotation that exchanges the values: a phase changes sides. -/
theorem rot_diag_of_exchange {x : ℝ} (hc : Real.cos x = 0) (hs : Real.sin x = 1) {w z : ℂ}
    (h : w * z = 1) : rot x * diag w = w • (diag z * rot x) := by
  rw [rot, diag, diag, mk_mul, mk_mul, smul_mk, hc, hs]
  push_cast
  congr 1
  · ring
  · ring
  · linear_combination -h
  · ring

/-! ## Unitary matrices -/

/-- The columns of a unitary matrix. -/
theorem unitary_iff : mk a b c d ∈ Matrix.unitaryGroup Bool ℂ ↔
    star a * a + star c * c = 1 ∧ star a * b + star c * d = 0 ∧ star b * a + star d * c = 0 ∧
      star b * b + star d * d = 1 := by
  have hstar : star (mk a b c d) = mk (star a) (star c) (star b) (star d) := by
    refine ext4 ?_ ?_ ?_ ?_ <;> rfl
  rw [Matrix.mem_unitaryGroup_iff', hstar, mk_mul, one_eq]
  constructor
  · intro h
    exact ⟨congrFun (congrFun h false) false, congrFun (congrFun h false) true,
      congrFun (congrFun h true) false, congrFun (congrFun h true) true⟩
  · rintro ⟨h1, h2, h3, h4⟩
    rw [h1, h2, h3, h4]

/-- A unitary matrix keeps the norm. -/
theorem isometry (h : mk a b c d ∈ Matrix.unitaryGroup Bool ℂ) (z w : ℂ) :
    Complex.normSq (a * z + b * w) + Complex.normSq (c * z + d * w) =
      Complex.normSq z + Complex.normSq w := by
  obtain ⟨h1, h2, h3, h4⟩ := unitary_iff.mp h
  have hcast : ((Complex.normSq (a * z + b * w) + Complex.normSq (c * z + d * w) : ℝ) : ℂ) =
      ((Complex.normSq z + Complex.normSq w : ℝ) : ℂ) := by
    push_cast
    simp only [Complex.normSq_eq_conj_mul_self, map_add, map_mul, ← Complex.star_def]
    linear_combination (star z * z) * h1 + (star z * w) * h2 + (star w * z) * h3 + (star w * w) * h4
  exact_mod_cast hcast

theorem diag_unitary {w : ℂ} (h : ‖w‖ = 1) : diag w ∈ Matrix.unitaryGroup Bool ℂ := by
  refine unitary_iff.mpr ⟨by simp, by simp, by simp, ?_⟩
  rw [star_zero, zero_mul, zero_add, Complex.star_def, ← Complex.normSq_eq_conj_mul_self,
    Complex.normSq_eq_norm_sq, h]
  norm_num

theorem rot_unitary (x : ℝ) : rot x ∈ Matrix.unitaryGroup Bool ℂ := by
  have h : (Real.cos x : ℂ) * Real.cos x + Real.sin x * Real.sin x = 1 := by
    rw [← sq, ← sq]
    exact_mod_cast Real.cos_sq_add_sin_sq x
  have hr : ∀ y : ℝ, star (y : ℂ) = y := Complex.conj_ofReal
  refine unitary_iff.mpr ⟨?_, ?_, ?_, ?_⟩ <;> simp only [star_neg, hr]
  · exact h
  · ring
  · ring
  · linear_combination h

end Mat

end Qblaze
