import Qblaze.Lib.Controlled

/-!
# Squared norms and measurement

The squared norm of a state is the sum of the squared norms of its amplitudes. The components of a state
with a value of one qubit are its projections.

* `norm2_tensor`, `norm2_monomial`: unitary matrices on all qubits, and permutations of the basis states with
  phases, keep the squared norm.
* `norm2_proj_add`: the squared norms of the two components add up.
* `norm2_smul_ket_add`: a basis state that a state does not have is added.
-/

namespace Qblaze

open Mat

variable {ι : Type} [Fintype ι] [DecidableEq ι] {ψ φ : Ket ι} {q : ι} {x : ι → Bool} {M : Mat} {P : ι → Mat}

/-- The squared norm. -/
def norm2 (ψ : Ket ι) : ℝ := ∑ x, Complex.normSq (ψ x)

theorem norm2_zero : norm2 (0 : Ket ι) = 0 :=
  Finset.sum_eq_zero fun _ _ => Complex.normSq_zero

theorem norm2_smul (c : ℂ) (ψ : Ket ι) : norm2 (c • ψ) = Complex.normSq c * norm2 ψ := by
  rw [norm2, norm2, Finset.mul_sum]
  exact Finset.sum_congr rfl fun x _ => Complex.normSq_mul c (ψ x)

theorem norm2_nonneg (ψ : Ket ι) : 0 ≤ norm2 ψ := Finset.sum_nonneg fun _ _ => Complex.normSq_nonneg _

theorem eq_zero_of_norm2 (h : norm2 ψ = 0) : ψ = 0 := by
  funext x
  have hx := (Finset.sum_eq_zero_iff_of_nonneg fun x _ => Complex.normSq_nonneg (ψ x)).mp h x
    (Finset.mem_univ x)
  exact Complex.normSq_eq_zero.mp hx

theorem UpToPhase.norm2_eq (h : UpToPhase ψ φ) : norm2 ψ = norm2 φ := by
  obtain ⟨c, hc, rfl⟩ := h
  rw [norm2_smul, Complex.normSq_eq_norm_sq, hc, one_pow, one_mul]

/-! ## Unitary matrices -/

/-- The basis states in pairs that differ in one qubit. -/
theorem sum_flipAt (q : ι) (f : (ι → Bool) → ℝ) : ∑ x, f (flipAt q x) = ∑ x, f x :=
  Equiv.sum_comp (Function.Involutive.toPerm (flipAt q) (flipAt_flipAt q)) f

theorem norm2_gate (hM : M ∈ Matrix.unitaryGroup Bool ℂ) (ψ : Ket ι) : norm2 (gate q M ψ) = norm2 ψ := by
  rw [eq_mk M] at hM
  have hpair : ∀ x, Complex.normSq (gate q M ψ x) + Complex.normSq (gate q M ψ (flipAt q x)) =
      Complex.normSq (ψ x) + Complex.normSq (ψ (flipAt q x)) := by
    intro x
    have h0 := Mat.isometry hM (ψ x) (ψ (flipAt q x))
    have h1 := Mat.isometry hM (ψ (flipAt q x)) (ψ x)
    rw [gate_apply, gate_apply, flipAt_flipAt, flipAt_same]
    cases x q with
    | false =>
      rw [Bool.not_false, Bool.not_true, add_comm (M true true * _)]
      exact h0
    | true =>
      rw [Bool.not_true, Bool.not_false, add_comm (M true true * _), add_comm, add_comm (Complex.normSq (ψ x))]
      exact h1
  have hsum : norm2 (gate q M ψ) + norm2 (gate q M ψ) = norm2 ψ + norm2 ψ := by
    calc norm2 (gate q M ψ) + norm2 (gate q M ψ)
        = ∑ x, (Complex.normSq (gate q M ψ x) + Complex.normSq (gate q M ψ (flipAt q x))) := by
          rw [Finset.sum_add_distrib, sum_flipAt q fun x => Complex.normSq (gate q M ψ x)]
          rfl
      _ = ∑ x, (Complex.normSq (ψ x) + Complex.normSq (ψ (flipAt q x))) :=
          Finset.sum_congr rfl fun x _ => hpair x
      _ = norm2 ψ + norm2 ψ := by
          rw [Finset.sum_add_distrib, sum_flipAt q fun x => Complex.normSq (ψ x)]
          rfl
  linarith

/-- Unitary matrices on all qubits keep the squared norm. -/
theorem norm2_tensor (hP : ∀ q, P q ∈ Matrix.unitaryGroup Bool ℂ) (ψ : Ket ι) :
    norm2 (tensor P ψ) = norm2 ψ := by
  -- one qubit after the other
  have hset : ∀ S : Finset ι, norm2 (tensor (fun q => if q ∈ S then P q else 1) ψ) = norm2 ψ := by
    intro S
    induction S using Finset.induction_on with
    | empty =>
      rw [show (fun q => if q ∈ (∅ : Finset ι) then P q else 1) = 1 from
        funext fun q => if_neg (Finset.notMem_empty q), tensor_one, Module.End.one_apply]
    | insert q S hq ih =>
      have hins : (fun r => if r ∈ insert q S then P r else 1) =
          Function.update (fun r => if r ∈ S then P r else 1) q (P q * if q ∈ S then P q else 1) := by
        funext r
        by_cases hr : r = q
        · subst hr
          rw [Function.update_self, if_pos (Finset.mem_insert_self r S), if_neg hq, mul_one]
        · rw [Function.update_of_ne hr]
          exact if_congr (by rw [Finset.mem_insert, or_iff_right hr]) rfl rfl
      rw [hins, ← gate_mul_tensor q (P q), Module.End.mul_apply, norm2_gate (hP q), ih]
  have h := hset Finset.univ
  rwa [show (fun q => if q ∈ Finset.univ then P q else 1) = P from
    funext fun q => if_pos (Finset.mem_univ q)] at h

/-! ## Permutations -/

section

variable {σ : (ι → Bool) → ι → Bool} {c : (ι → Bool) → ℂ}

theorem monomial_apply (hσ : Function.Injective σ) (ψ : Ket ι) (x : ι → Bool) :
    monomial σ c ψ (σ x) = ψ x * c x := by
  rw [monomial, ofKets_apply, Finset.sum_eq_single x]
  · rw [Pi.smul_apply, ket_apply, if_pos rfl, smul_eq_mul, mul_one]
  · intro y _ hy
    rw [Pi.smul_apply, ket_apply, if_neg fun h => hy (hσ h.symm), smul_zero, mul_zero]
  · exact fun h => absurd (Finset.mem_univ x) h

theorem norm2_monomial (hσ : Function.Injective σ) (hc : ∀ x, ‖c x‖ = 1) (ψ : Ket ι) :
    norm2 (monomial σ c ψ) = norm2 ψ := by
  have hsum : norm2 (monomial σ c ψ) = ∑ x, Complex.normSq (monomial σ c ψ (σ x)) :=
    (Equiv.sum_comp (Equiv.ofBijective σ (Finite.injective_iff_bijective.mp hσ))
      fun x => Complex.normSq (monomial σ c ψ x)).symm
  rw [hsum, norm2]
  refine Finset.sum_congr rfl fun x _ => ?_
  rw [monomial_apply hσ, Complex.normSq_mul, Complex.normSq_eq_norm_sq (c x), hc, one_pow, mul_one]

end

/-! ## Components -/

theorem Mat.proj_not (b : Bool) : proj (!b) = 1 - proj b := by
  rw [one_eq]
  cases b <;> ext i j <;> cases i <;> cases j <;> simp [proj_false, proj_true]

/-- The amplitudes of a component. -/
theorem gate_proj_apply (q : ι) (b : Bool) (ψ : Ket ι) (x : ι → Bool) :
    gate q (proj b) ψ x = if x q = b then ψ x else 0 := by
  rw [gate_apply]
  cases b <;> cases x q <;> simp [proj, keep]

theorem gate_proj_ket (q : ι) (b : Bool) (x : ι → Bool) :
    gate q (proj b) (ket x) = if x q = b then ket x else 0 := by
  funext y
  rw [gate_proj_apply]
  by_cases hy : y = x
  · subst hy
    split <;> rfl
  · have hz : ket x y = 0 := by rw [ket_apply, if_neg hy]
    split
    · split
      · rfl
      · exact hz
    · split
      · exact hz.symm
      · rfl

theorem gate_proj_add (q : ι) (ψ : Ket ι) : gate q (proj false) ψ + gate q (proj true) ψ = ψ := by
  funext x
  rw [Pi.add_apply, gate_proj_apply, gate_proj_apply]
  cases x q with
  | false => rw [if_pos rfl, if_neg Bool.false_ne_true, add_zero]
  | true => rw [if_neg Bool.false_ne_true.symm, if_pos rfl, zero_add]

/-- The squared norms of the components add up. -/
theorem norm2_proj_add (q : ι) (ψ : Ket ι) :
    norm2 (gate q (proj false) ψ) + norm2 (gate q (proj true) ψ) = norm2 ψ := by
  rw [norm2, norm2, norm2, ← Finset.sum_add_distrib]
  refine Finset.sum_congr rfl fun x _ => ?_
  rw [gate_proj_apply, gate_proj_apply]
  cases x q with
  | false => rw [if_pos rfl, if_neg Bool.false_ne_true, Complex.normSq_zero, add_zero]
  | true => rw [if_neg Bool.false_ne_true.symm, if_pos rfl, Complex.normSq_zero, zero_add]

/-- A basis state that is not there yet. -/
theorem norm2_smul_ket_add (c : ℂ) (h : φ x = 0) : norm2 (c • ket x + φ) = Complex.normSq c + norm2 φ := by
  have hterm : ∀ y, Complex.normSq ((c • ket x + φ) y) =
      (if y = x then Complex.normSq c else 0) + Complex.normSq (φ y) := fun y => by
    rw [Pi.add_apply, Pi.smul_apply, ket_apply, smul_eq_mul]
    by_cases hy : y = x
    · subst hy
      rw [if_pos rfl, if_pos rfl, h, mul_one, add_zero, Complex.normSq_zero, add_zero]
    · rw [if_neg hy, if_neg hy, mul_zero, zero_add, zero_add]
  rw [norm2, Finset.sum_congr rfl fun y _ => hterm y, Finset.sum_add_distrib, Finset.sum_ite_eq',
    if_pos (Finset.mem_univ x)]
  rfl

theorem norm2_ket (x : ι → Bool) : norm2 (ket x) = 1 := by
  have h := @norm2_smul_ket_add ι _ _ 0 x 1 rfl
  rw [one_smul, add_zero, Complex.normSq_one, norm2_zero, add_zero] at h
  exact h

end Qblaze
