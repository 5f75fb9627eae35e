import Mathlib.LinearAlgebra.Finsupp.LinearCombination
import Mathlib.LinearAlgebra.Pi
import Mathlib.Algebra.BigOperators.Ring.Finset
import Mathlib.Algebra.Group.Pi.Basic
import Qblaze.Lib.OneQubit

/-!
# Registers of qubits

The state of a register with the qubits `ι` is a vector of amplitudes, one for each basis state.
Operators are linear maps and are given by the images of the basis states (`ofKets`).

* `gate q M` is the matrix `M` on the qubit `q`.
* `tensor M` is a matrix on every qubit, all at once; it is multiplicative (`tensor_mul`), so that
  gates on different qubits commute and a product of gates can be taken apart.
* `monomial σ c` takes the basis state `x` to `σ x`, with the factor `c x`. `commute_diag` and
  `commute_flip` tell when it commutes with a gate.
-/

namespace Qblaze

section

variable {ι : Type} [DecidableEq ι]

/-- The value of a qubit is flipped. -/
def flipAt (q : ι) (x : ι → Bool) : ι → Bool := Function.update x q (!x q)

@[simp] theorem flipAt_same (q : ι) (x : ι → Bool) : flipAt q x q = !x q := by
  simp [flipAt]

theorem flipAt_of_ne {q r : ι} (h : r ≠ q) (x : ι → Bool) : flipAt q x r = x r := by
  simp [flipAt, h]

@[simp] theorem flipAt_flipAt (q : ι) (x : ι → Bool) : flipAt q (flipAt q x) = x := by
  funext r
  by_cases h : r = q
  · subst h
    simp
  · rw [flipAt_of_ne h, flipAt_of_ne h]

theorem flipAt_ne (q : ι) (x : ι → Bool) : flipAt q x ≠ x := by
  intro h
  have := congrFun h q
  rw [flipAt_same] at this
  cases hx : x q <;> rw [hx] at this <;> cases this

end

section

variable {ι : Type} [Fintype ι]

/-- The amplitudes of a state. -/
abbrev Ket (ι : Type) := (ι → Bool) → ℂ

/-- The operators on a register. -/
abbrev Operator (ι : Type) := Module.End ℂ (Ket ι)

/-- A basis state. -/
def ket (x : ι → Bool) : Ket ι := Pi.single x 1

/-- Operators agree if they agree on the basis states. -/
theorem operator_ext {A B : Operator ι} (h : ∀ x, A (ket x) = B (ket x)) : A = B := by
  refine LinearMap.pi_ext' fun x => LinearMap.ext_ring ?_
  exact h x

theorem ket_apply (x y : ι → Bool) : ket x y = if y = x then 1 else 0 := Pi.single_apply x 1 y

end

variable {ι : Type} [Fintype ι] [DecidableEq ι]

/-- The operator with the given images of the basis states. -/
def ofKets (f : (ι → Bool) → Ket ι) : Operator ι := Fintype.linearCombination ℂ f

@[simp] theorem ofKets_ket (f : (ι → Bool) → Ket ι) (x : ι → Bool) : ofKets f (ket x) = f x := by
  rw [ofKets, ket, Fintype.linearCombination_apply_single, one_smul]

theorem ofKets_apply (f : (ι → Bool) → Ket ι) (ψ : Ket ι) (x : ι → Bool) :
    ofKets f ψ x = ∑ y, ψ y * f y x := by
  rw [ofKets, Fintype.linearCombination_apply, Finset.sum_apply]
  rfl

/-! ## Gates -/

/-- A gate on the qubit `q`. -/
def gate (q : ι) (M : Mat) : Operator ι :=
  ofKets fun x => M (x q) (x q) • ket x + M (!x q) (x q) • ket (flipAt q x)

theorem gate_ket (q : ι) (M : Mat) (x : ι → Bool) :
    gate q M (ket x) = M (x q) (x q) • ket x + M (!x q) (x q) • ket (flipAt q x) :=
  ofKets_ket _ x

/-- The amplitudes after a gate. -/
theorem gate_apply (q : ι) (M : Mat) (ψ : Ket ι) (x : ι → Bool) :
    gate q M ψ x = M (x q) (x q) * ψ x + M (x q) (!x q) * ψ (flipAt q x) := by
  rw [gate, ofKets_apply]
  have hterm : ∀ y, ψ y * (M (y q) (y q) • ket y + M (!y q) (y q) • ket (flipAt q y)) x =
      (if y = x then M (x q) (x q) * ψ x else 0) +
        if y = flipAt q x then M (x q) (!x q) * ψ (flipAt q x) else 0 := by
    intro y
    rw [Pi.add_apply, Pi.smul_apply, Pi.smul_apply, ket_apply, ket_apply, smul_eq_mul, smul_eq_mul,
      mul_add]
    congr 1
    · by_cases h : x = y
      · subst h
        rw [if_pos rfl, if_pos rfl, mul_one, mul_comm]
      · rw [if_neg h, if_neg (Ne.symm h), mul_zero, mul_zero]
    · by_cases h : x = flipAt q y
      · have hy : y = flipAt q x := by rw [h, flipAt_flipAt]
        rw [if_pos h, if_pos hy, hy, flipAt_same, Bool.not_not, mul_one, mul_comm]
      · have hy : y ≠ flipAt q x := fun hy => h (by rw [hy, flipAt_flipAt])
        rw [if_neg h, if_neg hy, mul_zero, mul_zero]
  rw [Finset.sum_congr rfl fun y _ => hterm y, Finset.sum_add_distrib, Finset.sum_ite_eq',
    Finset.sum_ite_eq', if_pos (Finset.mem_univ _), if_pos (Finset.mem_univ _)]

/-! ## Gates on every qubit -/

/-- A gate on every qubit. -/
def tensor (M : ι → Mat) : Operator ι := ofKets fun y x => ∏ q, M q (x q) (y q)

theorem tensor_ket (M : ι → Mat) (x y : ι → Bool) : tensor M (ket y) x = ∏ q, M q (x q) (y q) := by
  rw [tensor, ofKets_ket]

theorem tensor_mul (M N : ι → Mat) : tensor (M * N) = tensor M * tensor N := by
  refine operator_ext fun y => funext fun x => ?_
  rw [tensor_ket, Module.End.mul_apply, tensor, ofKets_apply]
  calc ∏ q, (M * N) q (x q) (y q)
      = ∏ q, ∑ b, M q (x q) b * N q b (y q) := by
        refine Finset.prod_congr rfl fun q _ => ?_
        rw [Pi.mul_apply, Matrix.mul_apply]
    _ = ∑ z : ι → Bool, ∏ q, M q (x q) (z q) * N q (z q) (y q) := by
        rw [Finset.prod_univ_sum, Fintype.piFinset_univ]
    _ = ∑ z : ι → Bool, tensor N (ket y) z * ∏ q, M q (x q) (z q) := by
        refine Finset.sum_congr rfl fun z _ => ?_
        rw [tensor_ket, Finset.prod_mul_distrib, mul_comm]

theorem tensor_one : tensor (1 : ι → Mat) = 1 := by
  refine operator_ext fun y => funext fun x => ?_
  rw [tensor_ket, Module.End.one_apply, ket_apply]
  by_cases h : x = y
  · subst h
    rw [if_pos rfl]
    exact Finset.prod_eq_one fun q _ => Matrix.one_apply_eq _
  · obtain ⟨q, hq⟩ := Function.ne_iff.mp h
    rw [if_neg h]
    exact Finset.prod_eq_zero (Finset.mem_univ q) (Matrix.one_apply_ne hq)

/-- A gate on one qubit, as a gate on every qubit. -/
theorem gate_eq_tensor (q : ι) (M : Mat) : gate q M = tensor (Pi.mulSingle q M) := by
  have hprod : ∀ x y : ι → Bool, ∏ r, (Pi.mulSingle q M : ι → Mat) r (x r) (y r) =
      M (x q) (y q) * ∏ r ∈ Finset.univ.erase q, (1 : Mat) (x r) (y r) := by
    intro x y
    rw [← Finset.mul_prod_erase _ _ (Finset.mem_univ q), Pi.mulSingle_eq_same]
    congr 1
    refine Finset.prod_congr rfl fun r hr => ?_
    rw [Pi.mulSingle_eq_of_ne (Finset.ne_of_mem_erase hr)]
  refine operator_ext fun y => funext fun x => ?_
  rw [tensor_ket, gate_ket, hprod, Pi.add_apply, Pi.smul_apply, Pi.smul_apply, ket_apply, ket_apply]
  by_cases hall : ∀ r, r ≠ q → x r = y r
  · rw [Finset.prod_eq_one fun r hr => by
      rw [hall r (Finset.ne_of_mem_erase hr), Matrix.one_apply_eq], mul_one]
    by_cases hq : x q = y q
    · have hx : x = y := funext fun r => if h : r = q then h ▸ hq else hall r h
      subst hx
      rw [if_pos rfl, if_neg (flipAt_ne q x).symm, smul_zero, add_zero, smul_eq_mul, mul_one]
    · have hx : x = flipAt q y := funext fun r => by
        by_cases h : r = q
        · subst h
          rw [flipAt_same]
          cases hy : y r <;> cases hx : x r <;> simp_all
        · rw [flipAt_of_ne h, hall r h]
      have hne : x ≠ y := fun h => hq (congrFun h q)
      rw [if_neg hne, if_pos hx, smul_zero, zero_add, smul_eq_mul, mul_one, hx, flipAt_same]
  · obtain ⟨r, hr, hne⟩ : ∃ r, r ≠ q ∧ x r ≠ y r := by
      simpa only [not_forall, exists_prop] using hall
    have hx : x ≠ y := fun h => hne (congrFun h r)
    have hf : x ≠ flipAt q y := fun h => hne (by rw [h, flipAt_of_ne hr])
    have hzero : ∏ r ∈ Finset.univ.erase q, (1 : Mat) (x r) (y r) = 0 :=
      Finset.prod_eq_zero (Finset.mem_erase.mpr ⟨hr, Finset.mem_univ r⟩) (Matrix.one_apply_ne hne)
    rw [hzero, mul_zero, if_neg hx, if_neg hf, smul_zero, smul_zero, add_zero]

theorem gate_mul (q : ι) (M N : Mat) : gate q (M * N) = gate q M * gate q N := by
  rw [gate_eq_tensor, gate_eq_tensor, gate_eq_tensor, ← tensor_mul, Pi.mulSingle_mul]

theorem gate_one (q : ι) : gate q (1 : Mat) = 1 := by
  rw [gate_eq_tensor, Pi.mulSingle_one, tensor_one]

theorem gate_smul (q : ι) (c : ℂ) (M : Mat) : gate q (c • M) = c • gate q M := by
  refine operator_ext fun x => ?_
  rw [LinearMap.smul_apply, gate_ket, gate_ket, smul_add, smul_smul, smul_smul]
  rfl

theorem UpToPhase.gate {q : ι} {M N : Mat} (h : UpToPhase M N) :
    UpToPhase (gate q M) (gate q N) := by
  obtain ⟨c, hc, rfl⟩ := h
  exact ⟨c, hc, gate_smul q c N⟩

/-! ## Monomial operators -/

/-- The basis state `x` becomes `σ x`, with the factor `c x`. -/
def monomial (σ : (ι → Bool) → ι → Bool) (c : (ι → Bool) → ℂ) : Operator ι :=
  ofKets fun x => c x • ket (σ x)

variable {σ : (ι → Bool) → ι → Bool} {c : (ι → Bool) → ℂ} {q : ι} {M : Mat}

theorem monomial_ket (x : ι → Bool) : monomial σ c (ket x) = c x • ket (σ x) := ofKets_ket _ x

/-- A diagonal gate commutes with an operator that keeps the value of the qubit. -/
theorem commute_diag (hM : ∀ b, M (!b) b = 0) (hσ : ∀ x, σ x q = x q) :
    Commute (gate q M) (monomial σ c) := by
  refine operator_ext fun x => ?_
  rw [Module.End.mul_apply, Module.End.mul_apply, monomial_ket, map_smul, gate_ket, gate_ket, hσ, hM,
    zero_smul, add_zero, zero_smul, add_zero, map_smul, monomial_ket, smul_comm]

/-- A gate that treats both values alike commutes with an operator that does not depend on the
qubit. -/
theorem commute_flip (hd : M true true = M false false) (ho : M true false = M false true)
    (hσ : ∀ x, σ (flipAt q x) = flipAt q (σ x)) (hc : ∀ x, c (flipAt q x) = c x) :
    Commute (gate q M) (monomial σ c) := by
  have hdiag : ∀ b, M b b = M false false := fun b => by cases b <;> simp [hd]
  have hoff : ∀ b, M (!b) b = M false true := fun b => by cases b <;> simp [ho]
  refine operator_ext fun x => ?_
  rw [Module.End.mul_apply, Module.End.mul_apply, monomial_ket, map_smul, gate_ket, gate_ket, map_add,
    map_smul, map_smul, monomial_ket, monomial_ket, hσ, hc, hdiag (σ x q), hoff (σ x q), hdiag (x q),
    hoff (x q), smul_add, smul_comm (c x), smul_comm (c x)]

/-- Every gate commutes with an operator that does neither. -/
theorem commute_unrelated (hσ : ∀ x, σ x q = x q) (hf : ∀ x, σ (flipAt q x) = flipAt q (σ x))
    (hc : ∀ x, c (flipAt q x) = c x) : Commute (gate q M) (monomial σ c) := by
  refine operator_ext fun x => ?_
  rw [Module.End.mul_apply, Module.End.mul_apply, monomial_ket, map_smul, gate_ket, gate_ket, map_add,
    map_smul, map_smul, monomial_ket, monomial_ket, hσ, hf, hc, smul_add, smul_comm (c x),
    smul_comm (c x)]

end Qblaze
