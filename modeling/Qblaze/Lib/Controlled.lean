import Mathlib.LinearAlgebra.Pi
import Qblaze.Lib.Register

/-!
# Controlled operators

`guarded U E` applies the operator `U` to what the matrices `E` keep, and leaves the rest as it is. With
projections to values it is a controlled operator; a controlled X is a controlled sign, with the projection
to the difference of the two values (`Mat.minus`) on the target.

* `gate_mul_tensor`, `tensor_update`: one matrix of a tensor product is taken out of it.
* `guarded_mul_tensor`: a guarded operator moves past a matrix on every qubit if it does so on each qubit
  by itself.
* `permute σ` moves the qubits; it permutes the matrices of a tensor product (`permute_mul_tensor`).
-/

namespace Qblaze

namespace Mat

variable {M : Mat}

/-- The diagonal matrix that keeps some of the values. -/
def keep (f : Bool → Bool) : Mat := mk (if f false then 1 else 0) 0 0 (if f true then 1 else 0)

/-- The projection to a value. -/
def proj (b : Bool) : Mat := keep (· == b)

/-- The projection to the difference of the two values. -/
noncomputable def minus : Mat := (1 + 1 : ℂ)⁻¹ • mk 1 (-1) (-1) 1

theorem keep_apply (f : Bool → Bool) (a b : Bool) :
    keep f a b = if a = b ∧ f b = true then 1 else 0 := by
  cases a <;> cases b <;> simp [keep]

theorem keep_all : keep (fun _ => true) = 1 := by
  rw [keep, one_eq]
  simp

theorem proj_false : proj false = mk 1 0 0 0 := by
  simp [proj, keep]

theorem proj_true : proj true = mk 0 0 0 1 := by
  simp [proj, keep]

/-- The four entries of a matrix. -/
theorem eq_mk (M : Mat) :
    M = mk (M false false) (M false true) (M true false) (M true true) := by
  refine ext4 ?_ ?_ ?_ ?_ <;> rfl

theorem minus_eq : minus = mk (1 + 1)⁻¹ (-(1 + 1)⁻¹) (-(1 + 1)⁻¹) (1 + 1)⁻¹ := by
  rw [minus, smul_mk, mul_one, mul_neg_one]

/-- A diagonal matrix keeps the value. -/
theorem proj_mul_diag (hM : ∀ b, M (!b) b = 0) (b : Bool) : proj b * M = M * proj b := by
  have h1 : M true false = 0 := hM false
  have h2 : M false true = 0 := hM true
  rw [eq_mk M, h1, h2]
  cases b <;> simp [proj_false, proj_true, mk_mul]

/-- A matrix that exchanges the values. -/
theorem proj_mul_exchange (hM : ∀ b, M b b = 0) (b : Bool) : proj b * M = M * proj (!b) := by
  rw [eq_mk M, hM false, hM true]
  cases b <;> simp [proj_false, proj_true, mk_mul]

/-- A matrix that treats both values alike keeps their difference. -/
theorem minus_mul_flip (hd : M true true = M false false) (ho : M true false = M false true) :
    minus * M = M * minus := by
  rw [eq_mk M, hd, ho, minus_eq, mk_mul, mk_mul]
  congr 1 <;> ring

end Mat

section

variable {ι : Type} {A B : Operator ι}

theorem UpToPhase.apply (h : UpToPhase A B) (ψ : Ket ι) : UpToPhase (A ψ) (B ψ) := by
  obtain ⟨c, hc, rfl⟩ := h
  exact ⟨c, hc, rfl⟩

/-- What moves past a matrix moves past it up to a phase. -/
theorem UpToPhase.moves {R : Type} [Semiring R] [Algebra ℂ R] {E E' M N : R} (h : UpToPhase M N)
    (hN : E * N = N * E') : E * M = M * E' := by
  obtain ⟨c, -, rfl⟩ := h
  rw [mul_smul_comm, hN, smul_mul_assoc]

/-- A phase moves past everything. -/
theorem commute_phase (w : ℂ) (A : Operator ι) : Commute (w • 1) A := (Commute.one_left A).smul_left w

/-- The qubit `q` gets the value of the qubit `σ q`. -/
def permute (σ : Equiv.Perm ι) : Operator ι := LinearMap.funLeft ℂ ℂ fun x => x ∘ σ.symm

theorem permute_apply (σ : Equiv.Perm ι) (ψ : Ket ι) (x : ι → Bool) :
    permute σ ψ x = ψ (x ∘ σ.symm) := rfl

theorem permute_ket [Fintype ι] (σ : Equiv.Perm ι) (x : ι → Bool) : permute σ (ket x) = ket (x ∘ σ) := by
  funext y
  rw [permute_apply, ket_apply, ket_apply]
  refine if_congr ⟨fun h => ?_, fun h => ?_⟩ rfl rfl
  · rw [← h, Function.comp_assoc, Equiv.symm_comp_self, Function.comp_id]
  · rw [h, Function.comp_assoc, Equiv.self_comp_symm, Function.comp_id]

end

variable {ι : Type} [Fintype ι] [DecidableEq ι] {q : ι} {M N : Mat} {P E E' : ι → Mat} {U : Operator ι}

/-! ## One matrix of a tensor product -/

theorem gate_mul_tensor (q : ι) (M : Mat) (P : ι → Mat) :
    gate q M * tensor P = tensor (Function.update P q (M * P q)) := by
  rw [gate_eq_tensor, ← tensor_mul]
  congr 1
  funext r
  rw [Pi.mul_apply]
  by_cases h : r = q
  · subst h
    rw [Pi.mulSingle_eq_same, Function.update_self]
  · rw [Pi.mulSingle_eq_of_ne h, Function.update_of_ne h, one_mul]

theorem tensor_mul_gate (q : ι) (M : Mat) (P : ι → Mat) :
    tensor P * gate q M = tensor (Function.update P q (P q * M)) := by
  rw [gate_eq_tensor, ← tensor_mul]
  congr 1
  funext r
  rw [Pi.mul_apply]
  by_cases h : r = q
  · subst h
    rw [Pi.mulSingle_eq_same, Function.update_self]
  · rw [Pi.mulSingle_eq_of_ne h, Function.update_of_ne h, mul_one]

/-- The matrix on `q`, applied last. -/
theorem tensor_update (q : ι) (M : Mat) (P : ι → Mat) :
    tensor (Function.update P q M) = gate q M * tensor (Function.update P q 1) := by
  rw [gate_mul_tensor, Function.update_self, mul_one, Function.update_idem]

/-- The matrix on `q`, applied first. -/
theorem tensor_update_right (q : ι) (M : Mat) (P : ι → Mat) :
    tensor (Function.update P q M) = tensor (Function.update P q 1) * gate q M := by
  rw [tensor_mul_gate, Function.update_self, one_mul, Function.update_idem]

theorem UpToPhase.tensor_update (h : UpToPhase M N) (q : ι) (P : ι → Mat) :
    UpToPhase (tensor (Function.update P q M)) (tensor (Function.update P q N)) := by
  rw [Qblaze.tensor_update q M, Qblaze.tensor_update q N]
  exact h.gate.mul (.refl _)

/-! ## Guarded operators -/

/-- `U` on what the matrices keep, and nothing on the rest. -/
def guarded (U : Operator ι) (E : ι → Mat) : Operator ι := 1 + (U - 1) * tensor E

/-- A guarded operator moves past the matrices if it does so on each qubit. -/
theorem guarded_mul_tensor (hU : Commute U (tensor P)) (h : ∀ q, E q * P q = P q * E' q) :
    guarded U E * tensor P = tensor P * guarded U E' := by
  have hE : tensor E * tensor P = tensor P * tensor E' := by
    rw [← tensor_mul, ← tensor_mul]
    exact congrArg tensor (funext h)
  have hU' : (U - 1) * tensor P = tensor P * (U - 1) := by
    rw [sub_mul, mul_sub, one_mul, mul_one, hU.eq]
  calc guarded U E * tensor P
      = tensor P + (U - 1) * (tensor E * tensor P) := by rw [guarded, add_mul, one_mul, mul_assoc]
    _ = tensor P + tensor P * (U - 1) * tensor E' := by rw [hE, ← mul_assoc, hU']
    _ = tensor P * guarded U E' := by rw [guarded, mul_add, mul_one, mul_assoc]

/-- A state that the matrices keep. -/
theorem guarded_of_keep {ψ : Ket ι} (h : tensor E ψ = ψ) : guarded U E ψ = U ψ := by
  rw [guarded, LinearMap.add_apply, Module.End.one_apply, Module.End.mul_apply, h, LinearMap.sub_apply,
    Module.End.one_apply, add_sub_cancel]

theorem guarded_of_zero {ψ : Ket ι} (h : tensor E ψ = 0) : guarded U E ψ = ψ := by
  rw [guarded, LinearMap.add_apply, Module.End.one_apply, Module.End.mul_apply, h, map_zero, add_zero]

/-- The basis states whose values are all kept. -/
theorem tensor_keep_ket {f : ι → Bool → Bool} {x : ι → Bool} (h : ∀ q, f q (x q) = true) :
    tensor (fun q => Mat.keep (f q)) (ket x) = ket x := by
  funext y
  rw [tensor_ket, ket_apply]
  by_cases hy : y = x
  · subst hy
    rw [if_pos rfl]
    exact Finset.prod_eq_one fun q _ => by rw [Mat.keep_apply, if_pos ⟨rfl, h q⟩]
  · obtain ⟨q, hq⟩ := Function.ne_iff.mp hy
    rw [if_neg hy]
    exact Finset.prod_eq_zero (Finset.mem_univ q) (by rw [Mat.keep_apply, if_neg fun h => hq h.1])

/-- A basis state with a value that is not kept. -/
theorem tensor_keep_ket_zero {f : ι → Bool → Bool} {x : ι → Bool} (h : f q (x q) = false) :
    tensor (fun q => Mat.keep (f q)) (ket x) = 0 := by
  funext y
  rw [tensor_ket]
  refine Finset.prod_eq_zero (Finset.mem_univ q) ?_
  rw [Mat.keep_apply, if_neg (by simp [h])]

/-! ## Moving qubits -/

/-- The matrices move with the qubits. -/
theorem permute_mul_tensor (σ : Equiv.Perm ι) (P : ι → Mat) :
    permute σ * tensor P = tensor (P ∘ σ) * permute σ := by
  refine operator_ext fun y => funext fun x => ?_
  rw [Module.End.mul_apply, Module.End.mul_apply, permute_ket, permute_apply, tensor_ket, tensor_ket]
  refine (Fintype.prod_equiv σ _ _ fun q => ?_).symm
  rw [Function.comp_apply, Function.comp_apply, Function.comp_apply, Equiv.symm_apply_apply]

/-- Exchanging two qubits with the same matrix. -/
theorem permute_swap_commute {q r : ι} (h : P q = P r) : Commute (permute (Equiv.swap q r)) (tensor P) := by
  have hP : P ∘ Equiv.swap q r = P := by
    funext i
    rw [Function.comp_apply, Equiv.swap_apply_def]
    split
    · rename_i hi
      rw [hi, h]
    split
    · rename_i hi
      rw [hi, h]
    · rfl
  rw [commute_iff_eq, permute_mul_tensor, hP]

end Qblaze
