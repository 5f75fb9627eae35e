import Qblaze.Lib.Controlled
import Qblaze.Sfree.Operator

/-!
# Queued operations as guarded operators

A control is a projection on each of its qubits (`itemProj`). An operation under it is a guarded operator,
and a controlled X and a controlled phase of `pi` are both controlled signs; so an operation moves past the
pending gates if the projections move past the gate of each qubit by itself.

* `opOperator_gphase`, `opOperator_x`, `opOperator_swap`: the operations.
* `minus_mul_H` and the lemmas after it: what the gates of one qubit do to the projections.
-/

namespace Qblaze

open Angle Mat

variable {l : List ControlItem} {c : ControlItem} {ctl : Control} {q : Qubit} {x : Qubit → Bool}

/-! ## Controls -/

/-- The items on `q` want the value `b`. -/
def itemKeep (l : List ControlItem) (q : Qubit) (b : Bool) : Bool :=
  l.all fun c => c.qubit != q || c.value == b

/-- The projections to the values that the items want. -/
def itemProj (l : List ControlItem) : Qubit → Mat := fun q => keep (itemKeep l q)

theorem itemProj_of_ne (h : ∀ c ∈ l, c.qubit ≠ q) : itemProj l q = 1 := by
  have hk : itemKeep l q = fun _ => true := by
    funext b
    refine List.all_eq_true.mpr fun c hc => ?_
    rw [bne_iff_ne.mpr (h c hc), Bool.true_or]
  rw [itemProj, hk, keep_all]

/-- The order of the items does not matter. -/
theorem itemProj_congr {l' : List ControlItem} (h : ∀ a, a ∈ l ↔ a ∈ l') : itemProj l = itemProj l' := by
  funext q
  refine congrArg keep (funext fun b => ?_)
  rw [itemKeep, itemKeep, Bool.eq_iff_iff, List.all_eq_true, List.all_eq_true]
  exact ⟨fun hl a ha => hl a ((h a).mpr ha), fun hl a ha => hl a ((h a).mp ha)⟩

theorem itemProj_cons (h : ∀ d ∈ l, d.qubit ≠ c.qubit) :
    itemProj (c :: l) = Function.update (itemProj l) c.qubit (proj c.value) := by
  funext q
  by_cases hq : q = c.qubit
  · subst hq
    have hk : itemKeep (c :: l) c.qubit = (· == c.value) := by
      funext b
      have hl : itemKeep l c.qubit b = true := List.all_eq_true.mpr fun d hd => by
        rw [bne_iff_ne.mpr (h d hd), Bool.true_or]
      rw [itemKeep, List.all_cons]
      rw [itemKeep] at hl
      rw [hl, bne_self_eq_false, Bool.false_or, Bool.and_true]
      exact Bool.beq_comm
    rw [Function.update_self, itemProj, hk, proj]
  · have hk : itemKeep (c :: l) q = itemKeep l q := by
      funext b
      rw [itemKeep, List.all_cons, bne_iff_ne.mpr (Ne.symm hq), Bool.true_or, Bool.true_and]
      rfl
    rw [Function.update_of_ne hq, itemProj, hk, itemProj]

namespace Control

/-- The projections of a control. -/
def proj (ctl : Control) : Qubit → Mat := itemProj ctl.items

theorem proj_of_not_uses (h : ctl.uses q = false) : ctl.proj q = 1 :=
  itemProj_of_ne (not_uses_iff.mp h)

/-- The projections of items that are collected. -/
theorem fromIter_proj {c : Control} (h : Control.fromIter l = some c) : c.proj = itemProj l :=
  itemProj_congr fun _ => (fromIter_perm h).mem_iff

/-- A control on one more qubit. -/
theorem withQubit_proj {c : Control} {v : Bool} (h : ctl.withQubit q v = some c) (hq : ctl.uses q = false) :
    c.proj = Function.update ctl.proj q (Mat.proj v) := by
  rw [proj, @itemProj_congr c.items (⟨q, v⟩ :: ctl.items) fun a => by rw [mem_withQubit h, List.mem_cons]]
  exact itemProj_cons (not_uses_iff.mp hq)

theorem tensor_proj_of_holds (h : ctl.holds x = true) : tensor ctl.proj (ket x) = ket x := by
  refine tensor_keep_ket fun q => List.all_eq_true.mpr fun c hc => ?_
  by_cases hq : c.qubit = q
  · have hx := List.all_eq_true.mp h c hc
    rw [ControlItem.holds, hq] at hx
    rw [Bool.or_eq_true, beq_iff_eq]
    exact .inr (beq_iff_eq.mp hx).symm
  · rw [bne_iff_ne.mpr hq, Bool.true_or]

theorem tensor_proj_of_not_holds (h : ctl.holds x = false) : tensor ctl.proj (ket x) = 0 := by
  obtain ⟨c, hc, hx⟩ := List.all_eq_false.mp h
  refine @tensor_keep_ket_zero _ _ _ c.qubit _ _ (List.all_eq_false.mpr ⟨c, hc, ?_⟩)
  rw [ControlItem.holds, Bool.not_eq_true, beq_eq_false_iff_ne] at hx
  rw [bne_self_eq_false, Bool.false_or, Bool.not_eq_true, beq_eq_false_iff_ne]
  exact Ne.symm hx

end Control

/-! ## Gates on one qubit -/

theorem mat_X_eq : U3.X.mat = mk 0 (-1) (-1) 0 := by
  rw [U3.mat_X, rotZ_PI, rotY_PI, Mat.rot, Mat.diag, Real.cos_pi_div_two, Real.sin_pi_div_two, mk_mul]
  simp

theorem mat_H_eq : U3.H.mat = mk (Real.sqrt 2 / 2 : ℝ) (Real.sqrt 2 / 2 : ℝ) (Real.sqrt 2 / 2 : ℝ)
    (-(Real.sqrt 2 / 2 : ℝ)) := by
  rw [U3.mat_H, rotZ_PI, rotY, rad_PI_1_2, show Real.pi / 2 / 2 = Real.pi / 4 by ring, Mat.rot, Mat.diag,
    Real.cos_pi_div_four, Real.sin_pi_div_four, mk_mul]
  congr 1 <;> ring

/-! ## Operations -/

theorem opOperator_holds {op : Op} (h : ctl.holds x = true) :
    opOperator (ctl, op) (ket x) = phase (op.run angles (x, 0)).2 • ket (op.run angles (x, 0)).1 := by
  rw [opOperator, monomial_ket, runOp, if_pos h]

theorem opOperator_not_holds {op : Op} (h : ctl.holds x = false) : opOperator (ctl, op) (ket x) = ket x := by
  rw [opOperator, monomial_ket, runOp, if_neg (by rw [h]; exact Bool.false_ne_true)]
  rw [show phase (0 : Angle) = 1 from phase_zero, one_smul]

theorem run_gphase (a : Angle) (x : Qubit → Bool) : Op.run angles (.gphase a) (x, 0) = (x, a) :=
  Prod.ext rfl (zero_add a)

/-- An X that is not held back flips the qubit. -/
theorem opOperator_x_ket (h : ctl.holds x = true) : opOperator (ctl, .x q) (ket x) = ket (flipAt q x) := by
  rw [opOperator_holds h, show (Op.run angles (.x q) (x, 0)).2 = 0 from rfl,
    show phase (0 : Angle) = 1 from phase_zero, one_smul,
    show (Op.run angles (.x q) (x, 0)).1 = flip (fun r => r == q) x from rfl, flip_single]

/-- An operation is what it does where its control holds. -/
theorem opOperator_eq {op : Op} {U : Operator Qubit}
    (h : ∀ x, ctl.holds x = true → phase (op.run angles (x, 0)).2 • ket (op.run angles (x, 0)).1 =
      U (ket x)) : opOperator (ctl, op) = guarded U ctl.proj := by
  refine operator_ext fun x => ?_
  cases hx : ctl.holds x with
  | true => rw [opOperator_holds hx, guarded_of_keep (Control.tensor_proj_of_holds hx), h x hx]
  | false => rw [opOperator_not_holds hx, guarded_of_zero (Control.tensor_proj_of_not_holds hx)]

theorem opOperator_gphase (a : Angle) : opOperator (ctl, .gphase a) = guarded (phase a • 1) ctl.proj := by
  refine opOperator_eq fun x _ => ?_
  rw [run_gphase, LinearMap.smul_apply, Module.End.one_apply]

theorem opOperator_swap (q1 q2 : Qubit) :
    opOperator (ctl, .swap q1 q2) = guarded (permute (Equiv.swap q1 q2)) ctl.proj := by
  refine opOperator_eq fun x _ => ?_
  rw [permute_ket, show (Op.run angles (.swap q1 q2) (x, 0)).2 = 0 from rfl,
    show phase (0 : Angle) = 1 from phase_zero, one_smul]
  rfl

/-- A controlled X is a controlled sign on the difference of the values. -/
theorem opOperator_x (h : ctl.uses q = false) : opOperator (ctl, .x q) =
    guarded ((-1 : ℂ) • 1) (Function.update ctl.proj q minus) := by
  have hE : tensor (Function.update ctl.proj q minus) = gate q minus * tensor ctl.proj := by
    rw [gate_mul_tensor, Control.proj_of_not_uses h, mul_one]
  refine operator_ext fun x => ?_
  rw [guarded, LinearMap.add_apply, Module.End.one_apply, Module.End.mul_apply, hE, Module.End.mul_apply]
  cases hx : ctl.holds x with
  | true =>
    rw [opOperator_x_ket hx, Control.tensor_proj_of_holds hx, gate_ket]
    have hd : minus (x q) (x q) = (1 + 1)⁻¹ := by rw [minus_eq]; cases x q <;> rfl
    have ho : minus (!x q) (x q) = -(1 + 1)⁻¹ := by rw [minus_eq]; cases x q <;> rfl
    rw [hd, ho, LinearMap.sub_apply, LinearMap.smul_apply, Module.End.one_apply]
    module
  | false =>
    rw [opOperator_not_holds hx, Control.tensor_proj_of_not_holds hx, map_zero, map_zero, add_zero]

/-- A phase of `pi` is a sign. -/
theorem opOperator_PI : opOperator (ctl, .gphase PI) = guarded ((-1 : ℂ) • 1) ctl.proj := by
  rw [opOperator_gphase, phase_PI]

/-- An X without a control is the gate, with another sign. -/
theorem opOperator_always_x (q : Qubit) :
    UpToPhase (opOperator (Control.always, .x q)) (gate q U3.X.mat) := by
  refine ⟨-1, by rw [norm_neg, norm_one], operator_ext fun x => ?_⟩
  rw [opOperator_x_ket rfl, LinearMap.smul_apply, gate_ket, mat_X_eq]
  cases x q <;> simp

/-- A phase on a qubit is a rotation around the Z axis. -/
theorem opOperator_rz (q : Qubit) (a : Angle) :
    opOperator (Control.single q true, .gphase a) = gate q (rotZ a) := by
  refine operator_ext fun x => ?_
  rw [gate_ket]
  cases hx : x q with
  | true =>
    rw [opOperator_holds (by rw [Control.holds_single, hx]; rfl), run_gphase]
    simp [rotZ, Mat.diag]
  | false =>
    rw [opOperator_not_holds (by rw [Control.holds_single, hx]; rfl)]
    simp [rotZ, Mat.diag]

theorem opOperator_always_gphase (a : Angle) : UpToPhase (opOperator (Control.always, .gphase a)) 1 := by
  refine ⟨phase a, norm_phase a, operator_ext fun x => ?_⟩
  rw [opOperator_holds rfl, run_gphase, LinearMap.smul_apply, Module.End.one_apply]

/-- A phase on the other value is the inverse rotation. -/
theorem opOperator_single_gphase (q : Qubit) (v : Bool) (a : Angle) :
    UpToPhase (opOperator (Control.single q v, .gphase a)) (gate q (rotZ (if v then a else -a))) := by
  cases v with
  | true => exact .of_eq (opOperator_rz q a)
  | false =>
    refine ⟨phase a, norm_phase a, operator_ext fun x => ?_⟩
    rw [if_neg Bool.false_ne_true, LinearMap.smul_apply, gate_ket]
    cases hx : x q with
    | true =>
      rw [opOperator_not_holds (by rw [Control.holds_single, hx]; rfl)]
      simp [rotZ, Mat.diag, smul_smul, mul_comm (phase a), phase_neg_mul]
    | false =>
      rw [opOperator_holds (by rw [Control.holds_single, hx]; rfl), run_gphase]
      simp [rotZ, Mat.diag]

/-! ## Projections and gates on one qubit -/

/-- The Hadamard gate exchanges the two bases. -/
theorem minus_mul_H : minus * U3.H.mat = U3.H.mat * proj true := by
  rw [mat_H_eq, minus_eq, proj_true, mk_mul, mk_mul]
  congr 1 <;> ring

theorem proj_mul_H : proj true * U3.H.mat = U3.H.mat * minus := by
  rw [mat_H_eq, minus_eq, proj_true, mk_mul, mk_mul]
  congr 1 <;> ring

/-- After a Hadamard gate and a sign. -/
theorem minus_mul_sign_H : minus * (rotZ PI * U3.H.mat) = rotZ PI * U3.H.mat * proj false := by
  rw [mat_H_eq, minus_eq, proj_false, rotZ_PI, Mat.diag, mk_mul, mk_mul, mk_mul]
  congr 1 <;> ring

theorem proj_mul_rotZ (b : Bool) (a : Angle) : proj b * rotZ a = rotZ a * proj b :=
  proj_mul_diag (rotZ_diag a) b

theorem proj_mul_X (b : Bool) : proj b * U3.X.mat = U3.X.mat * proj (!b) := by
  refine proj_mul_exchange (fun v => ?_) b
  rw [mat_X_eq]
  cases v <;> rfl

theorem minus_mul_rotX (a : Angle) : minus * rotX a = rotX a * minus :=
  minus_mul_flip (by rw [rotX_eq]; rfl) (by rw [rotX_eq]; rfl)

end Qblaze
