import Qblaze.Lib.Register
import Qblaze.Unitary
import Qblaze.Sfree.Elements

/-!
# Operations as operators

The operations of a queue as linear maps on the states of all qubits: the basis state becomes the
basis state that the operation means, with its phase. A gate on one qubit may be moved before the
queue if no operation stands in its way, and `Queue::blocks` finds that out from the sets of the
qubits that the queue reads and writes.

* `opsOperator_ket`: the operator of a list of operations is what the list means (`runOps`).
* `Queue.Built.covers`: the sets of a queue cover its operations.
* `blocks_sound`: where `blocks` is false, the gate commutes with the queue.
-/

namespace Qblaze

open Angle

/-- One operation as an operator. -/
noncomputable def opOperator (p : Control × Op) : Operator Qubit :=
  monomial (fun x => (runOp angles p (x, 0)).1) fun x => phase (runOp angles p (x, 0)).2

/-- A list of operations as an operator. The first one is applied first. -/
noncomputable def opsOperator : OpSeq → Operator Qubit
  | [] => 1
  | p :: ops => opsOperator ops * opOperator p

theorem opsOperator_append (ops ops' : OpSeq) :
    opsOperator (ops ++ ops') = opsOperator ops' * opsOperator ops := by
  induction ops with
  | nil => rw [List.nil_append, opsOperator, mul_one]
  | cons p ops ih => rw [List.cons_append, opsOperator, ih, opsOperator, mul_assoc]

/-! ## Phases add up -/

theorem runOp_shift (p : Control × Op) (x : Qubit → Bool) (a : Angle) :
    runOp angles p (x, a) = ((runOp angles p (x, 0)).1, a + (runOp angles p (x, 0)).2) := by
  obtain ⟨ctl, op⟩ := p
  unfold runOp
  simp only
  split
  · cases op <;> simp [Op.run]
  · simp

theorem runOps_shift (ops : OpSeq) (x : Qubit → Bool) (a : Angle) :
    runOps angles ops (x, a) = ((runOps angles ops (x, 0)).1, a + (runOps angles ops (x, 0)).2) := by
  induction ops generalizing x a with
  | nil => rw [runOps, runOps, add_zero]
  | cons p ops ih => rw [runOps, runOps, runOp_shift, ih, ih _ (runOp angles p (x, 0)).2, add_assoc]

/-- What the operations mean on a basis state. -/
theorem opsOperator_ket (ops : OpSeq) (x : Qubit → Bool) : opsOperator ops (ket x) =
    phase (runOps angles ops (x, 0)).2 • ket (runOps angles ops (x, 0)).1 := by
  induction ops generalizing x with
  | nil =>
    rw [opsOperator, runOps, Module.End.one_apply, show phase (0 : Angle) = 1 from phase_zero, one_smul]
  | cons p ops ih =>
    rw [opsOperator, Module.End.mul_apply, opOperator, monomial_ket, map_smul, ih, smul_smul, runOps,
      runOps_shift ops _ (runOp angles p (x, 0)).2, phase_add]

/-! ## Commuting with a gate -/

section

variable {p : Control × Op} {q : Qubit} {M : Mat}

/-- The value of `q` does not matter to the operation, and it does not move. -/
def Op.ignores : Op → Qubit → Prop
  | swap q1 q2, q => q ≠ q1 ∧ q ≠ q2
  | _, _ => True

theorem flip_single (q : Qubit) (x : Qubit → Bool) : flip (fun r => r == q) x = flipAt q x := by
  funext r
  by_cases h : r = q
  · subst h
    rw [flipAt_same]
    show (x r ^^ (r == r)) = !x r
    rw [beq_self_eq_true, Bool.xor_true]
  · rw [flipAt_of_ne h]
    show (x r ^^ (r == q)) = x r
    rw [beq_false_of_ne h, Bool.xor_false]

theorem runOp_flipAt (hu : p.1.uses q = false) (hi : p.2.ignores q) (x : Qubit → Bool) (a : Angle) :
    runOp angles p (flipAt q x, a) =
      (flipAt q (runOp angles p (x, a)).1, (runOp angles p (x, a)).2) := by
  have hh : p.1.holds (flipAt q x) = p.1.holds x := Control.holds_congr fun r hr => by
    refine flipAt_of_ne (fun h => ?_) x
    rw [h, hu] at hr
    cases hr
  obtain ⟨ctl, op⟩ := p
  unfold runOp
  rw [hh]
  simp only
  split
  · cases op with
    | gphase b => rfl
    | x t =>
      show (flip _ (flipAt q x), a) = (flipAt q (flip _ x), a)
      rw [← flip_single, flip_comm, flip_single]
    | swap q1 q2 =>
      show (swapQubits q1 q2 (flipAt q x), a) = (flipAt q (swapQubits q1 q2 x), a)
      have hs : swapQubits q1 q2 (fun r => r == q) = fun r => r == q := by
        funext r
        show (Equiv.swap q1 q2 r == q) = (r == q)
        rw [Bool.eq_iff_iff, beq_iff_eq, beq_iff_eq, Equiv.swap_apply_eq_iff,
          Equiv.swap_apply_of_ne_of_ne hi.1 hi.2]
      rw [← flip_single, swapQubits_flip, hs, flip_single]
  · rfl

/-- A diagonal gate commutes with an operation that does not write its qubit. -/
theorem opOperator_commute_diag (hM : ∀ b, M (!b) b = 0) (hw : p.2.writes q = false) :
    Commute (gate q M) (opOperator p) :=
  commute_diag hM fun _ => runOp_keep hw

/-- A gate that treats both values alike commutes with an operation that does not read its qubit. -/
theorem opOperator_commute_flip (hd : M true true = M false false) (ho : M true false = M false true)
    (hu : p.1.uses q = false) (hi : p.2.ignores q) : Commute (gate q M) (opOperator p) := by
  refine commute_flip hd ho (fun x => ?_) fun x => ?_
  · rw [runOp_flipAt hu hi]
  · rw [runOp_flipAt hu hi]

theorem opOperator_commute (hw : p.2.writes q = false) (hu : p.1.uses q = false)
    (hi : p.2.ignores q) : Commute (gate q M) (opOperator p) := by
  refine commute_unrelated (fun _ => runOp_keep hw) (fun x => ?_) fun x => ?_
  · rw [runOp_flipAt hu hi]
  · rw [runOp_flipAt hu hi]

theorem opsOperator_commute {A : Operator Qubit} {ops : OpSeq}
    (h : ∀ p ∈ ops, Commute A (opOperator p)) : Commute A (opsOperator ops) := by
  induction ops with
  | nil => exact Commute.one_right A
  | cons p ops ih =>
    exact (ih fun r hr => h r (List.mem_cons_of_mem _ hr)).mul_right (h p (List.mem_cons_self ..))

end

/-! ## The sets of a queue -/

namespace Queue

/-- The queues that the operations of a queue make. `compile` leaves the queue that `clear` does. -/
inductive Built : Queue → Prop
  | new : Built Queue.new
  | x {s : Queue} (h : Built s) (q : Qubit) : Built (s.x q)
  | ctlPhase {s : Queue} (h : Built s) (ctl : Control) (a : Angle) : Built (s.ctlPhase ctl a)
  | ctlX {s : Queue} (h : Built s) (ctl : Control) (q : Qubit) : Built (s.ctlX ctl q)
  | ctlSwap {s : Queue} (h : Built s) (ctl : Control) (q1 q2 : Qubit) : Built (s.ctlSwap ctl q1 q2)
  | clear {s : Queue} (h : Built s) : Built s.clear

/-- The sets cover the operations. A swap reads what it writes. -/
structure Covers (s : Queue) (p : Control × Op) : Prop where
  control : ∀ q, p.1.uses q = true → s.reads q = true
  target : ∀ q, p.2.writes q = true → s.writes q = true
  moved : ∀ q, s.reads q = false → p.2.ignores q

theorem Covers.mono {s t : Queue} {p : Control × Op} (h : s.Covers p)
    (hr : ∀ q, s.reads q = true → t.reads q = true)
    (hw : ∀ q, s.writes q = true → t.writes q = true) : t.Covers p where
  control q hq := hr q (h.control q hq)
  target q hq := hw q (h.target q hq)
  moved q hq := h.moved q (Bool.eq_false_iff.mpr fun hs => by rw [hr q hs] at hq; cases hq)

/-- A queue with one more operation. -/
theorem covers_append {s t : Queue} {p : Control × Op} (hops : t.ops = s.ops ++ [p])
    (h : ∀ p ∈ s.ops, s.Covers p) (hr : ∀ q, s.reads q = true → t.reads q = true)
    (hw : ∀ q, s.writes q = true → t.writes q = true) (hp : t.Covers p) :
    ∀ p ∈ t.ops, t.Covers p := by
  intro r hr'
  rw [hops] at hr'
  rcases List.mem_append.mp hr' with hm | hm
  · exact (h r hm).mono hr hw
  · rw [List.mem_singleton.mp hm]
    exact hp

theorem mem_qubits {ctl : Control} {q : Qubit} : q ∈ ctl.qubits ↔ ctl.uses q = true := by
  rw [Control.uses_iff, Control.qubits, List.mem_map]

section

variable (s : Queue) (ctl : Control) (a : Angle) (t t' q : Qubit)

theorem contains_extend_qubits (set : QubitSet) :
    (set.extend ctl.qubits).contains q = (set.contains q || ctl.uses q) := by
  rw [QubitSet.contains_extend]
  congr 1
  rw [Bool.eq_iff_iff, decide_eq_true_iff, mem_qubits]

@[simp] theorem reads_x : (s.x t).reads q = s.reads q := rfl

@[simp] theorem writes_x : (s.x t).writes q = (s.writes q || decide (q = t)) :=
  QubitSet.contains_insert

@[simp] theorem reads_ctlPhase : (s.ctlPhase ctl a).reads q = (s.reads q || ctl.uses q) :=
  contains_extend_qubits ctl q s.readSet

@[simp] theorem writes_ctlPhase : (s.ctlPhase ctl a).writes q = s.writes q := rfl

@[simp] theorem reads_ctlX : (s.ctlX ctl t).reads q = (s.reads q || ctl.uses q) :=
  contains_extend_qubits ctl q s.readSet

@[simp] theorem writes_ctlX : (s.ctlX ctl t).writes q = (s.writes q || decide (q = t)) :=
  QubitSet.contains_insert

@[simp] theorem reads_ctlSwap : (s.ctlSwap ctl t t').reads q =
    (s.reads q || ctl.uses q || decide (q = t) || decide (q = t')) := by
  show (((s.readSet.extend ctl.qubits).insert t).insert t').contains q = _
  rw [QubitSet.contains_insert, QubitSet.contains_insert, contains_extend_qubits]
  rfl

@[simp] theorem writes_ctlSwap : (s.ctlSwap ctl t t').writes q =
    (s.writes q || decide (q = t) || decide (q = t')) := by
  show ((s.writeSet.insert t).insert t').contains q = _
  rw [QubitSet.contains_insert, QubitSet.contains_insert]
  rfl

end

/-- The sets of a queue cover all its operations. -/
theorem Built.covers {s : Queue} (h : s.Built) : ∀ p ∈ s.ops, s.Covers p := by
  induction h with
  | new => exact fun p hp => absurd hp List.not_mem_nil
  | clear _ _ => exact fun p hp => absurd hp List.not_mem_nil
  | x _ t ih =>
    refine covers_append rfl ih (fun q hq => ?_) (fun q hq => ?_) ⟨fun q hq => ?_, fun q hq => ?_,
      fun q _ => trivial⟩
    · simpa using hq
    · simp [hq]
    · cases hq
    · rw [Op.writes, beq_iff_eq] at hq
      simp [hq]
  | ctlPhase _ ctl a ih =>
    refine covers_append rfl ih (fun q hq => ?_) (fun q hq => ?_) ⟨fun q hq => ?_, fun q hq => ?_,
      fun q _ => trivial⟩
    · simp [hq]
    · simpa using hq
    · simp [show ctl.uses q = true from hq]
    · cases hq
  | ctlX _ ctl t ih =>
    refine covers_append rfl ih (fun q hq => ?_) (fun q hq => ?_) ⟨fun q hq => ?_, fun q hq => ?_,
      fun q _ => trivial⟩
    · simp [hq]
    · simp [hq]
    · simp [show ctl.uses q = true from hq]
    · rw [Op.writes, beq_iff_eq] at hq
      simp [hq]
  | ctlSwap _ ctl t t' ih =>
    refine covers_append rfl ih (fun q hq => ?_) (fun q hq => ?_) ⟨fun q hq => ?_, fun q hq => ?_,
      fun q hq => ?_⟩
    · simp [hq]
    · simp [hq]
    · simp [show ctl.uses q = true from hq]
    · rw [Op.writes, Bool.or_eq_true, beq_iff_eq, beq_iff_eq] at hq
      rcases hq with rfl | rfl <;> simp
    · simp only [reads_ctlSwap, Bool.or_eq_false_iff, decide_eq_false_iff_not] at hq
      exact ⟨hq.1.2, hq.2⟩

/-! ## `blocks` -/

/-- The angles of `to_rz_rx` are fixed if those of the gate are. -/
theorem toRzRx_fixed {g : U3} {prec : Nat} {a b : Angle} (ht : Fixed prec g.theta)
    (hp : Fixed prec g.phi) (hl : Fixed prec g.lambda) (h : g.toRzRx prec = some (a, b)) :
    Fixed prec a ∧ Fixed prec b := by
  unfold U3.toRzRx at h
  rw [ht, hp] at h
  simp only at h
  split at h
  · cases h
    exact ⟨hp.add hl, fixed_zero prec⟩
  split at h
  · rename_i he
    rw [he] at ht
    cases h
    exact ⟨(ht.sub hp).add hl, ht⟩
  split at h
  · rename_i he
    rw [he] at hp
    have hh : Fixed prec PI_1_2 := by
      have hn := hp.neg
      rwa [show -PI_3_2 = PI_1_2 by decide] at hn
    cases h
    exact ⟨hl.sub hh, ht⟩
  split at h
  · rename_i he
    rw [he] at hp
    rw [Option.some.injEq, Prod.mk.injEq] at h
    obtain ⟨rfl, rfl⟩ := h
    exact ⟨hl.add hp, ht.neg⟩
  · cases h

/-- Where `blocks` is false, no operation of the queue stands in the way of the gate. -/
theorem commute_of_blocks {s : Queue} (hs : s.Built) {q : Qubit} {g : U3} {prec : Nat}
    (ht : Fixed prec g.theta) (hp : Fixed prec g.phi) (hl : Fixed prec g.lambda)
    (hb : s.blocks q g prec = false) {p : Control × Op} (hmem : p ∈ s.ops) :
    Commute (gate q g.mat) (opOperator p) := by
  have hcov := hs.covers p hmem
  have hread : s.reads q = false → p.1.uses q = false ∧ p.2.ignores q := by
    intro h
    refine ⟨Bool.eq_false_iff.mpr fun hu => ?_, hcov.moved q h⟩
    rw [hcov.control q hu] at h
    cases h
  have hwrite : s.writes q = false → p.2.writes q = false := by
    intro h
    refine Bool.eq_false_iff.mpr fun hw => ?_
    rw [hcov.target q hw] at h
    cases h
  unfold blocks at hb
  cases hd : g.toRzRx prec with
  | none =>
    rw [hd] at hb
    simp only [Bool.true_and, Bool.or_eq_false_iff] at hb
    obtain ⟨hu, hi⟩ := hread hb.1
    exact opOperator_commute (hwrite hb.2) hu hi
  | some r =>
    obtain ⟨a, b⟩ := r
    obtain ⟨hfa, hfb⟩ := toRzRx_fixed ht hp hl hd
    rw [hd] at hb
    simp only at hb
    rw [show a.round prec = a from hfa, show b.round prec = b from hfb] at hb
    simp only [Bool.or_eq_false_iff, Bool.and_eq_false_imp, decide_eq_true_iff] at hb
    -- the rotations of the gate commute by themselves
    have hz : Commute (gate q (rotZ a)) (opOperator p) := by
      by_cases ha : a = ZERO
      · rw [ha, rotZ_zero, gate_one]
        exact Commute.one_left _
      · exact opOperator_commute_diag (rotZ_diag a) (hwrite (hb.2 ha))
    have hx : Commute (gate q (rotX b)) (opOperator p) := by
      by_cases hb0 : b = ZERO
      · rw [hb0, rotX_zero, gate_one]
        exact Commute.one_left _
      · obtain ⟨hu, hi⟩ := hread (hb.1 hb0)
        exact opOperator_commute_flip (by rw [rotX_eq]; rfl) (by rw [rotX_eq]; rfl) hu hi
    have hmat : UpToPhase g.mat (rotX b * rotZ a) :=
      (U3.toRzRx_mat ht hp hd).trans ((U3.mat_rx b).mul (UpToPhase.refl _))
    obtain ⟨c, -, hc⟩ := hmat
    rw [hc, gate_smul, gate_mul]
    exact (hx.mul_left hz).smul_left c

/-- Where `blocks` is false, the gate commutes with the operations of the queue, so that it may be
applied before them. -/
theorem blocks_sound {s : Queue} (hs : s.Built) {q : Qubit} {g : U3} {prec : Nat}
    (ht : Fixed prec g.theta) (hp : Fixed prec g.phi) (hl : Fixed prec g.lambda)
    (hb : s.blocks q g prec = false) : Commute (gate q g.mat) (opsOperator s.ops) :=
  opsOperator_commute fun _ hmem => commute_of_blocks hs ht hp hl hb hmem

/-- A phase on a qubit that the queue only reads. -/
theorem blocks_sound_phase : Commute (gate 0 (U3.rz PI_1_2).mat)
    (opsOperator (Queue.new.ctlX (Control.single 0 true) 1).ops) := by
  have hbuilt : (Queue.new.ctlX (Control.single 0 true) 1).Built := Built.new.ctlX _ _
  exact @blocks_sound _ hbuilt 0 _ 32 (by decide) (by decide) (by decide) (by decide)

end Queue

end Qblaze
