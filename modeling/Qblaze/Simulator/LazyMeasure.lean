import Qblaze.Simulator.Lazy
import Qblaze.Simulator.Transfer

/-!
# Lazy measurement is eager measurement

`measure` collapses the stored vector, while the queue and the pending gates are still to be applied. What
`premeasure` leaves of the queue does not move the qubit, and the pending gate of the qubit keeps its two
values apart, or exchanges them.

* `Premeasured`: a component of the state is the one of the vector that `premeasure` tells.
* `wp_measure_sound`: the collapse of the vector is the collapse of the state.
* `Reachable`: the states between the calls, also of clones. `wp_run_reached`: what every call keeps of them.
* `lazy_measure`: over all reachable states.
-/

namespace Qblaze

open Lib.Run Angle Mat

/-! ## Squared norms -/

theorem norm2_opOperator {p : Control × Op} (hp : ∀ q, p.2.writes q = true → p.1.uses q = false)
    (φ : Ket Qubit) : norm2 (opOperator p φ) = norm2 φ := by
  refine norm2_monomial (fun x y he => ?_) (fun x => norm_phase _) φ
  simp only [runOp_fst] at he
  rw [← moveOp_moveOp hp x, he, moveOp_moveOp hp]

theorem norm2_opsOperator {ops : OpSeq}
    (hops : ∀ p ∈ ops, ∀ q, p.2.writes q = true → p.1.uses q = false) (φ : Ket Qubit) :
    norm2 (opsOperator ops φ) = norm2 φ := by
  induction ops generalizing φ with
  | nil => rw [opsOperator, Module.End.one_apply]
  | cons p ops ih =>
    rw [opsOperator, Module.End.mul_apply, ih fun r hr => hops r (List.mem_cons_of_mem _ hr),
      norm2_opOperator (hops p (List.mem_cons_self ..))]

namespace Simulator

variable {P : Prop} {ψ φ : Ket Qubit} {s t u : Simulator ℝ} {q : Qubit} {e : Option QubitState} {env : Env}
  {b : Bool}

theorem entryMat_unitary (e : Option QubitState) : entryMat e ∈ Matrix.unitaryGroup Bool ℂ := by
  cases e with
  | none => exact one_mem _
  | some st => exact st.pending.mat_unitary

/-- The queue and the pending gates keep the squared norm. -/
theorem norm2_unapplied (hk : s.sfreeQueue.Good) (φ : Ket Qubit) :
    norm2 (tensor s.pendingMat (opsOperator s.sfreeQueue.ops φ)) = norm2 φ := by
  have hunit : ∀ q, s.pendingMat q ∈ Matrix.unitaryGroup Bool ℂ := fun q => entryMat_unitary (s.qubits q)
  rw [norm2_tensor hunit, norm2_opsOperator hk.disjoint]

/-! ## `premeasure` -/

/-- The queue does not move the qubit, and its pending gate keeps its values, or exchanges them. -/
structure Measured (s : Simulator ℝ) (q : Qubit) (invert : Bool) : Prop where
  entry : ∀ b, proj b * s.pendingMat q = s.pendingMat q * proj (b ^^ invert)
  queue : ∀ p ∈ s.sfreeQueue.ops, p.2.writes q = false

/-- A component of the state is one of the vector. -/
theorem Measured.component {invert : Bool} (h : Measured s q invert) (b : Bool) (φ : Ket Qubit) :
    gate q (proj b) (tensor s.pendingMat (opsOperator s.sfreeQueue.ops φ)) =
      tensor s.pendingMat (opsOperator s.sfreeQueue.ops (gate q (proj (b ^^ invert)) φ)) := by
  have hops : Commute (gate q (proj (b ^^ invert))) (opsOperator s.sfreeQueue.ops) :=
    opsOperator_commute fun p hp => opOperator_commute_diag (fun c => by
      rw [proj, keep_apply, if_neg fun hc => Bool.not_ne_self c hc.1]) (h.queue p hp)
  rw [← Module.End.mul_apply (gate q _), gate_mul_tensor, h.entry, ← tensor_mul_gate, Module.End.mul_apply,
    ← Module.End.mul_apply (gate q _), hops.eq, Module.End.mul_apply]

/-- What `premeasure` leaves, and what it returns. -/
structure Premeasured (P : Prop) (ψ : Ket Qubit) (q : Qubit) (r : Bool × ℝ × ℝ) (t : Simulator ℝ) : Prop
    extends Stands P ψ t, Measured t q r.1, Weights t q r.2.1 r.2.2

/-- An entry that the projection to 0 moves past. -/
theorem measured_of_moves {invert : Bool} (h : proj false * s.pendingMat q = s.pendingMat q * proj invert)
    (hq : ∀ p ∈ s.sfreeQueue.ops, p.2.writes q = false) : Measured s q invert := by
  refine ⟨fun b => ?_, hq⟩
  cases b with
  | false =>
    rw [Bool.false_xor]
    exact h
  | true =>
    rw [Bool.true_xor, proj_not, mul_sub, mul_one, ← h, ← Bool.not_false, proj_not, sub_mul, one_mul]

theorem wp_premeasure_stands (henv : env.Granted) (h : Stands P ψ s) (hs : Clean s) :
    Wp (fun _ => True) (Sized P) (premeasure env q) s fun r t => Premeasured P ψ q r t := by
  refine .bind (wp_preflush_stands henv (Preflush.ctl_spec false) h (hs q)) fun invert t ht => .bind_read ?_
  refine .bind (((wp_innerFlush_stands henv ht.toStands).and wp_innerFlush_queue).imp (fun _ _ => trivial)
    (fun _ he => he.1) fun _ _ hu => hu) fun _ u ⟨⟨hu, hf⟩, hk⟩ => .bind_read ?_
  have hm : Measured u q invert := by
    have hentry := Moves.flushed ht.moves (hf q)
    rw [Bool.false_xor] at hentry
    refine measured_of_moves hentry fun p hp => ?_
    -- a queue that is left does not write the qubit
    rw [hk] at hp
    split at hp
    · exact absurd hp List.not_mem_nil
    · rename_i hn
      refine Bool.eq_false_iff.mpr fun hw => hn ?_
      have hwrites := (ht.range.queue.built.covers p hp).target q hw
      rw [needsSfree, hwrites, Bool.true_or]
      exact if_neg fun he => absurd (List.isEmpty_iff.mp he ▸ hp) List.not_mem_nil
  split
  · rename_i hq
    exact .pure ⟨hu, hm, fun _ => ⟨rfl, rfl⟩, fun hle => absurd hq (Nat.not_lt.mpr hle)⟩
  · rename_i hq
    refine .bind_ofExcept (fun e he => premeasure_sized hu.live he) fun r hr =>
      .pure ⟨hu, hm, fun hlt => absurd hlt hq, fun _ => ?_⟩
    obtain ⟨-, hr⟩ := Statevector.premeasure_of_some (AnyVector.premeasure_ok hr)
    rw [hr]
    exact ⟨rfl, rfl⟩

/-! ## What it tells -/

section

variable {r : Bool × ℝ × ℝ}

/-- The pair of `premeasure`, for the values of the qubit of the state. -/
def forState (r : Bool × ℝ × ℝ) : ℝ × ℝ := if r.1 then (r.2.2, r.2.1) else r.2

/-- The squared norms of the two components. -/
noncomputable def components (q : Qubit) (ψ : Ket Qubit) : ℝ × ℝ :=
  (norm2 (gate q (proj false) ψ), norm2 (gate q (proj true) ψ))

theorem components_add (q : Qubit) (ψ : Ket Qubit) : (components q ψ).1 + (components q ψ).2 = norm2 ψ := by
  rw [components, norm2_proj_add]

theorem components_of_phase (h : UpToPhase ψ φ) (q : Qubit) : components q ψ = components q φ := by
  rw [components, components, (h.map (gate q _)).norm2_eq, (h.map (gate q _)).norm2_eq]

theorem Premeasured.norm2_component (h : Premeasured P ψ q r t) (b : Bool) :
    norm2 (gate q (proj b) t.logical) = norm2 (gate q (proj (b ^^ r.1)) t.state.vec.toKet) := by
  rw [Simulator.logical, h.component, norm2_unapplied h.range.queue]

/-- The squared norm of a component of the vector. -/
theorem Premeasured.norm2_stored (h : Premeasured P ψ q r t) (hq : q.val ≤ t.state.maxQubit) (v : Bool) :
    norm2 (gate q (proj v) t.state.vec.toKet) = if v then r.2.2 else r.2.1 := by
  obtain ⟨h0, h1⟩ := h.stored hq
  cases v with
  | false => exact (Statevector.weight_eq_norm2 h.small h.inv q false).symm.trans h0.symm
  | true => exact (Statevector.weight_eq_norm2 h.small h.inv q true).symm.trans h1.symm

/-- A qubit past the end of the vector is 0. -/
theorem Premeasured.gate_past (h : Premeasured P ψ q r t) (hq : t.state.maxQubit < q.val) :
    gate q (proj false) t.state.vec.toKet = t.state.vec.toKet ∧ gate q (proj true) t.state.vec.toKet = 0 := by
  have hfalse : gate q (proj false) t.state.vec.toKet = t.state.vec.toKet := by
    refine Statevector.gate_proj_of_ge ?_
    unfold AnyVector.maxQubit Statevector.maxQubit at hq
    have hwords := h.range.words
    omega
  refine ⟨hfalse, add_left_cancel (a := t.state.vec.toKet) ?_⟩
  rw [add_zero]
  calc t.state.vec.toKet + gate q (proj true) t.state.vec.toKet
      = gate q (proj false) t.state.vec.toKet + gate q (proj true) t.state.vec.toKet := by rw [hfalse]
    _ = t.state.vec.toKet := gate_proj_add q _

/-- The pair is the squared norms of the components. -/
theorem Premeasured.components_stored (h : Premeasured P ψ q r t) (hq : q.val ≤ t.state.maxQubit) :
    forState r = components q ψ := by
  rw [← components_of_phase h.logical, components, h.norm2_component, h.norm2_component, h.norm2_stored hq,
    h.norm2_stored hq, forState]
  cases r.1 <;> rfl

/-- Past the end of the vector the pair is the squared norms for a state of norm 1. -/
theorem Premeasured.components_past (h : Premeasured P ψ q r t) (hq : t.state.maxQubit < q.val) :
    components q ψ = norm2 ψ • forState r := by
  obtain ⟨hfalse, htrue⟩ := h.gate_past hq
  obtain ⟨h0, h1⟩ := h.past hq
  have hnorm : norm2 ψ = norm2 t.state.vec.toKet := by
    rw [← h.logical.norm2_eq, Simulator.logical, norm2_unapplied h.range.queue]
  have hcase : ∀ v, norm2 (gate q (proj v) t.state.vec.toKet) = norm2 ψ * if v then r.2.2 else r.2.1 := by
    intro v
    cases v with
    | false => rw [hfalse, hnorm, if_neg Bool.false_ne_true, h0, mul_one]
    | true => rw [htrue, if_pos rfl, h1, mul_zero, norm2_zero]
  rw [← components_of_phase h.logical, components, h.norm2_component, h.norm2_component, hcase, hcase,
    forState]
  cases r.1 <;> rfl

/-! ## `measure` -/

/-- The weight of the value that is not chosen. -/
theorem Premeasured.other (h : Premeasured P ψ q r t) {bias : BitVec 64} {v : Bool}
    (hv : selectOutcome r.1 r.2.1 r.2.2 bias = v) :
    norm2 (gate q (proj (!v)) t.state.vec.toKet) = if v then r.2.1 else r.2.2 := by
  rcases Nat.lt_or_ge t.state.maxQubit q.val with hq | hq
  · obtain ⟨h0, h1⟩ := h.past hq
    rw [h0, h1, selectOutcome_one_zero] at hv
    subst hv
    rw [Bool.not_false, (h.gate_past hq).2, norm2_zero, if_neg Bool.false_ne_true, h1]
  · rw [h.norm2_stored hq]
    cases v <;> rfl

/-- Nothing to collapse. -/
theorem Premeasured.kept (h : Premeasured P ψ q r t) {v : Bool}
    (hz : norm2 (gate q (proj (!v)) t.state.vec.toKet) = 0) :
    gate q (proj (v ^^ r.1)) t.logical = t.logical := by
  have hproj : gate q (proj v) t.state.vec.toKet = t.state.vec.toKet := by
    have hadd := gate_proj_add q t.state.vec.toKet
    have hother := eq_zero_of_norm2 hz
    cases v with
    | false =>
      rw [Bool.not_false] at hother
      rw [hother, add_zero] at hadd
      exact hadd
    | true =>
      rw [Bool.not_true] at hother
      rw [hother, zero_add] at hadd
      exact hadd
  rw [Simulator.logical, h.component, Bool.xor_assoc, Bool.xor_self, Bool.xor_false, hproj]

end

/-- The state after a measurement is a multiple of its component with the value that is reported. -/
structure Collapsed (P : Prop) (ψ : Ket Qubit) (q : Qubit) (b : Bool) (t : Simulator ℝ) : Prop
    extends Sound P t where
  logical : ∃ c : ℂ, c ≠ 0 ∧ t.logical = c • gate q (proj b) ψ
  norm : norm2 t.logical = norm2 ψ ∨ norm2 t.logical = 1

/-- A nonzero multiple of a state that the simulator stands for. -/
theorem Stands.scaled (h : Stands P ψ s) {c : ℂ} (hc : c ≠ 0)
    (ht : φ = c • gate q (proj b) s.logical) : ∃ c : ℂ, c ≠ 0 ∧ φ = c • gate q (proj b) ψ := by
  obtain ⟨d, hd, hlog⟩ := h.logical
  refine ⟨c * d, mul_ne_zero hc (norm_ne_zero_iff.mp (by rw [hd]; exact one_ne_zero)), ?_⟩
  rw [ht, hlog, map_smul, smul_smul]

/-- The state has no other component. -/
theorem Stands.collapsed (h : Stands P ψ t) (hb : gate q (proj b) t.logical = t.logical) :
    Collapsed P ψ q b t :=
  ⟨h.toSound, h.scaled one_ne_zero (by rw [one_smul, hb]), .inl h.logical.norm2_eq⟩

section

variable {r : Bool × ℝ × ℝ} {bias : BitVec 64} {v : Bool}

/-- The other value has a weight, so that the qubit is stored. -/
theorem Premeasured.le_of_other (h : Premeasured P ψ q r t) (hv : selectOutcome r.1 r.2.1 r.2.2 bias = v)
    (ho : (if v then r.2.1 else r.2.2) ≠ 0) : q.val ≤ t.state.maxQubit := by
  by_contra hq
  obtain ⟨h0, h1⟩ := h.past (Nat.lt_of_not_le hq)
  rw [h0, h1, selectOutcome_one_zero] at hv
  subst hv
  exact ho h1

/-- The vector is collapsed. -/
theorem Premeasured.collapsed (h : Premeasured P ψ q r t) (hsum : r.2.1 + r.2.2 ≠ 0)
    (hv : selectOutcome r.1 r.2.1 r.2.2 bias = v) (ho : (if v then r.2.1 else r.2.2) ≠ 0) {w : AnyVector ℝ}
    (hw : t.state.measure t.ctx true q v (Scalar.sqrt (if v then r.2.2 else r.2.1)) = .ok w) :
    Collapsed P ψ q (v ^^ r.1) (t.withState w) := by
  have hq := h.le_of_other hv ho
  obtain ⟨vec, hvec, rfl⟩ := AnyVector.measure_ok hw
  have hpos : 0 < if v then r.2.2 else r.2.1 := by
    refine lt_of_le_of_ne ?_ (Ne.symm ?_)
    · rw [← h.norm2_stored hq]
      exact norm2_nonneg _
    · obtain ⟨h0, h1⟩ := h.stored hq
      rw [← hv]
      refine selectOutcome_weight ?_ ?_ hsum r.1 bias
      · rw [h0]
        exact Statevector.weight_nonneg _ _
      · rw [h1]
        exact Statevector.weight_nonneg _ _
  have hscale : Real.sqrt (if v then r.2.2 else r.2.1) ≠ 0 := (Real.sqrt_pos.mpr hpos).ne'
  have hket := Statevector.measure_toKet h.inv hvec
  have hlog : (t.withState ⟨t.state.words, vec⟩).logical =
      ((Real.sqrt (if v then r.2.2 else r.2.1) : ℝ) : ℂ)⁻¹ • gate q (proj (v ^^ r.1)) t.logical := by
    show tensor t.pendingMat (opsOperator t.sfreeQueue.ops vec.toKet) = _
    rw [hket, map_smul, map_smul, Simulator.logical, h.component, Bool.xor_assoc, Bool.xor_self,
      Bool.xor_false]
    rfl
  refine ⟨⟨⟨h.range.words, fun p hp => ?_, h.range.queue⟩, h.small, Statevector.measure_inv h.inv hvec,
    h.pending, h.queued, fun hP => ⟨(h.live hP).1, ?_⟩⟩, ?_, .inr ?_⟩
  · rw [show (t.withState ⟨t.state.words, vec⟩).state.vec = vec from rfl,
      Statevector.measure_partitionedBy hvec] at hp
    exact h.range.part p hp
  · have hc := h.toWeights.chosen h.range.words (h.live hP).2 r.1 bias
    rw [hv] at hc
    exact Statevector.measure_nonzero h.inv hscale hvec hc
  · exact h.scaled (inv_ne_zero (Complex.ofReal_ne_zero.mpr hscale)) hlog
  · rw [hlog, norm2_smul, h.norm2_component, Bool.xor_assoc, Bool.xor_self, Bool.xor_false, h.norm2_stored hq,
      Complex.normSq_inv, Complex.normSq_ofReal, Real.mul_self_sqrt hpos.le, inv_mul_cancel₀ hpos.ne']

/-- With a stored element that is kept, the vector is collapsed without a panic. -/
theorem Premeasured.measure_error (h : Premeasured P ψ q r t)
    (hv : selectOutcome r.1 r.2.1 r.2.2 bias = v) {alloc : Bool} {scale : ℝ} {e : Panic}
    (he : t.state.measure t.ctx alloc q v scale = .error e) : Sized P e := by
  refine measure_sized (fun hP => (h.live hP).1) h.inv (fun hP => ?_) he
  have hc := h.toWeights.chosen h.range.words (h.live hP).2 r.1 bias
  rw [hv] at hc
  exact hc.imp fun c hc => ⟨hc.1, hc.2.1⟩

end

theorem reported_fst (invert : Bool) (r0 r1 : ℝ) (bias : BitVec 64) :
    (reported invert r0 r1 bias).1 = (selectOutcome invert r0 r1 bias ^^ invert) := by
  unfold reported
  cases invert with
  | false => exact (Bool.xor_false _).symm
  | true => exact (Bool.xor_true _).symm

/-- `measure` is a projection of the state. -/
theorem wp_measure_sound (henv : env.Granted) (h : Stands P ψ s) (hs : Clean s) {bias : BitVec 64} :
    Wp (fun _ => True) (Sized P) (measure env q bias) s fun a t => Collapsed P ψ q a.1 t := by
  refine .bind (wp_premeasure_stands henv h hs) fun r t ht => ?_
  split
  · rename_i hsum
    refine .pure (ht.toStands.collapsed ?_)
    -- the state is zero
    have hq : q.val ≤ t.state.maxQubit := by
      by_contra hq
      obtain ⟨h0, h1⟩ := ht.past (Nat.lt_of_not_le hq)
      rw [h0, h1, add_zero] at hsum
      exact one_ne_zero hsum
    have hzero : t.logical = 0 := by
      refine eq_zero_of_norm2 ?_
      rw [Simulator.logical, norm2_unapplied ht.range.queue, ← norm2_proj_add q, ht.norm2_stored hq,
        ht.norm2_stored hq]
      exact hsum
    rw [hzero, map_zero]
  · rename_i hsum
    refine .bind (Q := fun _ u => Collapsed P ψ q (selectOutcome r.1 r.2.1 r.2.2 bias ^^ r.1) u) ?_
      fun _ u hu => .pure ?_
    · refine wp_collapse (fun ho => ?_) (fun ho w hw => ⟨trivial, ?_⟩) fun _ e he => ?_
      · refine ht.toStands.collapsed (ht.kept ?_)
        rw [ht.other rfl]
        exact ho
      · rw [henv] at hw
        exact ht.collapsed hsum rfl ho hw
      · exact ht.measure_error rfl he
    · rw [← reported_fst] at hu
      exact hu

/-! ## Vectors without anything pending -/

theorem wp_resetState_sound (henv : env.Granted) (h : Sound False s) :
    Wp (fun _ => True) (fun _ => True) (resetState env) s fun _ t =>
      Sound False t ∧ Clean t ∧ norm2 t.logical = 1 := by
  obtain ⟨v, hv, hnew⟩ := @AnyVector.new_ok ℝ _ (env.alloc .grow s.ctx.initMaxQubit 0) s.ctx.initMaxQubit
  refine .bind_read (.bind_ofExcept (fun _ _ => trivial) fun w hw => ?_)
  rw [hnew] at hw
  cases hw
  rw [henv] at hv
  obtain ⟨ht, hc, hlog⟩ := @sound_unpending False s.ctx ⟨_, v⟩ s.sfreeQueue.clear (AnyVector.numWords_pos _)
    (AnyVector.numWords_le _) (Statevector.new_inv hv).2 h.range.queue.clear rfl False.elim
  refine wp_setState trivial (wp_setQueue trivial (.change trivial ⟨ht, hc, (congrArg norm2 hlog).trans ?_⟩))
  rw [Statevector.new_toKet hv, norm2_ket]

/-- All amplitudes are kept: the threshold is zero. -/
theorem norm2_denseChunk (N start : Nat) (values : List (Cplx ℝ)) :
    ((Statevector.denseChunk start values : List (Element N ℝ)).map fun e => e.val.norm2).sum =
      (values.map Cplx.norm2).sum := by
  have hall : values.zipIdx.filter (fun p => Statevector.wantVal p.1) = values.zipIdx :=
    List.filter_eq_self.mpr fun _ _ => decide_eq_true (le_max_of_le_left (abs_nonneg _))
  rw [Statevector.denseChunk, hall, List.map_map, ← List.zipIdx_map_fst 0 values, List.map_map,
    List.zipIdx_map_fst]
  rfl

theorem wp_importDense_sound (henv : env.Granted) (h : Sound False s) {values : List (Cplx ℝ)}
    (hl : values.length < 2 ^ 64) :
    Wp (fun _ => True) (fun _ => True) (importDense env values) s fun _ t =>
      Sound False t ∧ Clean t ∧ norm2 t.logical = (values.map Cplx.norm2).sum := by
  refine Wp.any.known.mono fun _ t ⟨_, ht⟩ => ?_
  rw [importDense_result hl henv] at ht
  cases ht
  have hwords : 0 < (denseVector s.ctx values).words := AnyVector.numWords_pos _
  have hsmall : (denseVector s.ctx values).words ≤ 62 := AnyVector.numWords_le _
  have hinv : (denseVector s.ctx values).vec.Inv :=
    Statevector.importDense_inv hwords hl (Statevector.clear_inv (s := ⟨none, [], []⟩) fun _ hq => nomatch hq)
      (Statevector.importDense_granted _ values)
  obtain ⟨ht, hc, hlog⟩ := @sound_unpending False s.ctx (denseVector s.ctx values) s.sfreeQueue.clear hwords
    hsmall hinv h.range.queue.clear rfl False.elim
  refine ⟨ht, hc, (congrArg norm2 hlog).trans ?_⟩
  rw [Statevector.toKet, Statevector.norm2_elementsKet hsmall hinv.distinct]
  refine Eq.trans ?_ (norm2_denseChunk (denseVector s.ctx values).words 0 values)
  rw [Statevector.elements, show (denseVector s.ctx values).vec.part1 = [] from rfl, List.append_nil]
  rfl

/-- A vector with more words stores the same state. -/
theorem grown_toKet {M N : Nat} (hM : M ≤ N) {v : Statevector M ℝ} {w : Statevector N ℝ} (h : v.Grown w) :
    w.toKet = v.toKet := by
  rw [Statevector.toKet, h.elements, Statevector.toKet]
  refine (elementsKet_map (A := 1) fun e _ => ?_)
  rw [Module.End.one_apply, Element.toKet, Element.toKet, Statevector.toState_resizeElement hM]
  rfl

/-- A clone stands for the same state. -/
theorem wp_cloneFlushed_sound (h : Sound False s) {alloc : Nat → Bool} (ha : ∀ i, alloc i = true) :
    Wp (fun _ => True) (fun _ => True) (cloneFlushed alloc) s fun r _ =>
      Sound False r ∧ Clean r ∧ r.logical = s.logical := by
  refine .bind_read ?_
  split
  · exact .fail trivial
  · rename_i hempty
    rw [not_or, not_not, not_not] at hempty
    obtain ⟨hk, hentries⟩ := hempty
    have hq : ∀ q, s.qubits q = none := fun q => by
      cases hst : s.qubits q with
      | none => rfl
      | some st => exact absurd (hentries ▸ mem_entries.mpr hst) List.not_mem_nil
    obtain ⟨t, ht, hg⟩ := AnyVector.dynClone_grown h.range.words h.inv alloc
    rw [ha, if_pos (show tryReserve true _ = true from Bool.or_true _)] at hg
    refine .bind_ofExcept (fun _ _ => trivial) fun v hv => .pure ?_
    rw [ht] at hv
    cases hv
    obtain ⟨hs, hc, hlog⟩ := @sound_unpending False { s.ctx with initMaxQubit := Qubit.ZERO }
      ⟨s.state.words, t⟩ Queue.new h.range.words h.small hg.inv Queue.good_new rfl False.elim
    refine ⟨hs, hc, hlog.trans ?_⟩
    rw [logical_of_empty hq hk]
    exact grown_toKet (Nat.le_refl _) hg

/-! ## Reachable states -/

/-- A gate keeps the squared norm. -/
theorem norm2_operator {call : Call ℝ} (hv : call.Valid) (φ : Ket Qubit) :
    norm2 (call.operator φ) = norm2 φ := by
  cases call with
  | u3 q g => exact norm2_gate g.mat_unitary φ
  | ctlX ctl q => exact norm2_opOperator ((Queue.good_new.ctlX hv).disjoint _ (List.mem_cons_self ..)) φ
  | ctlSwap ctl q1 q2 =>
    exact norm2_opOperator ((Queue.good_new.ctlSwap hv.1 hv.2.1).disjoint _ (List.mem_cons_self ..)) φ
  | ctlPhase ctl a => exact norm2_opOperator (Queue.good_new.ctlPhase.disjoint _ (List.mem_cons_self ..)) φ
  | _ => rfl

/-- With arguments that do not meet the assertions, a call does not return. -/
theorem wp_run_invalid {call : Call ℝ} (hv : ¬ call.Valid) {Q : Unit → Simulator ℝ → Prop} :
    Wp (fun _ => True) (fun _ => True) (call.run env) s Q := by
  cases call with
  | ctlX ctl q =>
    rw [Call.Valid, Bool.not_eq_false] at hv
    rw [Call.run, ctlX]
    split
    · rename_i ha
      rw [Control.isAlways_iff.mp ha] at hv
      cases hv
    · exact .fail trivial
  | ctlSwap ctl q1 q2 =>
    rw [Call.run, ctlSwap, if_pos (by
      by_contra h
      rw [not_or, not_or, Bool.not_eq_true, Bool.not_eq_true] at h
      exact hv h)]
    exact .fail trivial
  | _ => exact absurd trivial hv

/-- What a call makes of the squared norm. -/
def NormAfter (call : Call ℝ) (s t : Simulator ℝ) : Prop :=
  norm2 t.logical = norm2 s.logical ∨ norm2 t.logical = 1 ∨
    ∃ values, call = .importDense values ∧ norm2 t.logical = (values.map Cplx.norm2).sum

/-- Every call leaves a sound state. -/
theorem wp_run_reached (henv : env.Granted) (h : Sound False s) (hs : Clean s) {call : Call ℝ}
    (he : call.Exact s) (hl : ∀ values, call = .importDense values → values.length < 2 ^ 64) :
    Wp (fun _ => True) (fun _ => True) (call.run env) s
      fun _ t => Sound False t ∧ Clean t ∧ NormAfter call s t := by
  have hst : Stands False s.logical s := ⟨h, .refl _⟩
  have hclean : Wp (fun _ => True) (fun _ => True) (call.run env) s fun _ t => Clean t :=
    (wp_run_flags hs call).imp (fun _ _ => trivial) (fun _ _ => trivial) fun _ _ ht => ht
  have hkeep : ∀ {φ : Ket Qubit}, norm2 φ = norm2 s.logical →
      Wp (fun _ => True) (Sized False) (call.run env) s (fun _ t => Stands False φ t) →
      Wp (fun _ => True) (fun _ => True) (call.run env) s
        fun _ t => Sound False t ∧ Clean t ∧ NormAfter call s t := fun hφ hw =>
    (hw.and hclean).imp (fun _ _ => trivial) (fun _ _ => trivial) fun _ t ⟨ht, hc⟩ =>
      ⟨ht.toSound, hc, .inl (ht.logical.norm2_eq.trans hφ)⟩
  by_cases hv : call.Valid
  · have hgate : call.IsGate → Wp (fun _ => True) (fun _ => True) (call.run env) s
        fun _ t => Sound False t ∧ Clean t ∧ NormAfter call s t := fun hg =>
      hkeep (norm2_operator hv _) (wp_run_stands henv hst hs hg hv he)
    cases call with
    | measure q bias =>
      have hw : Wp (fun _ => True) (Sized False) ((Call.measure q bias).run env) s fun _ t =>
          Sound False t ∧ NormAfter (.measure q bias) s t :=
        .bind (wp_measure_sound henv hst hs) fun a t ht =>
          .pure ⟨ht.toSound, ht.norm.imp id .inl⟩
      exact (hw.and hclean).imp (fun _ _ => trivial) (fun _ _ => trivial) fun _ t ⟨ht, hc⟩ => ⟨ht.1, hc, ht.2⟩
    | qubitProbs q =>
      have hw := wp_qubitProbs ((wp_premeasure_stands (q := q) henv hst hs).mono fun _ _ ht => ht.toStands)
      exact hkeep rfl (.bind hw fun _ _ ht => .pure ht)
    | trim => exact hkeep rfl (.change trivial hst)
    | resetState =>
      exact (wp_resetState_sound henv h).mono fun _ t ⟨ht, hc, hn⟩ => ⟨ht, hc, .inr (.inl hn)⟩
    | importDense values =>
      exact (wp_importDense_sound henv h (hl values rfl)).mono fun _ t ⟨ht, hc, hn⟩ =>
        ⟨ht, hc, .inr (.inr ⟨values, rfl, hn⟩)⟩
    | _ => exact hgate trivial
  · exact wp_run_invalid hv

/-- The states between the calls, and those of clones. The calls return, the arithmetic is exact, and no
reservation fails. The amplitudes that are imported satisfy `I`. -/
inductive Reachable (I : List (Cplx ℝ) → Prop) : Simulator ℝ → Prop
  | new {ctx : Context} {s : Simulator ℝ} (h : new ctx true = .ok s) : Reachable I s
  | call {s t : Simulator ℝ} {env : Env} {call : Call ℝ} (hs : Reachable I s) (henv : env.Granted)
      (he : call.Exact s) (hI : ∀ values, call = .importDense values → values.length < 2 ^ 64 ∧ I values)
      (h : (call.run env).result s = .ok ((), t)) : Reachable I t
  | clone {s t u : Simulator ℝ} {alloc : Nat → Bool} (hs : Reachable I s) (ha : ∀ i, alloc i = true)
      (h : (cloneFlushed alloc).result s = .ok (t, u)) : Reachable I t

theorem Reachable.sound {I : List (Cplx ℝ) → Prop} (h : Reachable I s) : Sound False s ∧ Clean s := by
  induction h with
  | new hnew =>
    obtain ⟨hs, hc⟩ := stands_new hnew
    exact ⟨⟨hs.range, hs.small, hs.inv, hs.pending, hs.queued, False.elim⟩, hc⟩
  | call hs henv he hI hr ih =>
    obtain ⟨ht, hc, -⟩ := (wp_run_reached henv ih.1 ih.2 he fun values hv => (hI values hv).1).ends _ _ hr
    exact ⟨ht, hc⟩
  | clone hs ha hr ih =>
    obtain ⟨ht, hc, -⟩ := (wp_cloneFlushed_sound ih.1 ha).ends _ _ hr
    exact ⟨ht, hc⟩

/-- The squared norms of the amplitudes add up to one. -/
def Normalized (values : List (Cplx ℝ)) : Prop := (values.map Cplx.norm2).sum = 1

/-- If the imports are normalized, so are the states. -/
theorem Reachable.norm2_eq {I : List (Cplx ℝ) → Prop} (h : Reachable I s)
    (hN : ∀ values, I values → Normalized values) : norm2 s.logical = 1 := by
  induction h with
  | new hnew =>
    obtain ⟨hs, -⟩ := stands_new hnew
    rw [hs.logical.norm2_eq, norm2_ket]
  | call hs henv he hI hr ih =>
    obtain ⟨h, hc⟩ := hs.sound
    obtain ⟨-, -, hn⟩ := (wp_run_reached henv h hc he fun values hv => (hI values hv).1).ends _ _ hr
    rcases hn with hn | hn | ⟨values, hv, hn⟩
    · exact hn.trans ih
    · exact hn
    · exact hn.trans (hN values (hI values hv).2)
  | clone hs ha hr ih =>
    obtain ⟨-, -, hlog⟩ := (wp_cloneFlushed_sound hs.sound.1 ha).ends _ _ hr
    rw [hlog, ih]

/-- In a reachable state with a nonzero amplitude, and with no size of the context zero. -/
theorem Reachable.live {I : List (Cplx ℝ) → Prop} (h : Reachable I s) :
    Stands (s.ctx.Positive ∧ s.state.vec.Nonzero) s.logical s := by
  obtain ⟨h, -⟩ := h.sound
  exact ⟨⟨h.range, h.small, h.inv, h.pending, h.queued, id⟩, .refl _⟩

/-! ## Measurement -/

/-- Lazy measurement is eager measurement, in every reachable state. `premeasure` keeps the state, up to a
phase, and returns the squared norms of its components; the qubits past the end of the vector are 0, and a
pair that adds up to one is returned for them. `measure` makes a nonzero multiple of the component with the
value that it reports. For a vector with a nonzero amplitude they return, unless a size of the context is
zero. -/
theorem lazy_measure {I : List (Cplx ℝ) → Prop} (h : Reachable I s) (henv : env.Granted) (q : Qubit) :
    -- `premeasure`
    (s.ctx.Positive ∧ s.state.vec.Nonzero → ∃ r t, (premeasure env q).result s = .ok (r, t)) ∧
    (∀ r t, (premeasure env q).result s = .ok (r, t) → UpToPhase t.logical s.logical ∧
      (q.val ≤ t.state.maxQubit ∨ norm2 s.logical = 1 → forState r = components q s.logical) ∧
      (t.state.maxQubit < q.val → r.2 = (1, 0) ∧ components q s.logical = norm2 s.logical • forState r)) ∧
    -- `measure`
    (∀ bias, (s.ctx.Positive ∧ s.state.vec.Nonzero → ∃ a t, (measure env q bias).result s = .ok (a, t)) ∧
      ∀ a t, (measure env q bias).result s = .ok (a, t) →
        ∃ c : ℂ, c ≠ 0 ∧ t.logical = c • gate q (proj a.1) s.logical) ∧
    -- the norm
    ((∀ values, I values → Normalized values) → norm2 s.logical = 1) := by
  have hst := h.live
  obtain ⟨hsound, hclean⟩ := h.sound
  have hpre := wp_premeasure_stands (q := q) henv hst hclean
  refine ⟨fun hP => ?_, fun r t hr => ?_, fun bias => ⟨fun hP => ?_, fun a t ha => ?_⟩, h.norm2_eq⟩
  · have hw := ((hpre.and (wp_premeasure_flags hclean)).and wp_premeasure_asserts).and
      (wp_premeasure_range hsound.range)
    exact returns_of_wp hw (fun e ⟨⟨⟨hs, hd⟩, ha⟩, hr⟩ => no_panic hs hd ha hr) hP
  · have ht := hpre.ends r t hr
    have hpast : t.state.maxQubit < q.val → r.2 = (1, 0) := fun hq =>
      Prod.ext (ht.past hq).1 (ht.past hq).2
    refine ⟨ht.logical, fun hq => ?_, fun hq => ⟨hpast hq, ht.components_past hq⟩⟩
    rcases Nat.lt_or_ge t.state.maxQubit q.val with hlt | hle
    · rcases hq with hle | hnorm
      · exact absurd hlt (Nat.not_lt.mpr hle)
      · rw [ht.components_past hlt, hnorm, one_smul]
    · exact ht.components_stored hle
  · have hw := (((@wp_measure_sound _ _ s q env henv hst hclean bias).and (wp_measure_flags hclean)).and
      wp_measure_asserts).and (wp_measure_range hsound.range fun i => selectOutcome_one_zero i bias)
    exact returns_of_wp hw (fun e ⟨⟨⟨hs, hd⟩, ha⟩, hr⟩ => no_panic hs hd ha hr) hP
  · exact ((wp_measure_sound henv hst hclean).ends a t ha).logical

/-- A qubit in superposition, with the gate still pending. -/
theorem lazy_measure_plus : ∃ s : Simulator ℝ, UpToPhase s.logical (gate 0 U3.H.mat (ket fun _ => false)) ∧
    ∃ a t, (measure Env.default 0 0).result s = .ok (a, t) ∧
      ∃ c : ℂ, c ≠ 0 ∧ t.logical = c • gate 0 (proj a.1) s.logical := by
  have hnew : new Context.default true = .ok
      (newWithState Context.default ⟨1, some 0, [⟨BitSet.empty, ⟨1, 0⟩⟩], []⟩ : Simulator ℝ) := rfl
  have henv : Env.default.Granted := fun _ _ _ => rfl
  obtain ⟨h0, hc0⟩ := stands_new hnew
  have hexact : U3.H.Exact := ⟨by decide, by decide, by decide⟩
  have hw := @wp_run_gate _ _ _ Env.default (.u3 0 U3.H) henv h0 hc0 trivial trivial hexact
  obtain ⟨⟨⟩, s, hs⟩ := returns_of_wp hw (fun _ h => h) Context.default_positive
  obtain ⟨hst, -⟩ := hw.ends () s hs
  have hreach : Reachable (fun _ => True) s :=
    @Reachable.call _ _ _ _ (.u3 0 U3.H) (.new hnew) henv hexact (fun _ hv => nomatch hv) hs
  obtain ⟨-, -, hmeasure, -⟩ := lazy_measure hreach henv 0
  obtain ⟨a, t, ha⟩ := (hmeasure 0).1 (hst.live Context.default_positive)
  exact ⟨s, hst.logical, a, t, ha, (hmeasure 0).2 a t ha⟩

/-- With nothing queued or pending, `premeasure` only reads the vector. -/
theorem premeasure_nothing (hk : s.sfreeQueue.isEmpty = true) (hp : ∀ q, s.qubits q = none) :
    (premeasure env q).result s = (if s.state.maxQubit < q.val then return (false, 1, 0)
      else do
        let r ← ofExcept (s.state.premeasure s.ctx q)
        return (false, r.1, r.2) : Sim ℝ (Bool × ℝ × ℝ)).result s := by
  have hpre : (preflush Preflush.ctl env q).result s = .ok (false, s) := by
    unfold preflush
    rw [result_bind_read, hp q]
    rfl
  unfold premeasure
  rw [result_bind hpre, result_bind_read, result_bind (innerFlush_nothing hk hp env _), result_bind_read]

/-- Nothing is pending, and the qubit is past the end of the vector. -/
theorem premeasure_past (hk : s.sfreeQueue.isEmpty = true) (hp : ∀ q, s.qubits q = none)
    (hq : s.state.maxQubit < q.val) : (premeasure env q).result s = .ok ((false, 1, 0), s) := by
  rw [premeasure_nothing hk hp, if_pos hq]
  rfl

/-- An import that is not normalized, and a qubit past the end of the vector. -/
theorem lazy_measure_unnormalized : ∃ sim s : Simulator ℝ, new Context.default true = .ok sim ∧
    (importDense Env.default [⟨2, 0⟩]).result sim = .ok ((), s) ∧ Reachable (fun _ => True) s ∧
    (premeasure Env.default 64).result s = .ok ((false, 1, 0), s) ∧
    forState (false, 1, 0) ≠ components 64 s.logical := by
  have hnew : new Context.default true = .ok
      (newWithState Context.default ⟨1, some 0, [⟨BitSet.empty, ⟨1, 0⟩⟩], []⟩ : Simulator ℝ) := rfl
  have henv : Env.default.Granted := fun _ _ _ => rfl
  have hl : [(⟨2, 0⟩ : Cplx ℝ)].length < 2 ^ 64 := by decide
  have hrun := importDense_result hl henv
    (newWithState Context.default ⟨1, some 0, [⟨BitSet.empty, ⟨1, 0⟩⟩], []⟩ : Simulator ℝ)
  have hreach := Reachable.new (I := fun _ => True) hnew
  refine ⟨_, _, hnew, hrun, ?_, premeasure_past rfl (fun _ => rfl) (by decide), fun he => ?_⟩
  · refine @Reachable.call _ _ _ _ (.importDense [⟨2, 0⟩]) hreach henv trivial (fun values hv => ?_) hrun
    cases hv
    exact ⟨hl, trivial⟩
  · obtain ⟨-, -, hnorm⟩ := (wp_importDense_sound henv hreach.sound.1 hl).ends _ _ hrun
    rw [← components_add 64, ← he] at hnorm
    norm_num [forState, Cplx.norm2] at hnorm

end Simulator

end Qblaze
