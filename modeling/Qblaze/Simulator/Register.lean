import Qblaze.Lib.Born
import Qblaze.Simulator.LazyMeasure

/-!
# The simulator is an ideal register

A call of a method answers with nothing, with an outcome and its probabilities, or with probabilities. The
ideal register has a vector for its state, does at once what a call means, and answers with the
probabilities that its vector tells (`Call.ideal`). It knows nothing of the queue, of pending gates, of the
chunks of the vector and of the samples.

* `Holds`: the simulator stands for the state of the register, up to a factor.
* `reported_eq_choose`: the outcome that `measure` reports is the one that the bits select, for both values
  of `invert`.
* `wp_eval`: a call answers as the register does, and leaves a simulator that holds its state.
-/

namespace Qblaze

open Lib.Run Angle Mat

/-! ## Answers -/

/-- What a call returns. `none` for probabilities is `NaN`. -/
inductive Answer (F : Type) where
  | unit
  | outcome (b : Bool) (probs : Option (F × F))
  | probs (probs : Option (F × F))

/-- A call, with what it returns. -/
def Call.eval {F : Type} [Field F] [LinearOrder F] [Eps F] [Scalar F] (env : Env) : Call F → Sim F (Answer F)
  | measure q bias => do
    let r ← Simulator.measure env q bias
    return .outcome r.1 r.2
  | qubitProbs q => do
    let r ← Simulator.qubitProbs env q
    return .probs r
  | call => do
    call.run env
    return .unit

/-- An import has an index of 64 bits for each amplitude. -/
def Call.Indexed {F : Type} : Call F → Prop
  | importDense values => values.length < 2 ^ 64
  | _ => True

/-! ## The ideal register -/

/-- The state with the amplitudes of a dense slice. -/
noncomputable def denseKet (values : List (Cplx ℝ)) : Ket Qubit :=
  (values.zipIdx.map fun p => p.1.toC • ket fun q => p.2.testBit q.val).sum

/-- What a call means: the answer of the ideal register, and its new state. -/
noncomputable def Call.ideal (ψ : Ket Qubit) : Call ℝ → Answer ℝ × Ket Qubit
  | measure q bias =>
    let b := choose (born q ψ false) (born q ψ true) bias
    (.outcome b (some (born q ψ false, born q ψ true)), gate q (proj b) ψ)
  | qubitProbs q => (.probs (some (born q ψ false, born q ψ true)), ψ)
  | resetState => (.unit, ket fun _ => false)
  | importDense values => (.unit, denseKet values)
  | call => (.unit, call.operator ψ)

/-- An import is the state of a register. -/
def Call.Imports : Call ℝ → Prop
  | importDense values => values.length < 2 ^ 64 ∧ denseKet values ≠ 0
  | _ => True

/-- The register keeps a state: it does not select an outcome that is impossible. -/
theorem Call.ideal_ne_zero {call : Call ℝ} {ψ : Ket Qubit} (hψ : ψ ≠ 0) (hv : call.Valid) (hi : call.Imports) :
    (call.ideal ψ).2 ≠ 0 := by
  have hgate : call.operator ψ ≠ 0 := fun h0 => (norm2_pos hψ).ne' (by
    rw [← Simulator.norm2_operator hv ψ, h0, norm2_zero])
  cases call with
  | measure q bias =>
    refine proj_ne_zero fun h0 => ?_
    exact Event.choose_ne_of_born hψ h0 bias rfl
  | qubitProbs q => exact hψ
  | resetState =>
    simp only [Call.ideal]
    exact ket_ne_zero _
  | importDense values => exact hi.2
  | _ => exact hgate

namespace Simulator

variable {P : Prop} {ψ φ : Ket Qubit} {s t : Simulator ℝ} {q : Qubit} {env : Env} {call : Call ℝ}
  {r : Bool × ℝ × ℝ}

/-! ## The outcome -/

/-- The outcome and the probabilities that `measure` reports. -/
theorem reported_eq_choose {r0 r1 p0 p1 : ℝ} (h0 : 0 ≤ r0) (h1 : 0 ≤ r1) (h : 0 < r0 + r1) (invert : Bool)
    (hp0 : p0 = (if invert then r1 else r0) / (r0 + r1)) (hp1 : p1 = (if invert then r0 else r1) / (r0 + r1))
    (bias : BitVec 64) : reported invert r0 r1 bias = (choose p0 p1 bias, p0, p1) := by
  have hpow : (((2 ^ 64 : Nat) : ℝ)) = 2 ^ 64 := by norm_num
  have hprob : (reported invert r0 r1 bias).2 = (p0, p1) := by
    rw [hp0, hp1]
    cases invert <;> rfl
  refine Prod.ext ?_ hprob
  rw [Bool.eq_iff_iff, choose_eq_true, threshold, hpow]
  obtain ⟨p, hp, hhalf, hspec⟩ := reported_spec h0 h1 h invert
  rcases hspec with hspec | hspec
  · obtain ⟨heq, hiff⟩ := hspec bias
    rw [hprob] at heq
    obtain ⟨h0, h1⟩ := Prod.mk.inj heq
    rw [hiff, if_pos (by linarith), h0]
  · obtain ⟨heq, hiff⟩ := hspec bias
    rw [hprob] at heq
    obtain ⟨h0, h1⟩ := Prod.mk.inj heq
    rw [hiff, h0, h1]
    split
    · -- both outcomes have the probability one half
      have hp : p = 1 / 2 := by linarith
      have hfloor : ⌊(1 / 2 : ℝ) * 2 ^ 64⌋₊ = 2 ^ 63 := by
        rw [show (1 / 2 : ℝ) * 2 ^ 64 = ((2 ^ 63 : Nat) : ℝ) by norm_num, Nat.floor_natCast]
      rw [hp, show (1 - 1 / 2 : ℝ) = 1 / 2 by norm_num, hfloor]
      omega
    · rfl

/-! ## The probabilities -/

theorem components_born (q : Qubit) (ψ : Ket Qubit) :
    born q ψ false = (components q ψ).1 / ((components q ψ).1 + (components q ψ).2) ∧
      born q ψ true = (components q ψ).2 / ((components q ψ).1 + (components q ψ).2) := by
  rw [components_add, components]
  exact ⟨by rw [born], by rw [born]⟩

/-- The pair of `premeasure` is proportional to the probabilities. -/
theorem Premeasured.born_eq (h : Premeasured P ψ q r t) (hψ : ψ ≠ 0) :
    0 ≤ r.2.1 ∧ 0 ≤ r.2.2 ∧ 0 < r.2.1 + r.2.2 ∧
      born q ψ false = (if r.1 then r.2.2 else r.2.1) / (r.2.1 + r.2.2) ∧
      born q ψ true = (if r.1 then r.2.1 else r.2.2) / (r.2.1 + r.2.2) := by
  have hpos := norm2_pos hψ
  obtain ⟨hb0, hb1⟩ := components_born q ψ
  have hfor : forState r = (if r.1 then r.2.2 else r.2.1, if r.1 then r.2.1 else r.2.2) := by
    unfold forState
    split <;> rfl
  have hadd : (forState r).1 + (forState r).2 = r.2.1 + r.2.2 := by
    rw [hfor]
    cases r.1
    · rfl
    · exact add_comm _ _
  rcases Nat.lt_or_ge t.state.maxQubit q.val with hlt | hle
  · obtain ⟨h0, h1⟩ := h.past hlt
    have hc := h.components_past hlt
    have hsum : r.2.1 + r.2.2 = 1 := by rw [h0, h1, add_zero]
    refine ⟨h0 ▸ zero_le_one, h1 ▸ le_refl _, hsum ▸ zero_lt_one, ?_, ?_⟩
    · rw [hb0, hc, Prod.smul_fst, Prod.smul_snd, smul_eq_mul, smul_eq_mul, ← mul_add,
        mul_div_mul_left _ _ hpos.ne', hadd, hfor]
    · rw [hb1, hc, Prod.smul_fst, Prod.smul_snd, smul_eq_mul, smul_eq_mul, ← mul_add,
        mul_div_mul_left _ _ hpos.ne', hadd, hfor]
  · have hc := h.components_stored hle
    obtain ⟨h0, h1⟩ := h.stored hle
    have hsum : r.2.1 + r.2.2 = norm2 ψ := by rw [← hadd, hc, components_add]
    refine ⟨h0 ▸ Statevector.weight_nonneg _ _, h1 ▸ Statevector.weight_nonneg _ _, hsum ▸ hpos, ?_, ?_⟩
    · rw [hb0, ← hc, hadd, hfor]
    · rw [hb1, ← hc, hadd, hfor]

/-- The outcome of `measure` is the one that the bits select. -/
theorem wp_measure_answer (henv : env.Granted) (h : Stands P ψ s) (hs : Clean s) (hψ : ψ ≠ 0)
    {bias : BitVec 64} :
    Wp (fun _ => True) (fun _ => True) (measure env q bias) s fun a _ =>
      a = (choose (born q ψ false) (born q ψ true) bias, some (born q ψ false, born q ψ true)) := by
  refine .bind ((wp_premeasure_stands henv h hs).imp (fun _ _ => trivial) (fun _ _ => trivial) fun _ _ h => h)
    fun r t ht => ?_
  obtain ⟨h0, h1, hpos, hb0, hb1⟩ := ht.born_eq hψ
  rw [if_neg hpos.ne']
  refine .bind .any fun _ _ _ => .pure ?_
  rw [reported_eq_choose h0 h1 hpos r.1 hb0 hb1]

/-- `premeasure` returns, with no size of the context zero. -/
theorem wp_premeasure_returns (henv : env.Granted) (h : Stands P ψ s) (hs : Clean s) :
    Wp (fun _ => True) (fun _ => ¬ P) (premeasure env q) s fun r t => Premeasured P ψ q r t ∧ Clean t := by
  have hw := (((@wp_premeasure_stands _ _ s q env henv h hs).and (wp_premeasure_flags hs)).and
    wp_premeasure_asserts).and (wp_premeasure_range h.range)
  exact hw.imp (fun _ _ => trivial) (fun e ⟨⟨⟨hs, hd⟩, ha⟩, hr⟩ => no_panic hs hd ha hr)
    fun _ _ ht => ht.1.1

/-- `qubit_probs` keeps the state and tells its probabilities. -/
theorem wp_qubitProbs_answer (henv : env.Granted) (h : Stands P ψ s) (hs : Clean s) (hψ : ψ ≠ 0) :
    Wp (fun _ => True) (fun _ => ¬ P) (qubitProbs env q) s fun a t =>
      a = some (born q ψ false, born q ψ true) ∧ Stands P ψ t ∧ Clean t := by
  refine .bind (wp_premeasure_returns henv h hs) fun r t ⟨ht, hc⟩ => ?_
  obtain ⟨h0, h1, hpos, hb0, hb1⟩ := ht.born_eq hψ
  simp only [if_neg hpos.ne']
  refine .pure ⟨?_, ht.toStands, hc⟩
  rw [hb0, hb1]
  cases r.1 <;> rfl

/-- `measure` returns, with no size of the context zero. -/
theorem wp_measure_returns (henv : env.Granted) (h : Stands P ψ s) (hs : Clean s) {bias : BitVec 64} :
    Wp (fun _ => True) (fun _ => ¬ P) (measure env q bias) s fun a t => Collapsed P ψ q a.1 t ∧ Clean t := by
  have hw := (((@wp_measure_sound _ _ s q env henv h hs bias).and (wp_measure_flags hs)).and
    wp_measure_asserts).and (wp_measure_range h.range fun i => selectOutcome_one_zero i bias)
  exact hw.imp (fun _ _ => trivial) (fun e ⟨⟨⟨hs, hd⟩, ha⟩, hr⟩ => no_panic hs hd ha hr)
    fun _ _ ht => ht.1.1

/-! ## The state -/

/-- Between two calls, the simulator stands for the state `ψ`, up to a factor. -/
structure Holds (ψ : Ket Qubit) (s : Simulator ℝ) : Prop extends Sound False s where
  clean : Clean s
  scale : UpToScale s.logical ψ

/-- A vector of zeros stands for no state. -/
theorem nonzero_of_logical (h : s.logical ≠ 0) : s.state.vec.Nonzero := by
  by_contra hn
  have hzero : s.state.vec.toKet = 0 := by
    refine List.sum_eq_zero fun φ hφ => ?_
    obtain ⟨e, he, rfl⟩ := List.mem_map.mp hφ
    have hval : e.val = Cplx.ZERO := by
      by_contra hne
      exact hn ⟨e, he, hne⟩
    rw [Element.toKet, hval, show (Cplx.ZERO : Cplx ℝ).toC = 0 from rfl, zero_smul]
  exact h (by rw [logical, hzero, map_zero, map_zero])

theorem Holds.logical_ne_zero (h : Holds ψ s) (hψ : ψ ≠ 0) : s.logical ≠ 0 := h.scale.ne_zero hψ

/-- With no size of the context zero, there is no reason to panic. -/
theorem Holds.stands (h : Holds ψ s) (hψ : ψ ≠ 0) : Stands s.ctx.Positive s.logical s :=
  ⟨⟨h.range, h.small, h.inv, h.pending, h.queued, fun hP => ⟨hP, nonzero_of_logical (h.logical_ne_zero hψ)⟩⟩,
    .refl _⟩

theorem Stands.holds (h : Stands P φ s) (hs : Clean s) (hφ : UpToScale φ ψ) : Holds ψ s :=
  ⟨⟨h.range, h.small, h.inv, h.pending, h.queued, False.elim⟩, hs, h.logical.scale.trans hφ⟩

/-- A new simulator. -/
theorem holds_new {ctx : Context} (h : new ctx true = .ok s) : Holds (ket fun _ => false) s := by
  obtain ⟨hs, hc⟩ := stands_new h
  exact hs.holds hc (.refl _)

/-! ## Calls -/

/-- What a call makes of a simulator that holds the state `ψ`: the register answers `a`, and the simulator
holds its new state. -/
def Answers (ψ : Ket Qubit) (call : Call ℝ) (s : Simulator ℝ) (a : Answer ℝ) (t : Simulator ℝ) : Prop :=
  ∃ φ, call.ideal ψ = (a, φ) ∧ Holds φ t ∧ (s.ctx.Positive → t.ctx.Positive)

/-- A gate, `flush` or `trim`. -/
theorem wp_eval_gate (henv : env.Granted) (h : Holds ψ s) (hψ : ψ ≠ 0) (hg : call.IsGate ∨ call = .trim)
    (hv : call.Valid) (he : call.Exact s) :
    Wp (fun _ => True) (fun _ => ¬ s.ctx.Positive) (call.run env) s fun _ t =>
      Holds (call.operator ψ) t ∧ (s.ctx.Positive → t.ctx.Positive) := by
  have hst := h.stands hψ
  rcases hg with hg | rfl
  · refine (wp_run_gate henv hst h.clean hg hv he).mono fun _ t ⟨ht, hc⟩ => ?_
    exact ⟨ht.holds hc (h.scale.map _), fun hP => (ht.live hP).1⟩
  · exact .change trivial ⟨⟨⟨h.range, h.small, h.inv, h.pending, h.queued, False.elim⟩, h.clean, h.scale⟩, id⟩

theorem wp_eval_measure (henv : env.Granted) (h : Holds ψ s) (hψ : ψ ≠ 0) {bias : BitVec 64} :
    Wp (fun _ => True) (fun _ => ¬ s.ctx.Positive) ((Call.measure q bias).eval env) s
      (Answers ψ (.measure q bias) s) := by
  have hst := h.stands hψ
  have hw := (@wp_measure_returns _ _ s q env henv hst h.clean bias).and
    (wp_measure_answer henv hst h.clean (h.logical_ne_zero hψ))
  refine .bind (hw.imp (fun _ _ => trivial) (fun _ he => he.1) fun _ _ ha => ha)
    fun a t ⟨⟨ht, hc⟩, ha⟩ => .pure ?_
  rw [h.scale.born_eq q] at ha
  subst ha
  refine ⟨_, by rw [Call.ideal], ⟨⟨ht.range, ht.small, ht.inv, ht.pending, ht.queued, False.elim⟩, hc, ?_⟩,
    fun hP => (ht.live hP).1⟩
  exact UpToScale.trans ht.logical (h.scale.map _)

theorem wp_eval_qubitProbs (henv : env.Granted) (h : Holds ψ s) (hψ : ψ ≠ 0) :
    Wp (fun _ => True) (fun _ => ¬ s.ctx.Positive) ((Call.qubitProbs q).eval env) s
      (Answers ψ (.qubitProbs q) s) := by
  have hst := h.stands hψ
  refine .bind (wp_qubitProbs_answer henv hst h.clean (h.logical_ne_zero hψ)) fun a t ⟨ha, ht, hc⟩ => .pure ?_
  rw [h.scale.born_eq q] at ha
  subst ha
  exact ⟨ψ, by rw [Call.ideal], ht.holds hc h.scale, fun hP => (ht.live hP).1⟩

/-- A vector with nothing queued and nothing pending. -/
theorem holds_unpending {ctx : Context} {v : AnyVector ℝ} {k : Queue} (hw : 0 < v.words) (hsmall : v.words ≤ 62)
    (hv : v.vec.Inv) (hk : k.Good) (he : k.ops = []) (hψ : UpToScale v.vec.toKet ψ) :
    Holds ψ ⟨ctx, v, k, fun _ => none⟩ := by
  obtain ⟨hs, hc, hlog⟩ := @sound_unpending False ctx v k hw hsmall hv hk he False.elim
  rw [← hlog] at hψ
  exact ⟨hs, hc, hψ⟩

theorem wp_eval_resetState (henv : env.Granted) (h : InRange s) :
    Wp (fun _ => True) (fun _ => ¬ s.ctx.Positive) ((Call.resetState : Call ℝ).eval env) s
      (Answers ψ .resetState s) := by
  obtain ⟨v, hv, hnew⟩ := @AnyVector.new_ok ℝ _ (env.alloc .grow s.ctx.initMaxQubit 0) s.ctx.initMaxQubit
  refine .bind (Q := fun _ t => Holds (ket fun _ => false) t ∧ t.ctx = s.ctx) ?_ fun _ t ⟨ht, hc⟩ =>
    .pure ⟨_, by rw [Call.ideal], ht, fun hP => hc ▸ hP⟩
  refine .bind_read (.bind_ofExcept (fun _ he => nomatch hnew.symm.trans he) fun w hw => ?_)
  rw [hnew] at hw
  cases hw
  rw [henv] at hv
  have hreset : Holds (ket fun _ => false) ⟨s.ctx, ⟨_, v⟩, s.sfreeQueue.clear, fun _ => none⟩ :=
    holds_unpending (AnyVector.numWords_pos _) (AnyVector.numWords_le _) (Statevector.new_inv hv).2
      h.queue.clear rfl (by rw [Statevector.new_toKet hv]; exact .refl _)
  exact wp_setState trivial (wp_setQueue trivial (.change trivial ⟨hreset, rfl⟩))

/-- A basis state with an index of 64 bits. -/
theorem toState_fromIndex {N i : Nat} (hN : 0 < N) (hi : i < 2 ^ 64) :
    (BitSet.fromIndex i : BitSet N).toState = fun q => i.testBit q.val := by
  funext q
  show BitSet.get _ q.val = _
  rcases Nat.lt_or_ge q.val (64 * N) with hq | hq
  · rw [BitSet.get_eq _ (by omega)]
    by_cases hw : q.val / 64 = 0
    · rw [show (BitSet.fromIndex i : BitSet N).words ⟨q.val / 64, by omega⟩ = BitVec.ofNat 64 i from if_pos hw,
        BitVec.getLsbD_ofNat, decide_eq_true (Nat.mod_lt _ (by decide)), Bool.true_and,
        Nat.mod_eq_of_lt (by omega)]
    · rw [show (BitSet.fromIndex i : BitSet N).words ⟨q.val / 64, by omega⟩ = 0#64 from if_neg hw,
        BitVec.getLsbD_zero, Nat.testBit_lt_two_pow (hi.trans_le (Nat.pow_le_pow_right (by decide) (by omega)))]
  · rw [BitSet.get_of_ge _ hq,
      Nat.testBit_lt_two_pow (hi.trans_le (Nat.pow_le_pow_right (by decide) (by omega)))]

/-- The elements of a dense slice. -/
theorem denseChunk_toKet {N : Nat} (hN : 0 < N) {values : List (Cplx ℝ)} (hl : values.length < 2 ^ 64) :
    elementsKet (Statevector.denseChunk 0 values : List (Element N ℝ)) = denseKet values := by
  have hall : values.zipIdx.filter (fun p => Statevector.wantVal p.1) = values.zipIdx :=
    List.filter_eq_self.mpr fun _ _ => decide_eq_true (le_max_of_le_left (abs_nonneg _))
  rw [elementsKet, Statevector.denseChunk, hall, List.map_map, denseKet]
  refine congrArg List.sum (List.map_congr_left fun p hp => ?_)
  have hlt : p.2 < values.length := (List.getElem?_eq_some_iff.mp (List.mem_zipIdx_iff_getElem?.mp hp)).1
  rw [Function.comp_apply, Element.toKet, Nat.zero_add, toState_fromIndex hN (hlt.trans hl)]

theorem wp_eval_importDense (henv : env.Granted) (h : InRange s) {values : List (Cplx ℝ)}
    (hl : values.length < 2 ^ 64) :
    Wp (fun _ => True) (fun _ => ¬ s.ctx.Positive) ((Call.importDense values).eval env) s
      (Answers ψ (.importDense values) s) := by
  refine .bind (Q := fun _ t => Holds (denseKet values) t ∧ t.ctx = s.ctx) ?_ fun _ t ⟨ht, hc⟩ =>
    .pure ⟨_, by rw [Call.ideal], ht, fun hP => hc ▸ hP⟩
  have hrun := importDense_result hl henv s
  have hwords : 0 < (denseVector s.ctx values).words := AnyVector.numWords_pos _
  have hinv : (denseVector s.ctx values).vec.Inv :=
    Statevector.importDense_inv hwords hl (Statevector.clear_inv (s := ⟨none, [], []⟩) fun _ hq => nomatch hq)
      (Statevector.importDense_granted _ values)
  refine ⟨fun _ _ => trivial, fun e he => (nomatch hrun.symm.trans he), fun a t ht => ?_⟩
  rw [Call.run, hrun] at ht
  cases ht
  refine ⟨holds_unpending hwords (AnyVector.numWords_le _) hinv h.queue.clear rfl ?_, rfl⟩
  rw [Statevector.toKet, Statevector.elements, show (denseVector s.ctx values).vec.part1 = [] from rfl,
    List.append_nil, show (denseVector s.ctx values).vec.part0 = Statevector.denseChunk 0 values from rfl,
    denseChunk_toKet hwords hl]
  exact .refl _

/-- A call answers as the register does. It returns, with no size of the context zero. -/
theorem wp_eval (henv : env.Granted) (h : Holds ψ s) (hψ : ψ ≠ 0) (hv : call.Valid) (he : call.Exact s)
    (hi : call.Imports) :
    Wp (fun _ => True) (fun _ => ¬ s.ctx.Positive) (call.eval env) s (Answers ψ call s) := by
  have hgate : call.IsGate ∨ call = .trim → call.ideal ψ = (.unit, call.operator ψ) →
      Wp (fun _ => True) (fun _ => ¬ s.ctx.Positive) (call.run env >>= fun _ => return .unit) s
        (Answers ψ call s) := fun hg hid =>
    .bind (wp_eval_gate henv h hψ hg hv he) fun _ t ht => .pure ⟨_, hid, ht⟩
  cases call with
  | measure q bias => exact wp_eval_measure henv h hψ
  | qubitProbs q => exact wp_eval_qubitProbs henv h hψ
  | resetState => exact wp_eval_resetState henv h.range
  | importDense values => exact wp_eval_importDense henv h.range hi.1
  | trim => exact hgate (.inr rfl) rfl
  | flush =>
    refine .bind (wp_eval_gate henv h hψ (.inl trivial) hv he) fun _ t ht => .pure ⟨_, ?_, ht⟩
    simp only [Call.ideal]
  | _ => exact hgate (.inl trivial) (by simp only [Call.ideal])

end Simulator

end Qblaze
