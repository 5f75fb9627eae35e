import Qblaze.Statevector.Nonzero
import Qblaze.Simulator.Range

/-!
# No false memory error

The vector is empty after a reservation fails. It is not empty for any other reason.

* `Alive`: the vector has a nonzero amplitude.
* `wp_run_live`: then no call panics because of an empty vector or of a size.
* `Weights.chosen`: the outcome that `measure` chooses has a nonzero amplitude.
* `no_false_error`: if no reservation fails, `is_error` is false in every state of every run.
-/

namespace Qblaze

open Lib.Run

namespace Simulator

/-- The vector satisfies its invariant and has a nonzero amplitude. -/
structure Alive (s : Simulator ℝ) : Prop where
  range : InRange s
  inv : s.state.vec.Inv
  nonzero : s.state.vec.Nonzero

/-- While `P` holds, the sizes of the context are positive. -/
structure Live (P : Prop) (s : Simulator ℝ) : Prop extends Alive s where
  positive : P → s.ctx.Positive

/-- While `P` holds, the sizes of the context are no reason to panic. -/
def Sized (P : Prop) (e : Panic) : Prop := P → e ≠ .chunkSize

variable {P : Prop} {s : Simulator ℝ} {q : Qubit} {env : Env}

theorem Live.entry (h : Live P s) {e : Option QubitState} : Live P (s.withEntry q e) :=
  ⟨⟨h.range.entry, h.inv, h.nonzero⟩, h.positive⟩

theorem Live.withQueue (h : Live P s) {k : Queue} (hk : k.Good) : Live P (s.withQueue k) :=
  ⟨⟨h.range.withQueue hk, h.inv, h.nonzero⟩, h.positive⟩

theorem sized_ite {b : Bool} (h : P → b = true → False) : Sized P (if b then .chunkSize else .bitIndex) := by
  intro hP
  cases b with
  | true => exact absurd (h hP rfl) id
  | false => exact nofun

theorem new_nonzero {N : Nat} {t : Statevector N ℝ} (h : Statevector.new N true = some t) :
    t.Nonzero := by
  unfold Statevector.new at h
  obtain ⟨q, -, ht⟩ := Option.bind_eq_some_iff.mp h
  cases ht
  refine ⟨⟨BitSet.empty, ⟨1, 0⟩⟩, List.mem_cons_self .., fun hz => ?_⟩
  exact one_ne_zero (congrArg Cplx.re hz)

/-- A new vector. -/
theorem live_new {v : AnyVector ℝ} (hs : Live P s) (h : AnyVector.new true q = .ok v) :
    Live P (s.withState v) := by
  obtain ⟨t, ht, hnew⟩ := @AnyVector.new_ok ℝ _ true q
  have hin := inRange_new hs.range.queue h
  rw [hnew] at h
  cases h
  exact ⟨⟨hin, (Statevector.new_inv ht).2, new_nonzero ht⟩, hs.positive⟩

/-- The vector grows to fit a qubit. -/
theorem wp_ensureQubit_live (henv : env.Granted) (hs : Live P s) :
    Wp (Live P) (Sized P) (ensureQubit env q) s fun _ t =>
      Live P t ∧ q.val < 64 * t.state.words ∧ t.sfreeQueue = s.sfreeQueue := by
  have hvec : Wp (fun t : Simulator ℝ => (t.state.vec.Inv ∧ t.state.vec.Nonzero) ∧ t.ctx = s.ctx) (Sized P)
      (ensureQubit env q) s fun _ t => (t.state.vec.Inv ∧ t.state.vec.Nonzero) ∧ t.ctx = s.ctx := by
    refine wp_ensureQubit hs.range.words hs.range.part (fun _ _ => ⟨⟨hs.inv, hs.nonzero⟩, rfl⟩) ?_
    intro hgrow _ v t hv ht
    rw [henv] at ht
    have hi := Statevector.importFrom_inv hgrow hs.inv (Statevector.new_inv hv).2 ht
    have hne := Statevector.importFrom_nonzero ht hs.nonzero
    exact ⟨⟨⟨hi, hne⟩, rfl⟩, ⟨hi, hne⟩, rfl⟩
  refine ((@wp_ensureQubit_range _ _ _ _ env (Sized P) hs.range).and hvec).imp ?_ (fun _ he => he.1) ?_
  · rintro t ⟨hr, ⟨hi, hne⟩, hctx⟩
    exact ⟨⟨hr, hi, hne⟩, fun hP => hctx ▸ hs.positive hP⟩
  · rintro _ t ⟨⟨hr, hq, -, -, hk⟩, ⟨hi, hne⟩, hctx⟩
    exact ⟨⟨⟨hr, hi, hne⟩, fun hP => hctx ▸ hs.positive hP⟩, hq, hk⟩

/-! ## Panics of a vector that is not empty -/

section

variable {v : AnyVector ℝ} {ctx : Context} {e : Panic}

theorem premeasure_sized (hl : P → ctx.Positive ∧ v.vec.Nonzero) (he : v.premeasure ctx q = .error e) :
    Sized P e := by
  obtain ⟨hnone, rfl⟩ := AnyVector.premeasure_error he
  refine sized_ite fun hP hfit => ?_
  have heq := Statevector.premeasure_eq (hl hP).1 (hl hP).2.isEmpty (of_decide_eq_true hfit)
  exact nomatch hnone.symm.trans heq

theorem performSfree_sized {k : Queue} {alloc : Nat → Bool} (hl : P → ctx.Positive ∧ v.vec.Nonzero)
    (ha : ∀ i, alloc i = true) (hs : v.vec.Inv) (hk : Allowed v.words k.ops)
    (he : v.performSfree ctx alloc k = .error e) : Sized P e := by
  obtain ⟨hnone, rfl⟩ := AnyVector.performSfree_error he
  refine sized_ite fun hP _ => ?_
  obtain ⟨t, ht⟩ : ∃ t, v.vec.performSfree ctx alloc k PREC = some t :=
    Statevector.performSfree_isSome (hl hP).1 ha hs (hl hP).2.isEmpty hk
  exact nomatch hnone.symm.trans ht

variable [Eps ℝ]

/-- A stored element has the value that is kept. -/
theorem measure_sized {alloc : Bool} {b : Bool} {scale : ℝ} (hpos : P → ctx.Positive) (hs : v.vec.Inv)
    (hc : P → ∃ c ∈ v.vec.elements, c.bits.get q = b) (he : v.measure ctx alloc q b scale = .error e) :
    Sized P e := by
  obtain ⟨hnone, rfl⟩ := AnyVector.measure_error he
  refine sized_ite fun hP hfit => ?_
  obtain ⟨c, hc, hb⟩ := hc hP
  have hne : (v.vec.collapse q b id).isEmpty = false := by
    rw [Bool.eq_false_iff, Ne, Statevector.isEmpty_iff, Statevector.collapse_elements, List.map_id]
    exact List.ne_nil_of_mem (List.mem_filter.mpr ⟨hc, by rw [hb]; exact beq_self_eq_true b⟩)
  obtain ⟨u, hu⟩ := Statevector.measure_isSome (hpos hP) hs (of_decide_eq_true hfit) hne
  exact nomatch hnone.symm.trans hu

theorem performU4_sized {alloc : Nat → Bool} {g : U4 ℝ} (hpos : P → ctx.Positive) (hs : v.vec.Inv)
    (he : v.performU4 ctx alloc q g = .error e) : Sized P e := by
  obtain ⟨hnone, rfl⟩ := AnyVector.performU4_error he
  refine sized_ite fun hP hfit => ?_
  have heq : v.vec.performU4 ctx alloc q g = some (v.vec.u4 alloc q g) :=
    Statevector.performU4_eq (hpos hP) hs (of_decide_eq_true hfit) alloc
  exact nomatch hnone.symm.trans heq

/-- The samples are taken without a panic. -/
theorem sampleDelta_ok (hfit : v.fits q = true) (g : U4 ℝ) (hash : Nat → Nat) :
    ∃ d, sampleDelta v q g hash = .ok d := by
  have hone : ∀ i, ∃ d, v.collapseDelta q g i = .ok d := fun i => by
    unfold AnyVector.collapseDelta Statevector.collapseDelta
    cases v.vec.lookupRandom i with
    | none => exact ⟨_, rfl⟩
    | some st =>
      simp only [bitIndex, if_pos (of_decide_eq_true hfit), Option.bind_eq_bind, Option.bind_some]
      cases v.vec.lookup (st.bits.toggle q) with
      | none => exact ⟨_, rfl⟩
      | some z => exact ⟨_, rfl⟩
  unfold sampleDelta
  generalize List.range N_SAMP = l
  generalize (0 : Int) = d
  induction l generalizing d with
  | nil => exact ⟨d, rfl⟩
  | cons i l ih =>
    obtain ⟨d', hd⟩ := hone (hash i)
    rw [List.foldlM_cons, hd]
    exact ih _

/-- So is an eager flush. -/
theorem eager_sized {alloc : Nat → Bool} {g : U4 ℝ} {hash : Nat → Nat} (hpos : P → ctx.Positive)
    (hs : v.vec.Inv) (hfit : v.fits q = true)
    (he : sampleDelta v q g hash = .error e ∨ v.performU4 ctx alloc q g = .error e) : Sized P e := by
  rcases he with he | he
  · obtain ⟨d, hd⟩ := sampleDelta_ok hfit g hash
    exact nomatch hd.symm.trans he
  · exact performU4_sized hpos hs he

end

/-! ## Gates -/

variable [Eps ℝ]

theorem Live.performU4 (heps : SmallEps) (hs : Live P s) {alloc : Nat → Bool}
    (ha : ∀ i, alloc i = true) {gate : U3} {v : AnyVector ℝ}
    (h : s.state.performU4 s.ctx alloc q (U4.ofU3 gate) = .ok v) : Live P (s.withState v) := by
  have hr := (hs.range.performU4 h).1
  obtain ⟨t, ht, rfl⟩ := AnyVector.performU4_ok h
  obtain ⟨hq, rfl⟩ := Statevector.performU4_of_some hs.inv ht
  exact ⟨⟨hr, Statevector.u4_inv hs.inv hq alloc,
    Statevector.u4_nonzero heps (U4.ofU3_unitary gate) hs.inv hq ha hs.nonzero⟩, hs.positive⟩

theorem stable_live (heps : SmallEps) (henv : env.Granted) : Stable env (Live P) (Sized P) where
  entry h := h.entry
  eager h _ hv := h.performU4 heps (henv _ _) hv
  error h hmax _ he := eager_sized h.positive h.inv (h.range.fits hmax) he

/-- `_flush` keeps a nonzero amplitude. -/
theorem wp_innerFlush_live (heps : SmallEps) (henv : env.Granted) (hs : Live P s) {alsoSfree : Bool} :
    Wp (Live P) (Sized P) (innerFlush env alsoSfree) s fun _ t => Live P t := by
  refine .bind_read (.bind ((stable_live heps henv).first hs) fun _ t ht => .bind_read ?_)
  refine .bind (wp_ensureQubit_live henv ht) fun _ u ⟨hu, hmax, hk⟩ => ?_
  refine .bind (Q := fun _ v => Live P v) (.when (fun hn => ?_) fun _ => hu) fun _ v hv => ?_
  · have hq : u.sfreeQueue.maxQubit.val < 64 * u.state.words := by
      rw [hk]
      exact lt_of_le_of_lt ((@le_flushMax ℝ t 0 _).2 hn) hmax
    refine .bind_read (.bind_ofExcept (fun e he => ?_) fun w hw => ?_)
    · exact performSfree_sized (fun hP => ⟨hu.positive hP, hu.nonzero⟩) (henv _ _) hu.inv
        (hu.range.queue.allowed hq) he
    obtain ⟨vec, hvec, rfl⟩ := AnyVector.performSfree_ok hw
    obtain ⟨hi, -, hne⟩ := Statevector.performSfree_nonzero (henv _ _) hu.inv
      (hu.range.queue.allowed hq) hvec
    have hv : Live P (u.withState ⟨u.state.words, vec⟩) :=
      ⟨⟨⟨hu.range.words, Statevector.performSfree_partFits hu.range.part hvec, hu.range.queue⟩, hi,
        hne hu.nonzero⟩, hu.positive⟩
    refine wp_setState hv (wp_setQueue (hv.withQueue hv.range.queue.clear) ?_)
    exact (stable_live heps henv).second (hv.withQueue hv.range.queue.clear)
  · refine wp_retain_stable (fun _ _ _ h => h.entry) (fun q st t ht => ?_) hv
    unfold visitThird
    split
    · exact .pure ht
    split
    · exact .fail fun _ => nofun
    · refine .bind_read (.bind_ofExcept (fun e he => performU4_sized ht.positive ht.inv he) fun w hw => ?_)
      have hw := ht.performU4 heps (henv _ _) hw
      exact wp_setState hw (.pure hw)

theorem kept_live (heps : SmallEps) (henv : env.Granted) : Kept env (Live P) (Sized P) where
  toStable := stable_live heps henv
  assertion := fun _ => nofun
  debugAssertion := fun _ => nofun
  push hs hg := hs.withQueue (hg _ hs.range.queue)
  flush hs := wp_innerFlush_live heps henv hs

/-! ## Measurement -/

/-- The weights that `premeasure` returns. -/
structure Weights (t : Simulator ℝ) (q : Qubit) (r0 r1 : ℝ) : Prop where
  past : t.state.maxQubit < q.val → r0 = 1 ∧ r1 = 0
  stored : q.val ≤ t.state.maxQubit → r0 = Statevector.weight t.state.vec.elements q false ∧
    r1 = Statevector.weight t.state.vec.elements q true

omit [Eps ℝ] in
theorem Weights.sum_ne_zero {r0 r1 : ℝ} (h : Weights s q r0 r1) (hs : s.state.vec.Nonzero) :
    r0 + r1 ≠ 0 := by
  rcases Nat.lt_or_ge s.state.maxQubit q.val with hq | hq
  · obtain ⟨rfl, rfl⟩ := h.past hq
    norm_num
  · obtain ⟨rfl, rfl⟩ := h.stored hq
    exact hs.weight_add q

omit [Eps ℝ] in
/-- The outcome that is chosen has a nonzero amplitude. A qubit past the end of the vector is 0. -/
theorem Weights.chosen {r0 r1 : ℝ} (h : Weights s q r0 r1) (hw : 0 < s.state.words)
    (hs : s.state.vec.Nonzero) (invert : Bool) (bias : BitVec 64) :
    ∃ e ∈ s.state.vec.elements, e.bits.get q = selectOutcome invert r0 r1 bias ∧
      e.val ≠ Cplx.ZERO := by
  have hsum := h.sum_ne_zero hs
  rcases Nat.lt_or_ge s.state.maxQubit q.val with hq | hq
  · obtain ⟨rfl, rfl⟩ := h.past hq
    obtain ⟨e, he, hval⟩ := hs
    refine ⟨e, he, ?_, hval⟩
    unfold AnyVector.maxQubit Statevector.maxQubit at hq
    rw [selectOutcome_one_zero, BitSet.get_of_ge _ (by omega)]
  · obtain ⟨rfl, rfl⟩ := h.stored hq
    have hne := selectOutcome_weight (Statevector.weight_nonneg _ _) (Statevector.weight_nonneg _ _)
      hsum invert bias
    refine Statevector.weight_ne_zero.mp ?_
    generalize selectOutcome invert (_ : ℝ) _ bias = v at hne ⊢
    cases v <;> exact hne

theorem wp_premeasure_live (heps : SmallEps) (henv : env.Granted) (hs : Live P s) :
    Wp (Live P) (Sized P) (premeasure env q) s fun r t => Live P t ∧ Weights t q r.2.1 r.2.2 := by
  refine ((kept_live heps henv).premeasure hs fun t e ht _ he => ?_).mono ?_
  · exact premeasure_sized (fun hP => ⟨ht.positive hP, ht.nonzero⟩) he
  rintro r t ⟨ht, hpast, hstored⟩
  refine ⟨ht, fun hq => ?_, fun hq => ?_⟩
  · rw [hpast hq]
    exact ⟨rfl, rfl⟩
  · obtain ⟨-, hr⟩ := Statevector.premeasure_of_some (AnyVector.premeasure_ok (hstored hq))
    rw [hr]
    exact ⟨rfl, rfl⟩

theorem wp_measure_live (heps : SmallEps) (henv : env.Granted) (hs : Live P s) {bias : BitVec 64} :
    Wp (Live P) (Sized P) (measure env q bias) s fun _ t => Live P t := by
  refine .bind (wp_premeasure_live heps henv hs) fun r t ⟨ht, hr⟩ => ?_
  rw [if_neg (hr.sum_ne_zero ht.nonzero)]
  refine .bind (Q := fun _ t => Live P t) ?_ fun _ u hu => .pure hu
  have hchosen := hr.chosen ht.range.words ht.nonzero r.1 bias
  refine wp_collapse (fun _ => ht) (fun hother w hw => ?_) fun _ e he =>
    measure_sized ht.positive ht.inv (fun _ => hchosen.imp fun c hc => ⟨hc.1, hc.2.1⟩) he
  rw [henv] at hw
  obtain ⟨vec, hvec, rfl⟩ := AnyVector.measure_ok hw
  have hscale : Real.sqrt (if selectOutcome r.1 r.2.1 r.2.2 bias then r.2.2 else r.2.1) ≠ 0 := by
    rcases Nat.lt_or_ge t.state.maxQubit q.val with hq | hq
    · obtain ⟨h0, h1⟩ := hr.past hq
      rw [h0, h1, selectOutcome_one_zero]
      norm_num
    · obtain ⟨h0, h1⟩ := hr.stored hq
      have hne := selectOutcome_weight (Statevector.weight_nonneg t.state.vec.elements false)
        (Statevector.weight_nonneg t.state.vec.elements true) (ht.nonzero.weight_add q) r.1 bias
      rw [h0, h1]
      refine (Real.sqrt_pos.mpr (lt_of_le_of_ne ?_ hne.symm)).ne'
      split <;> exact Statevector.weight_nonneg _ _
  have hne := Statevector.measure_nonzero ht.inv hscale hvec hchosen
  have hin : Live P (t.withState ⟨t.state.words, vec⟩) := by
    refine ⟨⟨⟨ht.range.words, fun p hp => ?_, ht.range.queue⟩, Statevector.measure_inv ht.inv hvec, hne⟩,
      ht.positive⟩
    exact ((Statevector.measure_inv ht.inv hvec).partitioned p hp).1
  exact ⟨hin, hin⟩

/-! ## Calls -/

theorem wp_run_live (heps : SmallEps) (henv : env.Granted) (hs : Live P s) {call : Call ℝ}
    (hcall : ∀ values, call ≠ .importDense values) :
    Wp (Live P) (Sized P) (call.run env) s fun _ t => Live P t := by
  cases call with
  | u3 q gate => exact (kept_live heps henv).toQueued.u3 hs
  | ctlX ctl q => exact (kept_live heps henv).ctlX hs
  | ctlSwap ctl q1 q2 => exact (kept_live heps henv).ctlSwap hs
  | ctlPhase ctl a => exact (kept_live heps henv).ctlPhase hs
  | measure q bias => exact .bind (wp_measure_live heps henv hs) fun _ _ ht => .pure ht
  | qubitProbs q =>
    exact .bind (wp_qubitProbs ((wp_premeasure_live heps henv hs).mono fun _ _ ht => ht.1))
      fun _ _ ht => .pure ht
  | flush => exact (kept_live heps henv).flushAll hs
  | trim =>
    have ht : Live P { s with state := s.state.trim } :=
      ⟨⟨⟨hs.range.words, hs.range.part, hs.range.queue⟩, hs.inv, hs.nonzero⟩, hs.positive⟩
    exact .change ht ht
  | resetState =>
    refine .bind_read ?_
    obtain ⟨t, -, hnew⟩ := @AnyVector.new_ok ℝ _ (env.alloc .grow s.ctx.initMaxQubit 0) s.ctx.initMaxQubit
    refine .bind_ofExcept (fun e he => by rw [hnew] at he; cases he) fun v hv => ?_
    rw [henv] at hv
    have hv := live_new hs hv
    have hclear := hv.withQueue hv.range.queue.clear
    have hreset : Live P { (s.withState v).withQueue s.sfreeQueue.clear with qubits := fun _ => none } :=
      ⟨⟨⟨hclear.range.words, hclear.range.part, hclear.range.queue⟩, hclear.inv, hclear.nonzero⟩,
        hclear.positive⟩
    exact wp_setState hv (wp_setQueue hclear (.change hreset hreset))
  | importDense values => exact absurd rfl (hcall values)

theorem wp_runCalls_live (heps : SmallEps) {calls : List (Env × Call ℝ)}
    (hcalls : ∀ p ∈ calls, p.1.Granted ∧ ∀ values, p.2 ≠ .importDense values) (hs : Live P s) :
    Wp (Live P) (Sized P) (runCalls calls) s fun _ t => Live P t := by
  have h := @Wp.each (Simulator ℝ) Panic (Env × Call ℝ) (Live P) (Sized P) s
    (fun p => p.2.run p.1)
    (fun l t => Live P t ∧ ∀ p ∈ l, p.1.Granted ∧ ∀ values, p.2 ≠ .importDense values) ?_ calls
    ⟨hs, hcalls⟩
  · exact h.mono fun _ t ht => ht.1
  · rintro p l t ⟨ht, hl⟩
    obtain ⟨henv, hp⟩ := hl p (List.mem_cons_self ..)
    exact (wp_run_live heps henv ht hp).mono fun _ u hu =>
      ⟨hu, fun p hp => hl p (List.mem_cons_of_mem _ hp)⟩

/-- A pair of amplitudes that are not both zero is not left out as a whole. -/
theorem keeps_of_nonzero (heps : SmallEps) {gate : U4 ℝ} (hu : gate.Unitary) {a b : Cplx ℝ}
    (hab : ¬ (a = Cplx.ZERO ∧ b = Cplx.ZERO)) :
    gate.keeps false a b = true ∨ gate.keeps true a b = true := by
  have hne : (some a).getD Cplx.ZERO ≠ Cplx.ZERO ∨ (some b).getD Cplx.ZERO ≠ Cplx.ZERO := by
    rwa [Option.getD_some, Option.getD_some, ← not_and_or]
  obtain ⟨v, z, hz, -⟩ := Statevector.pairOut_nonzero heps hu hne
  have hk : gate.keeps v a b = true := by
    by_contra hf
    rw [Bool.not_eq_true] at hf
    simp [Statevector.pairOut, hf] at hz
  cases v with
  | false => exact .inl hk
  | true => exact .inr hk

/-- No false memory error. For every vector with a nonzero amplitude, if no reservation fails, a
unitary gate leaves a nonzero amplitude, a queue keeps the number of elements, and the outcome that
`measure` chooses has a stored element. So `is_error` is false in every state of every run of gates and
measurements. -/
theorem no_false_error (heps : SmallEps) :
    -- gates
    (∀ {N : Nat} (s : Statevector N ℝ), s.Inv → s.Nonzero → ∀ q : Qubit, q.val < 64 * N →
      ∀ gate : U4 ℝ, gate.Unitary → ∀ ctx alloc, (∀ i, alloc i = true) →
        (∀ t, s.performU4 ctx alloc q gate = some t → t.Nonzero) ∧
        (ctx.Positive → ∃ t, s.performU4 ctx alloc q gate = some t)) ∧
    (∀ gate : U4 ℝ, gate.Unitary → ∀ a b : Cplx ℝ, ¬ (a = Cplx.ZERO ∧ b = Cplx.ZERO) →
      gate.keeps false a b = true ∨ gate.keeps true a b = true) ∧
    -- queues
    (∀ {N : Nat} (s : Statevector N ℝ), s.Inv → s.Nonzero → ∀ opq : Queue, Allowed N opq.ops →
      ∀ prec ctx alloc, (∀ i, alloc i = true) →
        (∀ t, s.performSfree ctx alloc opq prec = some t → t.len = s.len ∧ t.Nonzero) ∧
        (ctx.Positive → ∃ t, s.performSfree ctx alloc opq prec = some t)) ∧
    -- measurement
    (∀ s : Simulator ℝ, Alive s → ∀ env : Env, env.Granted → ∀ (q : Qubit) (bias : BitVec 64) r mid,
      (premeasure env q).result s = .ok (r, mid) → r.2.1 + r.2.2 ≠ 0 ∧
        ∃ e ∈ mid.state.vec.elements, e.bits.get q = selectOutcome r.1 r.2.1 r.2.2 bias ∧
          e.val ≠ Cplx.ZERO) ∧
    -- runs
    ∀ ctx sim, new ctx true = .ok sim → ∀ calls : List (Env × Call ℝ),
      (∀ p ∈ calls, p.1.Granted ∧ ∀ values, p.2 ≠ .importDense values) →
      ∀ mid ∈ sim :: (runCalls calls).states sim, mid.isError = false := by
  refine ⟨fun s hs hne q hq gate hu ctx alloc ha => ⟨fun t ht => ?_, fun hc => ?_⟩,
    fun gate hu a b hab => keeps_of_nonzero heps hu hab,
    fun s hs hne opq hp prec ctx alloc ha => ⟨fun t ht => ?_, fun hc => ?_⟩,
    fun s hs env henv q bias r mid hr => ?_, fun ctx sim hnew calls hcalls mid hmid => ?_⟩
  · obtain ⟨-, rfl⟩ := Statevector.performU4_of_some hs ht
    exact Statevector.u4_nonzero heps hu hs hq ha hne
  · exact ⟨_, Statevector.performU4_eq hc hs hq alloc⟩
  · obtain ⟨-, hlen, hnz⟩ := Statevector.performSfree_nonzero ha hs hp ht
    exact ⟨hlen, hnz hne⟩
  · exact Statevector.performSfree_isSome hc ha hs hne.isEmpty hp
  · have hlive : Live False s := ⟨hs, False.elim⟩
    obtain ⟨ht, hw⟩ := (wp_premeasure_live heps henv hlive).ends r mid hr
    exact ⟨hw.sum_ne_zero ht.nonzero, hw.chosen ht.range.words ht.nonzero r.1 bias⟩
  · obtain ⟨v, hv, rfl, -, -⟩ := new_cases hnew
    have hs : Live False (newWithState ctx ⟨_, v⟩ : Simulator ℝ) :=
      ⟨⟨⟨AnyVector.numWords_pos _, fun p hp => ((Statevector.new_inv hv).2.partitioned p hp).1,
        Queue.good_new⟩, (Statevector.new_inv hv).2, new_nonzero hv⟩, False.elim⟩
    rcases List.mem_cons.mp hmid with rfl | hmid
    · exact hs.nonzero.isEmpty
    · exact ((wp_runCalls_live heps hcalls hs).always mid hmid).nonzero.isEmpty

omit [Eps ℝ] in
/-- A Hadamard gate and a measurement, with the threshold of the source. -/
theorem no_false_error_hadamard : letI : Eps ℝ := ⟨1 / 2 ^ 40⟩
    ∃ sim : Simulator ℝ, new Context.default true = .ok sim ∧
      ∀ mid ∈ (runCalls [(Env.default, .u3 0 U3.H), (Env.default, .measure 0 0)]).states sim,
        mid.isError = false := by
  let _ : Eps ℝ := ⟨1 / 2 ^ 40⟩
  have heps : SmallEps := by
    constructor
    · show (0 : ℝ) ≤ 1 / 2 ^ 40
      norm_num
    · show (2 : ℝ) * (1 / 2 ^ 40) ^ 2 < 1
      norm_num
  have hnew : new Context.default true = .ok
      (newWithState Context.default ⟨1, some 0, [⟨BitSet.empty, ⟨1, 0⟩⟩], []⟩ : Simulator ℝ) := rfl
  refine ⟨_, hnew, fun mid hmid => ?_⟩
  refine (no_false_error heps).2.2.2.2 _ _ hnew _ (fun p hp => ?_) mid (List.mem_cons_of_mem _ hmid)
  simp only [List.mem_cons, List.not_mem_nil, or_false] at hp
  rcases hp with rfl | rfl
  · exact ⟨fun _ _ _ => rfl, nofun⟩
  · exact ⟨fun _ _ _ => rfl, nofun⟩

end Simulator

end Qblaze
