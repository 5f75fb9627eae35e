import Qblaze.Statevector.Measure
import Qblaze.Simulator.Controls
import Qblaze.Simulator.Outcome

/-!
# Qubits fit in the words of the vector

The vector grows in `_flush` only, before the queue and the pending gates are applied. Every other
place asks for the largest qubit of the vector first.

* `wp_innerFlush_range`: `_flush` makes the vector large enough for what it applies.
* `qubits_fit`: over all runs, the assertion of `BitIndex` does not fail.
-/

namespace Qblaze

open Lib.Run

/-! ## The partition of a vector -/

namespace Statevector

variable {N : Nat} {F : Type} {s t : Statevector N F} {ctx : Context} {q : Qubit}

/-- The qubit of the partition fits. -/
def PartFits (s : Statevector N F) : Prop := ∀ p, s.partitionedBy = some p → p.val < 64 * N

theorem replace_partitionedBy {alloc : Bool} {sizes : List (Nat × Nat)}
    {out : List (List (Element N F) × List (Element N F))} (h : s.replace alloc sizes out = some t) :
    t.partitionedBy = s.partitionedBy := by
  unfold replace at h
  split at h
  · simp only [Option.bind_eq_bind, Option.bind_eq_some_iff] at h
    obtain ⟨p0, -, p1, -, ht⟩ := h
    cases ht
    rfl
  · cases h
    rfl

theorem eachChunk_partitionedBy {csize : Nat × Nat} {f : List (Element N F) → List (Element N F)}
    (h : s.eachChunk csize f = some t) : t.partitionedBy = s.partitionedBy := by
  unfold eachChunk at h
  simp only [Option.bind_eq_bind, Option.bind_eq_some_iff] at h
  obtain ⟨p0, -, p1, -, ht⟩ := h
  cases ht
  rfl

theorem forceRepartition_partitionedBy {alloc isFixup : Bool}
    (h : s.forceRepartition ctx alloc q isFixup = some t) : t.partitionedBy = s.partitionedBy := by
  unfold forceRepartition at h
  simp only [Option.bind_eq_bind, Option.bind_eq_some_iff] at h
  obtain ⟨_, -, _, -, ht⟩ := h
  exact replace_partitionedBy ht

theorem setPartition_partitionedBy {alloc : Bool} (h : s.setPartition ctx alloc q = some t) :
    t.partitionedBy = some q := by
  unfold setPartition at h
  split at h
  · rename_i hp
    cases h
    exact hp
  · exact forceRepartition_partitionedBy h

theorem bitIndex_some {r : Qubit} (h : bitIndex N q = some r) : r = q ∧ q.val < 64 * N := by
  unfold bitIndex at h
  split at h
  · rename_i hq
    cases h
    exact ⟨rfl, hq⟩
  · cases h

variable [Field F]

theorem applyProgram_partFits [Scalar F] {alloc : Nat → Bool} {op : Compiled} {stat : Stat}
    (hs : s.PartFits) (h : s.applyProgram ctx alloc op stat = some t) : t.PartFits := by
  unfold applyProgram at h
  split at h
  · cases h
  split at h
  · simp only [Option.bind_eq_bind, Option.bind_eq_some_iff] at h
    obtain ⟨_, -, ht⟩ := h
    intro p hp
    rw [eachChunk_partitionedBy ht] at hp
    exact hs p hp
  split at h
  · simp only [Option.bind_eq_bind, Option.bind_eq_some_iff] at h
    obtain ⟨_, -, q, hq, s1, hs1, _, -, s2, hs2, ht⟩ := h
    intro p hp
    rw [forceRepartition_partitionedBy ht, eachChunk_partitionedBy hs2,
      setPartition_partitionedBy hs1] at hp
    cases hp
    obtain ⟨rfl, hlt⟩ := bitIndex_some hq
    exact hlt
  · simp only [Option.bind_eq_bind, Option.bind_eq_some_iff] at h
    obtain ⟨_, -, s1, hs1, ht⟩ := h
    cases ht
    intro p hp
    simp only at hp
    split at hp
    · rename_i r hr
      split at hp
      · cases hp
      · cases hp
        rw [eachChunk_partitionedBy hs1] at hr
        exact hs p hr
    · cases hp

theorem performSfree_partFits [Scalar F] {alloc : Nat → Bool} {opq : Queue} {prec : Nat}
    (hs : s.PartFits) (h : s.performSfree ctx alloc opq prec = some t) : t.PartFits := by
  unfold performSfree at h
  simp only at h
  split at h
  · cases h
    exact hs
  · exact applyProgram_partFits hs h

variable [LinearOrder F] [Eps F]

theorem performU4_partFits {alloc : Nat → Bool} {gate : U4 F}
    (h : s.performU4 ctx alloc q gate = some t) : t.PartFits := by
  unfold performU4 at h
  simp only [Option.bind_eq_bind, Option.bind_eq_some_iff] at h
  obtain ⟨r, hr, s1, hs1, _, -, _, -, ht⟩ := h
  obtain ⟨rfl, hlt⟩ := bitIndex_some hr
  intro p hp
  rw [replace_partitionedBy ht, setPartition_partitionedBy hs1] at hp
  cases hp
  exact hlt

theorem normalize_partitionedBy {scale : F} (h : s.normalize ctx scale = some t) :
    t.partitionedBy = s.partitionedBy := by
  unfold normalize at h
  split at h
  · cases h
    rfl
  · simp only [Option.bind_eq_bind, Option.bind_eq_some_iff] at h
    obtain ⟨_, -, ht⟩ := h
    exact eachChunk_partitionedBy ht

theorem measure_partitionedBy {alloc v : Bool} {scale : F}
    (h : s.measure ctx alloc q v scale = some t) : t.partitionedBy = s.partitionedBy := by
  unfold measure at h
  simp only [Option.bind_eq_bind, Option.bind_eq_some_iff] at h
  obtain ⟨r, -, h⟩ := h
  split at h
  · rw [normalize_partitionedBy h]
    split <;> rfl
  · simp only [Option.bind_eq_some_iff] at h
    obtain ⟨_, -, _, -, _, -, h⟩ := h
    split at h
    · exact normalize_partitionedBy h
    split at h
    · simp only [Option.bind_eq_some_iff] at h
      obtain ⟨_, -, _, -, ht⟩ := h
      cases ht
      rfl
    · cases h
      rfl

end Statevector

/-! ## The simulator -/

namespace Simulator

section

variable {F : Type} {s : Simulator F} {q : Qubit}

/-- The vector has words, the qubit of its partition fits, and the queue is a good one. -/
structure InRange (s : Simulator F) : Prop where
  words : 0 < s.state.words
  part : s.state.vec.PartFits
  queue : s.sfreeQueue.Good

/-- The panics other than that of `BitIndex`. -/
def NotRange (e : Panic) : Prop := e ≠ .bitIndex

theorem InRange.entry (h : InRange s) {e : Option QubitState} : InRange (s.withEntry q e) :=
  ⟨h.words, h.part, h.queue⟩

theorem InRange.withQueue (h : InRange s) {k : Queue} (hk : k.Good) : InRange (s.withQueue k) :=
  ⟨h.words, h.part, hk⟩

theorem InRange.fits (h : InRange s) (hq : q.val ≤ s.state.maxQubit) : s.state.fits q = true := by
  have := h.words
  unfold AnyVector.maxQubit Statevector.maxQubit at hq
  exact decide_eq_true (by omega)

theorem notRange_ite {b : Bool} (h : b = true) : NotRange (if b then .chunkSize else .bitIndex) := by
  rw [h]
  exact nofun

theorem le_flushMax {alsoSfree : Bool} :
    (∀ st, s.qubits q = some st → st.mustFlush = true → q ≤ s.flushMax alsoSfree) ∧
    (alsoSfree = true → s.sfreeQueue.maxQubit ≤ s.flushMax alsoSfree) := by
  have hfold : ∀ (l : List (Qubit × QubitState)) (m : Qubit),
      m ≤ l.foldl (fun m p => if p.2.mustFlush && decide (m < p.1) then p.1 else m) m ∧
      ∀ p ∈ l, p.2.mustFlush = true →
        p.1 ≤ l.foldl (fun m p => if p.2.mustFlush && decide (m < p.1) then p.1 else m) m := by
    intro l
    induction l with
    | nil => exact fun m => ⟨le_refl m, fun p hp => absurd hp List.not_mem_nil⟩
    | cons a l ih =>
      intro m
      rw [List.foldl_cons]
      obtain ⟨hm, hl⟩ := ih (if a.2.mustFlush && decide (m < a.1) then a.1 else m)
      refine ⟨le_trans ?_ hm, fun p hp hmust => ?_⟩
      · split
        · rename_i h
          rw [Bool.and_eq_true, decide_eq_true_iff] at h
          exact h.2.le
        · exact le_refl m
      · rcases List.mem_cons.mp hp with rfl | hp
        · refine le_trans ?_ hm
          rw [hmust, Bool.true_and]
          split
          · exact le_refl _
          · rename_i h
            rw [decide_eq_true_iff] at h
            exact not_lt.mp h
        · exact hl p hp hmust
  refine ⟨fun st hst hmust => (hfold s.entries _).2 (q, st) (mem_entries.mpr hst) hmust, fun h => ?_⟩
  rw [h]
  exact (hfold s.entries _).1

variable [Field F]

/-- A new vector. -/
theorem inRange_new {alloc : Bool} {v : AnyVector F} (hk : s.sfreeQueue.Good)
    (h : AnyVector.new alloc q = .ok v) : InRange (s.withState v) := by
  obtain ⟨t, ht, hnew⟩ := @AnyVector.new_ok F _ alloc q
  rw [hnew] at h
  cases h
  exact ⟨AnyVector.numWords_pos q, fun p hp => ((Statevector.new_inv ht).2.partitioned p hp).1, hk⟩

/-- The number of words that `ensure_qubit` leaves. -/
def grownWords (s : Simulator F) (q : Qubit) : Nat :=
  if q.val ≤ s.state.maxQubit then s.state.words else numWords q

/-- `ensure_qubit` does nothing, or imports the vector into a new one with at least as many words. -/
theorem wp_ensureQubit {env : Env} {I : Simulator F → Prop} {E : Panic → Prop}
    {Q : Unit → Simulator F → Prop} (hw : 0 < s.state.words) (hp : s.state.vec.PartFits)
    (hno : q.val < 64 * s.state.words → s.grownWords q = s.state.words → Q () s)
    (hyes : s.state.words ≤ numWords q → s.grownWords q = numWords q →
      ∀ v t, Statevector.new (numWords q) (env.alloc .grow q 0) = some v →
        v.importFrom (env.alloc .grow q 1) s.state.vec = some t →
        I (s.withState ⟨numWords q, t⟩) ∧ Q () (s.withState ⟨numWords q, t⟩)) :
    Wp I E (ensureQubit env q) s Q := by
  have hfit := AnyVector.fits_numWords q
  refine .bind_read ?_
  by_cases hq : q.val ≤ s.state.maxQubit
  · rw [if_pos hq]
    refine .pure (hno ?_ (if_pos hq))
    unfold AnyVector.maxQubit Statevector.maxQubit at hq
    omega
  · rw [if_neg hq]
    obtain ⟨v, hv, hnew⟩ := @AnyVector.new_ok F _ (env.alloc .grow q 0) q
    have hgrow : s.state.words ≤ numWords q := by
      unfold AnyVector.maxQubit Statevector.maxQubit at hq
      omega
    obtain ⟨t, ht⟩ := @Statevector.importFrom_isSome _ _ _ v (env.alloc .grow q 1) _ fun p h =>
      (hp p h).trans_le (Nat.mul_le_mul_left 64 hgrow)
    have himport : AnyVector.importFrom ⟨numWords q, v⟩ (env.alloc .grow q 1) s.state =
        .ok ⟨numWords q, t⟩ := by
      unfold AnyVector.importFrom
      rw [ht]
      rfl
    rw [hnew]
    refine .bind_ofExcept (fun _ he => nomatch he) fun w hw => ?_
    cases hw
    rw [himport]
    refine .bind_ofExcept (fun _ he => nomatch he) fun w hw => ?_
    cases hw
    obtain ⟨hI, hQ⟩ := hyes hgrow (if_neg hq) v t hv ht
    exact .change hI hQ

/-- The vector grows to fit a qubit. -/
theorem wp_ensureQubit_range {env : Env} {E : Panic → Prop} (hs : InRange s) :
    Wp InRange E (ensureQubit env q) s fun _ t => InRange t ∧ q.val < 64 * t.state.words ∧
      t.state.words = s.grownWords q ∧ t.qubits = s.qubits ∧ t.sfreeQueue = s.sfreeQueue := by
  refine wp_ensureQubit hs.words hs.part (fun hq hg => ⟨hs, hq, hg.symm, rfl, rfl⟩) ?_
  intro hgrow hg v t hv ht
  have hin : InRange (s.withState ⟨numWords q, t⟩) := by
    refine ⟨AnyVector.numWords_pos q, fun p hp => ?_, hs.queue⟩
    rcases Statevector.importFrom_cases ht with ⟨-, rfl⟩ | ⟨hfit, rfl⟩
    · exact ((Statevector.new_inv hv).2.partitioned p hp).1
    · exact hfit p hp
  exact ⟨hin, hin, AnyVector.fits_numWords q, hg.symm, rfl, rfl⟩

/-- A queue whose qubits fit is applied without a panic of `BitIndex`. -/
theorem performSfree_notRange [Scalar F] (hs : InRange s) (hq : s.sfreeQueue.maxQubit.val < 64 * s.state.words)
    {alloc : Nat → Bool} {e : Panic} (h : s.state.performSfree s.ctx alloc s.sfreeQueue = .error e) :
    NotRange e := by
  obtain ⟨hnone, rfl⟩ := AnyVector.performSfree_error h
  refine notRange_ite ?_
  unfold Statevector.performSfree at hnone
  cases hop : s.sfreeQueue.compile s.state.words Stat.default PREC with
  | mk op stat =>
    rw [hop] at hnone
    cases op with
    | none => cases hnone
    | some op =>
      have hsound := compile_sound (F := F) (hs.queue.allowed hq) hop
      unfold AnyVector.fitsQueue
      simp only [hop]
      refine Bool.and_eq_true_iff.mpr ⟨?_, ?_⟩
      · rw [Option.all_some]
        exact decide_eq_true hsound.inRange
      exact List.all_eq_true.mpr fun r hr =>
        decide_eq_true (hsound.fits r (QubitSet.mem_iter.mp hr))

end

variable {F : Type} [Field F] [LinearOrder F] [Eps F] {s : Simulator F} {q : Qubit} {env : Env}

theorem InRange.performU4 (hs : InRange s) {alloc : Nat → Bool} {gate : U4 F} {v : AnyVector F}
    (h : s.state.performU4 s.ctx alloc q gate = .ok v) :
    InRange (s.withState v) ∧ v.words = s.state.words := by
  obtain ⟨t, ht, rfl⟩ := AnyVector.performU4_ok h
  exact ⟨⟨hs.words, Statevector.performU4_partFits ht, hs.queue⟩, rfl⟩

variable [Scalar F]

theorem stable_inRange : Stable env (InRange (F := F)) NotRange where
  entry h := h.entry
  eager h _ hv := (h.performU4 hv).1
  error h hmax _ he := AnyVector.eager_error he ▸ notRange_ite (h.fits hmax)

/-- The entries that have to be applied fit in `W` words. -/
def MustFit (W : Nat) (q : Qubit) (e : Option QubitState) : Prop :=
  ∀ st, e = some st → st.mustFlush = true → q.val < 64 * W

theorem wp_second_range {W : Nat} (hs : InRange s ∧ s.state.words = W)
    (hfit : ∀ q, MustFit W q (s.qubits q)) :
    Wp InRange NotRange (retain (visitSecond env) (env.keys .second)) s fun _ t =>
      (InRange t ∧ t.state.words = W) ∧ ∀ q, MustFit W q (t.qubits q) := by
  refine wp_retain_local (fun q h => h) (fun q s st hs hA hq => ?_) (keys_nodup env .second)
    (mem_keys env .second) hs hfit
  have hkeep : ∀ b, MustFit W q (some { st with maybeDestructive := b }) := by
    rintro b _ he
    cases he
    exact hA st rfl
  unfold visitSecond
  split
  · exact .pure ⟨rfl, hA, hs.1.entry, hs.1.entry, hs.2⟩
  · refine .bind (Q := fun _ t => (InRange t ∧ t.state.words = W) ∧ t.qubits = s.qubits) ?_
      fun flushed t ht => .pure ⟨ht.2, ?_, ht.1.1.entry, ht.1.1.entry, ht.1.2⟩
    · refine wp_maybeEagerFlush ⟨hs, rfl⟩ (fun v _ _ hv => ?_) fun e hmax hlen he => ?_
      · obtain ⟨hin, hw⟩ := hs.1.performU4 hv
        exact ⟨hin, ⟨hin, hw.trans hs.2⟩, rfl⟩
      · rw [AnyVector.eager_error he]
        exact notRange_ite (hs.1.fits hmax)
    · cases flushed with
      | true => exact fun _ h => nomatch h
      | false => exact hkeep false

theorem wp_third_range {W : Nat} (hs : InRange s ∧ s.state.words = W)
    (hfit : ∀ q, MustFit W q (s.qubits q)) :
    Wp InRange NotRange (retain (visitThird env) (env.keys .third)) s fun _ t => InRange t := by
  refine Wp.mono (wp_retain_local (A := MustFit W) (B := fun _ _ => True)
    (K := fun s => InRange s ∧ s.state.words = W) (fun _ _ => trivial) (fun q s st hs hA hq => ?_)
    (keys_nodup env .third) (mem_keys env .third) hs hfit) fun _ t ht => ht.1.1
  unfold visitThird
  split
  · exact .pure ⟨rfl, trivial, hs.1.entry, hs.1.entry, hs.2⟩
  · rename_i hmust
    rw [Bool.not_eq_true', Bool.not_eq_false] at hmust
    split
    · exact .fail nofun
    · refine .bind_read (.bind_ofExcept (fun e he => ?_) fun v hv => ?_)
      · rw [(AnyVector.performU4_error he).2]
        refine notRange_ite (decide_eq_true ?_)
        rw [hs.2]
        exact hA st rfl hmust
      · obtain ⟨hin, hw⟩ := hs.1.performU4 hv
        exact wp_setState hin (.pure ⟨rfl, trivial, hin.entry, hin.entry, hw.trans hs.2⟩)

/-- `_flush` makes the vector large enough for what it applies. -/
theorem wp_innerFlush_range (hs : InRange s) {alsoSfree : Bool} :
    Wp InRange NotRange (innerFlush env alsoSfree) s fun _ t => InRange t := by
  refine .bind_read (.bind (stable_inRange.first hs) fun _ t ht => .bind_read ?_)
  refine .bind (wp_ensureQubit_range ht) fun _ u ⟨hu, hmax, _, hqubits, hqueue⟩ => ?_
  have hfit : ∀ q, MustFit u.state.words q (u.qubits q) := by
    intro q st hst hmust
    rw [hqubits] at hst
    exact lt_of_le_of_lt (le_flushMax.1 st hst hmust) hmax
  refine .bind (Q := fun _ v => (InRange v ∧ v.state.words = u.state.words) ∧
    ∀ q, MustFit u.state.words q (v.qubits q)) (.when (fun hn => ?_) fun _ => ⟨⟨hu, rfl⟩, hfit⟩)
    fun _ v hv => wp_third_range hv.1 hv.2
  have hq : u.sfreeQueue.maxQubit.val < 64 * u.state.words := by
    rw [hqueue]
    exact lt_of_le_of_lt ((@le_flushMax F t 0 _).2 hn) hmax
  refine .bind_read (.bind_ofExcept (fun e he => performSfree_notRange hu hq he) fun w hw => ?_)
  obtain ⟨vec, hvec, rfl⟩ := AnyVector.performSfree_ok hw
  have hin : InRange (u.withState ⟨u.state.words, vec⟩) :=
    ⟨hu.words, Statevector.performSfree_partFits hu.part hvec, hu.queue⟩
  refine wp_setState hin (wp_setQueue (hin.withQueue hu.queue.clear) ?_)
  exact wp_second_range ⟨hin.withQueue hu.queue.clear, rfl⟩ hfit

theorem kept_inRange (env : Env) : Kept env (InRange (F := F)) NotRange where
  toStable := stable_inRange
  assertion := nofun
  debugAssertion := nofun
  push hs hg := hs.withQueue (hg _ hs.queue)
  flush hs := wp_innerFlush_range hs

/-! ## Calls -/

theorem wp_premeasure_range (hs : InRange s) : Wp InRange NotRange (premeasure env q) s
    fun r t => InRange t ∧ (t.state.maxQubit < q.val → r.2 = (1, 0)) :=
  ((kept_inRange env).premeasure hs fun _ _ ht hmax he =>
    (AnyVector.premeasure_error he).2 ▸ notRange_ite (ht.fits hmax)).mono
    fun _ _ ht => ⟨ht.1, ht.2.1⟩

/-- A qubit past the end of the vector is not measured, since its value is 0. -/
theorem wp_measure_range (hs : InRange s) {bias : BitVec 64}
    (hsel : ∀ invert, selectOutcome invert (1 : F) 0 bias = false) :
    Wp InRange NotRange (measure env q bias) s fun _ t => InRange t := by
  refine .bind (wp_premeasure_range hs) fun r t ⟨ht, hr⟩ => ?_
  split
  · exact .pure ht
  · refine .bind (Q := fun _ t => InRange t) ?_ fun _ u hu => .pure hu
    refine wp_collapse (fun _ => ht) (fun _ w hw => ?_) fun hne e he => ?_
    · obtain ⟨vec, hvec, rfl⟩ := AnyVector.measure_ok hw
      have hin : InRange (t.withState ⟨t.state.words, vec⟩) := by
        refine ⟨ht.words, fun p hp => ?_, ht.queue⟩
        rw [show (t.withState ⟨t.state.words, vec⟩).state.vec = vec from rfl,
          Statevector.measure_partitionedBy hvec] at hp
        exact ht.part p hp
      exact ⟨hin, hin⟩
    · rw [(AnyVector.measure_error he).2]
      refine notRange_ite (ht.fits (Nat.le_of_not_lt fun hmax => hne ?_))
      rw [show r.2.1 = 1 from congrArg Prod.fst (hr hmax), show r.2.2 = 0 from congrArg Prod.snd (hr hmax),
        hsel]
      rfl

theorem wp_run_range (hs : InRange s) (call : Call F)
    (hsel : ∀ invert bias, selectOutcome invert (1 : F) 0 bias = false) :
    Wp InRange NotRange (call.run env) s fun _ t => InRange t := by
  cases call with
  | u3 q gate => exact (kept_inRange env).toQueued.u3 hs
  | ctlX ctl q => exact (kept_inRange env).ctlX hs
  | ctlSwap ctl q1 q2 => exact (kept_inRange env).ctlSwap hs
  | ctlPhase ctl a => exact (kept_inRange env).ctlPhase hs
  | measure q bias => exact .bind (wp_measure_range hs fun i => hsel i bias) fun _ _ ht => .pure ht
  | qubitProbs q =>
    exact .bind (wp_qubitProbs ((wp_premeasure_range hs).mono fun _ _ ht => ht.1)) fun _ _ ht => .pure ht
  | flush => exact (kept_inRange env).flushAll hs
  | trim => exact .change ⟨hs.words, hs.part, hs.queue⟩ ⟨hs.words, hs.part, hs.queue⟩
  | resetState =>
    obtain ⟨t, -, hnew⟩ := @AnyVector.new_ok F _ (env.alloc .grow s.ctx.initMaxQubit 0)
      s.ctx.initMaxQubit
    refine .bind_read (.bind_ofExcept (fun e he => by rw [hnew] at he; cases he) fun v hv => ?_)
    have hin := inRange_new hs.queue hv
    have hclear := hin.withQueue hs.queue.clear
    exact wp_setState hin (wp_setQueue hclear (.change ⟨hclear.words, hclear.part, hclear.queue⟩
      ⟨hclear.words, hclear.part, hclear.queue⟩))
  | importDense values =>
    refine .bind_read (wp_orPanic_bind (fun _ => nofun) fun q _ => ?_)
    obtain ⟨t, -, hnew⟩ := @AnyVector.new_ok F _ (env.alloc .grow (max s.ctx.initMaxQubit q) 0)
      (max s.ctx.initMaxQubit q)
    refine .bind_ofExcept (fun e he => by rw [hnew] at he; cases he) fun v hv => ?_
    have hin := inRange_new hs.queue hv
    refine wp_setState hin (.bind_ofExcept (fun e he => ?_) fun w hw => ?_)
    · rw [AnyVector.importDense_error he]
      exact nofun
    · obtain ⟨vec, hvec, rfl⟩ := AnyVector.importDense_ok hw
      have hin' : InRange (s.withState ⟨v.words, vec⟩) := by
        refine ⟨hin.words, fun p hp => ?_, hs.queue⟩
        rcases Statevector.importDense_cases hvec with ⟨-, rfl⟩ | rfl
        · exact hin.part p hp
        · cases hp
      have hclear := hin'.withQueue hs.queue.clear
      exact wp_setState hin' (wp_setQueue hclear (.change ⟨hclear.words, hclear.part, hclear.queue⟩
        ⟨hclear.words, hclear.part, hclear.queue⟩))

theorem wp_runCalls_range (hs : InRange s) (calls : List (Env × Call F))
    (hsel : ∀ invert bias, selectOutcome invert (1 : F) 0 bias = false) :
    Wp InRange NotRange (runCalls calls) s fun _ t => InRange t :=
  Wp.each (fun _ t => InRange t) (fun p _ _ ht => wp_run_range ht p.2 hsel) hs

/-- A qubit with no weight for 1 is not measured as 1. -/
theorem selectOutcome_one_zero (invert : Bool) (bias : BitVec 64) :
    selectOutcome invert (1 : ℝ) 0 bias = false := by
  by_contra h
  rw [Bool.not_eq_false] at h
  have hw := @selectOutcome_weight 1 0 zero_le_one le_rfl (by norm_num) invert bias
  rw [h] at hw
  exact hw rfl

/-- Qubit indices are in range: in no run does `BitIndex::from` get a qubit past the end of the
vector, for every way to start and whether or not the reservations succeed. The sets of the queue hold
the qubits of its operations at every moment. -/
theorem qubits_fit [Eps ℝ] {ctx : Context} {alloc : Bool} {sim : Simulator ℝ}
    (hnew : new ctx alloc = .ok sim) (calls : List (Env × Call ℝ)) :
    (runCalls calls).result sim ≠ .error .bitIndex ∧
    ∀ mid ∈ (runCalls calls).states sim, ∀ p ∈ mid.sfreeQueue.ops, ∀ q,
      p.1.uses q = true ∨ p.2.writes q = true →
      mid.sfreeQueue.reads q = true ∨ mid.sfreeQueue.writes q = true := by
  obtain ⟨v, hv, rfl, -, -⟩ := new_cases hnew
  have hs : InRange (newWithState ctx ⟨_, v⟩ : Simulator ℝ) :=
    ⟨AnyVector.numWords_pos _, fun p hp => ((Statevector.new_inv hv).2.partitioned p hp).1,
      Queue.good_new⟩
  have h := wp_runCalls_range hs calls selectOutcome_one_zero
  refine ⟨fun he => h.fails _ he rfl, fun mid hmid p hp q hq => ?_⟩
  have hcov := (h.always mid hmid).queue.built.covers p hp
  exact hq.imp (hcov.control q) (hcov.target q)

/-- A gate on the first qubit that is past one word. -/
theorem qubits_fit_second_word : ∃ sim : Simulator ℝ, new Context.default true = .ok sim ∧
    (runCalls [(Env.default, .u3 64 U3.H), (Env.default, .flush)]).result sim ≠ .error .bitIndex := by
  have hnew : new Context.default true = .ok
      (newWithState Context.default ⟨1, some 0, [⟨BitSet.empty, ⟨1, 0⟩⟩], []⟩ : Simulator ℝ) := rfl
  exact ⟨_, hnew, (qubits_fit hnew _).1⟩

end Simulator

end Qblaze
