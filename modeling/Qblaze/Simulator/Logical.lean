import Qblaze.Sfree.Guarded
import Qblaze.Statevector.Ket
import Qblaze.Simulator.Nonzero

/-!
# The state that the simulator stands for

The stored vector, then the operations of the queue in order, then the pending gate of each qubit.

* `logical`: this state. `Sound`: what makes the arithmetic on it exact.
* `logical_push`: the first part of a pending gate may be moved to the queue.
* `logical_flushed`: a pending gate that commutes with the queue may be applied to the vector.
* `logical_guarded`: an operation that moves past every pending gate may be queued.
* `wp_innerFlush_stands`: `_flush` keeps the state. An entry that is marked to be applied is gone
  afterwards; one that is marked as reordered, or whose gate is superposition-free, stays.
-/

namespace Qblaze

open Lib.Run Angle

/-- The angles of the gate are fixed. -/
structure U3.Exact (g : U3) : Prop where
  theta : Fixed PREC g.theta
  phi : Fixed PREC g.phi
  lambda : Fixed PREC g.lambda

namespace Simulator

/-- The matrix of an entry. -/
noncomputable def entryMat : Option QubitState → Mat
  | some st => st.pending.mat
  | none => 1

/-- The pending gates. -/
noncomputable def pendingMat (s : Simulator ℝ) : Qubit → Mat := fun q => entryMat (s.qubits q)

/-- The state that the simulator stands for. -/
noncomputable def logical (s : Simulator ℝ) : Ket Qubit :=
  tensor s.pendingMat (opsOperator s.sfreeQueue.ops s.state.vec.toKet)

section

variable {s t : Simulator ℝ} {q : Qubit} {e : Option QubitState} {st : QubitState} {k : Queue}
  {p : Control × Op} {M N : Mat}

theorem pendingMat_withEntry :
    (s.withEntry q e).pendingMat = Function.update s.pendingMat q (entryMat e) := by
  funext r
  by_cases h : r = q
  · subst h
    rw [Function.update_self, pendingMat, withEntry_same]
  · rw [Function.update_of_ne h, pendingMat, withEntry_of_ne h, pendingMat]

theorem logical_withEntry : (s.withEntry q e).logical = tensor (Function.update s.pendingMat q (entryMat e))
    (opsOperator s.sfreeQueue.ops s.state.vec.toKet) := by
  rw [logical, pendingMat_withEntry]
  rfl

/-- An entry with the same gate. -/
theorem logical_sameMat (h : entryMat e = entryMat (s.qubits q)) :
    (s.withEntry q e).logical = s.logical := by
  rw [logical_withEntry, h, logical, show entryMat (s.qubits q) = s.pendingMat q from rfl,
    Function.update_eq_self]

/-- One more gate on a qubit. -/
theorem logical_gate (h : UpToPhase (entryMat e) (M * entryMat (s.qubits q))) :
    UpToPhase (s.withEntry q e).logical (gate q M s.logical) := by
  rw [logical_withEntry, logical, ← Module.End.mul_apply (gate q M), gate_mul_tensor]
  exact (h.tensor_update q _).apply _

/-- The first part of a pending gate moves to the queue. -/
theorem logical_push (hk : k.ops = s.sfreeQueue.ops ++ [p]) (hp : UpToPhase (opOperator p) (gate q N))
    (he : UpToPhase (entryMat e * N) (entryMat (s.qubits q))) :
    UpToPhase ((s.withQueue k).withEntry q e).logical s.logical := by
  have hops : opsOperator k.ops = opOperator p * opsOperator s.sfreeQueue.ops := by
    rw [hk, opsOperator_append, opsOperator, opsOperator, one_mul]
  have h := ((UpToPhase.refl (tensor (Function.update s.pendingMat q (entryMat e)))).mul hp).trans
    (.of_eq (tensor_mul_gate q N _))
  rw [Function.update_self, Function.update_idem] at h
  have h' := (h.trans (he.tensor_update q s.pendingMat)).apply
    (opsOperator s.sfreeQueue.ops s.state.vec.toKet)
  rw [show entryMat (s.qubits q) = s.pendingMat q from rfl, Function.update_eq_self,
    Module.End.mul_apply, ← Module.End.mul_apply (opOperator p), ← hops] at h'
  rw [logical_withEntry]
  exact h'

/-- A pending gate that commutes with the queue is applied to the vector. -/
theorem logical_flushed {v : AnyVector ℝ} (hst : s.qubits q = some st)
    (hc : Commute (gate q st.pending.mat) (opsOperator s.sfreeQueue.ops))
    (hv : v.vec.toKet = gate q st.pending.mat s.state.vec.toKet) :
    ((s.withState v).withEntry q none).logical = s.logical := by
  have hM : s.pendingMat q = st.pending.mat := by rw [pendingMat, hst, entryMat]
  rw [logical_withEntry]
  show tensor (Function.update s.pendingMat q 1) (opsOperator s.sfreeQueue.ops v.vec.toKet) = s.logical
  rw [hv, ← Module.End.mul_apply (opsOperator _), ← hc.eq, Module.End.mul_apply,
    ← Module.End.mul_apply (tensor _), ← tensor_update_right, ← hM, Function.update_eq_self, logical]

/-- An operation that moves past the pending gates is queued. -/
theorem logical_guarded {U : Operator Qubit} {E E' : Qubit → Mat} (hk : k.ops = s.sfreeQueue.ops ++ [p])
    (hp : opOperator p = guarded U E') (hU : Commute U (tensor s.pendingMat))
    (h : ∀ q, E q * s.pendingMat q = s.pendingMat q * E' q) :
    (s.withQueue k).logical = guarded U E s.logical := by
  have hops : opsOperator k.ops = opOperator p * opsOperator s.sfreeQueue.ops := by
    rw [hk, opsOperator_append, opsOperator, opsOperator, one_mul]
  show tensor s.pendingMat (opsOperator k.ops s.state.vec.toKet) = _
  rw [hops, Module.End.mul_apply, hp, ← Module.End.mul_apply (tensor _), ← guarded_mul_tensor hU h,
    Module.End.mul_apply, logical]

/-- A vector that stores the queue applied to the state, up to a phase, and an empty queue. -/
theorem logical_applied {v : AnyVector ℝ}
    (h : UpToPhase v.vec.toKet (opsOperator s.sfreeQueue.ops s.state.vec.toKet)) :
    UpToPhase ((s.withState v).withQueue s.sfreeQueue.clear).logical s.logical := by
  show UpToPhase (tensor s.pendingMat (opsOperator [] v.vec.toKet)) s.logical
  rw [opsOperator, Module.End.one_apply, logical]
  exact h.map _

end

/-! ## Exact states -/

/-- A state in which the arithmetic is exact, and the vector has bits for no more than all qubits. While `P`
holds, no size of the context is zero and the vector has a nonzero amplitude. -/
structure Sound (P : Prop) (s : Simulator ℝ) : Prop where
  range : InRange s
  small : s.state.words ≤ 62
  inv : s.state.vec.Inv
  pending : ∀ q st, s.qubits q = some st → st.pending.Exact
  queued : ∀ p ∈ s.sfreeQueue.ops, ∀ a, p.2 = .gphase a → Fixed PREC a
  live : P → s.ctx.Positive ∧ s.state.vec.Nonzero

/-- The simulator stands for the state `ψ`, up to a phase. -/
structure Stands (P : Prop) (ψ : Ket Qubit) (s : Simulator ℝ) : Prop extends Sound P s where
  logical : UpToPhase s.logical ψ

variable {P : Prop} {ψ : Ket Qubit} {s t : Simulator ℝ} {q : Qubit} {e : Option QubitState}
  {st : QubitState} {k : Queue} {p : Control × Op} {env : Env}

theorem Sound.entry (h : Sound P s) (he : ∀ st, e = some st → st.pending.Exact) :
    Sound P (s.withEntry q e) :=
  ⟨h.range.entry, h.small, h.inv, fun _ st =>
    forall_withEntry (P := fun _ e => ∀ st, e = some st → st.pending.Exact) (fun r _ => h.pending r) he _ st,
    h.queued, h.live⟩

theorem Sound.push (h : Sound P s) (hk : k.Good) (hops : k.ops = s.sfreeQueue.ops ++ [p])
    (hp : ∀ a, p.2 = .gphase a → Fixed PREC a) : Sound P (s.withQueue k) := by
  refine ⟨h.range.withQueue hk, h.small, h.inv, h.pending, fun r hr => ?_, h.live⟩
  rcases List.mem_append.mp (hops ▸ hr) with hr | hr
  · exact h.queued r hr
  · exact List.mem_singleton.mp hr ▸ hp

/-- The operations fit in a vector that is large enough. -/
theorem Sound.legal (h : Sound P s) (hq : s.sfreeQueue.maxQubit.val < 64 * s.state.words) :
    ∀ p ∈ s.sfreeQueue.ops, Legal (Fits s.state.words) (Fixed PREC) p := fun p hp => by
  have hl := h.range.queue.allowed hq p hp
  exact ⟨hl.disjoint, h.queued p hp, hl.reads, hl.writes⟩

/-- An entry with the same gate. -/
theorem Stands.sameGate (h : Stands P ψ s) {st' : QubitState} (hst : s.qubits q = some st)
    (hp : st'.pending = st.pending) : Stands P ψ (s.withEntry q (some st')) := by
  refine ⟨h.toSound.entry fun st'' he => ?_, ?_⟩
  · cases he
    rw [hp]
    exact h.pending q st hst
  · rw [logical_sameMat (by rw [hst, entryMat, entryMat, hp])]
    exact h.logical

/-! ## Vectors -/

theorem smallEps : SmallEps := ⟨le_rfl, by
  rw [show (Eps.eps : ℝ) = 0 from rfl]
  norm_num⟩

theorem U4.ofU3_mat (g : U3) : (U4.ofU3 g : U4 ℝ).mat = g.mat := g.ofU3_mat.symm

/-- A gate is applied to the vector. -/
theorem Sound.performU4 (h : Sound P s) {alloc : Nat → Bool} (ha : ∀ i, alloc i = true) {g : U3}
    {v : AnyVector ℝ} (hv : s.state.performU4 s.ctx alloc q (U4.ofU3 g) = .ok v) :
    Sound P (s.withState v) ∧ v.vec.toKet = gate q g.mat s.state.vec.toKet := by
  have hr := (h.range.performU4 hv).1
  obtain ⟨t, ht, rfl⟩ := AnyVector.performU4_ok hv
  obtain ⟨hq, rfl⟩ := Statevector.performU4_of_some h.inv ht
  refine ⟨⟨hr, h.small, Statevector.u4_inv h.inv hq alloc, h.pending, h.queued,
    fun hP => ⟨(h.live hP).1, ?_⟩⟩, ?_⟩
  · exact Statevector.u4_nonzero smallEps (U4.ofU3_unitary g) h.inv hq ha (h.live hP).2
  · rw [Statevector.u4_toKet h.inv hq ha, U4.ofU3_mat]

/-- An eager flush of a pending gate that commutes with the queue. -/
theorem wp_eager (henv : env.Granted) (h : Stands P ψ s) (hst : s.qubits q = some st)
    (hc : Commute (gate q st.pending.mat) (opsOperator s.sfreeQueue.ops)) {site : Site} :
    Wp (fun _ => True) (Sized P) (maybeEagerFlush env site q st.pending) s fun flushed t =>
      t.qubits = s.qubits ∧ t.sfreeQueue = s.sfreeQueue ∧
      if flushed then st.pending.isSfree PREC = false ∧ Stands P ψ (t.withEntry q none) else t = s := by
  refine wp_maybeEagerFlush ⟨rfl, rfl, rfl⟩ (fun v hsfree _ hv => ⟨trivial, rfl, rfl, ?_⟩)
    fun e hmax _ he => ?_
  · obtain ⟨hv, hket⟩ := h.toSound.performU4 (henv _ _) hv
    exact ⟨hsfree, hv.entry fun _ he => (nomatch he), by
      rw [logical_flushed hst hc hket]
      exact h.logical⟩
  · exact eager_sized (fun hP => (h.live hP).1) h.inv (h.range.fits hmax) he

/-! ## `_flush` -/

/-- The gate may be applied and removed: it has to be, or the entry is not held back. -/
def Loose (st : QubitState) : Prop :=
  st.mustFlush = true ∨ st.isReordered = false ∧ st.pending.isSfree PREC = false

/-- What the first two passes do to an entry. -/
def Trimmed (e e' : Option QubitState) : Prop :=
  match e' with
  | none => ∀ st, e = some st → Loose st
  | some st' => ∃ st, e = some st ∧ st'.pending = st.pending ∧ st'.mustFlush = st.mustFlush ∧
    st'.isReordered = st.isReordered

/-- What `_flush` does to an entry. -/
def Flushed (e e' : Option QubitState) : Prop :=
  match e' with
  | none => ∀ st, e = some st → Loose st
  | some st' => ∃ st, e = some st ∧ st'.pending = st.pending ∧ st.mustFlush = false

theorem Trimmed.refl (e : Option QubitState) : Trimmed e e := by
  cases e with
  | none => exact fun _ h => nomatch h
  | some st => exact ⟨st, rfl, rfl, rfl, rfl⟩

/-- An entry is checked. -/
theorem Trimmed.checked (h : Trimmed e (some st)) (b : Bool) :
    Trimmed e (some { st with maybeDestructive := b }) := h

/-- An entry that is not held back is removed. -/
theorem Trimmed.remove (h : Trimmed e (some st)) (hst : Loose st) : Trimmed e none := by
  obtain ⟨st0, he, hp, hm, hr⟩ := h
  intro st1 he1
  rw [he, Option.some.injEq] at he1
  unfold Loose at hst ⊢
  rwa [← he1, ← hp, ← hm, ← hr]

/-- Where `blocks` is false, the pending gate commutes with the queue. -/
theorem Sound.commute (h : Sound P s) (hst : s.qubits q = some st)
    (hb : s.sfreeQueue.blocks q st.pending PREC = false) :
    Commute (gate q st.pending.mat) (opsOperator s.sfreeQueue.ops) := by
  have hg := h.pending q st hst
  exact opsOperator_commute fun p hp =>
    Queue.commute_of_blocks h.range.queue.built hg.theta hg.phi hg.lambda hb hp

/-- Try to flush an entry that is not held back. -/
theorem wp_visitEager_stands (henv : env.Granted) (h : Stands P ψ s) (hst : s.qubits q = some st)
    (hc : Commute (gate q st.pending.mat) (opsOperator s.sfreeQueue.ops)) (hr : st.isReordered = false)
    {site : Site} {e : Option QubitState} (he : Trimmed e (some st)) :
    Wp (fun _ => True) (Sized P) (visitEager env site q st) s fun e' t => t.qubits = s.qubits ∧
      Trimmed e e' ∧ True ∧ Stands P ψ (t.withEntry q e') ∧ t.sfreeQueue = s.sfreeQueue := by
  refine .bind (wp_eager henv h hst hc) fun flushed t ⟨hq, hk, ht⟩ => .pure ⟨hq, ?_⟩
  cases flushed with
  | true => exact ⟨he.remove (.inr ⟨hr, ht.1⟩), trivial, ht.2, hk⟩
  | false =>
    rw [if_neg Bool.false_ne_true] at ht
    subst ht
    exact ⟨he.checked false, trivial, h.sameGate hst rfl, rfl⟩

/-- The first pass. -/
theorem wp_first_stands (henv : env.Granted) (h : Stands P ψ s) :
    Wp (fun _ => True) (Sized P) (retain (visitFirst env) (env.keys .first)) s fun _ t =>
      (Stands P ψ t ∧ t.sfreeQueue = s.sfreeQueue) ∧ ∀ q, Trimmed (s.qubits q) (t.qubits q) := by
  refine wp_retain_local (A := fun q e => Trimmed (s.qubits q) e) (fun q h => h)
    (fun q t st ⟨ht, hk⟩ hA hst => ?_) (keys_nodup env .first) (mem_keys env .first) ⟨h, rfl⟩
    fun q => Trimmed.refl _
  have hkeep : ∀ b, Wp (fun _ => True) (Sized P)
      (pure (some { st with maybeDestructive := b }) : Sim ℝ (Option QubitState)) t fun e u =>
        u.qubits = t.qubits ∧ Trimmed (s.qubits q) e ∧ True ∧ Stands P ψ (u.withEntry q e) ∧
          u.sfreeQueue = s.sfreeQueue := fun b =>
    .pure ⟨rfl, hA.checked b, trivial, ht.sameGate hst rfl, hk⟩
  refine .bind_read ?_
  split
  · exact hkeep st.maybeDestructive
  split
  · exact hkeep true
  split
  · exact hkeep st.maybeDestructive
  · rename_i hheld hb _
    rw [Bool.or_eq_true, not_or, Bool.not_eq_true, Bool.not_eq_true] at hheld
    rw [Bool.not_eq_true] at hb
    exact (wp_visitEager_stands henv ht hst (ht.toSound.commute hst hb) hheld.2 hA).mono
      fun e u ⟨hq, he, _, hu, hk'⟩ => ⟨hq, he, trivial, hu, hk'.trans hk⟩

/-- The second pass, when the queue is empty. -/
theorem wp_second_stands (henv : env.Granted) {s0 : Simulator ℝ} (h : Stands P ψ s)
    (hk : s.sfreeQueue.ops = []) (hs : ∀ q, Trimmed (s0.qubits q) (s.qubits q)) :
    Wp (fun _ => True) (Sized P) (retain (visitSecond env) (env.keys .second)) s fun _ t =>
      (Stands P ψ t ∧ t.sfreeQueue.ops = []) ∧ ∀ q, Trimmed (s0.qubits q) (t.qubits q) := by
  refine wp_retain_local (A := fun q e => Trimmed (s0.qubits q) e) (fun q h => h)
    (fun q t st ⟨ht, hk⟩ hA hst => ?_) (keys_nodup env .second) (mem_keys env .second) ⟨h, hk⟩ hs
  unfold visitSecond
  split
  · exact .pure ⟨rfl, hA, trivial, ht.sameGate hst rfl, hk⟩
  · rename_i hheld
    rw [Bool.or_eq_true, not_or, Bool.not_eq_true] at hheld
    have hc : Commute (gate q st.pending.mat) (opsOperator t.sfreeQueue.ops) := by
      rw [hk]
      exact Commute.one_right _
    exact (wp_visitEager_stands henv ht hst hc hheld.1 hA).mono
      fun e u ⟨hq, he, _, hu, hk'⟩ => ⟨hq, he, trivial, hu, by rw [withEntry_sfreeQueue, hk', hk]⟩

/-- The third pass. The gates that have to be applied commute with what is left of the queue. -/
theorem wp_third_stands (henv : env.Granted) {s0 : Simulator ℝ} (h : Stands P ψ s)
    (hs : ∀ q, Trimmed (s0.qubits q) (s.qubits q))
    (hc : ∀ q st, s0.qubits q = some st → st.mustFlush = true →
      Commute (gate q st.pending.mat) (opsOperator s.sfreeQueue.ops)) :
    Wp (fun _ => True) (Sized P) (retain (visitThird env) (env.keys .third)) s fun _ t =>
      Stands P ψ t ∧ ∀ q, Flushed (s0.qubits q) (t.qubits q) := by
  refine Wp.mono (wp_retain_local (A := fun q e => Trimmed (s0.qubits q) e)
    (B := fun q e => Flushed (s0.qubits q) e)
    (K := fun t => Stands P ψ t ∧ t.sfreeQueue = s.sfreeQueue) (fun q h => h)
    (fun q t st ⟨ht, hk⟩ hA hst => ?_) (keys_nodup env .third) (mem_keys env .third) ⟨h, rfl⟩ hs)
    fun _ t ht => ⟨ht.1.1, ht.2⟩
  obtain ⟨st0, hst0, hp, hm, -⟩ := id hA
  unfold visitThird
  split
  · rename_i hmust
    rw [Bool.not_eq_true'] at hmust
    exact .pure ⟨rfl, ⟨st0, hst0, hp, hm.symm.trans hmust⟩, trivial, ht.sameGate hst rfl, hk⟩
  · rename_i hmust
    rw [Bool.not_eq_true', Bool.not_eq_false] at hmust
    split
    · exact .fail fun _ => nofun
    · refine .bind_read (.bind_ofExcept (fun e he => performU4_sized (fun hP => (ht.live hP).1) ht.inv he) fun v hv => ?_)
      obtain ⟨hsound, hket⟩ := ht.toSound.performU4 (henv _ _) hv
      have hcomm := hc q st0 hst0 (hm.symm.trans hmust)
      rw [← hp, ← hk] at hcomm
      refine wp_setState trivial (.pure ⟨rfl, hA.remove (.inl hmust), trivial, ⟨?_, ?_⟩, hk⟩)
      · exact hsound.entry fun _ he => nomatch he
      · rw [logical_flushed hst hcomm hket]
        exact ht.logical

/-- The vector grows. -/
theorem wp_ensureQubit_stands (henv : env.Granted) (h : Stands P ψ s) :
    Wp (fun _ => True) (Sized P) (ensureQubit env q) s fun _ t =>
      Stands P ψ t ∧ q.val < 64 * t.state.words ∧ t.qubits = s.qubits ∧
        t.sfreeQueue = s.sfreeQueue := by
  have hvec : Wp (fun _ => True) (Sized P) (ensureQubit env q) s fun _ t => t.ctx = s.ctx ∧
      t.state.vec.Inv ∧ t.state.vec.toKet = s.state.vec.toKet ∧
        (s.state.vec.Nonzero → t.state.vec.Nonzero) := by
    refine wp_ensureQubit h.range.words h.range.part (fun _ _ => ⟨rfl, h.inv, rfl, fun hn => hn⟩) ?_
    intro hgrow _ v t hv ht
    rw [henv] at ht
    refine ⟨trivial, rfl, Statevector.importFrom_inv hgrow h.inv (Statevector.new_inv hv).2 ht,
      Statevector.importFrom_toKet hgrow ht, Statevector.importFrom_nonzero ht⟩
  refine ((@wp_ensureQubit_range _ _ _ _ env (fun _ => True) h.range).and hvec).imp (fun _ _ => trivial)
    (fun _ he => he.2) ?_
  rintro _ t ⟨⟨hr, hq, hwords, hqubits, hk⟩, hctx, hinv, hket, hne⟩
  refine ⟨⟨⟨hr, ?_, hinv, ?_, ?_, fun hP => ?_⟩, ?_⟩, hq, hqubits, hk⟩
  · rw [hwords]
    unfold grownWords
    split
    · exact h.small
    · exact AnyVector.numWords_le q
  · rw [hqubits]
    exact h.pending
  · rw [hk]
    exact h.queued
  · rw [hctx]
    exact ⟨(h.live hP).1, hne (h.live hP).2⟩
  · have hlog : t.logical = s.logical := by
      rw [Simulator.logical, Simulator.logical, hket, hk, show t.pendingMat = s.pendingMat from by
        funext r
        rw [pendingMat, hqubits, pendingMat]]
    rw [hlog]
    exact h.logical

/-- The queue is applied, and the gates that are left may be. -/
theorem wp_flushSfree_stands (henv : env.Granted) {s0 : Simulator ℝ} (h : Stands P ψ s)
    (hq : s.sfreeQueue.maxQubit.val < 64 * s.state.words)
    (hs : ∀ q, Trimmed (s0.qubits q) (s.qubits q)) :
    Wp (fun _ => True) (Sized P) (flushSfree env) s fun _ t =>
      (Stands P ψ t ∧ t.sfreeQueue.ops = []) ∧ ∀ q, Trimmed (s0.qubits q) (t.qubits q) := by
  have hlegal := h.toSound.legal hq
  refine .bind_read (.bind_ofExcept (fun e he => ?_) fun v hv => ?_)
  · exact performSfree_sized h.live (henv .sfree Qubit.ZERO) h.inv (h.range.queue.allowed hq) he
  · obtain ⟨vec, hvec, rfl⟩ := AnyVector.performSfree_ok hv
    obtain ⟨hinv, -, hne⟩ := Statevector.performSfree_nonzero (henv .sfree Qubit.ZERO) h.inv
      (h.range.queue.allowed hq) hvec
    have hket := Statevector.performSfree_toKet (henv .sfree Qubit.ZERO) h.inv hlegal hvec
    refine wp_setState trivial (wp_setQueue trivial (wp_second_stands henv
      ⟨⟨?_, h.small, hinv, h.pending, ?_, ?_⟩, (logical_applied hket).trans h.logical⟩ rfl hs))
    · exact ⟨h.range.words, Statevector.performSfree_partFits h.range.part hvec, h.range.queue.clear⟩
    · exact fun p hp => absurd hp List.not_mem_nil
    · exact fun hP => ⟨(h.live hP).1, hne (h.live hP).2⟩

/-- Without a reason to apply the queue, it does not stand in the way of a gate that has to be applied. -/
theorem Sound.commute_of_needsSfree (h : Sound P s) {alsoSfree : Bool}
    (hn : s.needsSfree alsoSfree = false) (hst : s.qubits q = some st) (hm : st.mustFlush = true) :
    Commute (gate q st.pending.mat) (opsOperator s.sfreeQueue.ops) := by
  unfold needsSfree at hn
  split at hn
  · rename_i he
    rw [List.isEmpty_iff.mp he]
    exact Commute.one_right _
  · rw [Bool.or_eq_false_iff] at hn
    have hb := List.any_eq_false.mp hn.2 (q, st) (mem_entries.mpr hst)
    rw [hm, Bool.true_and, Bool.not_eq_true] at hb
    exact h.commute hst hb

/-- `_flush` keeps the state that the simulator stands for. -/
theorem wp_innerFlush_stands (henv : env.Granted) (h : Stands P ψ s) {alsoSfree : Bool} :
    Wp (fun _ => True) (Sized P) (innerFlush env alsoSfree) s fun _ t =>
      Stands P ψ t ∧ ∀ q, Flushed (s.qubits q) (t.qubits q) := by
  refine .bind_read (.bind (wp_first_stands henv h) ?_)
  rintro _ t ⟨⟨ht, hkt⟩, hst⟩
  refine .bind_read (.bind (wp_ensureQubit_stands henv ht) ?_)
  rintro _ u ⟨hu, hmax, hqubits, hku⟩
  have hsu : ∀ q, Trimmed (s.qubits q) (u.qubits q) := fun q => hqubits ▸ hst q
  refine .bind (Q := fun _ v => Stands P ψ v ∧ (∀ q, Trimmed (s.qubits q) (v.qubits q)) ∧
    ∀ q st, s.qubits q = some st → st.mustFlush = true →
      Commute (gate q st.pending.mat) (opsOperator v.sfreeQueue.ops)) (.when (fun hn => ?_) fun hn => ?_)
    fun _ v ⟨hv, hsv, hc⟩ => wp_third_stands henv hv hsv hc
  · have hq : u.sfreeQueue.maxQubit.val < 64 * u.state.words := by
      rw [hku]
      exact lt_of_le_of_lt ((@le_flushMax ℝ t 0 _).2 hn) hmax
    refine (wp_flushSfree_stands henv hu hq hsu).mono fun _ v ⟨⟨hv, hk⟩, hsv⟩ =>
      ⟨hv, hsv, fun q st _ _ => ?_⟩
    rw [hk]
    exact Commute.one_right _
  · refine ⟨hu, hsu, fun q st hst hm => ?_⟩
    rw [hku, hkt]
    exact h.toSound.commute_of_needsSfree hn hst hm

end Simulator

end Qblaze
