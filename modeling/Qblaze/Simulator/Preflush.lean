import Qblaze.Simulator.Bookkeeping
import Qblaze.Simulator.Logical

/-!
# What `_preflush` promises

A caller of `_preflush` wants to apply an operation with a projection on the qubit, and gets told which
projection it may queue in its place, before the pending gate.

* `Moves E E' e`: the projection `E` after the entry is `E'` before it, also if the entry is removed.
* `Preflush.Spec`: what the answers of a `Preflush` have to mean. `ctl_spec`, `ctlH_spec`, `x_spec`, `i_spec`.
* `wp_preflush_stands`: `_preflush` keeps the state, and its answer moves past the entry that it leaves.
-/

namespace Qblaze

open Lib.Run Angle Mat

namespace U3

variable {g : U3} {a b t p l : Angle}

theorem exact_new (ht : Fixed PREC t) (hp : Fixed PREC p) (hl : Fixed PREC l) : (new t p l).Exact := by
  have hpi : Fixed PREC PI := by decide
  rcases new_cases t p l with ⟨-, he⟩ | ⟨-, he⟩ | ⟨-, -, -, he⟩ | ⟨-, -, -, he⟩
  · rw [he]
    exact ⟨fixed_zero _, hp.add hl, fixed_zero _⟩
  · rw [he]
    exact ⟨hpi, hp.sub hl, fixed_zero _⟩
  · rw [he]
    exact ⟨ht.neg, hp.add hpi, hl.add hpi⟩
  · rw [he]
    exact ⟨ht, hp, hl⟩

theorem exact_rx (h : Fixed PREC a) : (rx a).Exact := exact_new h (by decide) (by decide)

theorem exact_rz (h : Fixed PREC a) : (rz a).Exact := ⟨fixed_zero _, h, fixed_zero _⟩

theorem toCxRz_fixed {c : Bool} (hg : g.Exact) (h : g.toCxRz PREC = some (c, a)) : Fixed PREC a := by
  unfold toCxRz at h
  simp only at h
  split at h
  · cases h
    exact hg.phi.add hg.lambda
  split at h
  · cases h
    exact ((by decide : Fixed PREC PI).add hg.phi).sub hg.lambda
  · cases h

theorem toRzHRz_fixed (hg : g.Exact) (h : g.toRzHRz PREC = some (a, b)) :
    Fixed PREC a ∧ Fixed PREC b := by
  unfold toRzHRz at h
  split at h
  · cases h
  · cases h
    exact ⟨hg.lambda.sub (by decide), hg.phi⟩

/-- The gate that is left of an H between two rotations. -/
theorem compose_H_rz_exact (h : Fixed PREC b) :
    (compose ℝ H (rz b)).Exact ∧ UpToPhase (compose ℝ H (rz b)).mat (rotZ b * H.mat) := by
  refine ⟨?_, ?_⟩
  · rw [compose_H_rz]
    exact ⟨(by decide : Fixed PREC PI_1_2), h, (by decide : Fixed PREC PI)⟩
  · rw [← mat_rz b]
    exact compose_mat ℝ (.inr (.inr (.inr (.inr (.inl rfl)))))

end U3

/-! ## Projections and entries -/

/-- The projection `E` after the entry is `E'` before it. If the entry may be removed, they are the same. -/
def Moves (E E' : Mat) : Option QubitState → Prop
  | none => E = E'
  | some st => st.mustFlush = true ∧ E = E' ∨ st.mustFlush = false ∧
    E * st.pending.mat = st.pending.mat * E' ∧
    (E = E' ∨ st.isReordered = true ∨ st.pending.isSfree PREC = true)

/-- What the answers of a `Preflush` mean: the projection `E' r` before the pending gate is `E` after it. -/
structure Preflush.Spec {R : Type} (p : Preflush R) (E : Mat) (E' : R → Mat) : Prop where
  id : E' p.fromId = E
  rx : ∀ r, p.fromRx = some r → E' r = E ∧ ∀ a, E * rotX a = rotX a * E
  rz : ∀ r, p.fromRz = some r → ∀ a, E * rotZ a = rotZ a * E' r
  xrz : ∀ r, p.fromXRz = some r → ∀ a, E * (rotZ a * U3.X.mat) = rotZ a * U3.X.mat * E' r
  hrz : ∀ r, p.fromHRz = some r → ∀ a, E * (rotZ a * U3.H.mat) = rotZ a * U3.H.mat * E' r
  hrx : ∀ r, p.fromHRx = some r → ∀ a, E * (U3.H.mat * rotZ a) = U3.H.mat * rotZ a * E' r
  xhrx : ∀ r, p.fromXHRx = some r →
    ∀ a, E * (rotZ PI * U3.H.mat * rotZ a) = rotZ PI * U3.H.mat * rotZ a * E' r
  paired : p.fromXRz = none → p.fromRz = none

namespace Preflush

/-- The projection to the value of a control, inverted or not. -/
theorem ctl_spec (v : Bool) : ctl.Spec (proj v) fun invert => proj (v ^^ invert) := by
  refine ⟨?_, nofun, ?_, ?_, nofun, nofun, nofun, nofun⟩
  · exact congrArg proj (Bool.xor_false v)
  · rintro _ ⟨⟩ a
    rw [Bool.xor_false]
    exact proj_mul_rotZ v a
  · rintro _ ⟨⟩ a
    rw [← mul_assoc, proj_mul_rotZ, mul_assoc, proj_mul_X, ← mul_assoc, Bool.xor_true]

/-- The projection that an answer of `PreflushCtlH` stands for. -/
noncomputable def ctlHProj : CtlH → Mat
  | .normal => proj true
  | .invert => proj false
  | .hadamard => minus

theorem ctlH_spec : ctlH.Spec (proj true) ctlHProj := by
  refine ⟨rfl, nofun, ?_, ?_, ?_, nofun, nofun, nofun⟩
  · rintro _ ⟨⟩ a
    exact proj_mul_rotZ true a
  · rintro _ ⟨⟩ a
    rw [← mul_assoc, proj_mul_rotZ, mul_assoc, proj_mul_X, ← mul_assoc]
    rfl
  · rintro _ ⟨⟩ a
    rw [← mul_assoc, proj_mul_rotZ, mul_assoc, proj_mul_H, ← mul_assoc]
    rfl

/-- The projection that an answer of `PreflushX` stands for. -/
noncomputable def xProj : Option Bool → Mat
  | none => minus
  | some invert => proj !invert

theorem x_spec : x.Spec minus xProj := by
  refine ⟨rfl, ?_, nofun, nofun, nofun, ?_, ?_, fun _ => rfl⟩
  · rintro _ ⟨⟩
    exact ⟨rfl, minus_mul_rotX⟩
  · rintro _ ⟨⟩ a
    rw [← mul_assoc, minus_mul_H, mul_assoc, proj_mul_rotZ, ← mul_assoc]
    rfl
  · rintro _ ⟨⟩ a
    rw [← mul_assoc, minus_mul_sign_H, mul_assoc, proj_mul_rotZ, ← mul_assoc]
    rfl

/-- No answer at all. -/
theorem i_spec (E : Mat) : i.Spec E fun _ => E :=
  ⟨rfl, nofun, nofun, nofun, nofun, nofun, nofun, fun _ => rfl⟩

end Preflush

namespace Simulator

variable {P : Prop} {ψ : Ket Qubit} {s t : Simulator ℝ} {q : Qubit} {e e' : Option QubitState}
  {st : QubitState} {E E' M : Mat} {a b : Angle}

/-- What moves past an entry moves past what `_flush` leaves of it. -/
theorem Moves.flushed (h : Moves E E' e) (hf : Flushed e e') :
    E * entryMat e' = entryMat e' * E' := by
  cases e' with
  | none =>
    have heq : E = E' := by
      cases e with
      | none => exact h
      | some st =>
        rcases h with ⟨-, heq⟩ | ⟨hm, -, heq | hr | hs⟩
        · exact heq
        · exact heq
        · rcases hf st rfl with hm' | ⟨hr', -⟩
          · exact nomatch hm.symm.trans hm'
          · exact nomatch hr'.symm.trans hr
        · rcases hf st rfl with hm' | ⟨-, hs'⟩
          · exact nomatch hm.symm.trans hm'
          · exact nomatch hs'.symm.trans hs
    rw [entryMat, mul_one, one_mul, heq]
  | some st' =>
    obtain ⟨st, rfl, hp, hm⟩ := hf
    rcases h with ⟨hm', -⟩ | ⟨-, hmul, -⟩
    · exact nomatch hm.symm.trans hm'
    · rw [entryMat, hp]
      exact hmul

/-! ## Queued rotations -/

/-- An entry with the same gate up to a phase. -/
theorem Stands.entry (h : Stands P ψ s) (he : ∀ st, e = some st → st.pending.Exact)
    (hm : UpToPhase (entryMat e) (entryMat (s.qubits q))) : Stands P ψ (s.withEntry q e) := by
  refine ⟨h.toSound.entry he, ?_⟩
  have hg := @logical_gate s q e 1 (by rw [one_mul]; exact hm)
  rw [gate_one, Module.End.one_apply] at hg
  exact hg.trans h.logical

/-- The rotation around the Z axis that comes first in a pending gate moves to the queue. -/
theorem Stands.pushRz (h : Stands P ψ s) (ha : Fixed PREC a) (he : ∀ st, e = some st → st.pending.Exact)
    (hm : UpToPhase (entryMat e * rotZ a) (entryMat (s.qubits q))) :
    Stands P ψ ((s.withQueue (s.sfreeQueue.ctlPhase (Control.single q true) a)).withEntry q e) := by
  refine ⟨(h.toSound.push h.range.queue.ctlPhase rfl fun b hb => ?_).entry he, ?_⟩
  · cases hb
    exact ha
  · exact (logical_push rfl (.of_eq (opOperator_rz q a)) hm).trans h.logical

/-- The X that comes first in a pending gate moves to the queue. -/
theorem Stands.pushX (h : Stands P ψ s) (he : ∀ st, e = some st → st.pending.Exact)
    (hm : UpToPhase (entryMat e * U3.X.mat) (entryMat (s.qubits q))) :
    Stands P ψ ((s.withQueue (s.sfreeQueue.x q)).withEntry q e) :=
  ⟨(h.toSound.push h.range.queue.x rfl nofun).entry he,
    (logical_push rfl (opOperator_always_x q) hm).trans h.logical⟩

theorem withEntry_withEntry : (s.withEntry q e).withEntry q e' = s.withEntry q e' := by
  rw [withEntry, withEntry, withEntry, Function.update_idem]

/-! ## `_preflush` -/

/-- The state is kept, only the entry of `q` changed, and `E` after it is `E'` before it. -/
structure Prepared (P : Prop) (ψ : Ket Qubit) (q : Qubit) (s : Simulator ℝ) (E E' : Mat)
    (t : Simulator ℝ) : Prop extends Stands P ψ t where
  same : ∀ r, r ≠ q → t.qubits r = s.qubits r
  moves : Moves E E' (t.qubits q)

/-- The entry of `q` is `e` now. -/
theorem Prepared.of_entry {u : Simulator ℝ} (h : Stands P ψ (u.withEntry q e)) (hu : u.qubits = s.qubits)
    (hm : Moves E E' e) : Prepared P ψ q s E E' (u.withEntry q e) :=
  ⟨h, fun r hr => by rw [withEntry_of_ne hr, hu], by rw [withEntry_same]; exact hm⟩

theorem exact_of_none : ∀ st : QubitState, none = some st → st.pending.Exact := nofun

variable {R : Type} {p : Preflush R} {F : R → Mat} {env : Env}

/-- A gate that is free of superposition. -/
theorem wp_preflushSfree_stands (hp : p.Spec E F) (h : Stands P ψ s) (hst : s.qubits q = some st)
    (hf : NoFlag (some st)) {isX : Bool} {rz : Angle} (hd : st.pending.toCxRz PREC = some (isX, rz)) :
    Wp (fun _ => True) (Sized P) (preflushSfree p q isX rz) s fun r t => Prepared P ψ q s E (F r) t := by
  have hg := h.pending q st hst
  have hfix := U3.toCxRz_fixed hg hd
  have hmat := U3.toCxRz_mat hg.theta hd
  have hsfree : st.pending.isSfree PREC = true := by
    cases hs : st.pending.isSfree PREC with
    | true => rfl
    | false => exact nomatch hd.symm.trans (U3.toCxRz_eq_none.mpr hs)
  have hkept : ∀ r, E * st.pending.mat = st.pending.mat * F r → Prepared P ψ q s E (F r) s := fun r hr =>
    ⟨h, fun _ _ => rfl, by rw [hst]; exact .inr ⟨(hf st rfl).1, hr, .inr (.inr hsfree)⟩⟩
  unfold preflushSfree
  cases isX with
  | true =>
    rw [if_pos rfl] at hmat ⊢
    split
    · rename_i r hr
      exact .pure (hkept r (hmat.moves (hp.xrz r hr rz)))
    · rename_i hr
      rw [hp.paired hr]
      refine .bind_change trivial ?_
      split
      · -- the entry stands for the rotation until it is queued, too
        have h' := h.pushX (e := some ⟨U3.rz rz, false, false, false⟩) (fun _ he => by
          cases he
          exact U3.exact_rz hfix) (by
          rw [hst, entryMat, U3.mat_rz]
          exact hmat.symm)
        have h'' := h'.pushRz (e := none) hfix exact_of_none (by
          rw [withEntry_same, entryMat, entryMat, U3.mat_rz, one_mul]
          exact .refl _)
        have heq : ((((s.withQueue (s.sfreeQueue.x q)).withEntry q
            (some ⟨U3.rz rz, false, false, false⟩)).withQueue ((s.sfreeQueue.x q).ctlPhase
            (Control.single q true) rz)).withEntry q none) = ((s.withQueue (s.sfreeQueue.x q)).withQueue
            ((s.sfreeQueue.x q).ctlPhase (Control.single q true) rz)).withEntry q none :=
          withEntry_withEntry (s := (s.withQueue (s.sfreeQueue.x q)).withQueue
            ((s.sfreeQueue.x q).ctlPhase (Control.single q true) rz))
        exact wp_pushRz trivial (wp_setEntry trivial (.pure (.of_entry (heq ▸ h'') rfl hp.id.symm)))
      · rename_i hz
        rw [not_not, show rz.round PREC = rz from hfix] at hz
        subst hz
        rw [rotZ_zero, one_mul] at hmat
        have h' := h.pushX (e := none) exact_of_none (by
          rw [hst, entryMat, entryMat, one_mul]
          exact hmat.symm)
        exact wp_setEntry trivial (.pure (.of_entry h' rfl hp.id.symm))
  | false =>
    rw [if_neg Bool.false_ne_true] at hmat ⊢
    rw [mul_one] at hmat
    refine .bind (Q := fun _ t => t = s) (.when (fun h => absurd h Bool.false_ne_true) fun _ => rfl)
      fun _ t ht => ?_
    subst ht
    split
    · split
      · rename_i r hr
        exact .pure (hkept r (hmat.moves (hp.rz r hr rz)))
      · have h' := h.pushRz (e := none) hfix exact_of_none (by
          rw [hst, entryMat, entryMat, one_mul]
          exact hmat.symm)
        exact wp_pushRz trivial (wp_setEntry trivial (.pure (.of_entry h' rfl hp.id.symm)))
    · rename_i hz
      rw [not_not, show rz.round PREC = rz from hfix] at hz
      subst hz
      rw [rotZ_zero] at hmat
      have h' := h.entry (e := none) exact_of_none (by
        rw [hst, entryMat, entryMat]
        exact hmat.symm)
      exact wp_setEntry trivial (.pure (.of_entry h' rfl hp.id.symm))

/-- A gate that is not free of superposition. -/
theorem wp_preflushMatch_stands (hp : p.Spec E F) (h : Stands P ψ s) (hst : s.qubits q = some st)
    (hf : NoFlag (some st)) (hs : st.pending.isSfree PREC = false) :
    Wp (fun _ => True) (Sized P) (preflushMatch p q st) s fun r t => Prepared P ψ q s E (F r) t := by
  have hg := h.pending q st hst
  obtain ⟨hm, hr⟩ := hf st rfl
  have hold : ∀ st', some st' = some st → st'.pending.Exact := fun st' he => by
    cases he
    exact hg
  have hmust : Wp (fun _ => True) (Sized P)
      (do setEntry q (some { st with mustFlush := true }); return p.fromId) s
      fun r t => Prepared P ψ q s E (F r) t := by
    have h' : Stands P ψ (s.withEntry q (some { st with mustFlush := true })) := h.sameGate hst rfl
    exact wp_setEntry trivial (.pure (.of_entry h' rfl (.inl ⟨rfl, hp.id.symm⟩)))
  have hreorder : ∀ r, E * st.pending.mat = st.pending.mat * F r → Wp (fun _ => True) (Sized P)
      (do setEntry q (some { st with isReordered := true }); return r) s
      fun r t => Prepared P ψ q s E (F r) t := fun r hE => by
    have h' : Stands P ψ (s.withEntry q (some { st with isReordered := true })) := h.sameGate hst rfl
    exact wp_setEntry trivial (.pure (.of_entry h' rfl (.inr ⟨hm, hE, .inr (.inl rfl)⟩)))
  unfold preflushMatch
  split
  · rename_i rz rx r hd hrx
    obtain ⟨hF, hE⟩ := hp.rx r hrx
    obtain ⟨hfz, hfx⟩ := Queue.toRzRx_fixed hg.theta hg.phi hg.lambda hd
    have hmat := U3.toRzRx_mat hg.theta hg.phi hd
    split
    · have h' := h.pushRz (e := some { st with isReordered := true, pending := U3.rx rx }) hfz (fun _ he => by
        cases he
        exact U3.exact_rx hfx) (by
        rw [hst]
        exact hmat.symm)
      refine wp_pushRz trivial (wp_setEntry trivial (wp_setEntry trivial ?_))
      rw [if_neg (by rw [U3.isSfree_rx hs hd]; decide), withEntry_withEntry]
      refine .pure (.of_entry h' rfl (.inr ⟨hm, ?_, .inr (.inl rfl)⟩))
      rw [hF]
      exact (U3.mat_rx rx).moves (hE rx)
    · rename_i hz
      rw [not_not, show rz.round PREC = rz from hfz] at hz
      subst hz
      rw [rotZ_zero, mul_one] at hmat
      refine .pure ⟨h, fun _ _ => rfl, ?_⟩
      rw [hst, hF]
      exact .inr ⟨hm, (hmat.trans (U3.mat_rx rx)).moves (hE rx), .inl rfl⟩
  · split
    · exact hmust
    rename_i rz1 rz2 hd
    obtain ⟨hf1, hf2⟩ := U3.toRzHRz_fixed hg hd
    have hmat := U3.toRzHRz_mat hg.theta hd
    split
    · rename_i r hr'
      have hE := hp.hrz r hr' rz2
      by_cases hz : rz1.round PREC = ZERO
      · rw [if_neg (not_not.mpr hz)]
        rw [show rz1.round PREC = rz1 from hf1] at hz
        rw [hz, rotZ_zero, mul_one] at hmat
        exact hreorder r (hmat.moves hE)
      · rw [if_pos hz]
        obtain ⟨hex, hcomp⟩ := U3.compose_H_rz_exact hf2
        have h' := h.pushRz
          (e := some { st with isReordered := true, pending := U3.compose ℝ U3.H (U3.rz rz2) })
          hf1 (fun _ he => by
          cases he
          exact hex) (by
          rw [hst]
          exact (hcomp.mul (.refl _)).trans hmat.symm)
        refine wp_setEntry trivial (wp_pushRz trivial (wp_setEntry trivial (.pure ?_)))
        have heq : (((s.withEntry q (some { st with isReordered := true })).withQueue
            (s.sfreeQueue.ctlPhase (Control.single q true) rz1)).withEntry q
            (some { st with isReordered := true, pending := U3.compose ℝ U3.H (U3.rz rz2) })) =
            (s.withQueue (s.sfreeQueue.ctlPhase (Control.single q true) rz1)).withEntry q
            (some { st with isReordered := true, pending := U3.compose ℝ U3.H (U3.rz rz2) }) :=
          withEntry_withEntry (s := s.withQueue (s.sfreeQueue.ctlPhase (Control.single q true) rz1))
        exact heq ▸ .of_entry h' rfl (.inr ⟨hm, hcomp.moves hE, .inr (.inl rfl)⟩)
    split
    · rename_i r hr'
      split at hr'
      · rename_i hz
        rw [show rz2.round PREC = rz2 from hf2] at hz
        rw [hz, rotZ_zero, one_mul] at hmat
        exact hreorder r (hmat.moves (hp.hrx r hr' rz1))
      · cases hr'
    split
    · rename_i r hr'
      split at hr'
      · rename_i hz
        rw [show rz2.round PREC = rz2 from hf2] at hz
        rw [hz] at hmat
        exact hreorder r (hmat.moves (hp.xhrx r hr' rz1))
      · cases hr'
    · exact hmust

/-- `_preflush` keeps the state, and its answer moves past the entry. -/
theorem wp_preflush_stands (henv : env.Granted) (hp : p.Spec E F) (h : Stands P ψ s)
    (hf : NoFlag (s.qubits q)) :
    Wp (fun _ => True) (Sized P) (preflush p env q) s fun r t => Prepared P ψ q s E (F r) t := by
  refine .bind_read ?_
  split
  · rename_i hst
    exact .pure ⟨h, fun _ _ => rfl, by rw [hst]; exact hp.id.symm⟩
  · rename_i st hst
    rw [hst] at hf
    split
    · rename_i hd
      exact wp_preflushSfree_stands hp h hst hf hd
    · rename_i hs
      rw [U3.toCxRz_eq_none] at hs
      rw [if_neg (by rw [hs]; decide)]
      split
      · rename_i hb
        rw [Bool.and_eq_true, Bool.not_eq_true'] at hb
        refine .bind (wp_eager henv h hst (h.toSound.commute hst hb.2)) fun flushed t ⟨hq, _, ht⟩ => ?_
        cases flushed with
        | true => exact wp_setEntry trivial (.pure (.of_entry ht.2 hq hp.id.symm))
        | false =>
          rw [if_neg Bool.false_ne_true] at ht ⊢
          subst ht
          have h' : Stands P ψ (t.withEntry q (some { st with maybeDestructive := false })) :=
            h.sameGate hst rfl
          refine wp_setEntry trivial (Wp.mono (wp_preflushMatch_stands hp h' withEntry_same (fun st' he => by
            cases he
            exact hf st rfl) hs) fun r u hu => ?_)
          exact ⟨hu.toStands, fun r hr => (hu.same r hr).trans (withEntry_of_ne hr), hu.moves⟩
      · exact wp_preflushMatch_stands hp h hst hf hs

end Simulator

end Qblaze
