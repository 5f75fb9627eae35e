import Qblaze.Simulator.Controls
import Qblaze.Simulator.Error
import Qblaze.Simulator.Preflush

/-!
# Lazy simulation is eager simulation

A call queues an operation under other controls than it was called with, and some of the pending gates stay
where they are. The operation that was called is a guarded operator, and so is the one that is queued; by what
`_preflush` promises for each qubit, the one after the pending gates is the other one before them.

* `Passed`: the projections of a list of items after the entries, and what they are before them.
* `wp_ctlX_stands`, ..: each gate does to the state what it means.
* `lazy_eq_eager`: over all runs, and what is in the vector after `flush`.
-/

namespace Qblaze

open Lib.Run Angle Mat

namespace Simulator

variable {P : Prop} {ψ φ : Ket Qubit} {s t u : Simulator ℝ} {q : Qubit} {e : Option QubitState}
  {E' : Qubit → Mat} {M : Mat} {a : Angle} {env : Env} {c c' : ControlItem} {l : List ControlItem}
  {ctl : Control}

theorem sized_assertion : Sized P .assertion := fun _ => nofun

theorem Stands.congr (h : Stands P ψ s) (hφ : UpToPhase ψ φ) : Stands P φ s :=
  ⟨h.toSound, h.logical.trans hφ⟩

/-- What moves past a gate by itself moves past an entry. -/
theorem moves_one (e : Option QubitState) : Moves 1 1 e := by
  cases e with
  | none => rfl
  | some st =>
    cases hm : st.mustFlush with
    | true => exact .inl ⟨hm, rfl⟩
    | false => exact .inr ⟨hm, (one_mul _).trans (mul_one _).symm, .inl rfl⟩

/-! ## The items of a control -/

/-- The projections of the items after the entries are `E'` before them, and the other entries did not
change. -/
structure Passed (P : Prop) (ψ : Ket Qubit) (l : List ControlItem) (s : Simulator ℝ) (E' : Qubit → Mat)
    (t : Simulator ℝ) : Prop extends Stands P ψ t where
  same : SameOff l s t
  moves : ∀ q, Moves (itemProj l q) (E' q) (t.qubits q)

theorem ne_of_ordered (ho : Ordered (c :: l)) : ∀ d ∈ l, d.qubit ≠ c.qubit :=
  fun _ hd => (List.rel_of_pairwise_cons ho hd).ne'

theorem Passed.nil (h : Stands P ψ s) : Passed P ψ [] s (itemProj []) s :=
  ⟨h, fun _ _ => rfl, fun q => by
    rw [itemProj_of_ne fun _ hd => absurd hd List.not_mem_nil]
    exact moves_one _⟩

/-- One item and the ones after it. -/
theorem Passed.cons (ho : Ordered (c :: l)) (hc : Prepared P ψ c.qubit s (proj c.value) M t)
    (hl : Passed P ψ l t E' u) : Passed P ψ (c :: l) s (Function.update E' c.qubit M) u := by
  refine ⟨hl.toStands, hl.same.cons hc.same, fun q => ?_⟩
  rw [itemProj_cons (ne_of_ordered ho)]
  by_cases hq : q = c.qubit
  · subst hq
    rw [Function.update_self, Function.update_self, hl.same _ (ne_of_ordered ho)]
    exact hc.moves
  · rw [Function.update_of_ne hq, Function.update_of_ne hq]
    exact hl.moves q

theorem mem_itemQubits : q ∈ itemQubits l ↔ ∃ d ∈ l, d.qubit = q := List.mem_map

/-- The projections of one more item on a new qubit. -/
theorem itemProj_cons_of_qubits {l' : List ControlItem} (ho : Ordered (c :: l)) (hc : c'.qubit = c.qubit)
    (hl : ∀ r ∈ itemQubits l', r ∈ itemQubits l) :
    itemProj (c' :: l') = Function.update (itemProj l') c.qubit (proj c'.value) := by
  rw [← hc]
  refine itemProj_cons fun d hd => ?_
  obtain ⟨d', hd', he⟩ := mem_itemQubits.mp (hl _ (mem_itemQubits.mpr ⟨d, hd, rfl⟩))
  rw [← he, hc]
  exact ne_of_ordered ho d' hd'

theorem inverted_value (b : Bool) (c : ControlItem) :
    (if b then c.invert else c).qubit = c.qubit ∧ (if b then c.invert else c).value = (c.value ^^ b) := by
  cases b with
  | true => exact ⟨rfl, (Bool.xor_true _).symm⟩
  | false => exact ⟨rfl, (Bool.xor_false _).symm⟩

/-- The loop of `_preflush_ctl`. -/
theorem wp_preflushItems_stands (henv : env.Granted) (ho : Ordered l) (h : Stands P ψ s)
    (hc : CleanOn l s) : Wp (fun _ => True) (Sized P) (preflushItems env l) s fun l' t =>
      itemQubits l' = itemQubits l ∧ Passed P ψ l s (itemProj l') t := by
  induction l generalizing s with
  | nil => exact .pure ⟨rfl, .nil h⟩
  | cons c l ih =>
    refine .bind (wp_preflush_stands henv (Preflush.ctl_spec c.value) h (hc c (List.mem_cons_self ..)))
      fun invert t ht => ?_
    refine .bind (ih ho.of_cons ht.toStands (hc.tail ho ht.same)) fun l' u ⟨hl, hu⟩ => .pure ?_
    obtain ⟨hcq, hcv⟩ := inverted_value invert c
    refine ⟨by rw [itemQubits_ite, hl]; rfl, ?_⟩
    rw [itemProj_cons_of_qubits ho hcq fun r hr => hl ▸ hr, hcv]
    exact .cons ho ht hu

/-- The projections, and the difference of the values for the qubit that is taken out. -/
noncomputable def retarget (E : Qubit → Mat) : Option Qubit → Qubit → Mat
  | none => E
  | some h => Function.update E h minus

theorem Retargeted.mem {qs : List Qubit} {r : List Qubit × Option Qubit} (h : Retargeted qs r) :
    (∀ q ∈ r.1, q ∈ qs) ∧ ∀ q, r.2 = some q → q ∈ qs := by
  obtain ⟨l, o⟩ := r
  cases o with
  | none => exact ⟨fun q hq => (show l = qs from h) ▸ hq, nofun⟩
  | some t =>
    obtain ⟨l1, l2, rfl, hl⟩ := h
    refine ⟨fun q hq => ?_, fun q hq => ?_⟩
    · rw [show l = l1 ++ l2 from hl] at hq
      exact (List.sublist_cons_self t l2).append_left l1 |>.subset hq
    · cases hq
      exact List.mem_append_right l1 (List.mem_cons_self ..)

/-- One more item, whose qubit is not the one that is taken out. -/
theorem retarget_cons {r : List ControlItem × Option Qubit} (ho : Ordered (c :: l))
    (hr : Retargeted (itemQubits l) (itemQubits r.1, r.2)) (hc : c'.qubit = c.qubit) :
    retarget (itemProj (c' :: r.1)) r.2 =
      Function.update (retarget (itemProj r.1) r.2) c.qubit (proj c'.value) := by
  obtain ⟨hsub, hout⟩ := hr.mem
  rw [itemProj_cons_of_qubits ho hc hsub]
  cases ho' : r.2 with
  | none => rfl
  | some q =>
    obtain ⟨d, hd, rfl⟩ := mem_itemQubits.mp (hout q ho')
    exact Function.update_comm (ne_of_ordered ho d hd).symm _ _ _

/-- The loop of `_preflush_ctl_h`. -/
theorem wp_preflushItemsH_stands (henv : env.Granted) (ho : Ordered l) (h : Stands P ψ s)
    (hc : CleanOn l s) : Wp (fun _ => True) (Sized P) (preflushItemsH env l) s fun r t =>
      Retargeted (itemQubits l) (itemQubits r.1, r.2) ∧ Passed P ψ l s (retarget (itemProj r.1) r.2) t := by
  induction l generalizing s with
  | nil => exact .pure ⟨rfl, .nil h⟩
  | cons c l ih =>
    have hq := hc c (List.mem_cons_self ..)
    have hnext : ∀ t c', Prepared P ψ c.qubit s (proj c.value) (proj c'.value) t → c'.qubit = c.qubit →
        Wp (fun _ => True) (Sized P)
          (do let r ← preflushItemsH env l; return (c' :: r.1, r.2)) t fun r u =>
          Retargeted (itemQubits (c :: l)) (itemQubits r.1, r.2) ∧
            Passed P ψ (c :: l) s (retarget (itemProj r.1) r.2) u := fun t c' ht hcq => by
      refine .bind (ih ho.of_cons ht.toStands (hc.tail ho ht.same)) fun r u hu => .pure ⟨?_, ?_⟩
      · rw [itemQubits, itemQubits, List.map_cons, List.map_cons, hcq]
        exact hu.1.cons c.qubit
      · rw [retarget_cons ho hu.1 hcq]
        exact .cons ho ht hu.2
    unfold preflushItemsH
    split
    · refine .bind (wp_preflush_stands henv (Preflush.ctl_spec c.value) h hq) fun invert t ht => ?_
      obtain ⟨hcq, hcv⟩ := inverted_value invert c
      rw [← hcv] at ht
      exact hnext t _ ht hcq
    · rename_i hv
      rw [Bool.not_eq_true', Bool.not_eq_false] at hv
      refine .bind (wp_preflush_stands henv (hv ▸ Preflush.ctlH_spec) h hq) fun m t ht => ?_
      cases m with
      | normal => exact hnext t c (by rw [hv]; rw [hv] at ht; exact ht) rfl
      | invert => exact hnext t c.invert (by rw [ControlItem.invert, hv]; rw [hv] at ht; exact ht) rfl
      | hadamard =>
        refine .bind (wp_preflushItems_stands henv ho.of_cons ht.toStands (hc.tail ho ht.same))
          fun l' u hu => .pure ⟨⟨[], itemQubits l, rfl, hu.1⟩, ?_⟩
        exact .cons ho ht hu.2

theorem wp_preflushCtl_stands (henv : env.Granted) (h : Stands P ψ s) (hc : CleanOn ctl.items s) :
    Wp (fun _ => True) (Sized P) (preflushCtl env ctl) s fun ctl' t =>
      (∀ q, ctl'.uses q = ctl.uses q) ∧ Passed P ψ ctl.items s ctl'.proj t := by
  have hw : Wp (fun _ => True) (Sized P) (preflushCtl env ctl) s fun ctl' t =>
      Passed P ψ ctl.items s ctl'.proj t := by
    refine .bind (wp_preflushItems_stands henv ctl.ordered h hc) fun l t ⟨_, ht⟩ => ?_
    refine wp_orPanic (fun _ => sized_assertion) fun ctl' hctl' => ?_
    rw [Control.fromIter_proj hctl']
    exact ht
  exact (hw.and wp_preflushCtl_uses).imp (fun _ _ => trivial) (fun _ h => h.1) fun _ _ h => ⟨h.2, h.1⟩

theorem wp_preflushCtlH_stands (henv : env.Granted) (h : Stands P ψ s) (hc : CleanOn ctl.items s) :
    Wp (fun _ => True) (Sized P) (preflushCtlH env ctl) s fun r t =>
      RetargetedCtl ctl r.1 r.2 ∧ Passed P ψ ctl.items s (retarget r.1.proj r.2) t := by
  have hw : Wp (fun _ => True) (Sized P) (preflushCtlH env ctl) s fun r t =>
      Passed P ψ ctl.items s (retarget r.1.proj r.2) t := by
    refine .bind (wp_preflushItemsH_stands henv ctl.ordered h hc) fun r t ⟨_, ht⟩ => ?_
    refine wp_orPanic_bind (fun _ => sized_assertion) fun ctl' hctl' => .pure ?_
    rw [Control.fromIter_proj hctl']
    exact ht
  exact (hw.and wp_preflushCtlH_uses).imp (fun _ _ => trivial) (fun _ h => h.1) fun _ _ h => ⟨h.2, h.1⟩

/-! ## Queued operations -/

/-- `_flush` and a new operation. The operation `U` under the projections `E` after the entries is the one
that is queued. -/
theorem wp_flush_push_stands (henv : env.Granted) (h : Stands P ψ s) {U : Operator Qubit} {E E' : Qubit → Mat}
    {p : Control × Op} {g : Queue → Queue} (hm : ∀ q, Moves (E q) (E' q) (s.qubits q))
    (hU : ∀ t : Simulator ℝ, (∀ q, Flushed (s.qubits q) (t.qubits q)) → Commute U (tensor t.pendingMat))
    (hp : opOperator p = guarded U E') (hfix : ∀ a, p.2 = .gphase a → Fixed PREC a)
    (hg : ∀ k : Queue, k.Good → (g k).Good) (hops : ∀ k : Queue, (g k).ops = k.ops ++ [p]) :
    Wp (fun _ => True) (Sized P) (do innerFlush env false; setQueue g) s fun _ t =>
      Stands P (guarded U E ψ) t := by
  refine .bind (wp_innerFlush_stands henv h) fun _ t ⟨ht, hf⟩ => .change trivial ⟨?_, ?_⟩
  · exact ht.toSound.push (hg _ ht.range.queue) (hops _) hfix
  · have hl := logical_guarded (s := t) (hops _) hp (hU t hf) fun q => Moves.flushed (hm q) (hf q)
    exact (UpToPhase.of_eq hl).trans (ht.logical.map _)

/-! ## Gates -/

/-- The arithmetic of `u3` is exact: the gate that is stored has fixed angles, and `compose` returns the
product of the matrices. -/
def ExactGate (g : U3) : Option QubitState → Prop
  | none => g.Exact
  | some st => (U3.compose ℝ st.pending g).Exact ∧
    UpToPhase (U3.compose ℝ st.pending g).mat (g.mat * st.pending.mat)

theorem exactGate_X (h : ∀ st, e = some st → st.pending.Exact) : ExactGate U3.X e := by
  cases e with
  | none => exact ⟨by decide, by decide, by decide⟩
  | some st =>
    have hg := h st rfl
    refine ⟨?_, U3.compose_mat ℝ (.inr (.inr (.inr (.inr (.inr (.inl rfl))))))⟩
    rw [show U3.X = ⟨PI, PI, ZERO⟩ from rfl, U3.compose_pi_right]
    exact U3.exact_new (hg.theta.add (by decide)) ((by decide : Fixed PREC PI).sub hg.phi) hg.lambda

theorem exactGate_rz (ha : Fixed PREC a) (h : ∀ st, e = some st → st.pending.Exact) :
    ExactGate (U3.rz a) e := by
  cases e with
  | none => exact U3.exact_rz ha
  | some st =>
    have hg := h st rfl
    refine ⟨?_, U3.compose_mat ℝ (.inr (.inr (.inr (.inr (.inl rfl)))))⟩
    rw [U3.compose_rz_right]
    exact U3.exact_new hg.theta (hg.phi.add ha) hg.lambda

theorem wp_u3_stands (h : Stands P ψ s) {g : U3} (hg : ExactGate g (s.qubits q)) :
    Wp (fun _ => True) (Sized P) (u3 q g) s fun _ t => Stands P (gate q g.mat ψ) t := by
  refine .bind_read ?_
  split
  · rename_i st hst
    rw [hst] at hg
    refine .change trivial ⟨h.toSound.entry fun _ he => ?_, ?_⟩
    · cases he
      exact hg.1
    · refine (logical_gate ?_).trans (h.logical.map (gate q g.mat))
      rw [hst]
      exact hg.2
  · rename_i hst
    rw [hst] at hg
    refine .change trivial ⟨h.toSound.entry fun _ he => ?_, ?_⟩
    · cases he
      exact hg
    · refine (logical_gate ?_).trans (h.logical.map (gate q g.mat))
      rw [hst, entryMat, entryMat, mul_one]
      exact .refl _

theorem cleanOn_of_same (hs : Clean s) (hu : ctl.uses q = false) (ht : ∀ r, r ≠ q → t.qubits r = s.qubits r) :
    CleanOn ctl.items t := fun c hc => by
  rw [ht _ (Control.not_uses_iff.mp hu c hc)]
  exact hs _

/-- The projections of a control and the one of its target. -/
theorem Passed.target {E M' : Mat} (h : Passed P ψ ctl.items t E' u) (hq : Prepared P φ q s E M' t)
    (hu : ctl.uses q = false) (r : Qubit) :
    Moves (Function.update ctl.proj q E r) (Function.update E' q M' r) (u.qubits r) := by
  by_cases hr : r = q
  · subst hr
    rw [Function.update_self, Function.update_self, h.same _ (Control.not_uses_iff.mp hu)]
    exact hq.moves
  · rw [Function.update_of_ne hr, Function.update_of_ne hr]
    exact h.moves r

theorem wp_ctlX_stands (henv : env.Granted) (h : Stands P ψ s) (hs : Clean s) (hu : ctl.uses q = false) :
    Wp (fun _ => True) (Sized P) (ctlX env ctl q) s fun _ t => Stands P (opOperator (ctl, .x q) ψ) t := by
  unfold ctlX
  split
  · rename_i ha
    rw [Control.isAlways_iff.mp ha]
    refine (wp_u3_stands h (exactGate_X (h.pending q))).mono fun _ t ht => ht.congr ?_
    exact (opOperator_always_x q).symm.apply ψ
  rw [if_neg (by rw [hu]; decide), opOperator_x hu]
  refine .bind (wp_preflush_stands henv Preflush.x_spec h (hs q)) fun isH t ht => ?_
  have hc := cleanOn_of_same hs hu ht.same
  have hsign : ∀ t : Simulator ℝ, Commute ((-1 : ℂ) • 1) (tensor t.pendingMat) := fun t => commute_phase _ _
  cases isH with
  | some qInv =>
    refine .bind (wp_preflushCtlH_stands henv ht.toStands hc) fun r u ⟨hr, hpass⟩ => ?_
    have hfree : r.1.uses q = false := hr.uses_of_not_uses hu
    have hm := hpass.target ht hu
    refine wp_orPanic_bind (fun _ => sized_assertion) fun ctl' hctl' => ?_
    have hproj := Control.withQubit_proj hctl' hfree
    split
    · rename_i q2 hq2
      rw [hq2] at hr hm
      obtain ⟨huse, hr⟩ := hr
      have hne : q2 ≠ q := fun he => by
        rw [he, hu] at huse
        cases huse
      have hfree2 : ctl'.uses q2 = false := by
        rw [Control.uses_withQubit hctl', hr q2]
        simp [hne.symm]
      refine wp_flush_push_stands henv hpass.toStands hm (fun t _ => hsign t) ?_
        (fun _ he => by cases he) (fun k hk => hk.ctlX hfree2) fun k => rfl
      rw [opOperator_x hfree2, hproj, retarget, Function.update_comm hne]
      rfl
    · rename_i hq2
      rw [hq2] at hm
      refine wp_flush_push_stands henv hpass.toStands hm (fun t _ => hsign t) ?_ (fun a ha => ?_)
        (fun k hk => hk.ctlPhase) fun k => rfl
      · rw [opOperator_PI, hproj]
        rfl
      · cases ha
        decide
  | none =>
    refine .bind (wp_preflushCtl_stands henv ht.toStands hc) fun ctl' u ⟨hr, hpass⟩ => ?_
    have hfree : ctl'.uses q = false := (hr q).trans hu
    refine wp_flush_push_stands henv hpass.toStands (hpass.target ht hu) (fun t _ => hsign t) ?_
      (fun _ he => by cases he) (fun k hk => hk.ctlX hfree) fun k => rfl
    rw [opOperator_x hfree]
    rfl

/-- An entry that had to be applied is gone after `_flush`. -/
theorem Flushed.gone {e' : Option QubitState} (h : Flushed e e')
    (hm : ∀ st, e = some st → st.mustFlush = true) : e' = none := by
  cases e' with
  | none => rfl
  | some st' =>
    obtain ⟨st, hst, -, hm'⟩ := h
    exact nomatch hm'.symm.trans (hm st hst)

/-- `_preflush` of a gate that cannot be moved past anything. -/
theorem wp_preflush_apply (henv : env.Granted) (h : Stands P ψ s) (hs : NoFlag (s.qubits q)) :
    Wp (fun _ => True) (Sized P) (preflush Preflush.i env q) s fun _ t =>
      Prepared P ψ q s 1 1 t ∧ ∀ st, t.qubits q = some st → st.mustFlush = true :=
  ((wp_preflush_stands henv (Preflush.i_spec 1) h hs).and (wp_preflush_must (s := s))).imp
    (fun _ _ => trivial) (fun _ h => h.1) fun _ _ h => h

theorem wp_ctlSwap_stands (henv : env.Granted) (h : Stands P ψ s) (hs : Clean s) {q1 q2 : Qubit}
    (h1 : ctl.uses q1 = false) (h2 : ctl.uses q2 = false) (hne : q1 ≠ q2) :
    Wp (fun _ => True) (Sized P) (ctlSwap env ctl q1 q2) s fun _ t =>
      Stands P (opOperator (ctl, .swap q1 q2) ψ) t := by
  unfold ctlSwap
  rw [if_neg (by rw [h1, h2]; simp [hne]), opOperator_swap]
  refine .bind (wp_preflushCtl_stands henv h fun c _ => hs _) fun ctl' t ⟨hr, ht⟩ => ?_
  have hq1 : t.qubits q1 = s.qubits q1 := ht.same q1 (Control.not_uses_iff.mp h1)
  have hq2 : t.qubits q2 = s.qubits q2 := ht.same q2 (Control.not_uses_iff.mp h2)
  refine .bind (wp_preflush_apply henv ht.toStands (by rw [hq1]; exact hs q1)) fun _ u ⟨hu, hm1⟩ => ?_
  refine .bind (wp_preflush_apply henv hu.toStands (by rw [hu.same q2 hne.symm, hq2]; exact hs q2))
    fun _ v ⟨hv, hm2⟩ => ?_
  refine wp_flush_push_stands henv hv.toStands (E := ctl.proj) (fun q => ?_) (fun w hw => ?_)
    (opOperator_swap q1 q2) (fun _ he => by cases he)
    (fun k hk => hk.ctlSwap ((hr q1).trans h1) ((hr q2).trans h2)) fun k => rfl
  · cases hu' : ctl.uses q with
    | false =>
      rw [Control.proj_of_not_uses hu', Control.proj_of_not_uses ((hr q).trans hu')]
      exact moves_one _
    | true =>
      have hne1 : q ≠ q1 := fun he => by
        rw [he, h1] at hu'
        cases hu'
      have hne2 : q ≠ q2 := fun he => by
        rw [he, h2] at hu'
        cases hu'
      rw [hv.same q hne2, hu.same q hne1]
      exact ht.moves q
  · refine permute_swap_commute ?_
    have hgone : ∀ q, (∀ st, v.qubits q = some st → st.mustFlush = true) → w.pendingMat q = 1 :=
        fun q hq => by
      rw [pendingMat, Flushed.gone (hw q) hq, entryMat]
    rw [hgone q1 fun st hst => hm1 st (by rw [← hv.same q1 hne]; exact hst), hgone q2 hm2]

theorem wp_ctlPhase_stands (henv : env.Granted) (h : Stands P ψ s) (hs : Clean s) (ha : Fixed PREC a) :
    Wp (fun _ => True) (Sized P) (ctlPhase env ctl a) s fun _ t =>
      Stands P (opOperator (ctl, .gphase a) ψ) t := by
  have hphase : ∀ (w : ℂ) (t : Simulator ℝ), Commute (w • 1) (tensor t.pendingMat) := fun w t =>
    commute_phase w _
  unfold ctlPhase
  split
  · rename_i hctl
    rw [show ctl = Control.always from Control.ext hctl]
    exact .pure (h.congr ((opOperator_always_gphase a).symm.apply ψ))
  · rename_i c hctl
    rw [show ctl = Control.single c.qubit c.value from Control.ext hctl]
    have hfix : Fixed PREC (if c.value then a else -a) := by
      split
      · exact ha
      · exact ha.neg
    refine (wp_u3_stands h (exactGate_rz hfix (h.pending c.qubit))).mono fun _ t ht => ht.congr ?_
    rw [U3.mat_rz]
    exact (opOperator_single_gphase c.qubit c.value a).symm.apply ψ
  · split
    · rename_i hpi
      rw [show a.round PREC = a from ha] at hpi
      subst hpi
      refine .bind (wp_preflushCtlH_stands henv h fun c _ => hs _) fun r t ⟨hr, ht⟩ => ?_
      rw [opOperator_PI]
      have hm := ht.moves
      split
      · rename_i q hq
        rw [hq] at hr hm
        have hfree : r.1.uses q = false := by
          rw [hr.2 q]
          simp
        exact wp_flush_push_stands henv ht.toStands hm (fun t _ => hphase _ t) (opOperator_x hfree)
          (fun _ he => by cases he) (fun k hk => hk.ctlX hfree) fun k => rfl
      · rename_i hq
        rw [hq] at hm
        exact wp_flush_push_stands henv ht.toStands hm (fun t _ => hphase _ t) opOperator_PI
          (fun _ he => by cases he; exact ha) (fun k hk => hk.ctlPhase) fun k => rfl
    · refine .bind (wp_preflushCtl_stands henv h fun c _ => hs _) fun ctl' t ⟨_, ht⟩ => ?_
      rw [opOperator_gphase]
      exact wp_flush_push_stands henv ht.toStands ht.moves (fun t _ => hphase _ t) (opOperator_gphase a)
        (fun _ he => by cases he; exact ha) (fun k hk => hk.ctlPhase) fun k => rfl

theorem wp_flush_stands (henv : env.Granted) (h : Stands P ψ s) (hs : Clean s) :
    Wp (fun _ => True) (Sized P) (flush env) s fun _ t => Stands P ψ t := by
  refine .bind_read (.bind (Wp.each (fun l t => Stands P ψ t ∧ l.Nodup ∧ ∀ q ∈ l, NoFlag (t.qubits q)) ?_
    ⟨h, (keys_nodup env .keys).filter _, fun q _ => hs q⟩) fun _ t ht => ?_)
  · rintro q l t ⟨ht, hnd, hclean⟩
    refine (wp_preflush_apply henv ht (hclean q (List.mem_cons_self ..))).mono fun _ u ⟨hu, _⟩ =>
      ⟨hu.toStands, hnd.of_cons, fun r hr => ?_⟩
    rw [hu.same r fun he => (List.nodup_cons.mp hnd).1 (he ▸ hr)]
    exact hclean r (List.mem_cons_of_mem _ hr)
  · exact (wp_innerFlush_stands henv ht.1).mono fun _ u hu => hu.1

end Simulator

/-! ## Runs -/

namespace Call

open Simulator

/-- The gates, and `flush`. -/
def IsGate : Call ℝ → Prop
  | u3 .. | ctlX .. | ctlSwap .. | ctlPhase .. | flush => True
  | _ => False

/-- What a gate means. -/
noncomputable def operator : Call ℝ → Operator Qubit
  | u3 q g => gate q g.mat
  | ctlX ctl q => opOperator (ctl, .x q)
  | ctlSwap ctl q1 q2 => opOperator (ctl, .swap q1 q2)
  | ctlPhase ctl a => opOperator (ctl, .gphase a)
  | _ => 1

/-- The arithmetic on the angles is exact. -/
def Exact (s : Simulator ℝ) : Call ℝ → Prop
  | u3 q g => ExactGate g (s.qubits q)
  | ctlPhase _ a => Fixed PREC a
  | _ => True

end Call

/-- The arithmetic is exact in every call of a run. -/
def ExactRun : List (Env × Call ℝ) → Simulator ℝ → Prop
  | [], _ => True
  | p :: calls, s => p.2.Exact s ∧ ∀ t, (p.2.run p.1).result s = .ok ((), t) → ExactRun calls t

/-- The gates one after the other. -/
noncomputable def eager : List (Env × Call ℝ) → Ket Qubit → Ket Qubit
  | [], ψ => ψ
  | p :: calls, ψ => eager calls (p.2.operator ψ)

namespace Simulator

variable {P : Prop} {ψ : Ket Qubit} {s : Simulator ℝ} {env : Env} {call : Call ℝ}

/-- Every gate does to the state what it means. -/
theorem wp_run_stands (henv : env.Granted) (h : Stands P ψ s) (hs : Clean s) (hg : call.IsGate)
    (hv : call.Valid) (he : call.Exact s) :
    Wp (fun _ => True) (Sized P) (call.run env) s fun _ t => Stands P (call.operator ψ) t := by
  cases call with
  | u3 q g => exact wp_u3_stands h he
  | ctlX ctl q => exact wp_ctlX_stands henv h hs hv
  | ctlSwap ctl q1 q2 => exact wp_ctlSwap_stands henv h hs hv.1 hv.2.1 hv.2.2
  | ctlPhase ctl a => exact wp_ctlPhase_stands henv h hs he
  | flush => exact wp_flush_stands henv h hs
  | measure q bias => exact hg.elim
  | qubitProbs q => exact hg.elim
  | trim => exact hg.elim
  | resetState => exact hg.elim
  | importDense values => exact hg.elim

/-- A panic has one of four reasons. -/
theorem no_panic {e : Panic} (hsized : Sized P e) (hdebug : NotDebug e) (hassert : NotAssertion e)
    (hrange : NotRange e) (hP : P) : False := by
  cases e with
  | assertion => exact hassert rfl
  | debugAssertion => exact hdebug rfl
  | bitIndex => exact hrange rfl
  | chunkSize => exact hsized hP rfl

/-- A gate returns, unless a size of the context is zero. -/
theorem wp_run_gate (henv : env.Granted) (h : Stands P ψ s) (hs : Clean s) (hg : call.IsGate)
    (hv : call.Valid) (he : call.Exact s) :
    Wp (fun _ => True) (fun _ => ¬ P) (call.run env) s fun _ t =>
      Stands P (call.operator ψ) t ∧ Clean t := by
  have hr : ¬ call.Restarts := fun hr => by
    cases call with
    | resetState => exact hg
    | importDense values => exact hg
    | _ => exact hr
  have hflags : Wp Flags NotDebug (call.run env) s fun _ t => Clean t := wp_run_flags hs call
  have hasserts : Wp (fun _ => True) NotAssertion (call.run env) s fun _ _ => True := wp_run_asserts hv hr
  have hrange : Wp InRange NotRange (call.run env) s fun _ t => InRange t :=
    wp_run_range h.range call selectOutcome_one_zero
  have hw := (((wp_run_stands henv h hs hg hv he).and hflags).and hasserts).and hrange
  exact hw.imp (fun _ _ => trivial) (fun e ⟨⟨⟨hsized, hdebug⟩, hassert⟩, hrange⟩ =>
    no_panic hsized hdebug hassert hrange) fun _ t ht => ht.1.1

theorem wp_runCalls_gates {calls : List (Env × Call ℝ)} (h : Stands P ψ s) (hs : Clean s)
    (hcalls : ∀ p ∈ calls, p.1.Granted ∧ p.2.IsGate ∧ p.2.Valid) (he : ExactRun calls s) :
    Wp (fun _ => True) (fun _ => ¬ P) (runCalls calls) s fun _ t =>
      Stands P (eager calls ψ) t ∧ Clean t := by
  induction calls generalizing s ψ with
  | nil => exact .pure ⟨h, hs⟩
  | cons p calls ih =>
    obtain ⟨henv, hg, hv⟩ := hcalls p (List.mem_cons_self ..)
    refine .bind (wp_run_gate henv h hs hg hv he.1).known fun _ t ⟨⟨ht, hc⟩, hr⟩ => ?_
    exact ih ht hc (fun r hr => hcalls r (List.mem_cons_of_mem _ hr)) (he.2 t hr)

/-- With nothing pending and nothing queued, the vector is the state. -/
theorem logical_of_empty (hq : ∀ q, s.qubits q = none) (hk : s.sfreeQueue.isEmpty = true) :
    s.logical = s.state.vec.toKet := by
  have hone : s.pendingMat = 1 := by
    funext q
    rw [pendingMat, hq q, entryMat, Pi.one_apply]
  rw [logical, hone, tensor_one, Module.End.one_apply, List.isEmpty_iff.mp hk, opsOperator,
    Module.End.one_apply]

/-- A vector with nothing queued and nothing pending. -/
theorem sound_unpending {ctx : Context} {v : AnyVector ℝ} {k : Queue} (hw : 0 < v.words)
    (hsmall : v.words ≤ 62) (hv : v.vec.Inv) (hk : k.Good) (he : k.ops = [])
    (hl : P → ctx.Positive ∧ v.vec.Nonzero) :
    Sound P ⟨ctx, v, k, fun _ => none⟩ ∧ Clean (⟨ctx, v, k, fun _ => none⟩ : Simulator ℝ) ∧
      (⟨ctx, v, k, fun _ => none⟩ : Simulator ℝ).logical = v.vec.toKet := by
  refine ⟨⟨⟨hw, fun p hp => (hv.partitioned p hp).1, hk⟩, hsmall, hv, nofun, fun _ hp => ?_, hl⟩, nofun,
    logical_of_empty (fun _ => rfl) (List.isEmpty_iff.mpr he)⟩
  exact absurd (he ▸ hp) List.not_mem_nil

/-- A new simulator stands for `|0...0>`. -/
theorem stands_new {ctx : Context} {sim : Simulator ℝ} (hnew : new ctx true = .ok sim) :
    Stands ctx.Positive (ket fun _ => false) sim ∧ Clean sim := by
  obtain ⟨v, hv, rfl, -, -⟩ := new_cases hnew
  obtain ⟨hs, hc, hlog⟩ := @sound_unpending ctx.Positive ctx ⟨_, v⟩ Queue.new (AnyVector.numWords_pos _)
    (AnyVector.numWords_le _) (Statevector.new_inv hv).2 Queue.good_new rfl fun hc => ⟨hc, new_nonzero hv⟩
  exact ⟨⟨hs, .of_eq (hlog.trans (Statevector.new_toKet hv))⟩, hc⟩

/-- Without a panic, a program has a result. -/
theorem returns_of_wp {α : Type} {m : Sim ℝ α} {I : Simulator ℝ → Prop} {E : Panic → Prop}
    {Q : α → Simulator ℝ → Prop} (h : Wp I E m s Q) (hE : ∀ e, E e → ¬ P) (hP : P) :
    ∃ a t, m.result s = .ok (a, t) := by
  cases hr : m.result s with
  | error e => exact absurd hP (hE e (h.fails e hr))
  | ok r => exact ⟨r.1, r.2, rfl⟩

theorem returns_unit {m : Sim ℝ Unit} (h : ∃ a t, m.result s = .ok (a, t)) :
    ∃ t, m.result s = .ok ((), t) := by
  obtain ⟨_, t, ht⟩ := h
  exact ⟨t, ht⟩

/-- Lazy simulation is eager simulation. For every list of gates and flushes, every order of the entries
and every choice of the samples, the simulator stands for the state that the gates make of `|0...0>` one
after the other, up to a phase. After a flush this state is in the vector. The calls return, unless a size
of the context is zero. -/
theorem lazy_eq_eager {ctx : Context} {sim : Simulator ℝ} (hnew : new ctx true = .ok sim)
    {calls : List (Env × Call ℝ)} (hcalls : ∀ p ∈ calls, p.1.Granted ∧ p.2.IsGate ∧ p.2.Valid)
    (hexact : ExactRun calls sim) :
    (ctx.Positive → ∃ t, (runCalls calls).result sim = .ok ((), t)) ∧
    ∀ t, (runCalls calls).result sim = .ok ((), t) →
      UpToPhase t.logical (eager calls (ket fun _ => false)) ∧
      ∀ env : Env, env.Granted → (ctx.Positive → ∃ u, (flush env).result t = .ok ((), u)) ∧
        ∀ u, (flush env).result t = .ok ((), u) →
          (∀ q, u.qubits q = none) ∧ u.sfreeQueue.isEmpty = true ∧
          UpToPhase u.state.vec.toKet (eager calls (ket fun _ => false)) := by
  obtain ⟨h0, hc0⟩ := stands_new hnew
  have hw := wp_runCalls_gates h0 hc0 hcalls hexact
  refine ⟨fun hP => returns_unit (returns_of_wp hw (fun _ he => he) hP), fun t ht => ?_⟩
  obtain ⟨hst, hct⟩ := hw.ends () t ht
  refine ⟨hst.logical, fun env henv => ?_⟩
  have hflush := @wp_run_gate _ _ _ env .flush henv hst hct trivial trivial trivial
  refine ⟨fun hP => returns_unit (returns_of_wp hflush (fun _ he => he) hP), fun u hu => ?_⟩
  obtain ⟨hq, hk⟩ := Wp.ends (wp_flush_flags hct) () u hu
  refine ⟨hq, hk, ?_⟩
  rw [← logical_of_empty hq hk]
  exact (hflush.ends () u hu).1.logical

/-- A Bell pair. -/
theorem lazy_eq_eager_bell : ∃ sim t : Simulator ℝ, new Context.default true = .ok sim ∧
    (runCalls [(Env.default, .u3 0 U3.H), (Env.default, .ctlX (Control.single 0 true) 1)]).result sim =
      .ok ((), t) ∧
    UpToPhase t.logical (opOperator (Control.single 0 true, .x 1) (gate 0 U3.H.mat (ket fun _ => false))) := by
  have hnew : new Context.default true = .ok
      (newWithState Context.default ⟨1, some 0, [⟨BitSet.empty, ⟨1, 0⟩⟩], []⟩ : Simulator ℝ) := rfl
  have h := @lazy_eq_eager _ _ hnew
    [(Env.default, .u3 0 U3.H), (Env.default, .ctlX (Control.single 0 true) 1)] (fun p hp => by
      simp only [List.mem_cons, List.not_mem_nil, or_false] at hp
      rcases hp with rfl | rfl
      · exact ⟨fun _ _ _ => rfl, trivial, trivial⟩
      · exact ⟨fun _ _ _ => rfl, trivial, rfl⟩)
    ⟨⟨by decide, by decide, by decide⟩, fun _ _ => ⟨trivial, fun _ _ => trivial⟩⟩
  obtain ⟨t, ht⟩ := h.1 Context.default_positive
  exact ⟨_, t, hnew, ht, (h.2 t ht).1⟩

end Simulator

end Qblaze
