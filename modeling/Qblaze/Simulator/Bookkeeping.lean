import Qblaze.Simulator.Rules
import Qblaze.Rotation
import Qblaze.Exact

/-!
# The flags of the pending gates

`_preflush` marks the entry of a qubit: `must_flush` if its gate has to be applied, `is_reordered` if
the new gate was moved past it. `_flush` applies the gates of the first kind and clears the marks.

* `wp_preflush_flags`: an entry without marks gets at most one of them.
* `wp_innerFlush_flags`: after `_flush` no entry has a mark, and the entries that had to be applied are
  gone.
* `bookkeeping`: over all runs.
-/

namespace Qblaze

open Lib.Run

namespace U3

variable {g : U3}

theorem toCxRz_eq_none : g.toCxRz PREC = none ↔ g.isSfree PREC = false := by
  unfold toCxRz isSfree
  simp only
  split
  · rename_i h
    simp [h]
  split
  · rename_i h
    simp [h]
  · rename_i h h'
    simp [h, h']

theorem new_theta (a b c : Angle) : (new a b c).theta = a ∨ (new a b c).theta = -a := by
  unfold new
  split
  · exact .inl rfl
  split
  · exact .inl rfl
  split
  · exact .inr rfl
  · exact .inl rfl

/-- The rx part of a gate is no superposition-free gate if the gate is none. -/
theorem isSfree_rx {rz rx : Angle} (h : g.isSfree PREC = false) (hr : g.toRzRx PREC = some (rz, rx)) :
    (U3.rx rx).isSfree PREC = false := by
  unfold isSfree PREC at h
  simp only [Bool.or_eq_false_iff, decide_eq_false_iff_not] at h
  obtain ⟨hz, hp⟩ := h
  have hrx : rx = g.theta ∨ rx = -g.theta := by
    unfold toRzRx PREC at hr
    simp only [hz, hp, if_false] at hr
    split at hr
    · exact .inl (congrArg Prod.snd (Option.some.inj hr)).symm
    split at hr
    · exact .inr (congrArg Prod.snd (Option.some.inj hr)).symm
    · cases hr
  have hrx' : rx.round 32 ≠ Angle.ZERO ∧ rx.round 32 ≠ Angle.PI := by
    rcases hrx with rfl | rfl
    · exact ⟨hz, hp⟩
    · exact ⟨fun h => hz (Angle.round_32_neg_eq_ZERO.mp h), fun h => hp (Angle.round_32_neg_eq_PI.mp h)⟩
  unfold isSfree PREC
  simp only [Bool.or_eq_false_iff, decide_eq_false_iff_not]
  rcases new_theta rx Angle.PI_3_2 Angle.PI_1_2 with ht | ht
  · rw [U3.rx, ht]
    exact hrx'
  · rw [U3.rx, ht, Angle.round_32_neg_eq_ZERO, Angle.round_32_neg_eq_PI]
    exact hrx'

end U3

namespace Simulator

section

variable {F : Type} {s t : Simulator F} {q : Qubit}

/-- At most one mark. -/
def OneFlag (e : Option QubitState) : Prop :=
  ∀ st, e = some st → ¬ (st.mustFlush = true ∧ st.isReordered = true)

/-- No mark. -/
def NoFlag (e : Option QubitState) : Prop :=
  ∀ st, e = some st → st.mustFlush = false ∧ st.isReordered = false

theorem NoFlag.one {e : Option QubitState} (h : NoFlag e) : OneFlag e := by
  rintro st hst ⟨hm, -⟩
  rw [(h st hst).1] at hm
  cases hm

theorem oneFlag_none : OneFlag none := fun _ h => nomatch h

theorem oneFlag_some {st : QubitState} (h : ¬ (st.mustFlush = true ∧ st.isReordered = true)) :
    OneFlag (some st) := by
  rintro _ hst
  cases hst
  exact h

/-- The entries have at most one mark each, and only that of `q` changed. -/
structure Flagged (q : Qubit) (s t : Simulator F) : Prop where
  one : ∀ r, OneFlag (t.qubits r)
  same : ∀ r, r ≠ q → t.qubits r = s.qubits r

theorem Flagged.refl (h : ∀ r, OneFlag (s.qubits r)) : Flagged q s s := ⟨h, fun _ _ => rfl⟩

theorem Flagged.entry (h : Flagged q s t) {e : Option QubitState} (he : OneFlag e) :
    Flagged q s (t.withEntry q e) where
  one := forall_withEntry (P := fun _ e => OneFlag e) (fun r _ => h.one r) he
  same r hr := by rw [withEntry_of_ne hr, h.same r hr]

theorem Flagged.state (h : Flagged q s t) {v : AnyVector F} : Flagged q s (t.withState v) :=
  ⟨h.one, h.same⟩

theorem Flagged.queue (h : Flagged q s t) {k : Queue} : Flagged q s (t.withQueue k) :=
  ⟨h.one, h.same⟩

/-- The panics other than those of a debug assertion. -/
def NotDebug (e : Panic) : Prop := e ≠ .debugAssertion

theorem notDebug_ite (b : Bool) : NotDebug (if b then .chunkSize else .bitIndex) := by
  cases b <;> exact nofun

end

variable {F R : Type} {s t : Simulator F} {q : Qubit} {p : Preflush R} {env : Env} {st : QubitState}

/-- The entries have at most one mark each. -/
def Flags (s : Simulator F) : Prop := ∀ r, OneFlag (s.qubits r)

/-- An entry that keeps its marks, or is removed. -/
def SameFlags (e e' : Option QubitState) : Prop :=
  ∀ st', e' = some st' → ∃ st, e = some st ∧ st'.mustFlush = st.mustFlush ∧
    st'.isReordered = st.isReordered

/-- An entry that loses its marks, or is removed. It has to be removed if its gate is to be applied. -/
def Settled (e e' : Option QubitState) : Prop :=
  ∀ st', e' = some st' → (st'.mustFlush = false ∧ st'.isReordered = false) ∧
    ∃ st, e = some st ∧ st.mustFlush = false

theorem SameFlags.one {e e' : Option QubitState} (h : SameFlags e e') (he : OneFlag e) :
    OneFlag e' := by
  rintro st' hst' ⟨hm, hr⟩
  obtain ⟨st, hst, hm', hr'⟩ := h st' hst'
  exact he st hst ⟨hm'.symm.trans hm, hr'.symm.trans hr⟩

theorem sameFlags_none {e : Option QubitState} : SameFlags e none := fun _ h => nomatch h

/-- A pass that keeps the marks. -/
theorem wp_retain_flags {visit : Qubit → QubitState → Sim F (Option QubitState)} {s0 : Simulator F}
    (h0 : Flags s0) {site : Site}
    (hvisit : ∀ q s st, Flags s → Wp Flags NotDebug (visit q st) s fun e t =>
      t.qubits = s.qubits ∧ SameFlags (some st) e)
    (hs : ∀ q, SameFlags (s0.qubits q) (s.qubits q)) :
    Wp Flags NotDebug (retain visit (env.keys site)) s fun _ t =>
      Flags t ∧ ∀ q, SameFlags (s0.qubits q) (t.qubits q) := by
  refine wp_retain_local (A := fun q e => SameFlags (s0.qubits q) e) (fun q h => h) (fun q s st hf hA hq => ?_)
    (keys_nodup env site) (mem_keys env site) (fun q => (hs q).one (h0 q)) hs
  refine (hvisit q s st hf).mono fun e t ⟨ht, he⟩ => ?_
  have hB : SameFlags (s0.qubits q) e := by
    intro st' hst'
    obtain ⟨st1, h1, hm1, hr1⟩ := he st' hst'
    obtain ⟨st0, h0, hm0, hr0⟩ := hA st1 h1
    exact ⟨st0, h0, hm1.trans hm0, hr1.trans hr0⟩
  have hflags : Flags (t.withEntry q e) :=
    forall_withEntry (P := fun _ e => OneFlag e) (fun r _ => ht ▸ hf r) (hB.one (h0 q))
  exact ⟨ht, hB, hflags, hflags⟩

theorem wp_preflushSfree_flags (h : Flagged q s t) {isX : Bool} {rz : Angle} :
    Wp (Flagged q s) NotDebug (preflushSfree p q isX rz) t fun _ t => Flagged q s t := by
  unfold preflushSfree
  split
  · exact .pure h
  · refine .bind (Q := fun _ t => Flagged q s t) (.when (fun _ => ?_) fun _ => h) fun _ t h => ?_
    · exact .change h.queue h.queue
    · split
      · split
        · exact .pure h
        · exact wp_pushRz h.queue (wp_setEntry (h.queue.entry oneFlag_none)
            (.pure (h.queue.entry oneFlag_none)))
      · have h' := h.entry oneFlag_none
        exact wp_setEntry h' (.pure h')

variable [Field F]

theorem wp_ensureQubit_flags (hs : Flags s) :
    Wp Flags NotDebug (ensureQubit env q) s fun _ t => t.qubits = s.qubits := by
  refine .bind_read ?_
  split
  · exact .pure rfl
  · obtain ⟨v, -, hnew⟩ := @AnyVector.new_ok F _ (env.alloc .grow q 0) q
    rw [hnew]
    refine .bind_ofExcept (fun e he => nomatch he) fun w _ => ?_
    refine .bind_ofExcept (fun e he => ?_) fun w _ => .change hs rfl
    rw [AnyVector.importFrom_error he]
    exact notDebug_ite _

/-- Without entries and without a queue, `clone_flushed` asserts nothing that fails. -/
theorem cloneFlushed_asserts (hq : ∀ q, s.qubits q = none) (hqueue : s.sfreeQueue.isEmpty = true)
    (alloc : Nat → Bool) : (cloneFlushed alloc).result s ≠ .error .assertion := by
  have hentries : s.entries = [] := by
    unfold entries
    rw [List.filterMap_eq_nil_iff]
    intro q _
    rw [hq]
    rfl
  have h : Wp (fun _ => True) (fun e => e ≠ .assertion) (cloneFlushed alloc) s fun _ _ => True := by
    refine .bind_read ?_
    rw [if_neg (by simp [hqueue, hentries])]
    refine .bind_ofExcept (fun e he => ?_) fun _ _ => .pure trivial
    unfold AnyVector.dynClone at he
    cases hv : checked (decide (0 < s.state.words))
        (Statevector.new s.state.words (alloc 0) : Option (Statevector _ F)) with
    | error e' =>
      rw [hv] at he
      cases he
      rw [(checked_error hv).2]
      split <;> exact nofun
    | ok v =>
      rw [hv] at he
      rw [AnyVector.importFrom_error he]
      split <;> exact nofun
  exact fun he => h.fails _ he rfl

variable [LinearOrder F] [Scalar F]

/-- An entry without marks gets one of them, or none. -/
theorem wp_preflushMatch_flags (h : Flagged q s t) (hst : NoFlag (some st))
    (hg : st.pending.isSfree PREC = false) :
    Wp (Flagged q s) NotDebug (preflushMatch p q st) t fun _ t => Flagged q s t := by
  obtain ⟨hm, hr⟩ := hst st rfl
  have hreorder : ∀ g b, OneFlag (some { st with isReordered := b, pending := g }) := fun g b =>
    oneFlag_some (by simp [hm])
  have hmust : OneFlag (some { st with mustFlush := true }) := oneFlag_some (by simp [hr])
  have hflush : Wp (Flagged q s) NotDebug
      (do setEntry q (some { st with mustFlush := true }); return p.fromId) t
      fun _ t => Flagged q s t := wp_setEntry (h.entry hmust) (.pure (h.entry hmust))
  have h1 : Flagged q s (t.withEntry q (some { st with isReordered := true })) :=
    h.entry (hreorder st.pending true)
  unfold preflushMatch
  split
  · rename_i rz rx r hrz hp
    split
    · have h2 := h.queue (k := t.sfreeQueue.ctlPhase (Control.single q true) rz)
      have h3 := h2.entry (hreorder st.pending true)
      have h4 := h3.entry (hreorder (U3.rx rx) true)
      refine wp_pushRz h2 (wp_setEntry h3 (wp_setEntry h4 ?_))
      rw [if_neg (by rw [U3.isSfree_rx hg hrz]; decide)]
      exact .pure h4
    · exact .pure h
  · split
    · exact hflush
    split
    · refine wp_setEntry h1 ?_
      split
      · exact wp_pushRz h1.queue (wp_setEntry (h1.queue.entry (hreorder _ true))
          (.pure (h1.queue.entry (hreorder _ true))))
      · exact .pure h1
    split
    · exact wp_setEntry h1 (.pure h1)
    split
    · exact wp_setEntry h1 (.pure h1)
    · exact hflush

variable [Eps F]

theorem wp_maybeEagerFlush_flags (h : Flagged q s t) {site : Site} {r : Qubit} {gate : U3} :
    Wp (Flagged q s) NotDebug (maybeEagerFlush env site r gate) t fun _ t => Flagged q s t := by
  refine wp_maybeEagerFlush h (fun v _ _ _ => ⟨h.state, h.state⟩) fun e _ _ he => ?_
  rw [AnyVector.eager_error he]
  exact notDebug_ite _

/-- `_preflush` of an entry without marks. -/
theorem wp_preflush_flags (h : ∀ r, OneFlag (s.qubits r)) (hq : NoFlag (s.qubits q)) :
    Wp (Flagged q s) NotDebug (preflush p env q) s fun _ t => Flagged q s t := by
  have h := Flagged.refl (q := q) h
  refine .bind_read ?_
  split
  · exact .pure h
  · rename_i st hst
    rw [hst] at hq
    split
    · exact wp_preflushSfree_flags h
    · rename_i hg
      rw [U3.toCxRz_eq_none] at hg
      rw [if_neg (by rw [hg]; decide)]
      split
      · refine .bind (wp_maybeEagerFlush_flags h) fun flushed t h => ?_
        split
        · exact wp_setEntry (h.entry oneFlag_none) (.pure (h.entry oneFlag_none))
        · have hst' : NoFlag (some { st with maybeDestructive := false }) := by
            rintro _ he
            cases he
            exact hq st rfl
          exact wp_setEntry (h.entry hst'.one)
            (wp_preflushMatch_flags (h.entry hst'.one) hst' hg)
      · exact wp_preflushMatch_flags h hq hg

/-! ## `_flush` -/

theorem wp_visitEager_flags (hs : Flags s) {site : Site} :
    Wp Flags NotDebug (visitEager env site q st) s fun e t =>
      t.qubits = s.qubits ∧ SameFlags (some st) e := by
  have hst : ∀ b, SameFlags (some st) (some { st with maybeDestructive := b }) := by
    rintro b _ he
    cases he
    exact ⟨st, rfl, rfl, rfl⟩
  refine .bind (Q := fun _ t => t.qubits = s.qubits) ?_ fun flushed t ht => .pure ⟨ht, ?_⟩
  · refine wp_maybeEagerFlush rfl (fun v _ _ _ => ⟨hs, rfl⟩) fun e _ _ he => ?_
    rw [AnyVector.eager_error he]
    exact notDebug_ite _
  · cases flushed with
    | true => exact sameFlags_none
    | false => exact hst false

theorem wp_visitFirst_flags (hs : Flags s) :
    Wp Flags NotDebug (visitFirst env q st) s fun e t =>
      t.qubits = s.qubits ∧ SameFlags (some st) e := by
  have hst : ∀ b, SameFlags (some st) (some { st with maybeDestructive := b }) := by
    rintro b _ he
    cases he
    exact ⟨st, rfl, rfl, rfl⟩
  refine .bind_read ?_
  split
  · exact .pure ⟨rfl, hst _⟩
  split
  · exact .pure ⟨rfl, hst _⟩
  split
  · exact .pure ⟨rfl, hst _⟩
  · exact wp_visitEager_flags hs

theorem wp_visitSecond_flags (hs : Flags s) :
    Wp Flags NotDebug (visitSecond env q st) s fun e t =>
      t.qubits = s.qubits ∧ SameFlags (some st) e := by
  unfold visitSecond
  split
  · exact .pure ⟨rfl, fun st' he => ⟨st', he, rfl, rfl⟩⟩
  · exact wp_visitEager_flags hs

/-- The third pass. -/
theorem wp_third_flags {s0 : Simulator F} (h0 : Flags s0)
    (hs : ∀ q, SameFlags (s0.qubits q) (s.qubits q)) :
    Wp Flags NotDebug (retain (visitThird env) (env.keys .third)) s fun _ t =>
      ∀ q, Settled (s0.qubits q) (t.qubits q) := by
  have hone : ∀ {e e'}, Settled e e' → OneFlag e' := fun h st' hst' ⟨hm, _⟩ => by
    rw [(h st' hst').1.1] at hm
    cases hm
  refine Wp.mono (wp_retain_local (A := fun q e => SameFlags (s0.qubits q) e)
    (B := fun q e => Settled (s0.qubits q) e) (K := Flags) (fun q _ => fun _ h => nomatch h)
    (fun q s st hf hA hq => ?_) (keys_nodup env .third) (mem_keys env .third)
    (fun q => (hs q).one (h0 q)) hs) fun _ t ht => ht.2
  have hend : ∀ e (t : Simulator F), t.qubits = s.qubits → Settled (s0.qubits q) e → t.qubits = s.qubits ∧
      Settled (s0.qubits q) e ∧ Flags (t.withEntry q e) ∧ Flags (t.withEntry q e) := by
    intro e t ht he
    have hflags : Flags (t.withEntry q e) :=
      forall_withEntry (P := fun _ e => OneFlag e) (fun r _ => ht ▸ hf r) (hone he)
    exact ⟨ht, he, hflags, hflags⟩
  obtain ⟨st0, hst0, hm, -⟩ := hA st rfl
  unfold visitThird
  split
  · rename_i hmust
    rw [Bool.not_eq_true'] at hmust
    refine .pure (hend _ _ rfl ?_)
    rintro _ he
    cases he
    exact ⟨⟨hmust, rfl⟩, st0, hst0, hm ▸ hmust⟩
  · rename_i hmust
    rw [Bool.not_eq_true', Bool.not_eq_false] at hmust
    split
    · rename_i hr
      exact absurd ⟨hmust, hr⟩ (hf q st hq)
    · refine .bind_read (.bind_ofExcept (fun e he => ?_) fun v _ => ?_)
      · rw [(AnyVector.performU4_error he).2]
        exact notDebug_ite _
      · exact wp_setState hf (.pure (hend _ _ rfl fun _ h => nomatch h))

/-- `_flush` clears the marks and removes the entries that had to be applied. -/
theorem wp_innerFlush_flags (hs : Flags s) {alsoSfree : Bool} :
    Wp Flags NotDebug (innerFlush env alsoSfree) s fun _ t =>
      ∀ q, Settled (s.qubits q) (t.qubits q) := by
  have hrefl : ∀ q, SameFlags (s.qubits q) (s.qubits q) := fun q st hst => ⟨st, hst, rfl, rfl⟩
  refine .bind_read (.bind (wp_retain_flags hs (fun _ _ _ => wp_visitFirst_flags) hrefl) ?_)
  rintro _ t ⟨hft, ht⟩
  refine .bind_read (.bind (wp_ensureQubit_flags hft) ?_)
  intro _ u hu
  have hfu : Flags u := fun q => hu ▸ hft q
  refine .bind (Q := fun _ v => ∀ q, SameFlags (s.qubits q) (v.qubits q)) ?_ fun _ v hv =>
    wp_third_flags hs hv
  have hsu : ∀ q, SameFlags (s.qubits q) (u.qubits q) := fun q => hu ▸ ht q
  refine .when (fun _ => ?_) fun _ => hsu
  refine .bind_read (.bind_ofExcept (fun e he => ?_) fun v _ => ?_)
  · rw [(AnyVector.performSfree_error he).2]
    exact notDebug_ite _
  · refine wp_setState hfu (wp_setQueue hfu ?_)
    refine Wp.mono (wp_retain_flags hs (fun _ _ _ => wp_visitSecond_flags) ?_) fun _ t ht => ht.2
    exact hsu

/-! ## Calls -/

/-- No entry has a mark, as it is between the calls. -/
def Clean (s : Simulator F) : Prop := ∀ r, NoFlag (s.qubits r)

omit [Field F] [LinearOrder F] [Eps F] [Scalar F] in
theorem Clean.flags (h : Clean s) : Flags s := fun r => (h r).one

theorem Settled.clean {e e' : Option QubitState} (h : Settled e e') : NoFlag e' :=
  fun st hst => (h st hst).1

theorem wp_innerFlush_clean (hs : Flags s) {alsoSfree : Bool} :
    Wp Flags NotDebug (innerFlush env alsoSfree) s fun _ t => Clean t :=
  (wp_innerFlush_flags hs).mono fun _ _ ht r => (ht r).clean

/-- `_preflush` as a part of a call. -/
theorem wp_preflush_bind {α : Type} {f : R → Sim F α} {Q : α → Simulator F → Prop} (hs : Flags s)
    (hq : NoFlag (s.qubits q))
    (hf : ∀ r t, Flags t → (∀ r, r ≠ q → t.qubits r = s.qubits r) → Wp Flags NotDebug (f r) t Q) :
    Wp Flags NotDebug (preflush p env q >>= f) s Q :=
  .bind ((wp_preflush_flags hs hq).imp (fun _ h => h.one) (fun _ h => h) fun _ _ h => h)
    fun r t ht => hf r t ht.one ht.same

/-- The entries of the qubits of a list have no marks. -/
def CleanOn (items : List ControlItem) (s : Simulator F) : Prop :=
  ∀ c ∈ items, NoFlag (s.qubits c.qubit)

/-- The entries of the other qubits did not change. -/
def SameOff (items : List ControlItem) (s t : Simulator F) : Prop :=
  ∀ r, (∀ c ∈ items, c.qubit ≠ r) → t.qubits r = s.qubits r

section

variable {c : ControlItem} {l : List ControlItem}

omit [Field F] [LinearOrder F] [Eps F] [Scalar F] in
/-- The items after the first one, when the entry of the first one changed. -/
theorem CleanOn.tail (h : CleanOn (c :: l) s) (ho : Ordered (c :: l))
    (ht : ∀ r, r ≠ c.qubit → t.qubits r = s.qubits r) : CleanOn l t := by
  intro d hd
  rw [ht d.qubit (List.rel_of_pairwise_cons ho hd).ne']
  exact h d (List.mem_cons_of_mem _ hd)

omit [Field F] [LinearOrder F] [Eps F] [Scalar F] in
theorem SameOff.cons {u : Simulator F} (ht : ∀ r, r ≠ c.qubit → t.qubits r = s.qubits r)
    (h : SameOff l t u) : SameOff (c :: l) s u := by
  intro r hr
  rw [h r fun d hd => hr d (List.mem_cons_of_mem _ hd), ht r (hr c (List.mem_cons_self ..)).symm]

theorem wp_preflushItems_flags (ho : Ordered l) (hs : Flags s) (hc : CleanOn l s) :
    Wp Flags NotDebug (preflushItems env l) s fun _ t => Flags t ∧ SameOff l s t := by
  induction l generalizing s with
  | nil => exact .pure ⟨hs, fun _ _ => rfl⟩
  | cons c l ih =>
    refine wp_preflush_bind hs (hc c (List.mem_cons_self ..)) fun _ t hft ht => ?_
    refine .bind (ih ho.of_cons hft (hc.tail ho ht)) fun _ u hu => .pure ⟨hu.1, hu.2.cons ht⟩

theorem wp_preflushItemsH_flags (ho : Ordered l) (hs : Flags s) (hc : CleanOn l s) :
    Wp Flags NotDebug (preflushItemsH env l) s fun _ t => Flags t ∧ SameOff l s t := by
  induction l generalizing s with
  | nil => exact .pure ⟨hs, fun _ _ => rfl⟩
  | cons c l ih =>
    have hq := hc c (List.mem_cons_self ..)
    unfold preflushItemsH
    split
    · refine wp_preflush_bind hs hq fun _ t hft ht => ?_
      exact .bind (ih ho.of_cons hft (hc.tail ho ht)) fun _ u hu => .pure ⟨hu.1, hu.2.cons ht⟩
    · refine wp_preflush_bind hs hq fun m t hft ht => ?_
      have hi := ih ho.of_cons hft (hc.tail ho ht)
      cases m with
      | normal => exact .bind hi fun _ u hu => .pure ⟨hu.1, hu.2.cons ht⟩
      | invert => exact .bind hi fun _ u hu => .pure ⟨hu.1, hu.2.cons ht⟩
      | hadamard =>
        exact .bind (wp_preflushItems_flags ho.of_cons hft (hc.tail ho ht)) fun _ u hu =>
          .pure ⟨hu.1, hu.2.cons ht⟩

end

variable {ctl : Control}

theorem wp_preflushCtl_flags (hs : Flags s) (hc : CleanOn ctl.items s) :
    Wp Flags NotDebug (preflushCtl env ctl) s fun _ t => Flags t ∧ SameOff ctl.items s t := by
  refine .bind (wp_preflushItems_flags ctl.ordered hs hc) fun _ t ht => ?_
  exact wp_orPanic (fun _ => nofun) fun _ _ => ht

theorem wp_preflushCtlH_flags (hs : Flags s) (hc : CleanOn ctl.items s) :
    Wp Flags NotDebug (preflushCtlH env ctl) s fun _ t => Flags t ∧ SameOff ctl.items s t := by
  refine .bind (wp_preflushItemsH_flags ctl.ordered hs hc) fun _ t ht => ?_
  exact wp_orPanic_bind (fun _ => nofun) fun _ _ => .pure ht

/-- `_flush` and a new operation. -/
theorem wp_flush_push (hs : Flags s) {g : Queue → Queue} :
    Wp Flags NotDebug (do innerFlush env false; setQueue g) s fun _ t => Clean t :=
  .bind (wp_innerFlush_clean hs) fun _ _ ht => .change ht.flags ht

omit [Eps F] in
theorem wp_u3_flags (hs : Clean s) {gate : U3} :
    Wp Flags NotDebug (u3 q gate) s fun _ t => Clean t := by
  have hset : ∀ st : QubitState, NoFlag (some st) → Clean (s.withEntry q (some st)) := fun st h =>
    forall_withEntry (P := fun _ e => NoFlag e) (fun r _ => hs r) h
  refine .bind_read ?_
  split
  · rename_i st hst
    have h := hset { st with pending := U3.compose F st.pending gate, maybeDestructive := true } (by
      rintro _ he
      cases he
      exact hs q st hst)
    exact .change h.flags h
  · have h := hset ⟨gate, true, false, false⟩ (by
      rintro _ he
      cases he
      exact ⟨rfl, rfl⟩)
    exact .change h.flags h

theorem wp_ctlX_flags (hs : Clean s) : Wp Flags NotDebug (ctlX env ctl q) s fun _ t => Clean t := by
  unfold ctlX
  split
  · exact wp_u3_flags hs
  split
  · exact .fail nofun
  · rename_i hu
    rw [Bool.not_eq_true, Control.not_uses_iff] at hu
    refine wp_preflush_bind hs.flags (hs q) fun isH t hft ht => ?_
    have hc : CleanOn ctl.items t := fun c hc => by
      rw [ht _ (hu c hc)]
      exact hs _
    split
    · refine .bind (wp_preflushCtlH_flags hft hc) fun r u hu => ?_
      refine wp_orPanic_bind (fun _ => nofun) fun ctl' _ => ?_
      split
      · exact wp_flush_push hu.1
      · exact wp_flush_push hu.1
    · exact .bind (wp_preflushCtl_flags hft hc) fun r u hu => wp_flush_push hu.1

theorem wp_ctlSwap_flags (hs : Clean s) {q1 q2 : Qubit} :
    Wp Flags NotDebug (ctlSwap env ctl q1 q2) s fun _ t => Clean t := by
  unfold ctlSwap
  split
  · exact .fail nofun
  · rename_i h
    push Not at h
    obtain ⟨h1, h2, h12⟩ := h
    rw [Ne, Bool.not_eq_true, Control.not_uses_iff] at h1 h2
    refine .bind (wp_preflushCtl_flags hs.flags fun c _ => hs _) fun ctl' t ⟨hft, ht⟩ => ?_
    refine wp_preflush_bind hft (by rw [ht q1 h1]; exact hs q1) fun _ u hfu hu => ?_
    refine wp_preflush_bind hfu (by rw [hu q2 (Ne.symm h12), ht q2 h2]; exact hs q2) fun _ v hfv _ => ?_
    exact wp_flush_push hfv

theorem wp_ctlPhase_flags (hs : Clean s) {a : Angle} :
    Wp Flags NotDebug (ctlPhase env ctl a) s fun _ t => Clean t := by
  unfold ctlPhase
  split
  · exact .pure hs
  · exact wp_u3_flags hs
  · split
    · refine .bind (wp_preflushCtlH_flags hs.flags fun c _ => hs _) fun r t ht => ?_
      split
      · exact wp_flush_push ht.1
      · exact wp_flush_push ht.1
    · exact .bind (wp_preflushCtl_flags hs.flags fun c _ => hs _) fun r t ht => wp_flush_push ht.1

theorem wp_premeasure_flags (hs : Clean s) :
    Wp Flags NotDebug (premeasure env q) s fun _ t => Clean t := by
  refine wp_preflush_bind hs.flags (hs q) fun invert t hft _ => ?_
  refine .bind_read (.bind (wp_innerFlush_clean hft) fun _ u hu => .bind_read ?_)
  split
  · exact .pure hu
  · refine .bind_ofExcept (fun e he => ?_) fun r _ => .pure hu
    rw [(AnyVector.premeasure_error he).2]
    exact notDebug_ite _

theorem wp_measure_flags (hs : Clean s) {bias : BitVec 64} :
    Wp Flags NotDebug (measure env q bias) s fun _ t => Clean t := by
  refine .bind (wp_premeasure_flags hs) fun r t ht => ?_
  split
  · exact .pure ht
  · refine .bind (Q := fun _ t => Clean t) ?_ fun _ u hu => .pure hu
    refine wp_collapse (fun _ => ht) (fun _ w _ => ⟨ht.flags, ht⟩) fun _ e he => ?_
    rw [(AnyVector.measure_error he).2]
    exact notDebug_ite _

theorem wp_qubitProbs_flags (hs : Clean s) :
    Wp Flags NotDebug (qubitProbs env q) s fun _ t => Clean t := wp_qubitProbs (wp_premeasure_flags hs)

/-- A gate that `PreflushI` leaves has to be applied. -/
theorem wp_preflush_must : Wp (fun _ => True) (fun _ => True) (preflush Preflush.i env q) s
    fun _ t => ∀ st, t.qubits q = some st → st.mustFlush = true := by
  have hgone : ∀ t : Simulator F, ∀ st, (t.withEntry q none).qubits q = some st →
      st.mustFlush = true := fun t st h => by
    rw [withEntry_same] at h
    cases h
  have hmatch : ∀ (t : Simulator F) (st : QubitState), Wp (fun _ => True) (fun _ => True)
      (preflushMatch Preflush.i q st) t fun _ t => ∀ st, t.qubits q = some st → st.mustFlush = true := by
    intro t st
    have hmust : ∀ st', (t.withEntry q (some { st with mustFlush := true })).qubits q = some st' →
        st'.mustFlush = true := fun st' h => by
      rw [withEntry_same] at h
      cases h
      rfl
    have hi : ∀ {c : Prop} [Decidable c] {r : Unit}, (if c then none else none) ≠ some r := by
      intro c _ r h
      rw [ite_self] at h
      cases h
    unfold preflushMatch
    split
    · rename_i h
      cases h
    split
    · exact wp_setEntry trivial (.pure hmust)
    split
    · rename_i h
      cases h
    split
    · rename_i h
      exact absurd h hi
    split
    · rename_i h
      exact absurd h hi
    · exact wp_setEntry trivial (.pure hmust)
  refine .bind_read ?_
  split
  · rename_i h
    refine .pure fun st hst => ?_
    rw [h] at hst
    cases hst
  split
  · unfold preflushSfree
    simp only [Preflush.i, ite_self]
    refine .bind (Q := fun _ _ => True) (.when (fun _ => .change trivial trivial) fun _ => trivial)
      fun _ t _ => ?_
    split
    · exact wp_pushRz trivial (wp_setEntry trivial (.pure (hgone _)))
    · exact wp_setEntry trivial (.pure (hgone _))
  · split
    · exact .fail trivial
    split
    · refine .bind (Q := fun _ _ => True) (wp_maybeEagerFlush trivial
        (fun _ _ _ _ => ⟨trivial, trivial⟩) fun _ _ _ _ => trivial) fun flushed t _ => ?_
      split
      · exact wp_setEntry trivial (.pure (hgone t))
      · exact wp_setEntry trivial (hmatch _ _)
    · exact hmatch _ _

/-- `flush` leaves nothing. -/
theorem wp_flush_flags (hs : Clean s) : Wp Flags NotDebug (flush env) s fun _ t =>
    (∀ q, t.qubits q = none) ∧ t.sfreeQueue.isEmpty = true := by
  refine .bind_read (.bind (Wp.each (fun l t => Flags t ∧ l.Nodup ∧ (∀ q ∈ l, NoFlag (t.qubits q)) ∧
    ∀ q, q ∉ l → ∀ st, t.qubits q = some st → st.mustFlush = true) ?_
    ⟨hs.flags, (keys_nodup env .keys).filter _, fun q _ => hs q, fun q hq st hst => ?_⟩) ?_)
  · rintro q l t ⟨hft, hnd, hclean, hmust⟩
    have hflags : Wp (Flagged q t) NotDebug (preflush Preflush.i env q) t fun _ u => Flagged q t u :=
      wp_preflush_flags hft (hclean q (List.mem_cons_self ..))
    have hboth := hflags.and (wp_preflush_must (s := t))
    refine hboth.imp (fun _ h => h.1.one) (fun _ h => h.1) fun _ u ⟨hu, hq⟩ => ?_
    refine ⟨hu.one, hnd.of_cons, fun r hr => ?_, fun r hr st hst => ?_⟩
    · rw [hu.same r fun h => (List.nodup_cons.mp hnd).1 (h ▸ hr)]
      exact hclean r (List.mem_cons_of_mem _ hr)
    · by_cases h : r = q
      · subst h
        exact hq st hst
      · rw [hu.same r h] at hst
        exact hmust r (fun hm => (List.mem_cons.mp hm).elim h hr) st hst
  · refine absurd (List.mem_filter.mpr ⟨mem_keys env .keys q, ?_⟩) hq
    rw [hst]
    rfl
  · rintro _ t ⟨hft, -, -, hmust⟩
    refine ((wp_innerFlush_flags hft).and wp_innerFlush_queue).imp (fun _ h => h.1) (fun _ h => h.1)
      fun _ u ⟨hu, hqueue⟩ => ⟨fun q => ?_, ?_⟩
    · cases hq : u.qubits q with
      | none => rfl
      | some st' =>
        obtain ⟨-, st, hst, hm⟩ := hu q st' hq
        rw [hmust q List.not_mem_nil st hst] at hm
        cases hm
    · rw [hqueue]
      unfold needsSfree
      cases he : t.sfreeQueue.isEmpty with
      | true => exact he
      | false => rfl

/-- Every call clears the marks. -/
theorem wp_run_flags (hs : Clean s) (call : Call F) :
    Wp Flags NotDebug (call.run env) s fun _ t => Clean t := by
  have hnone : ∀ {t : Simulator F}, (∀ q, t.qubits q = none) → Clean t := fun h r st hst => by
    rw [h r] at hst
    cases hst
  cases call with
  | u3 q gate => exact wp_u3_flags hs
  | ctlX ctl q => exact wp_ctlX_flags hs
  | ctlSwap ctl q1 q2 => exact wp_ctlSwap_flags hs
  | ctlPhase ctl a => exact wp_ctlPhase_flags hs
  | measure q bias => exact .bind (wp_measure_flags hs) fun _ _ ht => .pure ht
  | qubitProbs q => exact .bind (wp_qubitProbs_flags hs) fun _ _ ht => .pure ht
  | flush => exact (wp_flush_flags hs).mono fun _ _ ht => hnone ht.1
  | trim => exact .change hs.flags hs
  | resetState =>
    obtain ⟨v, -, hnew⟩ := @AnyVector.new_ok F _ (env.alloc .grow s.ctx.initMaxQubit 0)
      s.ctx.initMaxQubit
    refine .bind_read (.bind_ofExcept (fun e he => ?_) fun w _ => ?_)
    · rw [hnew] at he
      cases he
    · have hclean : ∀ k, Clean (F := F) ⟨s.ctx, w, k, fun _ => none⟩ := fun k => hnone fun _ => rfl
      exact wp_setState hs.flags (wp_setQueue hs.flags (.change (hclean _).flags (hclean _)))
  | importDense values =>
    refine .bind_read (wp_orPanic_bind (fun _ => nofun) fun q _ => ?_)
    obtain ⟨v, -, hnew⟩ := @AnyVector.new_ok F _ (env.alloc .grow (max s.ctx.initMaxQubit q) 0)
      (max s.ctx.initMaxQubit q)
    refine .bind_ofExcept (fun e he => ?_) fun w _ => wp_setState hs.flags ?_
    · rw [hnew] at he
      cases he
    · refine .bind_ofExcept (fun e he => ?_) fun w _ => ?_
      · rw [AnyVector.importDense_error he]
        exact nofun
      · have hclean : ∀ k, Clean (F := F) ⟨s.ctx, w, k, fun _ => none⟩ := fun k => hnone fun _ => rfl
        exact wp_setState hs.flags (wp_setQueue hs.flags (.change (hclean _).flags (hclean _)))

theorem wp_runCalls_flags (hs : Clean s) (calls : List (Env × Call F)) :
    Wp Flags NotDebug (runCalls calls) s fun _ t => Clean t :=
  Wp.each (fun _ t => Clean t) (fun p _ _ ht => wp_run_flags ht p.2) hs

/-- The marks of the pending gates over every run: no entry has two of them at any moment, no debug
assertion fails, and between the calls there are none. After `flush` nothing is pending, so that the
assertions of `clone_flushed` hold. -/
theorem bookkeeping {ctx : Context} {alloc : Bool} {sim : Simulator F} (hnew : new ctx alloc = .ok sim)
    (calls : List (Env × Call F)) :
    (∀ mid ∈ (runCalls calls).states sim, ∀ q st, mid.qubits q = some st →
      ¬ (st.mustFlush = true ∧ st.isReordered = true)) ∧
    (runCalls calls).result sim ≠ .error .debugAssertion ∧
    ∀ t, (runCalls calls).result sim = .ok ((), t) →
      (∀ q st, t.qubits q = some st → st.mustFlush = false ∧ st.isReordered = false) ∧
      ∀ env u, (flush env).result t = .ok ((), u) →
        (∀ q, u.qubits q = none) ∧ u.sfreeQueue.isEmpty = true ∧
        ∀ allocs, (cloneFlushed allocs).result u ≠ .error .assertion := by
  obtain ⟨v, -, rfl, -, -⟩ := new_cases hnew
  have hclean : Clean (newWithState ctx ⟨_, v⟩) := fun _ _ h => nomatch h
  have h := wp_runCalls_flags hclean calls
  refine ⟨fun mid hmid q => h.always mid hmid q, fun he => h.fails _ he rfl, fun t ht => ?_⟩
  refine ⟨h.ends () t ht, fun env u hu => ?_⟩
  obtain ⟨hq, hqueue⟩ := Wp.ends (wp_flush_flags (h.ends () t ht)) () u hu
  exact ⟨hq, hqueue, cloneFlushed_asserts hq hqueue⟩

/-- A Hadamard gate and a flush. -/
theorem bookkeeping_hadamard : ∃ sim : Simulator ℝ, new Context.default true = .ok sim ∧
    (runCalls [(Env.default, .u3 0 U3.H), (Env.default, .flush)]).result sim ≠
      .error .debugAssertion := by
  have hnew : new Context.default true = .ok
      (newWithState Context.default ⟨1, some 0, [⟨BitSet.empty, ⟨1, 0⟩⟩], []⟩ : Simulator ℝ) := rfl
  exact ⟨_, hnew, (bookkeeping hnew _).2.1⟩

end Simulator

end Qblaze
