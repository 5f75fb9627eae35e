import Qblaze.Sfree.Operator
import Qblaze.Statevector.Program
import Qblaze.Simulator.Rules

/-!
# The operations that the gates queue

A control keeps its qubits when it is moved before the pending gates; only its values may be inverted.
`_preflush_ctl_h` may take one qubit out. So no queued operation writes a qubit of its control.

* `Queue.Good`: the sets of a queue cover its operations, and no operation writes a qubit of its
  control. `le_maxQubit`: the largest qubit of the sets is no smaller than any qubit of them.
* `wp_ctlX_asserts`, ..: with arguments that meet the assertions at their start, no assertion fails.
* `Kept`: a property of the vector and of good queues that `_flush` keeps. Then every gate keeps it.
-/

namespace Qblaze

open Lib.Run

/-! ## Queues -/

namespace Queue

variable {k : Queue} {q : Qubit}

/-- The queues of the simulator. -/
structure Good (k : Queue) : Prop where
  built : k.Built
  disjoint : ∀ p ∈ k.ops, ∀ q, p.2.writes q = true → p.1.uses q = false

theorem good_new : Queue.new.Good := ⟨.new, fun _ hp => absurd hp List.not_mem_nil⟩

theorem Good.clear (h : k.Good) : k.clear.Good := ⟨h.built.clear, fun _ hp => absurd hp List.not_mem_nil⟩

theorem Good.disjoint_append (h : k.Good) {ctl : Control} {op : Op}
    (hp : ∀ q, op.writes q = true → ctl.uses q = false) :
    ∀ p ∈ k.ops ++ [(ctl, op)], ∀ q, p.2.writes q = true → p.1.uses q = false := by
  intro p hmem
  rcases List.mem_append.mp hmem with hm | hm
  · exact h.disjoint p hm
  · rw [List.mem_singleton.mp hm]
    exact hp

theorem Good.x (h : k.Good) : (k.x q).Good := ⟨h.built.x q, h.disjoint_append fun _ _ => rfl⟩

theorem Good.ctlPhase (h : k.Good) {ctl : Control} {a : Angle} : (k.ctlPhase ctl a).Good :=
  ⟨h.built.ctlPhase ctl a, h.disjoint_append fun _ hw => nomatch hw⟩

theorem Good.ctlX (h : k.Good) {ctl : Control} (hq : ctl.uses q = false) : (k.ctlX ctl q).Good := by
  refine ⟨h.built.ctlX ctl q, h.disjoint_append fun r hr => ?_⟩
  rw [Op.writes, beq_iff_eq] at hr
  exact hr ▸ hq

theorem Good.ctlSwap (h : k.Good) {ctl : Control} {q1 q2 : Qubit} (h1 : ctl.uses q1 = false)
    (h2 : ctl.uses q2 = false) : (k.ctlSwap ctl q1 q2).Good := by
  refine ⟨h.built.ctlSwap ctl q1 q2, h.disjoint_append fun r hr => ?_⟩
  rw [Op.writes, Bool.or_eq_true, beq_iff_eq, beq_iff_eq] at hr
  rcases hr with rfl | rfl
  · exact h1
  · exact h2

theorem le_max? {l : List Qubit} (h : q ∈ l) (r : Qubit) : q ≤ match l.max? with
    | some m => max r m
    | none => r := by
  cases hm : l.max? with
  | none =>
    rw [List.max?_eq_none_iff.mp hm] at h
    cases h
  | some m => exact (((List.max?_eq_some_iff).mp hm).2 q h).trans (le_max_right r m)

/-- `max_qubit` is no smaller than the qubits of the sets. -/
theorem le_maxQubit (h : k.reads q = true ∨ k.writes q = true) : q ≤ k.maxQubit := by
  unfold maxQubit
  rcases h with h | h
  · refine (le_max? (QubitSet.mem_iter.mpr h) Qubit.ZERO).trans ?_
    simp only
    cases k.writeSet.iter.max? with
    | none => exact le_refl _
    | some m => exact le_max_left _ m
  · exact le_max? (QubitSet.mem_iter.mpr h) _

/-- The operations fit in a vector with the largest qubit of the queue. -/
theorem Good.allowed (h : k.Good) {N : Nat} (hN : k.maxQubit.val < 64 * N) : Allowed N k.ops := by
  intro p hp
  have hcov := h.built.covers p hp
  refine ⟨h.disjoint p hp, fun _ _ => trivial, fun q hq => ?_, fun q hq => ?_⟩
  · exact lt_of_le_of_lt (le_maxQubit (.inl (hcov.control q hq))) hN
  · exact lt_of_le_of_lt (le_maxQubit (.inr (hcov.target q hq))) hN

end Queue

/-! ## Controls -/

/-- The qubits of some items. -/
def itemQubits (l : List ControlItem) : List Qubit := l.map (·.qubit)

theorem ordered_iff {l : List ControlItem} : Ordered l ↔ (itemQubits l).Pairwise (· < ·) :=
  List.pairwise_map.symm

theorem Control.uses_eq_mem {c : Control} {q : Qubit} : c.uses q = true ↔ q ∈ itemQubits c.items := by
  rw [Control.uses_iff, itemQubits, List.mem_map]

namespace Simulator

variable {F : Type} [Field F] [LinearOrder F] [Eps F] [Scalar F] {s : Simulator F} {env : Env}
  {l : List ControlItem} {ctl : Control}

/-- The panics other than a failed assertion. -/
def NotAssertion (e : Panic) : Prop := e ≠ .assertion

theorem notAssertion_ite (b : Bool) : NotAssertion (if b then .chunkSize else .bitIndex) := by
  cases b <;> exact nofun

theorem stable_any : Stable env (fun _ : Simulator F => True) NotAssertion where
  entry _ := trivial
  eager _ _ _ := trivial
  error _ _ _ he := AnyVector.eager_error he ▸ notAssertion_ite _

/-- No assertion fails in `_preflush`. -/
theorem wp_preflush_any {R : Type} {p : Preflush R} {q : Qubit} :
    Wp (fun _ => True) NotAssertion (preflush p env q) s fun _ _ => True :=
  stable_any.preflush (fun _ => trivial) (fun _ => trivial) nofun trivial

/-- No assertion fails in `_flush`. -/
theorem wp_innerFlush_any {alsoSfree : Bool} :
    Wp (fun _ => True) NotAssertion (innerFlush env alsoSfree) s fun _ _ => True := by
  refine .bind_read (.bind (stable_any.first trivial) fun _ t _ => .bind_read ?_)
  refine .bind (Q := fun _ _ => True) (.bind_read ?_) fun _ u _ => ?_
  · split
    · exact .pure trivial
    · obtain ⟨v, -, hnew⟩ := @AnyVector.new_ok F _ (env.alloc .grow (t.flushMax _) 0) (t.flushMax _)
      rw [hnew]
      refine .bind_ofExcept (fun _ he => nomatch he) fun w hw =>
        .bind_ofExcept (fun e he => ?_) fun _ _ => .change trivial trivial
      rw [AnyVector.importFrom_error he]
      exact notAssertion_ite _
  · refine .bind (Q := fun _ _ => True) (.when (fun _ => ?_) fun _ => trivial) fun _ v _ => ?_
    · refine .bind_read (.bind_ofExcept (fun e he => ?_) fun _ _ =>
        wp_setState trivial (wp_setQueue trivial (stable_any.second trivial)))
      rw [(AnyVector.performSfree_error he).2]
      exact notAssertion_ite _
    · refine wp_retain_stable (fun _ _ _ h => h) (fun q st t _ => ?_) trivial
      unfold visitThird
      split
      · exact .pure trivial
      split
      · exact .fail nofun
      · refine .bind_read (.bind_ofExcept (fun e he => ?_) fun _ _ => wp_setState trivial (.pure trivial))
        rw [(AnyVector.performU4_error he).2]
        exact notAssertion_ite _

theorem itemQubits_ite (b : Bool) (c : ControlItem) (l : List ControlItem) :
    itemQubits ((if b then c.invert else c) :: l) = c.qubit :: itemQubits l := by
  cases b <;> rfl

theorem wp_preflushItems_qubits : Wp (fun _ => True) NotAssertion (preflushItems env l) s
    fun l' _ => itemQubits l' = itemQubits l := by
  induction l generalizing s with
  | nil => exact .pure rfl
  | cons c l ih =>
    refine .bind wp_preflush_any fun invert t _ => .bind ih fun l' u hl => .pure ?_
    rw [itemQubits_ite, hl]
    rfl

/-- The qubits that are left, and the one that is taken out. -/
def Retargeted (qs : List Qubit) (r : List Qubit × Option Qubit) : Prop :=
  match r.2 with
  | none => r.1 = qs
  | some h => ∃ l1 l2, qs = l1 ++ h :: l2 ∧ r.1 = l1 ++ l2

theorem Retargeted.cons {qs : List Qubit} {r : List Qubit × Option Qubit} (h : Retargeted qs r)
    (q : Qubit) : Retargeted (q :: qs) (q :: r.1, r.2) := by
  obtain ⟨l, o⟩ := r
  cases o with
  | none => exact congrArg (q :: ·) h
  | some t =>
    obtain ⟨l1, l2, hqs, hr⟩ := h
    exact ⟨q :: l1, l2, congrArg (q :: ·) hqs, congrArg (q :: ·) hr⟩

theorem wp_preflushItemsH_qubits : Wp (fun _ => True) NotAssertion (preflushItemsH env l) s
    fun r _ => Retargeted (itemQubits l) (itemQubits r.1, r.2) := by
  induction l generalizing s with
  | nil => exact .pure rfl
  | cons c l ih =>
    unfold preflushItemsH
    split
    · refine .bind wp_preflush_any fun invert t _ => .bind ih fun r u hr => .pure ?_
      rw [itemQubits_ite]
      exact hr.cons c.qubit
    · refine .bind wp_preflush_any fun m t _ => ?_
      cases m with
      | normal => exact .bind ih fun r u hr => .pure (hr.cons c.qubit)
      | invert => exact .bind ih fun r u hr => .pure (hr.cons c.qubit)
      | hadamard => exact .bind wp_preflushItems_qubits fun l' u hl => .pure ⟨[], itemQubits l, rfl, hl⟩

/-- Items on the qubits of a control are collected as they are. -/
theorem fromIter_of_sublist {l : List ControlItem} (h : (itemQubits l).Sublist (itemQubits ctl.items)) :
    ∃ c, Control.fromIter l = some c ∧ c.items = l := by
  have ho : Ordered l := ordered_iff.mpr ((ordered_iff.mp ctl.ordered).sublist h)
  exact ⟨⟨l, ho⟩, Control.fromIter_of_ordered ho, rfl⟩

/-- `_preflush_ctl` keeps the qubits of the control. -/
theorem wp_preflushCtl_uses : Wp (fun _ => True) NotAssertion (preflushCtl env ctl) s
    fun ctl' _ => ∀ q, ctl'.uses q = ctl.uses q := by
  refine .bind wp_preflushItems_qubits fun l t hl => ?_
  obtain ⟨c, hc, hitems⟩ := @fromIter_of_sublist ctl l (by rw [hl])
  refine wp_orPanic (fun hn => nomatch hc.symm.trans hn) fun ctl' hctl q => ?_
  rw [hc] at hctl
  cases hctl
  rw [Bool.eq_iff_iff, Control.uses_eq_mem, Control.uses_eq_mem, hitems, hl]

/-- What `_preflush_ctl_h` does to the qubits of a control. -/
def RetargetedCtl (ctl ctl' : Control) : Option Qubit → Prop
  | none => ∀ q, ctl'.uses q = ctl.uses q
  | some h => ctl.uses h = true ∧ ∀ q, ctl'.uses q = (ctl.uses q && decide (q ≠ h))

theorem RetargetedCtl.uses_of_not_uses {ctl' : Control} {o : Option Qubit} {q : Qubit}
    (h : RetargetedCtl ctl ctl' o) (hq : ctl.uses q = false) : ctl'.uses q = false := by
  cases o with
  | none => exact (h q).trans hq
  | some r => rw [h.2 q, hq, Bool.false_and]

/-- `_preflush_ctl_h` keeps the qubits of the control, or takes one out. -/
theorem wp_preflushCtlH_uses : Wp (fun _ => True) NotAssertion (preflushCtlH env ctl) s
    fun r _ => RetargetedCtl ctl r.1 r.2 := by
  refine .bind wp_preflushItemsH_qubits fun r t hr => ?_
  obtain ⟨l, o⟩ := r
  cases o with
  | none =>
    have hl : itemQubits l = itemQubits ctl.items := hr
    obtain ⟨c, hc, hitems⟩ := @fromIter_of_sublist ctl l (by rw [hl])
    refine wp_orPanic_bind (fun hn => nomatch hc.symm.trans hn) fun ctl' hctl => .pure ?_
    rw [hc] at hctl
    cases hctl
    intro q
    rw [Bool.eq_iff_iff, Control.uses_eq_mem, Control.uses_eq_mem, hitems, hl]
  | some h =>
    obtain ⟨l1, l2, hqs, hl⟩ := hr
    have hl : itemQubits l = l1 ++ l2 := hl
    have hnodup : (l1 ++ h :: l2).Nodup := by
      rw [← hqs]
      exact (ordered_iff.mp ctl.ordered).imp fun hab => hab.ne
    obtain ⟨c, hc, hitems⟩ := @fromIter_of_sublist ctl l (by
      rw [hl, hqs]
      exact (List.sublist_cons_self h l2).append_left l1)
    refine wp_orPanic_bind (fun hn => nomatch hc.symm.trans hn) fun ctl' hctl => .pure ?_
    rw [hc] at hctl
    cases hctl
    refine ⟨by rw [Control.uses_eq_mem, hqs]; simp, fun q => ?_⟩
    rw [Bool.eq_iff_iff, Bool.and_eq_true, decide_eq_true_iff, Control.uses_eq_mem,
      Control.uses_eq_mem, hitems, hl, hqs]
    rw [List.nodup_middle, List.nodup_cons] at hnodup
    constructor
    · intro hq
      refine ⟨?_, fun he => hnodup.1 (he ▸ hq)⟩
      rw [List.mem_append] at hq
      rw [List.mem_append, List.mem_cons]
      tauto
    · rintro ⟨hq, hne⟩
      rw [List.mem_append, List.mem_cons] at hq
      rw [List.mem_append]
      tauto

/-! ## Assertions -/

omit [Eps F] in
theorem wp_u3_asserts {q : Qubit} {gate : U3} : Wp (fun _ => True) NotAssertion (u3 q gate) s fun _ _ => True := by
  refine .bind_read ?_
  split
  · exact .change trivial trivial
  · exact .change trivial trivial

/-- `_flush` and a new operation. -/
theorem wp_flush_push_asserts {g : Queue → Queue} :
    Wp (fun _ => True) NotAssertion (do innerFlush env false; setQueue g) s fun _ _ => True :=
  .bind wp_innerFlush_any fun _ _ _ => .change trivial trivial

theorem wp_ctlX_asserts {q : Qubit} (h : ctl.uses q = false) :
    Wp (fun _ => True) NotAssertion (ctlX env ctl q) s fun _ _ => True := by
  unfold ctlX
  split
  · exact wp_u3_asserts
  rw [if_neg (by simp [h])]
  refine .bind wp_preflush_any fun isH t _ => ?_
  split
  · refine .bind wp_preflushCtlH_uses fun r u hr => ?_
    obtain ⟨ctl', hctl⟩ := Control.withQubit_isSome (hr.uses_of_not_uses h)
    refine wp_orPanic_bind (fun hn => nomatch hctl.symm.trans hn) fun _ _ => ?_
    split
    · exact wp_flush_push_asserts
    · exact wp_flush_push_asserts
  · exact .bind wp_preflushCtl_uses fun _ _ _ => wp_flush_push_asserts

theorem wp_ctlSwap_asserts {q1 q2 : Qubit} (h1 : ctl.uses q1 = false) (h2 : ctl.uses q2 = false)
    (hne : q1 ≠ q2) : Wp (fun _ => True) NotAssertion (ctlSwap env ctl q1 q2) s fun _ _ => True := by
  unfold ctlSwap
  rw [if_neg (by simp [h1, h2, hne])]
  refine .bind wp_preflushCtl_uses fun _ _ _ => .bind wp_preflush_any fun _ _ _ => ?_
  exact .bind wp_preflush_any fun _ _ _ => wp_flush_push_asserts

theorem wp_ctlPhase_asserts {a : Angle} :
    Wp (fun _ => True) NotAssertion (ctlPhase env ctl a) s fun _ _ => True := by
  unfold ctlPhase
  split
  · exact .pure trivial
  · exact wp_u3_asserts
  · split
    · refine .bind wp_preflushCtlH_uses fun r _ _ => ?_
      split
      · exact wp_flush_push_asserts
      · exact wp_flush_push_asserts
    · exact .bind wp_preflushCtl_uses fun _ _ _ => wp_flush_push_asserts

/-! ## Gates -/

/-- A property of the vector and of good queues that an eager flush keeps. -/
structure Queued (env : Env) (I : Simulator F → Prop) (E : Panic → Prop) : Prop
    extends Stable env I E where
  assertion : E .assertion
  debugAssertion : E .debugAssertion
  push : ∀ {s} {g : Queue → Queue}, I s → (∀ k : Queue, k.Good → (g k).Good) →
    I (s.withQueue (g s.sfreeQueue))

/-- A property of the vector and of good queues that `_flush` keeps. -/
structure Kept (env : Env) (I : Simulator F → Prop) (E : Panic → Prop) : Prop
    extends Queued env I E where
  flush : ∀ {s alsoSfree}, I s → Wp I E (innerFlush env alsoSfree) s fun _ t => I t

variable {I : Simulator F → Prop} {E : Panic → Prop} {q : Qubit} {R : Type} {p : Preflush R}

namespace Queued

theorem preflush (h : Queued env I E) (hs : I s) :
    Wp I E (preflush p env q) s fun _ t => I t :=
  h.toStable.preflush (fun hs => h.push hs fun _ hk => hk.x) (fun hs => h.push hs fun _ hk => hk.ctlPhase)
    h.debugAssertion hs

theorem preflushItems (h : Queued env I E) (hs : I s) :
    Wp I E (preflushItems env l) s fun _ t => I t := by
  induction l generalizing s with
  | nil => exact .pure hs
  | cons c l ih => exact .bind (h.preflush hs) fun _ t ht => .bind (ih ht) fun _ u hu => .pure hu

theorem preflushItemsH (h : Queued env I E) (hs : I s) :
    Wp I E (preflushItemsH env l) s fun _ t => I t := by
  induction l generalizing s with
  | nil => exact .pure hs
  | cons c l ih =>
    unfold Simulator.preflushItemsH
    split
    · exact .bind (h.preflush hs) fun _ t ht => .bind (ih ht) fun _ u hu => .pure hu
    · refine .bind (h.preflush hs) fun m t ht => ?_
      cases m with
      | normal => exact .bind (ih ht) fun _ u hu => .pure hu
      | invert => exact .bind (ih ht) fun _ u hu => .pure hu
      | hadamard => exact .bind (h.preflushItems ht) fun _ u hu => .pure hu

theorem preflushCtl (h : Queued env I E) (hs : I s) : Wp I E (preflushCtl env ctl) s
    fun ctl' t => I t ∧ ∀ q, ctl'.uses q = ctl.uses q := by
  have hw : Wp I E (Simulator.preflushCtl env ctl) s fun _ t => I t :=
    .bind (h.preflushItems hs) fun _ t ht => wp_orPanic (fun _ => h.assertion) fun _ _ => ht
  exact (hw.and wp_preflushCtl_uses).imp (fun _ h => h.1) (fun _ h => h.1) fun _ _ h => h

theorem preflushCtlH (h : Queued env I E) (hs : I s) : Wp I E (preflushCtlH env ctl) s
    fun r t => I t ∧ RetargetedCtl ctl r.1 r.2 := by
  have hw : Wp I E (Simulator.preflushCtlH env ctl) s fun _ t => I t :=
    .bind (h.preflushItemsH hs) fun _ t ht =>
      wp_orPanic_bind (fun _ => h.assertion) fun _ _ => .pure ht
  exact (hw.and wp_preflushCtlH_uses).imp (fun _ h => h.1) (fun _ h => h.1) fun _ _ h => h

theorem u3 (h : Queued env I E) (hs : I s) {gate : U3} : Wp I E (u3 q gate) s fun _ t => I t := by
  refine .bind_read ?_
  split
  · exact .change (h.entry hs) (h.entry hs)
  · exact .change (h.entry hs) (h.entry hs)

end Queued

namespace Kept

/-- `_flush` and a new operation. -/
theorem flush_push (h : Kept env I E) (hs : I s) {g : Queue → Queue}
    (hg : ∀ k : Queue, k.Good → (g k).Good) :
    Wp I E (do innerFlush env false; setQueue g) s fun _ t => I t :=
  .bind (h.flush hs) fun _ _ ht => .change (h.push ht hg) (h.push ht hg)

theorem ctlX (h : Kept env I E) (hs : I s) : Wp I E (ctlX env ctl q) s fun _ t => I t := by
  unfold Simulator.ctlX
  split
  · exact h.toQueued.u3 hs
  split
  · exact .fail h.assertion
  · rename_i hu
    rw [Bool.not_eq_true] at hu
    refine .bind (h.toQueued.preflush hs) fun isH t ht => ?_
    split
    · refine .bind (h.toQueued.preflushCtlH ht) fun r u ⟨hu', hr⟩ => ?_
      refine wp_orPanic_bind (fun _ => h.assertion) fun ctl' hctl => ?_
      split
      · rename_i r' hh
        refine h.flush_push hu' fun k hk => hk.ctlX ?_
        rw [hh] at hr
        obtain ⟨huse, hr⟩ := hr
        have hne : q ≠ r' := fun he => by
          rw [he, huse] at hu
          cases hu
        rw [Control.uses_withQubit hctl, hr r']
        simp [hne]
      · exact h.flush_push hu' fun k hk => hk.ctlPhase
    · refine .bind (h.toQueued.preflushCtl ht) fun ctl' u ⟨hu', hr⟩ => ?_
      exact h.flush_push hu' fun k hk => hk.ctlX ((hr q).trans hu)

theorem ctlSwap (h : Kept env I E) (hs : I s) {q1 q2 : Qubit} :
    Wp I E (ctlSwap env ctl q1 q2) s fun _ t => I t := by
  unfold Simulator.ctlSwap
  split
  · exact .fail h.assertion
  · rename_i hc
    push Not at hc
    obtain ⟨h1, h2, -⟩ := hc
    rw [Ne, Bool.not_eq_true] at h1 h2
    refine .bind (h.toQueued.preflushCtl hs) fun ctl' t ⟨ht, hr⟩ => ?_
    refine .bind (h.toQueued.preflush ht) fun _ u hu => .bind (h.toQueued.preflush hu) fun _ v hv => ?_
    exact h.flush_push hv fun k hk => hk.ctlSwap ((hr q1).trans h1) ((hr q2).trans h2)

theorem ctlPhase (h : Kept env I E) (hs : I s) {a : Angle} :
    Wp I E (ctlPhase env ctl a) s fun _ t => I t := by
  unfold Simulator.ctlPhase
  split
  · exact .pure hs
  · exact h.toQueued.u3 hs
  · split
    · refine .bind (h.toQueued.preflushCtlH hs) fun r t ⟨ht, hr⟩ => ?_
      split
      · rename_i r' hh
        refine h.flush_push ht fun k hk => hk.ctlX ?_
        rw [hh] at hr
        rw [hr.2 r']
        simp
      · exact h.flush_push ht fun k hk => hk.ctlPhase
    · exact .bind (h.toQueued.preflushCtl hs) fun ctl' t ht => h.flush_push ht.1 fun k hk => hk.ctlPhase

theorem flushAll (h : Kept env I E) (hs : I s) : Wp I E (Simulator.flush env) s fun _ t => I t := by
  refine .bind_read (.bind (Wp.each (fun _ t => I t) ?_ hs) fun _ t ht => h.flush ht)
  exact fun q _ t ht => h.toQueued.preflush ht

/-- `premeasure` returns the weights of the vector, or those of a qubit past its end. -/
theorem premeasure (h : Kept env I E) (hs : I s)
    (herr : ∀ (t : Simulator F) e, I t → q.val ≤ t.state.maxQubit → t.state.premeasure t.ctx q = .error e →
      E e) :
    Wp I E (premeasure env q) s fun r t => I t ∧ (t.state.maxQubit < q.val → r.2 = (1, 0)) ∧
      (q.val ≤ t.state.maxQubit → t.state.premeasure t.ctx q = .ok r.2) := by
  refine .bind (h.toQueued.preflush hs) fun invert t ht => .bind_read ?_
  refine .bind (h.flush ht) fun _ u hu => .bind_read ?_
  split
  · rename_i hmax
    exact .pure ⟨hu, fun _ => rfl, fun hle => absurd hle (Nat.not_le_of_lt hmax)⟩
  · rename_i hmax
    exact .bind_ofExcept (fun e he => herr u e hu (Nat.le_of_not_lt hmax) he) fun r hr =>
      .pure ⟨hu, fun hlt => absurd hlt hmax, fun _ => hr⟩

end Kept

end Simulator

end Qblaze
