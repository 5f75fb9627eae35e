import Qblaze.Exact
import Qblaze.Sfree.Meaning

/-!
# Programs on stored elements

What a program does to the bits of an element is what it means on the basis state
(`Compiled.apply_bits`), and with exact arithmetic the amplitude is multiplied by the phase
(`Compiled.apply_holds`).

`performOps` runs the operations of a queue one after the other on an element: the gate of an
operation is performed where its control holds.

* `compile_preserves`: `compile_seq` preserves what the operations do to every element, and
  `Queue::compile` preserves it up to a global phase.
-/

namespace Qblaze

variable {N : Nat} {F : Type} [Field F] [Scalar F]

/-! ## Bits -/

namespace BitSet

theorem toState_toggle {b : BitSet N} {q : Qubit} (h : q.val < 64 * N) :
    (b.toggle q.val).toState = flip (fun r => r == q) b.toState := by
  funext r
  show (b.toggle q.val).get r.val = (b.get r.val ^^ (r == q))
  rw [get_toggle h]
  congr 1
  rw [Bool.eq_iff_iff, decide_eq_true_iff, beq_iff_eq]
  exact Fin.ext_iff.symm

theorem toState_xor {b : BitSet N} {set : QubitSet}
    (h : ∀ q : Qubit, set.contains q = true → q.val < 64 * N) :
    (b.xor (fromIter (set.iter.map Fin.val))).toState = flip set.contains b.toState := by
  funext r
  show (b.xor (fromIter (set.iter.map Fin.val))).get r.val = (b.get r.val ^^ set.contains r)
  rw [get_xor, get_fromIter]
  · congr 1
    rw [Bool.eq_iff_iff, decide_eq_true_iff, ← QubitSet.mem_iter, List.mem_map]
    exact ⟨fun ⟨q, hq, he⟩ => Fin.ext he ▸ hq, fun hr => ⟨r, hr, rfl⟩⟩
  · intro k hk
    obtain ⟨q, hq, rfl⟩ := List.mem_map.mp hk
    exact h q (QubitSet.mem_iter.mp hq)

end BitSet

/-- A swap toggles both bits when they differ. -/
theorem swapQubits_eq {q1 q2 : Qubit} {x : Qubit → Bool} :
    swapQubits q1 q2 x =
      if x q1 ≠ x q2 then flip (fun r => r == q2) (flip (fun r => r == q1) x) else x := by
  funext r
  unfold swapQubits
  by_cases h1 : r = q1
  · subst h1
    rw [Equiv.swap_apply_left]
    by_cases h2 : r = q2
    · subst h2; simp
    · have hb : (r == q2) = false := beq_eq_false_iff_ne.mpr h2
      by_cases hx : x r = x q2
      · simp [hx]
      · cases h : x r <;> cases h' : x q2 <;> simp_all [flip]
  · have hb1 : (r == q1) = false := beq_eq_false_iff_ne.mpr h1
    by_cases h2 : r = q2
    · subst h2
      rw [Equiv.swap_apply_right]
      by_cases hx : x q1 = x r
      · simp [hx]
      · cases h : x r <;> cases h' : x q1 <;> simp_all [flip]
    · have hb2 : (r == q2) = false := beq_eq_false_iff_ne.mpr h2
      rw [Equiv.swap_apply_of_ne_of_ne h1 h2]
      split <;> simp [flip, hb1, hb2]

variable {G : Type} [AddCommGroup G] {φ : Angle →+ G}

theorem BaseGate.perform_bits {e : Element N F} {g : BaseGate} (a : G)
    (hr : ∀ q : Qubit, g.writes q = true → q.val < 64 * N) :
    (g.perform e).bits.toState = (g.eval φ (e.bits.toState, a)).1 := by
  cases g with
  | x q => exact BitSet.toState_toggle (hr q (by simp [writes]))
  | swap q1 q2 =>
    have h1 := hr q1 (by simp [writes])
    have h2 := hr q2 (by simp [writes])
    rw [eval, swapQubits_eq, perform]
    show _ = if e.bits.get q1 ≠ e.bits.get q2 then _ else _
    split
    · rw [BitSet.toState_toggle h2, BitSet.toState_toggle h1]
    · rfl
  | multiX set => exact BitSet.toState_xor hr
  | _ => rfl

/-- The test of a gate on the stored bits is its control. -/
theorem Gate.enabled_eq {b : BitSet N} {g : Gate}
    (hr : ∀ q : Qubit, g.reads q = true → q.val < 64 * N) : g.enabled b = g.holds b.toState := by
  cases g with
  | plain g => rfl
  | singlyControlled v q g => rfl
  | multiControlled ctl g =>
    have hmem : ∀ a ∈ ctl.items, a.qubit.val < 64 * N :=
      fun a ha => hr a.qubit (Control.uses_iff.mpr ⟨a, ha, rfl⟩)
    have hmask : ∀ l : List ControlItem, (∀ a ∈ l, a ∈ ctl.items) →
        ∀ k ∈ l.map (·.qubit.val), k < 64 * N := by
      intro l hl k hk
      obtain ⟨a, ha, rfl⟩ := List.mem_map.mp hk
      exact hmem a (hl a ha)
    have hget1 : ∀ i, (maskWant ctl : BitSet N × BitSet N).1.get i =
        decide (i ∈ ctl.items.map (·.qubit.val)) := fun i =>
      BitSet.get_fromIter _ (hmask _ fun a ha => ha)
    have hget2 : ∀ i, (maskWant ctl : BitSet N × BitSet N).2.get i =
        decide (i ∈ (ctl.items.filter (·.value)).map (·.qubit.val)) := fun i =>
      BitSet.get_fromIter _ (hmask _ fun a ha => (List.mem_filter.mp ha).1)
    -- an item of the control is wanted exactly if its value is `true`
    have hwant : ∀ a ∈ ctl.items,
        decide (a.qubit.val ∈ (ctl.items.filter (·.value)).map (·.qubit.val)) = a.value := by
      intro a ha
      rw [Bool.eq_iff_iff, decide_eq_true_iff, List.mem_map]
      constructor
      · rintro ⟨d, hd, he⟩
        obtain ⟨hd, hv⟩ := List.mem_filter.mp hd
        rw [← Control.eq_of_qubit_eq hd ha (Fin.ext he)]
        exact hv
      · intro hv
        exact ⟨a, List.mem_filter.mpr ⟨ha, hv⟩, rfl⟩
    rw [enabled, holds, Bool.eq_iff_iff, decide_eq_true_iff]
    unfold Control.holds
    rw [List.all_eq_true]
    constructor
    · intro h a ha
      have hi := congrArg (fun s : BitSet N => s.get a.qubit.val) h
      simp only [BitSet.get_and, hget1, hget2, hwant a ha] at hi
      rw [decide_eq_true (List.mem_map.mpr ⟨a, ha, rfl⟩), Bool.and_true] at hi
      rw [ControlItem.holds, beq_iff_eq]
      exact hi
    · intro h
      refine BitSet.ext_get fun i _ => ?_
      rw [BitSet.get_and, hget1, hget2]
      by_cases hi : i ∈ ctl.items.map (·.qubit.val)
      · obtain ⟨a, ha, rfl⟩ := List.mem_map.mp hi
        have hx := h a ha
        rw [ControlItem.holds, beq_iff_eq] at hx
        rw [hwant a ha, decide_eq_true hi, Bool.and_true]
        exact hx
      · have hi' : i ∉ (ctl.items.filter (·.value)).map (·.qubit.val) := fun hm => by
          obtain ⟨a, ha, he⟩ := List.mem_map.mp hm
          exact hi (List.mem_map.mpr ⟨a, (List.mem_filter.mp ha).1, he⟩)
        rw [decide_eq_false hi, decide_eq_false hi', Bool.and_false]

namespace Compiled

/-- Every qubit of a sequence fits in `N` words. -/
def inRangeSeq (N : Nat) (l : List Compiled) : Prop :=
  ∀ q : Qubit, readsSeq l q = true ∨ writesSeq l q = true → q.val < 64 * N

theorem inRange_fromSeq {l : List Compiled} : (fromSeq l).inRange N ↔ inRangeSeq N l := by
  unfold inRange inRangeSeq
  simp only [fromSeq_reads, fromSeq_writes]

theorem inRangeSeq_cons {c : Compiled} {l : List Compiled} (h : inRangeSeq N (c :: l)) :
    c.inRange N ∧ inRangeSeq N l := by
  unfold inRangeSeq at h
  simp only [readsSeq, writesSeq, Bool.or_eq_true] at h
  exact ⟨fun q hq => h q (hq.imp .inl .inl), fun q hq => h q (hq.imp .inr .inr)⟩

theorem inRange_pseq {ctl : Qubit} {l0 l1 : List Compiled} (h : (pseq ctl l0 l1).inRange N) :
    inRangeSeq N l0 ∧ inRangeSeq N l1 := by
  unfold inRange at h
  simp only [reads, writes, Bool.or_eq_true] at h
  exact ⟨fun q hq => h q (hq.imp (fun h => .inr (.inl h)) .inl),
    fun q hq => h q (hq.imp (fun h => .inr (.inr h)) .inr)⟩

mutual

/-- A program changes the stored bits as it changes the basis state. -/
theorem apply_bits (a : G) : ∀ (c : Compiled) (e : Element N F), c.inRange N →
    (c.apply e).bits.toState = (c.eval φ (e.bits.toState, a)).1
  | gate g, e, hr => by
    have hread : ∀ q : Qubit, g.reads q = true → q.val < 64 * N := fun q hq =>
      hr q (.inl (by rw [reads]; exact hq))
    have hwrite : ∀ q : Qubit, g.inner.writes q = true → q.val < 64 * N := fun q hq =>
      hr q (.inr (by rw [writes]; exact hq))
    rw [apply, eval, Gate.perform, Gate.enabled_eq hread]
    split
    · exact BaseGate.perform_bits a hwrite
    · rfl
  | seq l, e, hr => by
    rw [apply, eval]
    unfold inRange at hr
    simp only [reads, writes] at hr
    exact applySeq_bits a l e hr
  | pseq ctl seq0 seq1, e, hr => by
    obtain ⟨h0, h1⟩ := inRange_pseq hr
    rw [apply, eval]
    show _ = Prod.fst (if e.bits.get ctl = true then _ else _)
    split
    · exact applySeq_bits a seq1 e h1
    · exact applySeq_bits a seq0 e h0

theorem applySeq_bits (a : G) : ∀ (l : List Compiled) (e : Element N F), inRangeSeq N l →
    (applySeq l e).bits.toState = (evalSeq φ l (e.bits.toState, a)).1
  | [], e, _ => by rw [applySeq, evalSeq]
  | c :: l, e, hr => by
    obtain ⟨hc, hl⟩ := inRangeSeq_cons hr
    rw [applySeq, evalSeq, applySeq_bits (c.eval φ (e.bits.toState, a)).2 l _ hl, apply_bits a c e hc]

end

end Compiled

/-! ## Amplitudes -/

/-- The phases are the angles. -/
abbrev angles : Angle →+ Angle := AddMonoidHom.id Angle

/-- A gate multiplies the amplitude by its phase. -/
theorem BaseGate.perform_val (g : BaseGate) {e : Element N ℝ} {c : Conf Angle} {z : ℂ}
    (h : e.val.toC = z * c.2.phase) : (g.perform e).val.toC = z * (g.eval angles c).2.phase := by
  have hmul : ∀ a : Angle, z * (c.2 + a).phase = e.val.toC * a.phase := fun a => by
    rw [Angle.phase_add, h, mul_assoc]
  have hsqrt : (fracSqrt2 : ℝ) = 1 / Real.sqrt 2 := rfl
  cases g with
  | x q => exact h
  | multiX set => exact h
  | swap q1 q2 =>
    rw [perform]
    split <;> exact h
  | p a => exact (hmul a).symm ▸ by rw [perform, Cplx.toC_mul, Cplx.toC_fromArg]
  | pz =>
    rw [show (eval angles pz c).2 = c.2 + Angle.PI from rfl, hmul, Angle.phase_PI, mul_neg_one]
    rfl
  | ps =>
    rw [show (eval angles ps c).2 = c.2 + Angle.PI_1_2 from rfl, hmul, Angle.phase_PI_1_2]
    exact Cplx.toC_mulI _
  | psdg =>
    rw [show (eval angles psdg c).2 = c.2 + Angle.PI_3_2 from rfl, hmul, Angle.phase_PI_3_2]
    exact Cplx.toC_divI _
  | pt =>
    rw [show (eval angles pt c).2 = c.2 + Angle.PI_1_4 from rfl, hmul, Angle.phase_PI_1_4, perform, hsqrt]
    apply Complex.ext <;> simp [Cplx.toC] <;> ring
  | pt3 =>
    rw [show (eval angles pt3 c).2 = c.2 + (Angle.PI_1_2 + Angle.PI_1_4) from rfl, hmul, Angle.phase_add,
      Angle.phase_PI_1_2, Angle.phase_PI_1_4, perform, hsqrt]
    apply Complex.ext <;> simp [Cplx.toC] <;> ring
  | pt5 =>
    rw [show (eval angles pt5 c).2 = c.2 + (Angle.PI + Angle.PI_1_4) from rfl, hmul, Angle.phase_add,
      Angle.phase_PI, Angle.phase_PI_1_4, perform, hsqrt]
    apply Complex.ext <;> simp [Cplx.toC] <;> ring
  | ptdg =>
    rw [show (eval angles ptdg c).2 = c.2 + (Angle.PI_3_2 + Angle.PI_1_4) from rfl, hmul, Angle.phase_add,
      Angle.phase_PI_3_2, Angle.phase_PI_1_4, perform, hsqrt]
    apply Complex.ext <;> simp [Cplx.toC] <;> ring

/-- The element holds the basis state `c.1`, with the amplitude `z` times the phase `c.2`. -/
structure Holds (e : Element N ℝ) (c : Conf Angle) (z : ℂ) : Prop where
  bits : e.bits.toState = c.1
  val : e.val.toC = z * c.2.phase

variable {e e' : Element N ℝ} {c : Conf Angle} {z : ℂ}

theorem holds_start (e : Element N ℝ) : Holds e (e.bits.toState, Angle.ZERO) e.val.toC :=
  ⟨rfl, by rw [Angle.phase_zero, mul_one]⟩

theorem BaseGate.perform_holds {g : BaseGate}
    (hr : ∀ q : Qubit, g.writes q = true → q.val < 64 * N) (h : Holds e c z) :
    Holds (g.perform e) (g.eval angles c) z where
  bits := by
    rw [BaseGate.perform_bits c.2 hr, h.bits]
  val := g.perform_val h.val

namespace Compiled

mutual

/-- A program multiplies the amplitude of an element by the phase of its basis state. -/
theorem apply_holds : ∀ (p : Compiled) (e : Element N ℝ) (c : Conf Angle), p.inRange N → Holds e c z →
    Holds (p.apply e) (p.eval angles c) z
  | gate g, e, c, hr, h => by
    have hread : ∀ q : Qubit, g.reads q = true → q.val < 64 * N := fun q hq =>
      hr q (.inl (by rw [reads]; exact hq))
    have hwrite : ∀ q : Qubit, g.inner.writes q = true → q.val < 64 * N := fun q hq =>
      hr q (.inr (by rw [writes]; exact hq))
    rw [apply, eval, Gate.perform, Gate.enabled_eq hread, h.bits]
    split
    · exact BaseGate.perform_holds hwrite h
    · exact h
  | seq l, e, c, hr, h => by
    rw [apply, eval]
    unfold inRange at hr
    simp only [reads, writes] at hr
    exact applySeq_holds l e c hr h
  | pseq ctl seq0 seq1, e, c, hr, h => by
    obtain ⟨h0, h1⟩ := inRange_pseq hr
    rw [apply, eval, show e.bits.get ctl = c.1 ctl from congrFun h.bits ctl]
    split
    · exact applySeq_holds seq1 e c h1 h
    · exact applySeq_holds seq0 e c h0 h

theorem applySeq_holds : ∀ (l : List Compiled) (e : Element N ℝ) (c : Conf Angle), inRangeSeq N l →
    Holds e c z → Holds (applySeq l e) (evalSeq angles l c) z
  | [], e, c, _, h => by rwa [applySeq, evalSeq]
  | p :: l, e, c, hr, h => by
    obtain ⟨hp, hl⟩ := inRangeSeq_cons hr
    rw [applySeq, evalSeq]
    exact applySeq_holds l _ _ hl (apply_holds p e c hp h)

end

end Compiled

/-! ## Operations on elements -/

/-- The gate of an operation. -/
def Op.gate : Op → BaseGate
  | gphase a => .p a
  | x q => .x q
  | swap q1 q2 => .swap q1 q2

/-- One operation: its gate, where its control holds. -/
def performOp (p : Control × Op) (e : Element N F) : Element N F :=
  if p.1.holds e.bits.toState then p.2.gate.perform e else e

/-- The operations of a queue, one after the other. -/
def performOps : OpSeq → Element N F → Element N F
  | [], e => e
  | p :: ops, e => performOps ops (performOp p e)

variable {ops : OpSeq} {prec : Nat}

/-- The qubit fits in `N` words. -/
def Fits (N : Nat) (q : Qubit) : Prop := q.val < 64 * N

theorem writes_gate (op : Op) (q : Qubit) : op.gate.writes q = op.writes q := by
  cases op <;> simp [Op.gate, Op.writes, BaseGate.writes, Bool.beq_comm]

theorem eval_gate (op : Op) (c : Conf Angle) : op.gate.eval angles c = op.run angles c := by
  cases op <;> rfl

theorem performOps_holds (hp : ∀ p ∈ ops, ∀ q, p.2.writes q = true → Fits N q) (h : Holds e c z) :
    Holds (performOps ops e) (runOps angles ops c) z := by
  induction ops generalizing e c with
  | nil => exact h
  | cons p ops ih =>
    refine ih (fun p hm => hp p (List.mem_cons_of_mem _ hm)) ?_
    have hw := hp p (List.mem_cons_self ..)
    unfold performOp runOp
    rw [h.bits]
    split
    · rw [← eval_gate]
      exact BaseGate.perform_holds (fun q hq => hw q (by rwa [writes_gate] at hq)) h
    · exact h

theorem performOps_get {e : Element N F} {i : Nat}
    (hp : ∀ p ∈ ops, ∀ q, p.2.writes q = true → Fits N q) (hi : ∀ q : Qubit, q.val ≠ i) :
    (performOps ops e).bits.get i = e.bits.get i := by
  induction ops generalizing e with
  | nil => rfl
  | cons p ops ih =>
    have hw := hp p (List.mem_cons_self ..)
    rw [performOps, ih fun p hm => hp p (List.mem_cons_of_mem _ hm)]
    unfold performOp
    split
    · exact BaseGate.perform_get _ (fun q hq => hw q (by rwa [writes_gate] at hq))
        fun q _ => hi q
    · rfl

/-- Elements that hold the same, if no bit past the last qubit differs. -/
theorem Holds.ext (h : Holds e c z) (h' : Holds e' c z)
    (hi : ∀ i, (∀ q : Qubit, q.val ≠ i) → e.bits.get i = e'.bits.get i) : e = e' := by
  refine Element.ext (BitSet.ext_get fun i _ => ?_) (Cplx.toC_injective (h.val.trans h'.val.symm))
  by_cases hq : ∃ q : Qubit, q.val = i
  · obtain ⟨q, rfl⟩ := hq
    exact congrFun (h.bits.trans h'.bits.symm) q
  · exact hi i fun q he => hq ⟨q, he⟩

/-! ## The compiler -/

theorem Covers.inRangeSeq {st st' : Stat} {l : List Compiled} (h : Covers (Fits N) st st' l) :
    Compiled.inRangeSeq N l := fun q hq => hq.elim (h.reads q) (h.writes q)

theorem Covers.applySeq_get {st st' : Stat} {l : List Compiled} (h : Covers (Fits N) st st' l)
    {i : Nat} (hi : ∀ q : Qubit, q.val ≠ i) (e : Element N F) :
    (Compiled.applySeq l e).bits.get i = e.bits.get i :=
  Compiled.applySeq_get l e h.writes fun q _ => hi q

theorem multiX_get {t : QubitSet} (ht : ∀ q, t.contains q = true → Fits N q) {i : Nat}
    (hi : ∀ q : Qubit, q.val ≠ i) (e : Element N F) :
    ((BaseGate.multiX t).perform e).bits.get i = e.bits.get i :=
  BaseGate.perform_get _ ht fun q _ => hi q

/-- `compile_seq` on elements: flips and operations are programs, flips and a phase. -/
theorem compileSeq_elements (hp : ∀ p ∈ ops, Legal (Fits N) (Angle.Fixed prec) p) (st : Stat) {t : QubitSet}
    (ht : ∀ q, t.contains q = true → Fits N q) (e : Element N ℝ) :
    performOps ops ((BaseGate.multiX t).perform e) =
      (BaseGate.p (compileSeq N st ops t prec).gphase).perform
        ((BaseGate.multiX (compileSeq N st ops t prec).toggled).perform
          (Compiled.applySeq (compileSeq N st ops t prec).r e)) := by
  have h := compileSeq_correct (Phases.fixed prec) N st ht hp
  set o := compileSeq N st ops t prec
  have hw : ∀ p ∈ ops, ∀ q, p.2.writes q = true → Fits N q := fun p hm => (hp p hm).writes
  have hl := performOps_holds hw (BaseGate.perform_holds (g := .multiX t) ht (holds_start e))
  have hr := BaseGate.perform_holds (g := .p o.gphase) (fun q hq => by cases hq)
    (BaseGate.perform_holds (g := .multiX o.toggled) h.good.toggled
      (Compiled.applySeq_holds o.r e _ h.emits.inRangeSeq (holds_start e)))
  have hs := h.sound (e.bits.toState, Angle.ZERO)
  have hstart : Out.decode angles ⟨⟨[], st⟩, t, Angle.ZERO⟩ (e.bits.toState, Angle.ZERO) =
      (BaseGate.multiX t).eval angles (e.bits.toState, Angle.ZERO) := Prod.ext rfl (BitVec.add_zero _)
  rw [hstart] at hs
  rw [hs] at hl
  refine hl.ext hr fun i hi => ?_
  rw [performOps_get hw hi, multiX_get ht hi]
  show _ = ((BaseGate.multiX o.toggled).perform (Compiled.applySeq o.r e)).bits.get i
  rw [multiX_get h.good.toggled hi, h.emits.applySeq_get hi]

/-- The compiled queue on elements. -/
theorem Queue.compile_elements (s : Queue) (st : Stat) (hp : ∀ p ∈ s.ops, Legal (Fits N) (Angle.Fixed prec) p) :
    ∃ l g, (s.compile N st prec).1 = (if l.isEmpty then none else some (Compiled.fromSeq l)) ∧
      Covers (Fits N) st (s.compile N st prec).2 l ∧
      ∀ e : Element N ℝ, performOps s.ops e = (BaseGate.p g).perform (Compiled.applySeq l e) := by
  obtain ⟨l, g, hc, hcov, hs⟩ := Queue.compile_correct (Phases.fixed prec) s N st hp
  refine ⟨l, g, hc, hcov, fun e => ?_⟩
  have hw : ∀ p ∈ s.ops, ∀ q, p.2.writes q = true → Fits N q := fun p hm => (hp p hm).writes
  have hl := performOps_holds hw (holds_start e)
  have hr := BaseGate.perform_holds (g := .p g) (fun q hq => by cases hq)
    (Compiled.applySeq_holds l e _ hcov.inRangeSeq (holds_start e))
  rw [hs] at hl
  refine hl.ext hr fun i hi => ?_
  rw [performOps_get hw hi]
  exact (hcov.applySeq_get hi e).symm

/-- The compiler preserves meaning. For every list of operations, every start set of flips and
every slice, the programs of `compile_seq` act on each element by itself; the operations after the
flips give the same bits and the same amplitude as the programs, then the new flips, then the
phase. So `Queue::compile` yields the queue up to one global phase, and nothing only if the queue is
the identity up to a global phase. -/
theorem compile_preserves (N prec : Nat) (ops : OpSeq) (hp : ∀ p ∈ ops, Legal (Fits N) (Angle.Fixed prec) p) :
    (∀ (st : Stat) (toggled : QubitSet), (∀ q, toggled.contains q = true → Fits N q) →
      Compiled.inRangeSeq N (compileSeq N st ops toggled prec).r ∧
      ∃ f : Element N ℝ → Element N ℝ,
        (∀ elts, (Compiled.performSeq (compileSeq N st ops toggled prec).r elts).Perm
          (elts.map f)) ∧
        ∀ e, performOps ops ((BaseGate.multiX toggled).perform e) =
          (BaseGate.p (compileSeq N st ops toggled prec).gphase).perform
            ((BaseGate.multiX (compileSeq N st ops toggled prec).toggled).perform (f e))) ∧
    ∀ (s : Queue) (st : Stat), s.ops = ops → ∃ g : Angle,
      match (s.compile N st prec).1 with
      | none => ∀ e : Element N ℝ, performOps ops e = (BaseGate.p g).perform e
      | some c => c.inRange N ∧ ∃ f : Element N ℝ → Element N ℝ,
        (∀ elts, (c.perform elts).Perm (elts.map f)) ∧
        ∀ e, performOps ops e = (BaseGate.p g).perform (f e) := by
  refine ⟨fun st toggled ht => ?_, ?_⟩
  · have h := compileSeq_correct (Phases.fixed prec) N st ht hp
    exact ⟨h.emits.inRangeSeq, _, Compiled.performSeq_perm _, compileSeq_elements hp st ht⟩
  · rintro s st rfl
    obtain ⟨l, g, hc, hcov, he⟩ := s.compile_elements st hp
    refine ⟨g, ?_⟩
    rw [hc]
    cases l with
    | nil =>
      intro e
      rw [he e, Compiled.applySeq]
    | cons p l =>
      refine ⟨Compiled.inRange_fromSeq.mpr hcov.inRangeSeq, Compiled.applySeq (p :: l), fun elts => ?_, he⟩
      rw [Compiled.fromSeq_perform]
      exact Compiled.performSeq_perm _ elts

/-- A controlled X, a controlled phase and a swap, on three qubits. -/
theorem compile_preserves_three :
    ∃ g : Angle, match (Queue.compile ⟨[(Control.single 0 true, .x 1),
        (Control.single 1 false, .gphase Angle.PI), (Control.always, .swap 0 2)],
        QubitSet.new, QubitSet.new⟩ 1 Stat.default 32).1 with
    | none => ∀ e : Element 1 ℝ, performOps [(Control.single 0 true, .x 1),
        (Control.single 1 false, .gphase Angle.PI), (Control.always, .swap 0 2)] e =
          (BaseGate.p g).perform e
    | some c => c.inRange 1 ∧ ∃ f : Element 1 ℝ → Element 1 ℝ,
      (∀ elts, (c.perform elts).Perm (elts.map f)) ∧
      ∀ e, performOps [(Control.single 0 true, .x 1), (Control.single 1 false, .gphase Angle.PI),
        (Control.always, .swap 0 2)] e = (BaseGate.p g).perform (f e) := by
  refine (compile_preserves 1 32 _ fun p hp => ?_).2 _ Stat.default rfl
  simp only [List.mem_cons, List.not_mem_nil, or_false] at hp
  rcases hp with rfl | rfl | rfl
  · refine ⟨fun q hq => ?_, fun a ha => (by cases ha), fun q hq => ?_, fun q hq => ?_⟩
    · rw [Op.writes, beq_iff_eq] at hq
      subst hq
      decide
    · rw [Control.uses_single, beq_iff_eq] at hq
      subst hq
      exact (by decide : (0 : Qubit).val < 64 * 1)
    · rw [Op.writes, beq_iff_eq] at hq
      subst hq
      exact (by decide : (1 : Qubit).val < 64 * 1)
  · refine ⟨fun q hq => (by cases hq), fun a ha => ?_, fun q hq => ?_, fun q hq => (by cases hq)⟩
    · cases ha
      decide
    · rw [Control.uses_single, beq_iff_eq] at hq
      subst hq
      exact (by decide : (1 : Qubit).val < 64 * 1)
  · refine ⟨fun q _ => rfl, fun a ha => (by cases ha), fun q hq => (by cases hq), fun q hq => ?_⟩
    rw [Op.writes, Bool.or_eq_true, beq_iff_eq, beq_iff_eq] at hq
    rcases hq with rfl | rfl
    · exact (by decide : (0 : Qubit).val < 64 * 1)
    · exact (by decide : (2 : Qubit).val < 64 * 1)

end Qblaze
