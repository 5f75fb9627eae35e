import Mathlib.Data.List.Nodup
import Mathlib.Data.Fintype.List
import Qblaze.Simulator.Basic

/-!
# Rules for the methods of the simulator

One rule of `Lib.Run.Wp` for each part that several methods use.

* `wp_maybeEagerFlush`: an eager flush does nothing, or applies a gate that fits to the vector.
* `wp_retain`: a pass over the entries, with an invariant that may depend on the qubits that are left;
  `wp_retain_local` is for properties of each entry by itself.
-/

namespace Qblaze

/-! ## Panics of the vector -/

section

variable {α β ε : Type} {e : Panic}

theorem checked_ok {fits : Bool} {r : Option α} {a : α} (h : checked fits r = .ok a) : r = some a := by
  cases r with
  | some b =>
    cases h
    rfl
  | none => cases h

theorem checked_error {fits : Bool} {r : Option α} (h : checked fits r = .error e) :
    r = none ∧ e = if fits then .chunkSize else .bitIndex := by
  cases r with
  | some b => cases h
  | none =>
    cases h
    exact ⟨rfl, rfl⟩

/-- The result of a computation with a function applied to it. -/
theorem map_ok {r : Except ε α} {f : α → β} {b : β} (h : (do let a ← r; return f a) = .ok b) :
    ∃ a, r = .ok a ∧ b = f a := by
  cases r with
  | error e => cases h
  | ok a =>
    cases h
    exact ⟨a, rfl, rfl⟩

theorem map_error {r : Except ε α} {f : α → β} {e : ε} (h : (do let a ← r; return f a) = .error e) :
    r = .error e := by
  cases r with
  | error e =>
    cases h
    rfl
  | ok a => cases h

end

namespace AnyVector

section

variable {F : Type} {v w data : AnyVector F} {alloc : Bool} {e : Panic}

theorem importFrom_error (h : v.importFrom alloc data = .error e) :
    e = if data.vec.partitionedBy.all v.fits then .chunkSize else .bitIndex :=
  (checked_error (map_error h)).2

theorem numWords_pos (q : Qubit) : 0 < numWords q := by
  unfold numWords
  simp only
  split_ifs <;> decide

theorem numWords_le (q : Qubit) : numWords q ≤ 62 := by
  unfold numWords
  simp only
  split_ifs <;> decide

theorem fits_numWords (q : Qubit) : q.val < 64 * numWords q := by
  have := q.isLt
  unfold numWords
  simp only
  split_ifs <;> omega

variable [Field F]

theorem new_vec {N : Nat} (hN : 0 < N) : ∃ t : Statevector N F, Statevector.new N alloc = some t := by
  unfold Statevector.new bitIndex
  rw [if_pos (show Qubit.ZERO.val < 64 * N by rw [show Qubit.ZERO.val = 0 from rfl]; omega)]
  exact ⟨_, rfl⟩

/-- A new vector has enough words. -/
theorem new_ok (alloc : Bool) (q : Qubit) : ∃ t : Statevector (numWords q) F,
    Statevector.new (numWords q) alloc = some t ∧ AnyVector.new alloc q = .ok ⟨numWords q, t⟩ := by
  obtain ⟨t, ht⟩ := @new_vec F alloc _ (numWords q) (numWords_pos q)
  refine ⟨t, ht, ?_⟩
  unfold AnyVector.new
  rw [ht]
  rfl

variable {ctx : Context} {allocs : Nat → Bool} {q : Qubit}

theorem premeasure_ok {r : F × F} (h : v.premeasure ctx q = .ok r) :
    v.vec.premeasure ctx q = some r := checked_ok h

theorem premeasure_error (h : v.premeasure ctx q = .error e) :
    v.vec.premeasure ctx q = none ∧ e = if v.fits q then .chunkSize else .bitIndex := checked_error h

theorem performSfree_ok [Scalar F] {opq : Queue} (h : v.performSfree ctx allocs opq = .ok w) :
    ∃ t, v.vec.performSfree ctx allocs opq PREC = some t ∧ w = ⟨v.words, t⟩ := by
  obtain ⟨t, ht, rfl⟩ := map_ok h
  exact ⟨t, checked_ok ht, rfl⟩

theorem performSfree_error [Scalar F] {opq : Queue}
    (h : v.performSfree ctx allocs opq = .error e) :
    v.vec.performSfree ctx allocs opq PREC = none ∧
      e = if v.fitsQueue opq then .chunkSize else .bitIndex :=
  checked_error (map_error h)

variable [LinearOrder F] [Eps F] {gate : U4 F}

theorem performU4_ok (h : v.performU4 ctx allocs q gate = .ok w) :
    ∃ t, v.vec.performU4 ctx allocs q gate = some t ∧ w = ⟨v.words, t⟩ := by
  obtain ⟨t, ht, rfl⟩ := map_ok h
  exact ⟨t, checked_ok ht, rfl⟩

theorem performU4_error (h : v.performU4 ctx allocs q gate = .error e) :
    v.vec.performU4 ctx allocs q gate = none ∧ e = if v.fits q then .chunkSize else .bitIndex :=
  checked_error (map_error h)

theorem sampleDelta_error {hash : Nat → Nat} (h : Simulator.sampleDelta v q gate hash = .error e) :
    e = if v.fits q then .chunkSize else .bitIndex := by
  unfold Simulator.sampleDelta at h
  generalize List.range N_SAMP = l at h
  generalize (0 : Int) = d at h
  induction l generalizing d with
  | nil => cases h
  | cons i l ih =>
    rw [List.foldlM_cons] at h
    cases hd : v.collapseDelta q gate (hash i) with
    | error e' =>
      rw [hd] at h
      cases h
      exact (checked_error hd).2
    | ok d' =>
      rw [hd] at h
      exact ih _ h

/-- The panic of an eager flush. -/
theorem eager_error {hash : Nat → Nat}
    (h : Simulator.sampleDelta v q gate hash = .error e ∨ v.performU4 ctx allocs q gate = .error e) :
    e = if v.fits q then .chunkSize else .bitIndex :=
  h.elim sampleDelta_error fun h => (performU4_error h).2

theorem measure_ok {b : Bool} {scale : F} (h : v.measure ctx alloc q b scale = .ok w) :
    ∃ t, v.vec.measure ctx alloc q b scale = some t ∧ w = ⟨v.words, t⟩ := by
  obtain ⟨t, ht, rfl⟩ := map_ok h
  exact ⟨t, checked_ok ht, rfl⟩

theorem measure_error {b : Bool} {scale : F} (h : v.measure ctx alloc q b scale = .error e) :
    v.vec.measure ctx alloc q b scale = none ∧ e = if v.fits q then .chunkSize else .bitIndex :=
  checked_error (map_error h)

theorem importDense_ok {values : List (Cplx F)} (h : v.importDense alloc values = .ok w) :
    ∃ t, v.vec.importDense alloc values = some t ∧ w = ⟨v.words, t⟩ := by
  obtain ⟨t, ht, rfl⟩ := map_ok h
  exact ⟨t, checked_ok ht, rfl⟩

theorem importDense_error {values : List (Cplx F)} (h : v.importDense alloc values = .error e) :
    e = .chunkSize := (checked_error (map_error h)).2

end

end AnyVector

namespace Simulator

open Lib.Run

section

variable {F : Type} {sim : Simulator F} {q r : Qubit} {e : Option QubitState}

/-- The simulator with another entry. -/
def withEntry (sim : Simulator F) (q : Qubit) (e : Option QubitState) : Simulator F :=
  { sim with qubits := Function.update sim.qubits q e }

/-- The simulator with another vector. -/
def withState (sim : Simulator F) (state : AnyVector F) : Simulator F := { sim with state }

/-- The simulator with another queue. -/
def withQueue (sim : Simulator F) (sfreeQueue : Queue) : Simulator F := { sim with sfreeQueue }

@[simp] theorem withEntry_ctx : (sim.withEntry q e).ctx = sim.ctx := rfl

@[simp] theorem withEntry_state : (sim.withEntry q e).state = sim.state := rfl

@[simp] theorem withEntry_sfreeQueue : (sim.withEntry q e).sfreeQueue = sim.sfreeQueue := rfl

@[simp] theorem withEntry_same : (sim.withEntry q e).qubits q = e := by
  simp [withEntry]

theorem withEntry_of_ne (h : r ≠ q) : (sim.withEntry q e).qubits r = sim.qubits r := by
  simp [withEntry, h]

/-- A property of every entry, after one of them changed. -/
theorem forall_withEntry {P : Qubit → Option QubitState → Prop} (h : ∀ r, r ≠ q → P r (sim.qubits r))
    (he : P q e) (r : Qubit) : P r ((sim.withEntry q e).qubits r) := by
  by_cases hr : r = q
  · subst hr
    rw [withEntry_same]
    exact he
  · rw [withEntry_of_ne hr]
    exact h r hr

theorem mem_entries {st : QubitState} : (q, st) ∈ sim.entries ↔ sim.qubits q = some st := by
  unfold entries
  rw [List.mem_filterMap]
  constructor
  · rintro ⟨r, -, hr⟩
    obtain ⟨st', hst, he⟩ := Option.map_eq_some_iff.mp hr
    cases he
    exact hst
  · intro h
    exact ⟨q, List.mem_finRange q, by rw [h]; rfl⟩

end

theorem keys_nodup (env : Env) (site : Site) : (env.keys site).Nodup :=
  (List.nodup_finRange _).map (env.order site).injective

theorem mem_keys (env : Env) (site : Site) (q : Qubit) : q ∈ env.keys site :=
  List.mem_map.mpr ⟨(env.order site).symm q, List.mem_finRange _, Equiv.apply_symm_apply _ q⟩

variable {F : Type} {I : Simulator F → Prop} {E : Panic → Prop} {s : Simulator F} {q : Qubit}

/-! ## Changes -/

section

variable {α : Type} {f : Unit → Sim F α} {Q : α → Simulator F → Prop}

theorem wp_setEntry {e : Option QubitState} (hI : I (s.withEntry q e))
    (h : Wp I E (f ()) (s.withEntry q e) Q) : Wp I E (setEntry q e >>= f) s Q := .bind_change hI h

theorem wp_setState {v : AnyVector F} (hI : I (s.withState v)) (h : Wp I E (f ()) (s.withState v) Q) :
    Wp I E (setState v >>= f) s Q := .bind_change hI h

theorem wp_setQueue {g : Queue → Queue} (hI : I (s.withQueue (g s.sfreeQueue)))
    (h : Wp I E (f ()) (s.withQueue (g s.sfreeQueue)) Q) : Wp I E (setQueue g >>= f) s Q :=
  .bind_change hI h

theorem wp_orPanic {r : Option α} (he : r = none → E .assertion) (h : ∀ a, r = some a → Q a s) :
    Wp I E (orPanic r) s Q := by
  cases r with
  | some a => exact .pure (h a rfl)
  | none => exact .fail (he rfl)

theorem wp_orPanic_bind {β : Type} {r : Option β} {f : β → Sim F α} (he : r = none → E .assertion)
    (h : ∀ a, r = some a → Wp I E (f a) s Q) : Wp I E (orPanic r >>= f) s Q :=
  .bind (wp_orPanic (Q := fun a t => r = some a ∧ t = s) he fun _ ha => ⟨ha, rfl⟩)
    fun a _ ⟨ha, ht⟩ => ht ▸ h a ha

theorem wp_pushRz {a : Angle} (hI : I (s.withQueue (s.sfreeQueue.ctlPhase (Control.single q true) a)))
    (h : Wp I E (f ()) (s.withQueue (s.sfreeQueue.ctlPhase (Control.single q true) a)) Q) :
    Wp I E (pushRz q a >>= f) s Q := .bind_change hI h

end

/-! ## Passes over the entries -/

variable {visit : Qubit → QubitState → Sim F (Option QubitState)} {l : List Qubit}

/-- A pass over the entries, with an invariant. -/
theorem wp_retain (J : List Qubit → Simulator F → Prop)
    (hskip : ∀ q l s, J (q :: l) s → s.qubits q = none → J l s)
    (hvisit : ∀ q l s st, J (q :: l) s → s.qubits q = some st →
      Wp I E (visit q st) s fun e t => I (t.withEntry q e) ∧ J l (t.withEntry q e))
    (h : J l s) : Wp I E (retain visit l) s fun _ t => J [] t := by
  induction l generalizing s with
  | nil => exact .pure h
  | cons q l ih =>
    refine .bind_read ?_
    split
    · rename_i hq
      exact ih (hskip q l s h hq)
    · rename_i st hq
      refine .bind (hvisit q l s st h hq) fun e t ht => ?_
      exact .bind_change ht.1 (ih ht.2)

/-- A pass over all entries that takes each from `A` to `B`. A visit changes no other entry. -/
theorem wp_retain_local {A B : Qubit → Option QubitState → Prop} {K : Simulator F → Prop}
    (hnone : ∀ q, A q none → B q none)
    (hvisit : ∀ q s st, K s → A q (some st) → s.qubits q = some st →
      Wp I E (visit q st) s fun e t => t.qubits = s.qubits ∧ B q e ∧ I (t.withEntry q e) ∧
        K (t.withEntry q e))
    (hl : l.Nodup) (hall : ∀ q, q ∈ l) (hs : K s) (hA : ∀ q, A q (s.qubits q)) :
    Wp I E (retain visit l) s fun _ t => K t ∧ ∀ q, B q (t.qubits q) := by
  have h := @wp_retain F I E s visit l (fun l s => l.Nodup ∧ K s ∧ (∀ q ∈ l, A q (s.qubits q)) ∧
    ∀ q, q ∉ l → B q (s.qubits q)) ?_ ?_ ⟨hl, hs, fun q _ => hA q, fun q hq => absurd (hall q) hq⟩
  · exact h.mono fun _ t ht => ⟨ht.2.1, fun q => ht.2.2.2 q List.not_mem_nil⟩
  · rintro q l s ⟨hnd, hK, hA, hB⟩ hq
    refine ⟨hnd.of_cons, hK, fun r hr => hA r (List.mem_cons_of_mem _ hr), fun r hr => ?_⟩
    by_cases h : r = q
    · subst h
      rw [hq]
      refine hnone r ?_
      rw [← hq]
      exact hA r (List.mem_cons_self ..)
    · exact hB r (fun hm => (List.mem_cons.mp hm).elim h hr)
  · rintro q l s st ⟨hnd, hK, hA, hB⟩ hq
    have hAq : A q (some st) := hq ▸ hA q (List.mem_cons_self ..)
    refine (hvisit q s st hK hAq hq).mono fun e t ⟨ht, hBq, hI, hK'⟩ => ⟨hI, hnd.of_cons, hK', ?_, ?_⟩
    · intro r hr
      have hne : r ≠ q := fun h => (List.nodup_cons.mp hnd).1 (h ▸ hr)
      rw [withEntry_of_ne hne, ht]
      exact hA r (List.mem_cons_of_mem _ hr)
    · intro r hr
      by_cases h : r = q
      · subst h
        rw [withEntry_same]
        exact hBq
      · rw [withEntry_of_ne h, ht]
        exact hB r (fun hm => (List.mem_cons.mp hm).elim h hr)

/-! ## New simulators -/

variable [Field F]

theorem new_cases {ctx : Context} {alloc : Bool} {sim : Simulator F} (h : new ctx alloc = .ok sim) :
    ∃ v : Statevector (numWords ctx.initMaxQubit) F,
      Statevector.new (numWords ctx.initMaxQubit) alloc = some v ∧
      sim = newWithState ctx ⟨numWords ctx.initMaxQubit, v⟩ ∧ 0 < ctx.numThreads ∧
      0 < ctx.chunkSize := by
  obtain ⟨v, hv, hnew⟩ := @AnyVector.new_ok F _ alloc ctx.initMaxQubit
  unfold new at h
  split at h
  · cases h
  · rename_i hc
    rw [hnew] at h
    cases h
    push Not at hc
    exact ⟨v, hv, rfl, hc⟩

/-! ## Eager flushes -/

variable [LinearOrder F] [Eps F] [Scalar F] {env : Env} {site : Site} {gate : U3}

/-- An eager flush does nothing, or applies the gate to the vector. -/
theorem wp_maybeEagerFlush {Q : Bool → Simulator F → Prop} (hno : Q false s)
    (hyes : ∀ v, gate.isSfree PREC = false → q.val ≤ s.state.maxQubit →
      s.state.performU4 s.ctx (env.alloc site q) q (U4.ofU3 gate) = .ok v →
      I (s.withState v) ∧ Q true (s.withState v))
    (herr : ∀ e, q.val ≤ s.state.maxQubit → 32 * N_SAMP < s.state.len →
      sampleDelta s.state q (U4.ofU3 gate) (env.hash site q) = .error e ∨
        s.state.performU4 s.ctx (env.alloc site q) q (U4.ofU3 gate) = .error e → E e) :
    Wp I E (maybeEagerFlush env site q gate) s Q := by
  refine .bind_read ?_
  split
  · exact .pure hno
  split
  · exact .pure hno
  split
  · exact .pure hno
  · rename_i hsfree hmax hlen
    have hmax := Nat.le_of_not_lt hmax
    have hlen := Nat.lt_of_not_le hlen
    refine .bind_ofExcept (fun e he => herr e hmax hlen (.inl he)) fun delta _ => ?_
    split
    · exact .pure hno
    · refine .bind_ofExcept (fun e he => herr e hmax hlen (.inr he)) fun v hv => ?_
      obtain ⟨hI, hQ⟩ := hyes v (by simpa using hsfree) hmax hv
      exact .bind_change hI (.pure hQ)

/-- The collapse of `measure` does nothing, or collapses the vector. -/
theorem wp_collapse {v : Bool} {r0 r1 : F} {Q : Unit → Simulator F → Prop}
    (hno : (if v then r0 else r1) = 0 → Q () s)
    (hyes : (if v then r0 else r1) ≠ 0 → ∀ w, s.state.measure s.ctx (env.alloc .measure q 0) q v
      (Scalar.sqrt (if v then r1 else r0)) = .ok w → I (s.withState w) ∧ Q () (s.withState w))
    (herr : (if v then r0 else r1) ≠ 0 → ∀ e, s.state.measure s.ctx (env.alloc .measure q 0) q v
      (Scalar.sqrt (if v then r1 else r0)) = .error e → E e) :
    Wp I E (collapse env q v r0 r1) s Q := by
  unfold collapse
  by_cases h : (if v then r0 else r1) ≠ 0
  · rw [if_pos h]
    exact .bind_read (.bind_ofExcept (herr h) fun w hw => .change (hyes h w hw).1 (hyes h w hw).2)
  · rw [if_neg h]
    exact .pure (hno (not_not.mp h))

/-- `qubit_probs` changes what `premeasure` changes. -/
theorem wp_qubitProbs {Q : Simulator F → Prop} (h : Wp I E (premeasure env q) s fun _ t => Q t) :
    Wp I E (qubitProbs env q) s fun _ t => Q t := by
  refine .bind h fun r t ht => ?_
  simp only
  split
  · exact .pure ht
  · exact .pure ht

/-! ## Properties that do not depend on the entries -/

/-- A property of the vector and the queue that an eager flush keeps, with the panics of one. -/
structure Stable (env : Env) (I : Simulator F → Prop) (E : Panic → Prop) : Prop where
  entry : ∀ {s q e}, I s → I (s.withEntry q e)
  eager : ∀ {s site q gate v}, I s → q.val ≤ s.state.maxQubit →
    s.state.performU4 s.ctx (env.alloc site q) q (U4.ofU3 gate) = .ok v → I (s.withState v)
  error : ∀ {s site q gate e}, I s → q.val ≤ s.state.maxQubit → 32 * N_SAMP < s.state.len →
    sampleDelta s.state q (U4.ofU3 gate) (env.hash site q) = .error e ∨
      s.state.performU4 s.ctx (env.alloc site q) q (U4.ofU3 gate) = .error e → E e

variable {st : QubitState}

theorem Stable.maybeEagerFlush (h : Stable env I E) (hs : I s) :
    Wp I E (maybeEagerFlush env site q gate) s fun _ t => I t := by
  refine wp_maybeEagerFlush hs (fun v _ hmax hv => ?_) fun e hmax hlen he => h.error hs hmax hlen he
  exact ⟨h.eager hs hmax hv, h.eager hs hmax hv⟩

theorem Stable.visitEager (h : Stable env I E) (hs : I s) :
    Wp I E (visitEager env site q st) s fun _ t => I t :=
  .bind (h.maybeEagerFlush hs) fun _ _ ht => .pure ht

theorem Stable.visitFirst (h : Stable env I E) (hs : I s) :
    Wp I E (visitFirst env q st) s fun _ t => I t := by
  refine .bind_read ?_
  split
  · exact .pure hs
  split
  · exact .pure hs
  split
  · exact .pure hs
  · exact h.visitEager hs

theorem Stable.visitSecond (h : Stable env I E) (hs : I s) :
    Wp I E (visitSecond env q st) s fun _ t => I t := by
  unfold Simulator.visitSecond
  split
  · exact .pure hs
  · exact h.visitEager hs

omit [Field F] [LinearOrder F] [Eps F] [Scalar F] in
/-- A pass whose visits keep the property. -/
theorem wp_retain_stable (hentry : ∀ s q e, I s → I (s.withEntry q e))
    (hvisit : ∀ q st s, I s → Wp I E (visit q st) s fun _ t => I t) (hs : I s) :
    Wp I E (retain visit l) s fun _ t => I t := by
  refine wp_retain (fun _ t => I t) (fun _ _ _ hs _ => hs) (fun q l s st hs _ => ?_) hs
  exact (hvisit q st s hs).mono fun e t ht => ⟨hentry t q e ht, hentry t q e ht⟩

/-- The first pass of `_flush`. -/
theorem Stable.first (h : Stable env I E) (hs : I s) :
    Wp I E (retain (Simulator.visitFirst env) l) s fun _ t => I t :=
  wp_retain_stable (fun _ _ _ => h.entry) (fun _ _ _ hs => h.visitFirst hs) hs

/-- The second pass of `_flush`. -/
theorem Stable.second (h : Stable env I E) (hs : I s) :
    Wp I E (retain (Simulator.visitSecond env) l) s fun _ t => I t :=
  wp_retain_stable (fun _ _ _ => h.entry) (fun _ _ _ hs => h.visitSecond hs) hs

section

variable {R : Type} {p : Preflush R}

omit [Eps F] in
theorem wp_preflushMatch_stable (hentry : ∀ {s q e}, I s → I (s.withEntry q e))
    (hpush : ∀ {s q a}, I s → I (s.withQueue (s.sfreeQueue.ctlPhase (Control.single q true) a)))
    (hE : E .debugAssertion) (hs : I s) : Wp I E (preflushMatch p q st) s fun _ t => I t := by
  unfold preflushMatch
  split
  · split
    · refine wp_pushRz (hpush hs) (wp_setEntry (hentry (hpush hs))
        (wp_setEntry (hentry (hentry (hpush hs))) ?_))
      split
      · exact .fail hE
      · exact .pure (hentry (hentry (hpush hs)))
    · exact .pure hs
  · split
    · exact wp_setEntry (hentry hs) (.pure (hentry hs))
    split
    · refine wp_setEntry (hentry hs) ?_
      split
      · exact wp_pushRz (hpush (hentry hs)) (wp_setEntry (hentry (hpush (hentry hs)))
          (.pure (hentry (hpush (hentry hs)))))
      · exact .pure (hentry hs)
    split
    · exact wp_setEntry (hentry hs) (.pure (hentry hs))
    split
    · exact wp_setEntry (hentry hs) (.pure (hentry hs))
    · exact wp_setEntry (hentry hs) (.pure (hentry hs))

/-- `_preflush` keeps a property that the operations it queues keep. -/
theorem Stable.preflush (h : Stable env I E) (hx : ∀ {s q}, I s → I (s.withQueue (s.sfreeQueue.x q)))
    (hpush : ∀ {s q a}, I s → I (s.withQueue (s.sfreeQueue.ctlPhase (Control.single q true) a)))
    (hE : E .debugAssertion) (hs : I s) : Wp I E (preflush p env q) s fun _ t => I t := by
  refine .bind_read ?_
  split
  · exact .pure hs
  split
  · unfold preflushSfree
    split
    · exact .pure hs
    · refine .bind (Q := fun _ t => I t) (.when (fun _ => .change (hx hs) (hx hs)) fun _ => hs)
        fun _ t hs => ?_
      split
      · split
        · exact .pure hs
        · exact wp_pushRz (hpush hs) (wp_setEntry (h.entry (hpush hs)) (.pure (h.entry (hpush hs))))
      · exact wp_setEntry (h.entry hs) (.pure (h.entry hs))
  · split
    · exact .fail hE
    split
    · refine .bind (h.maybeEagerFlush hs) fun flushed t ht => ?_
      split
      · exact wp_setEntry (h.entry ht) (.pure (h.entry ht))
      · exact wp_setEntry (h.entry ht) (wp_preflushMatch_stable h.entry hpush hE (h.entry ht))
    · exact wp_preflushMatch_stable h.entry hpush hE hs

end

/-! ## The queue -/

theorem stable_queue (k : Queue) :
    Stable env (fun s : Simulator F => s.sfreeQueue = k) fun _ => True where
  entry h := h
  eager h _ _ := h
  error _ _ _ _ := trivial

/-- `_flush` empties the queue, or leaves it as it is. -/
theorem wp_innerFlush_queue {alsoSfree : Bool} :
    Wp (fun _ => True) (fun _ => True) (innerFlush env alsoSfree) s fun _ t =>
      t.sfreeQueue = if s.needsSfree alsoSfree then s.sfreeQueue.clear else s.sfreeQueue := by
  have hweak : ∀ {k : Queue} {m : Sim F Unit} {s : Simulator F},
      Wp (fun t : Simulator F => t.sfreeQueue = k) (fun _ => True) m s
        (fun _ t => t.sfreeQueue = k) →
      Wp (fun _ => True) (fun _ => True) m s fun _ t => t.sfreeQueue = k :=
    fun h => h.imp (fun _ _ => trivial) (fun _ h => h) fun _ _ h => h
  refine .bind_read (.bind (hweak ((stable_queue s.sfreeQueue).first rfl)) fun _ t ht => ?_)
  refine .bind_read (.bind (Q := fun _ t => t.sfreeQueue = s.sfreeQueue) ?_ fun _ u hu => ?_)
  · refine .bind_read ?_
    split
    · exact .pure ht
    · exact .bind_ofExcept (fun _ _ => trivial) fun _ _ =>
        .bind_ofExcept (fun _ _ => trivial) fun _ _ => .change trivial ht
  · refine .bind (Q := fun _ t => t.sfreeQueue =
      if s.needsSfree alsoSfree then s.sfreeQueue.clear else s.sfreeQueue) (.when (fun hn => ?_)
      fun hn => ?_) fun _ v hv => ?_
    · rw [hn, if_pos rfl]
      refine .bind_read (.bind_ofExcept (fun _ _ => trivial) fun _ _ => wp_setState trivial ?_)
      refine wp_setQueue trivial (hweak ((stable_queue _).second ?_))
      exact congrArg Queue.clear hu
    · rw [hn, if_neg (by decide)]
      exact hu
    · generalize (if s.needsSfree alsoSfree then s.sfreeQueue.clear else s.sfreeQueue) = k at hv ⊢
      refine hweak (wp_retain_stable (fun _ _ _ h => h) (fun q st t ht => ?_) hv)
      unfold visitThird
      split
      · exact .pure ht
      split
      · exact .fail trivial
      · exact .bind_read (.bind_ofExcept (fun _ _ => trivial) fun _ _ => wp_setState ht (.pure ht))

end Simulator

end Qblaze
