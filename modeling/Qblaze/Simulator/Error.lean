import Qblaze.Simulator.Bookkeeping
import Qblaze.Simulator.Range

/-!
# After a failed reservation

A reservation that fails empties the vector, and `is_error` tells that it is empty. Gates are queued as
before. An empty vector cannot be cut into chunks, so that the operations that do this panic.

* `kept_dead`: no call but `reset_state` and `import_dense` leaves the error, at any moment.
* `wp_innerFlush_dead`, `wp_innerFlush_stuck`: `_flush` panics if and only if it applies a queue that
  does not compile to nothing.
* `error_sticky_iff`: which calls return after a failed reservation. A measurement never returns what
  its documentation says.
-/

namespace Qblaze

open Lib.Run

/-! ## Empty vectors -/

namespace Statevector

variable {N M : Nat} {F : Type} {s t : Statevector N F} {ctx : Context} {q : Qubit}

theorem inv_of_isEmpty (h : s.isEmpty = true) (hp : s.PartFits) : s.Inv := by
  have hl : s.part0 ++ s.part1 = [] := isEmpty_iff.mp h
  obtain ⟨h0, h1⟩ := List.append_eq_nil_iff.mp hl
  refine ⟨h0 ▸ List.Pairwise.nil, h1 ▸ List.Pairwise.nil, fun a ha => ?_, fun r hr => ⟨hp r hr, ?_, ?_⟩⟩
  · rw [h0] at ha
    exact absurd ha List.not_mem_nil
  · rw [h0]
    exact fun _ he => absurd he List.not_mem_nil
  · rw [h1]
    exact fun _ he => absurd he List.not_mem_nil

theorem importFrom_isEmpty {data : Statevector M F} {alloc : Bool} (hd : data.isEmpty = true)
    (h : s.importFrom alloc data = some t) : t.isEmpty = true := by
  rcases importFrom_cases h with ⟨-, rfl⟩ | ⟨-, rfl⟩
  · rfl
  · have hl : data.part0 ++ data.part1 = [] := isEmpty_iff.mp hd
    rw [isEmpty_iff, elements, ← List.map_append, hl]
    rfl

theorem u4_isEmpty [Field F] [LinearOrder F] [Eps F] {gate : U4 F} (h : s.isEmpty = true)
    (alloc : Nat → Bool) : (s.u4 alloc q gate).isEmpty = true := by
  have hl : (s.partitionOn (alloc 0) q).part0 ++ (s.partitionOn (alloc 0) q).part1 = [] :=
    isEmpty_iff.mp (partitionOn_isEmpty (.inl h))
  obtain ⟨h0, h1⟩ := List.append_eq_nil_iff.mp hl
  have hi : (s.partitionOn (alloc 0) q).u4Items q = [] := by
    rw [u4Items, h0, h1, mergeEq_nil_left]
    rfl
  unfold u4
  simp only
  split
  · rw [isEmpty, len, u4Result, hi]
    rfl
  · rfl

end Statevector

/-! ## The error -/

namespace Simulator

/-- The vector is empty, and otherwise in order. -/
structure Dead {F : Type} (s : Simulator F) : Prop where
  empty : s.isError = true
  words : 0 < s.state.words
  part : s.state.vec.PartFits
  positive : s.ctx.Positive

/-- The panics other than those of an empty chunk. -/
def NotChunk (e : Panic) : Prop := e ≠ .chunkSize

section

variable {F : Type} {s t : Simulator F} {q : Qubit} {env : Env}

theorem Dead.entry (h : Dead s) {e : Option QubitState} : Dead (s.withEntry q e) :=
  ⟨h.empty, h.words, h.part, h.positive⟩

theorem Dead.withQueue (h : Dead s) (k : Queue) : Dead (s.withQueue k) :=
  ⟨h.empty, h.words, h.part, h.positive⟩

theorem Dead.inv (h : Dead s) : s.state.vec.Inv := Statevector.inv_of_isEmpty h.empty h.part

theorem Dead.len (h : Dead s) : s.state.len = 0 := eq_of_beq h.empty

/-- The flags that `_flush` looks at for the largest qubit. -/
def SameMust (e e' : Option QubitState) : Prop := e'.map (·.mustFlush) = e.map (·.mustFlush)

theorem flushMax_congr (hk : t.sfreeQueue = s.sfreeQueue)
    (hm : ∀ q, SameMust (s.qubits q) (t.qubits q)) (alsoSfree : Bool) :
    t.flushMax alsoSfree = s.flushMax alsoSfree := by
  have hfold : ∀ (u : Simulator F) (m : Qubit),
      u.entries.foldl (fun m p => if p.2.mustFlush && decide (m < p.1) then p.1 else m) m =
        ((List.finRange (62 * 64)).filterMap fun q =>
          ((u.qubits q).map (·.mustFlush)).map (q, ·)).foldl
            (fun m p => if p.2 && decide (m < p.1) then p.1 else m) m := by
    intro u m
    have hmap : ((List.finRange (62 * 64)).filterMap fun q =>
        ((u.qubits q).map (·.mustFlush)).map (q, ·)) =
          u.entries.map fun p => (p.1, p.2.mustFlush) := by
      rw [entries, List.map_filterMap]
      congr 1
      funext q
      cases u.qubits q <;> rfl
    rw [hmap, List.foldl_map]
  unfold flushMax
  rw [hfold, hfold, hk]
  congr 2
  funext q
  rw [hm q]

/-- A queue that compiles to nothing leaves the vector as it is. -/
theorem performSfree_of_none [Field F] [Scalar F] {v : AnyVector F} {ctx : Context} {alloc : Nat → Bool}
    {k : Queue} (h : (k.compile v.words Stat.default PREC).1 = none) : v.performSfree ctx alloc k = .ok v := by
  unfold AnyVector.performSfree Statevector.performSfree
  cases hop : k.compile v.words Stat.default PREC with
  | mk op stat =>
    rw [hop] at h
    have hop : op = none := h
    subst hop
    rfl

/-- A queue that is not trivial cannot be applied to an empty vector. -/
theorem Dead.performSfree [Field F] [Scalar F] (hs : Dead s) {alloc : Nat → Bool} {v : AnyVector F}
    (h : (s.sfreeQueue.compile s.state.words Stat.default PREC).1 ≠ none) :
    s.state.performSfree s.ctx alloc s.sfreeQueue ≠ .ok v := by
  intro hv
  obtain ⟨t, ht, -⟩ := AnyVector.performSfree_ok hv
  unfold Statevector.performSfree at ht
  cases hop : s.sfreeQueue.compile s.state.words Stat.default PREC with
  | mk op stat =>
    rw [hop] at h ht
    cases op with
    | none => exact h rfl
    | some op =>
      simp only at ht
      rw [Statevector.applyProgram_none hs.positive hs.inv (.inl hs.empty)] at ht
      cases ht

variable [Field F] [LinearOrder F] [Eps F]

theorem Dead.performU4 (h : Dead s) {alloc : Nat → Bool} {gate : U4 F} {v : AnyVector F}
    (h4 : s.state.performU4 s.ctx alloc q gate = .ok v) :
    Dead (s.withState v) ∧ v.words = s.state.words := by
  obtain ⟨t, ht, rfl⟩ := AnyVector.performU4_ok h4
  obtain ⟨-, rfl⟩ := Statevector.performU4_of_some h.inv ht
  exact ⟨⟨Statevector.u4_isEmpty h.empty alloc, h.words, Statevector.performU4_partFits ht, h.positive⟩,
    rfl⟩

/-- A gate on an empty vector does not cut it into chunks. -/
theorem Dead.performU4_error (h : Dead s) {alloc : Nat → Bool} {gate : U4 F} {e : Panic}
    (h4 : s.state.performU4 s.ctx alloc q gate = .error e) : NotChunk e := by
  obtain ⟨hnone, rfl⟩ := AnyVector.performU4_error h4
  cases hf : s.state.fits q with
  | true =>
    rw [Statevector.performU4_eq h.positive h.inv (of_decide_eq_true hf)] at hnone
    cases hnone
  | false => exact nofun

end

variable {F : Type} [Field F] [LinearOrder F] [Eps F] [Scalar F] {s t : Simulator F} {q : Qubit}
  {env : Env} {site : Site} {gate : U3} {I : Simulator F → Prop} {E : Panic → Prop}

/-- There are no samples of an empty vector. -/
theorem wp_maybeEagerFlush_dead (hs : Dead s) :
    Wp I E (maybeEagerFlush env site q gate) s fun b t => b = false ∧ t = s := by
  refine .bind_read ?_
  split
  · exact .pure ⟨rfl, rfl⟩
  split
  · exact .pure ⟨rfl, rfl⟩
  · rw [if_pos (by rw [hs.len]; exact Nat.zero_le _)]
    exact .pure ⟨rfl, rfl⟩

theorem wp_visitEager_dead (hs : Dead s) {st : QubitState} :
    Wp I E (visitEager env site q st) s fun e t =>
      t = s ∧ e = some { st with maybeDestructive := false } :=
  .bind (wp_maybeEagerFlush_dead hs) fun b t ⟨hb, ht⟩ => .pure ⟨ht, by rw [hb]; rfl⟩

/-- No gate is applied to the vector before `_flush`. -/
theorem queued_dead (env : Env) (ha : E .assertion) (hd : E .debugAssertion) :
    Queued env (Dead (F := F)) E where
  entry h := h.entry
  eager h _ hv := (h.performU4 hv).1
  error h _ hlen _ := absurd hlen (by rw [h.len]; omega)
  assertion := ha
  debugAssertion := hd
  push h _ := h.withQueue _

/-! ## Flushing -/

/-- The number of words after `_flush`. -/
def flushedWords (s : Simulator F) (alsoSfree : Bool) : Nat :=
  s.grownWords (s.flushMax (s.needsSfree alsoSfree))

/-- `_flush` applies no queue, or one that compiles to nothing. -/
def Passes (s : Simulator F) (alsoSfree : Bool) : Prop :=
  s.needsSfree alsoSfree = true →
    (s.sfreeQueue.compile (s.flushedWords alsoSfree) Stat.default PREC).1 = none

/-- The first pass of `_flush` changes nothing that matters later in it. -/
theorem wp_first_dead (hs : Dead s) :
    Wp Dead E (retain (visitFirst env) (env.keys .first)) s fun _ t =>
      (Dead t ∧ t.state = s.state ∧ t.sfreeQueue = s.sfreeQueue) ∧
        ∀ q, SameMust (s.qubits q) (t.qubits q) := by
  refine wp_retain_local (fun _ h => h) (fun q u st hu hm hq => ?_) (keys_nodup env .first)
    (mem_keys env .first) ⟨hs, rfl, rfl⟩ fun _ => rfl
  have hkeep : ∀ b, SameMust (s.qubits q) (some { st with maybeDestructive := b }) := fun _ => hm
  refine .bind_read ?_
  split
  · exact .pure ⟨rfl, hm, hu.1.entry, hu.1.entry, hu.2⟩
  split
  · exact .pure ⟨rfl, hkeep true, hu.1.entry, hu.1.entry, hu.2⟩
  split
  · exact .pure ⟨rfl, hm, hu.1.entry, hu.1.entry, hu.2⟩
  · refine (wp_visitEager_dead hu.1).mono fun e t ⟨ht, he⟩ => ?_
    subst ht he
    exact ⟨rfl, hkeep false, hu.1.entry, hu.1.entry, hu.2⟩

omit [LinearOrder F] [Eps F] [Scalar F] in
/-- An empty vector grows to an empty one. -/
theorem wp_ensureQubit_dead (hs : Dead s) :
    Wp Dead E (ensureQubit env q) s fun _ t =>
      Dead t ∧ t.state.words = s.grownWords q ∧ t.sfreeQueue = s.sfreeQueue := by
  refine wp_ensureQubit hs.words hs.part (fun _ hg => ⟨hs, hg.symm, rfl⟩) ?_
  intro _ hg v t hv ht
  have hdead : Dead (s.withState ⟨numWords q, t⟩) := by
    refine ⟨Statevector.importFrom_isEmpty hs.empty ht, AnyVector.numWords_pos q, fun p hp => ?_,
      hs.positive⟩
    rcases Statevector.importFrom_cases ht with ⟨-, rfl⟩ | ⟨hfit, rfl⟩
    · exact ((Statevector.new_inv hv).2.partitioned p hp).1
    · exact hfit p hp
  exact ⟨hdead, hdead, hg.symm, rfl⟩

/-- A pass that changes the vector only by gates on an empty one keeps its words. -/
theorem wp_second_dead {W : Nat} (hs : Dead s) (hW : s.state.words = W) {l : List Qubit} :
    Wp Dead E (retain (visitSecond env) l) s fun _ t => Dead t ∧ t.state.words = W := by
  refine wp_retain (fun _ t => Dead t ∧ t.state.words = W) (fun _ _ _ h _ => h)
    (fun q l t st ht _ => ?_) ⟨hs, hW⟩
  unfold visitSecond
  split
  · exact .pure ⟨ht.1.entry, ht.1.entry, ht.2⟩
  · refine (wp_visitEager_dead ht.1).mono fun e u ⟨hu, _⟩ => ?_
    subst hu
    exact ⟨ht.1.entry, ht.1.entry, ht.2⟩

theorem wp_third_dead {W : Nat} (hs : Dead s) (hW : s.state.words = W) {l : List Qubit} :
    Wp Dead NotChunk (retain (visitThird env) l) s fun _ t => Dead t ∧ t.state.words = W := by
  refine wp_retain (fun _ t => Dead t ∧ t.state.words = W) (fun _ _ _ h _ => h)
    (fun q l t st ht _ => ?_) ⟨hs, hW⟩
  unfold visitThird
  split
  · exact .pure ⟨ht.1.entry, ht.1.entry, ht.2⟩
  split
  · exact .fail nofun
  · refine .bind_read (.bind_ofExcept (fun e he => ht.1.performU4_error he) fun v hv => ?_)
    obtain ⟨hdead, hw⟩ := ht.1.performU4 hv
    exact wp_setState hdead (.pure ⟨hdead.entry, hdead.entry, hw.trans ht.2⟩)

/-- `_flush` up to the queue. -/
theorem wp_innerFlush_grown (hs : Dead s) {alsoSfree : Bool} {Q : Unit → Simulator F → Prop}
    (h : ∀ t, Dead t → t.state.words = s.flushedWords alsoSfree → t.sfreeQueue = s.sfreeQueue →
      Wp Dead E (do
        when (s.needsSfree alsoSfree) (flushSfree env)
        retain (visitThird env) (env.keys .third)) t Q) :
    Wp Dead E (innerFlush env alsoSfree) s Q := by
  refine .bind_read (.bind (wp_first_dead hs) fun _ t ⟨⟨ht, hstate, hk⟩, hm⟩ => .bind_read ?_)
  refine .bind (wp_ensureQubit_dead ht) fun _ u ⟨hu, hw, hku⟩ => h u hu ?_ (hku.trans hk)
  rw [hw, flushMax_congr hk hm, flushedWords, grownWords, grownWords, hstate]

theorem wp_innerFlush_dead (hs : Dead s) {alsoSfree : Bool} (hp : s.Passes alsoSfree) :
    Wp Dead NotChunk (innerFlush env alsoSfree) s fun _ t =>
      Dead t ∧ t.state.words = s.flushedWords alsoSfree := by
  refine wp_innerFlush_grown hs fun t ht hw hk => ?_
  refine .bind (Q := fun _ u => Dead u ∧ u.state.words = s.flushedWords alsoSfree) ?_
    fun _ u hu => wp_third_dead hu.1 hu.2
  refine .when (fun hn => .bind_read ?_) fun _ => ⟨ht, hw⟩
  have hnone := hp hn
  rw [← hw, ← hk] at hnone
  rw [performSfree_of_none hnone]
  refine .bind_ofExcept (fun _ he => nomatch he) fun v hv => ?_
  cases hv
  have hclear : Dead ((t.withState t.state).withQueue t.sfreeQueue.clear) := ht.withQueue _
  exact wp_setState ht (wp_setQueue hclear (wp_second_dead hclear hw))

theorem wp_innerFlush_stuck (hs : Dead s) {alsoSfree : Bool} (hp : ¬ s.Passes alsoSfree) :
    Wp Dead (fun _ => True) (innerFlush env alsoSfree) s fun _ _ => False := by
  unfold Passes at hp
  push Not at hp
  obtain ⟨hn, hsome⟩ := hp
  refine wp_innerFlush_grown hs fun t ht hw hk => ?_
  rw [hn]
  refine .bind (Q := fun _ _ => False) (.bind_read ?_) fun _ _ hf => hf.elim
  refine .bind_ofExcept (fun _ _ => trivial) fun v hv => ?_
  rw [← hw, ← hk] at hsome
  exact absurd hv (ht.performSfree hsome)

/-- At every moment of a gate or of a flush the vector stays empty, whether or not it panics. -/
theorem kept_dead (env : Env) : Kept env (Dead (F := F)) fun _ => True where
  toQueued := queued_dead env trivial trivial
  flush hs := by
    rename_i s alsoSfree
    by_cases hp : s.Passes alsoSfree
    · exact (wp_innerFlush_dead hs hp).imp (fun _ h => h) (fun _ _ => trivial) fun _ _ h => h.1
    · exact (wp_innerFlush_stuck hs hp).mono fun _ _ h => h.elim

/-- `premeasure` panics, unless the qubit is past the end of the vector. -/
theorem wp_premeasure_dead (hs : Dead s) :
    Wp Dead (fun _ => True) (premeasure env q) s fun r t =>
      Dead t ∧ t.state.maxQubit < q.val ∧ r.2 = (1, 0) := by
  refine ((kept_dead env).premeasure hs fun _ _ _ _ _ => trivial).mono fun r t ⟨ht, hpast, hstored⟩ => ?_
  rcases Nat.lt_or_ge t.state.maxQubit q.val with hq | hq
  · exact ⟨ht, hq, hpast hq⟩
  · have h := AnyVector.premeasure_ok (hstored hq)
    rw [Statevector.premeasure_empty ht.empty] at h
    cases h

/-- `measure` panics, or returns probabilities. -/
theorem wp_measure_dead {s : Simulator ℝ} [Eps ℝ] (hs : Dead s) {bias : BitVec 64} :
    Wp Dead (fun _ => True) (measure env q bias) s fun r t => Dead t ∧ r.2 ≠ none := by
  refine .bind (wp_premeasure_dead hs) fun r t ⟨ht, _, hr⟩ => ?_
  obtain ⟨invert, r0, r1⟩ := r
  cases hr
  rw [if_neg (by norm_num), selectOutcome_one_zero]
  refine .bind (Q := fun _ u => Dead u) ?_ fun _ u hu => .pure ⟨hu, nofun⟩
  exact wp_collapse (fun _ => ht) (fun hne => absurd rfl hne) fun hne => absurd rfl hne

end Simulator

namespace Call

/-- The calls that give the simulator a new vector. -/
def Restarts {F : Type} : Call F → Prop
  | .resetState | .importDense _ => True
  | _ => False

/-- The arguments meet the assertions at the start of the method. -/
def Valid {F : Type} : Call F → Prop
  | .ctlX ctl q => ctl.uses q = false
  | .ctlSwap ctl q1 q2 => ctl.uses q1 = false ∧ ctl.uses q2 = false ∧ q1 ≠ q2
  | _ => True

variable {F : Type} [Field F] [LinearOrder F] [Eps F] [Scalar F]

open Simulator in
/-- The prefix of the method up to `_flush`: the same steps, and then the argument that `_flush` would get
instead of the call of it. `none` for a call that does not flush. -/
def prepare (env : Env) : Call F → Sim F (Option Bool)
  | ctlX ctl q =>
    if ctl.isAlways then return none
    else if ctl.uses q then fail .assertion
    else do
      let isH ← preflush Preflush.x env q
      match isH with
      | some qInv => do
        let r ← preflushCtlH env ctl
        let _ ← orPanic (r.1.withQubit q !qInv)
        return some false
      | none => do
        let _ ← preflushCtl env ctl
        return some false
  | ctlSwap ctl q1 q2 =>
    if ctl.uses q1 ∨ ctl.uses q2 ∨ q1 = q2 then fail .assertion
    else do
      let _ ← preflushCtl env ctl
      preflush Preflush.i env q1
      preflush Preflush.i env q2
      return some false
  | ctlPhase ctl a =>
    match ctl.items with
    | [] => return none
    | [_] => return none
    | _ =>
      if a.round PREC = Angle.PI then do
        let _ ← preflushCtlH env ctl
        return some false
      else do
        let _ ← preflushCtl env ctl
        return some false
  | measure q _ | qubitProbs q => do
    let _ ← preflush Preflush.ctl env q
    let sim ← read
    return some (sim.sfreeQueue.writes q)
  | flush => do
    let sim ← read
    each (preflush Preflush.i env) ((env.keys .keys).filter fun q => (sim.qubits q).isSome)
    return some true
  | u3 _ _ | trim | resetState | importDense _ => return none

end Call

namespace Simulator

variable {F : Type} [Field F] [LinearOrder F] [Eps F] [Scalar F] {s t : Simulator F} {q : Qubit}
  {env : Env} {ctl : Control} {E : Panic → Prop} {P : Prop}

/-- What is known of `_flush` wherever a call gets to it. -/
def FlushEnds (env : Env) (E : Panic → Prop) (P : Prop) (call : Call F) (s : Simulator F) : Prop :=
  ∀ b t, Dead t → (call.prepare env).result s = .ok (some b, t) →
    Wp Dead E (innerFlush env b) t fun _ u => Dead u ∧ P

/-- The call gets to `_flush`. -/
def Flushes (env : Env) (call : Call F) (s : Simulator F) : Prop :=
  ∃ b t, (call.prepare env).result s = .ok (some b, t)

theorem not_flushes {call : Call F} (h : (call.prepare env).result s = .ok (none, s)) :
    ¬ Flushes env call s := by
  rintro ⟨b, t, hr⟩
  rw [h] at hr
  cases hr

/-- `_flush` and a new operation. -/
theorem wp_push_prepared {call : Call F} {u : Simulator F} (hf : FlushEnds env E P call s)
    (hu : Dead u) (hprep : (call.prepare env).result s = .ok (some false, u)) {g : Queue → Queue} :
    Wp Dead E (do innerFlush env false; setQueue g) u fun _ v => Dead v ∧ (Flushes env call s → P) :=
  .bind (hf false u hu hprep) fun _ _ hv => .change (hv.1.withQueue _) ⟨hv.1.withQueue _, fun _ => hv.2⟩

theorem wp_ctlX_prepared (hs : Dead s) (ha : E .assertion) (hd : E .debugAssertion)
    (hf : FlushEnds env E P (.ctlX ctl q) s) :
    Wp Dead E (ctlX env ctl q) s fun _ t => Dead t ∧ (Flushes env (.ctlX ctl q) s → P) := by
  have hk := queued_dead (F := F) env ha hd
  unfold ctlX
  by_cases hal : ctl.isAlways = true
  · rw [if_pos hal]
    refine (hk.u3 hs).mono fun _ t ht => ⟨ht, fun h => absurd h (not_flushes ?_)⟩
    rw [Call.prepare, if_pos hal]
    rfl
  by_cases hu : ctl.uses q = true
  · rw [if_neg hal, if_pos hu]
    exact .fail ha
  have hprep : (Call.ctlX ctl q : Call F).prepare env = do
      let isH ← preflush Preflush.x env q
      match isH with
      | some qInv => do
        let r ← preflushCtlH env ctl
        let _ ← orPanic (r.1.withQubit q !qInv)
        return some false
      | none => do
        let _ ← preflushCtl env ctl
        return some false := by
    rw [Call.prepare, if_neg hal, if_neg hu]
  rw [if_neg hal, if_neg hu]
  refine .bind (hk.preflush hs).known fun isH t ⟨ht, hrt⟩ => ?_
  cases isH with
  | some qInv =>
    refine .bind (hk.preflushCtlH ht).known fun r u ⟨hu, hru⟩ => ?_
    refine wp_orPanic_bind (fun _ => ha) fun ctl' hctl => ?_
    have h : ((Call.ctlX ctl q : Call F).prepare env).result s = .ok (some false, u) := by
      rw [hprep, result_bind hrt, result_bind hru, hctl]
      rfl
    split
    · exact wp_push_prepared hf hu.1 h
    · exact wp_push_prepared hf hu.1 h
  | none =>
    refine .bind (hk.preflushCtl ht).known fun ctl' u ⟨hu, hru⟩ => wp_push_prepared hf hu.1 ?_
    rw [hprep, result_bind hrt, result_bind hru]
    rfl

theorem wp_ctlSwap_prepared {q1 q2 : Qubit} (hs : Dead s) (ha : E .assertion) (hd : E .debugAssertion)
    (hf : FlushEnds env E P (.ctlSwap ctl q1 q2) s) :
    Wp Dead E (ctlSwap env ctl q1 q2) s fun _ t =>
      Dead t ∧ (Flushes env (.ctlSwap ctl q1 q2) s → P) := by
  have hk := queued_dead (F := F) env ha hd
  unfold ctlSwap
  by_cases hu : ctl.uses q1 ∨ ctl.uses q2 ∨ q1 = q2
  · rw [if_pos hu]
    exact .fail ha
  rw [if_neg hu]
  refine .bind (hk.preflushCtl hs).known fun ctl' t ⟨ht, hrt⟩ => ?_
  refine .bind (hk.preflush ht.1).known fun _ u ⟨hu', hru⟩ => ?_
  refine .bind (hk.preflush hu').known fun _ v ⟨hv, hrv⟩ => wp_push_prepared hf hv ?_
  rw [Call.prepare, if_neg hu, result_bind hrt, result_bind hru, result_bind hrv]
  rfl

theorem wp_ctlPhase_prepared {a : Angle} (hs : Dead s) (ha : E .assertion) (hd : E .debugAssertion)
    (hf : FlushEnds env E P (.ctlPhase ctl a) s) :
    Wp Dead E (ctlPhase env ctl a) s fun _ t => Dead t ∧ (Flushes env (.ctlPhase ctl a) s → P) := by
  have hk := queued_dead (F := F) env ha hd
  unfold ctlPhase
  split
  · rename_i hl
    refine .pure ⟨hs, fun h => absurd h (not_flushes ?_)⟩
    rw [Call.prepare, hl]
    rfl
  · rename_i hl
    refine (hk.u3 hs).mono fun _ t ht => ⟨ht, fun h => absurd h (not_flushes ?_)⟩
    rw [Call.prepare, hl]
    rfl
  · rename_i h0 h1
    have hprep : (Call.ctlPhase ctl a : Call F).prepare env =
        if a.round PREC = Angle.PI then do
          let _ ← preflushCtlH env ctl
          return some false
        else do
          let _ ← preflushCtl env ctl
          return some false := by
      rw [Call.prepare]
      split
      · exact absurd ‹_› h0
      · exact absurd ‹_› (h1 _)
      · rfl
    by_cases hpi : a.round PREC = Angle.PI
    · rw [if_pos hpi] at hprep ⊢
      refine .bind (hk.preflushCtlH hs).known fun r t hr => ?_
      obtain ⟨ht, hrt⟩ := hr
      have h : ((Call.ctlPhase ctl a : Call F).prepare env).result s = .ok (some false, t) := by
        rw [hprep, result_bind hrt]
        rfl
      split
      · exact wp_push_prepared hf ht.1 h
      · exact wp_push_prepared hf ht.1 h
    · rw [if_neg hpi] at hprep ⊢
      refine .bind (hk.preflushCtl hs).known fun ctl' t hr => wp_push_prepared hf hr.1.1 ?_
      rw [hprep, result_bind hr.2]
      rfl

theorem wp_flush_prepared (hs : Dead s) (ha : E .assertion) (hd : E .debugAssertion)
    (hf : FlushEnds env E P .flush s) :
    Wp Dead E (flush env) s fun _ t => Dead t ∧ (Flushes env .flush s → P) := by
  have hk := queued_dead (F := F) env ha hd
  refine .bind_read (.bind (Wp.each (fun _ t => Dead t) (fun q _ t ht => hk.preflush ht) hs).known ?_)
  rintro _ t ⟨ht, hrt⟩
  refine (hf true t ht ?_).mono fun _ u hu => ⟨hu.1, fun _ => hu.2⟩
  rw [Call.prepare, result_bind_read, result_bind hrt]
  rfl

/-! ## Calls that return -/

/-- The call is no measurement, the state that the prefix of its method leaves for `_flush` has nothing to apply,
and `qubit_probs` asks for a qubit past the end of the vector. -/
def Quiet (env : Env) (call : Call F) (s : Simulator F) : Prop :=
  (∀ q bias, call ≠ .measure q bias) ∧
    ∀ b t, (call.prepare env).result s = .ok (some b, t) →
      t.Passes b ∧ ∀ q, call = .qubitProbs q → 64 * t.flushedWords b ≤ q.val

theorem Quiet.ends {call : Call F} (h : Quiet env call s) : FlushEnds env NotChunk True call s :=
  fun b t ht hr => (wp_innerFlush_dead ht (h.2 b t hr).1).mono fun _ _ hu => ⟨hu.1, trivial⟩

/-- Without a panic of an empty chunk. -/
theorem wp_premeasure_quiet (hs : Dead s) (h : Quiet env (.qubitProbs q) s) :
    Wp Dead NotChunk (premeasure env q) s fun _ t => Dead t := by
  have hk : Queued env (Dead (F := F)) NotChunk := queued_dead env nofun nofun
  refine .bind (hk.preflush hs).known fun invert t ⟨ht, hrt⟩ => .bind_read ?_
  obtain ⟨hp, hq⟩ := h.2 (t.sfreeQueue.writes q) t (by
    rw [Call.prepare, result_bind hrt]
    rfl)
  refine .bind (wp_innerFlush_dead ht hp) fun _ u ⟨hu, hw⟩ => .bind_read ?_
  have hmax : u.state.maxQubit < q.val := by
    have := hq q rfl
    have := hu.words
    unfold AnyVector.maxQubit Statevector.maxQubit
    omega
  rw [if_pos hmax]
  exact .pure hu

theorem wp_premeasure_stuck (hs : Dead s) (h : ¬ Quiet env (.qubitProbs q) s) :
    Wp Dead (fun _ => True) (premeasure env q) s fun _ _ => False := by
  unfold Quiet at h
  push Not at h
  obtain ⟨b, t, hr, hstuck⟩ := h fun _ _ => nofun
  refine .bind ((queued_dead env trivial trivial).preflush hs).known fun invert t' ⟨ht, hrt⟩ => .bind_read ?_
  have hprep : ((Call.qubitProbs q : Call F).prepare env).result s =
      .ok (some (t'.sfreeQueue.writes q), t') := by
    rw [Call.prepare, result_bind hrt]
    rfl
  rw [hprep] at hr
  cases hr
  by_cases hp : t.Passes (t.sfreeQueue.writes q)
  · obtain ⟨r, hr, hq⟩ := hstuck hp
    cases hr
    refine .bind ((wp_innerFlush_dead ht hp).imp (fun _ h => h) (fun _ _ => trivial) fun _ _ h => h)
      fun _ u ⟨hu, hw⟩ => .bind_read ?_
    rw [if_neg (by unfold AnyVector.maxQubit Statevector.maxQubit; omega)]
    refine .bind_ofExcept (fun _ _ => trivial) fun r hr => ?_
    have hr := AnyVector.premeasure_ok hr
    rw [Statevector.premeasure_empty hu.empty] at hr
    cases hr
  · exact .bind (wp_innerFlush_stuck ht hp) fun _ _ hf => hf.elim

theorem wp_run_quiet {call : Call F} (hs : Dead s) (hc : ¬ call.Restarts) (h : Quiet env call s) :
    Wp Dead NotChunk (call.run env) s fun _ t => Dead t := by
  have hk : Queued env (Dead (F := F)) NotChunk := queued_dead env nofun nofun
  cases call with
  | u3 q gate => exact hk.u3 hs
  | ctlX ctl q => exact (wp_ctlX_prepared hs nofun nofun h.ends).mono fun _ _ ht => ht.1
  | ctlSwap ctl q1 q2 => exact (wp_ctlSwap_prepared hs nofun nofun h.ends).mono fun _ _ ht => ht.1
  | ctlPhase ctl a => exact (wp_ctlPhase_prepared hs nofun nofun h.ends).mono fun _ _ ht => ht.1
  | measure q bias => exact absurd rfl (h.1 q bias)
  | qubitProbs q => exact .bind (wp_qubitProbs (wp_premeasure_quiet hs h)) fun _ _ ht => .pure ht
  | flush => exact (wp_flush_prepared hs nofun nofun h.ends).mono fun _ _ ht => ht.1
  | trim => exact .change ⟨hs.empty, hs.words, hs.part, hs.positive⟩ ⟨hs.empty, hs.words, hs.part,
      hs.positive⟩
  | resetState => exact absurd trivial hc
  | importDense values => exact absurd trivial hc

/-- A call that is not quiet panics, unless it is a measurement. -/
theorem wp_run_stuck {call : Call F} (hs : Dead s) (hm : ∀ q bias, call ≠ .measure q bias)
    (h : ¬ Quiet env call s) : Wp Dead (fun _ => True) (call.run env) s fun _ _ => False := by
  have hflush : (∀ q, call ≠ .qubitProbs q) →
      FlushEnds env (fun _ => True) False call s ∧ Flushes env call s := by
    intro hq
    unfold Quiet at h
    push Not at h
    obtain ⟨b, t, hr, hstuck⟩ := h hm
    refine ⟨fun b' t' ht hr' => ?_, b, t, hr⟩
    rw [hr] at hr'
    cases hr'
    refine (wp_innerFlush_stuck ht fun hp => ?_).mono fun _ _ hf => hf.elim
    obtain ⟨q, hcall, -⟩ := hstuck hp
    exact hq q hcall
  cases call with
  | ctlX ctl q =>
    obtain ⟨hf, hfl⟩ := hflush nofun
    exact (wp_ctlX_prepared hs trivial trivial hf).mono fun _ _ ht => ht.2 hfl
  | ctlSwap ctl q1 q2 =>
    obtain ⟨hf, hfl⟩ := hflush nofun
    exact (wp_ctlSwap_prepared hs trivial trivial hf).mono fun _ _ ht => ht.2 hfl
  | ctlPhase ctl a =>
    obtain ⟨hf, hfl⟩ := hflush nofun
    exact (wp_ctlPhase_prepared hs trivial trivial hf).mono fun _ _ ht => ht.2 hfl
  | measure q bias => exact absurd rfl (hm q bias)
  | qubitProbs q =>
    refine .bind (Q := fun _ _ => False) ?_ fun _ _ hf => hf.elim
    exact .bind (wp_premeasure_stuck hs h) fun _ _ hf => hf.elim
  | flush =>
    obtain ⟨hf, hfl⟩ := hflush nofun
    exact (wp_flush_prepared hs trivial trivial hf).mono fun _ _ ht => ht.2 hfl
  | _ => exact absurd (hflush nofun).2 (not_flushes rfl)

end Simulator

namespace Simulator

variable [Eps ℝ] {s t : Simulator ℝ} {q : Qubit} {env : Env} {call : Call ℝ}

/-- Only `reset_state` and `import_dense` leave the error. -/
theorem wp_run_dead (hs : Dead s) (hc : ¬ call.Restarts) :
    Wp Dead (fun _ => True) (call.run env) s fun _ t => Dead t := by
  cases call with
  | u3 q gate => exact (kept_dead env).toQueued.u3 hs
  | ctlX ctl q => exact (kept_dead env).ctlX hs
  | ctlSwap ctl q1 q2 => exact (kept_dead env).ctlSwap hs
  | ctlPhase ctl a => exact (kept_dead env).ctlPhase hs
  | measure q bias => exact .bind (wp_measure_dead hs) fun _ _ ht => .pure ht.1
  | qubitProbs q =>
    exact .bind (wp_qubitProbs ((wp_premeasure_dead hs).mono fun _ _ ht => ht.1)) fun _ _ ht => .pure ht
  | flush => exact (kept_dead env).flushAll hs
  | trim => exact .change ⟨hs.empty, hs.words, hs.part, hs.positive⟩ ⟨hs.empty, hs.words, hs.part,
      hs.positive⟩
  | resetState => exact absurd trivial hc
  | importDense values => exact absurd trivial hc

theorem wp_premeasure_asserts : Wp (fun _ => True) NotAssertion (premeasure env q) s fun _ _ => True := by
  refine .bind wp_preflush_any fun invert t _ => .bind_read (.bind wp_innerFlush_any fun _ u _ => ?_)
  refine .bind_read ?_
  split
  · exact .pure trivial
  · refine .bind_ofExcept (fun e he => ?_) fun _ _ => .pure trivial
    rw [(AnyVector.premeasure_error he).2]
    exact notAssertion_ite _

theorem wp_measure_asserts {bias : BitVec 64} :
    Wp (fun _ => True) NotAssertion (measure env q bias) s fun _ _ => True := by
  refine .bind wp_premeasure_asserts fun r t _ => ?_
  split
  · exact .pure trivial
  · refine .bind (Q := fun _ _ => True) ?_ fun _ _ _ => .pure trivial
    refine wp_collapse (fun _ => trivial) (fun _ _ _ => ⟨trivial, trivial⟩) fun _ e he => ?_
    rw [(AnyVector.measure_error he).2]
    exact notAssertion_ite _

/-- No assertion fails in a call with valid arguments. -/
theorem wp_run_asserts (hv : call.Valid) (hc : ¬ call.Restarts) :
    Wp (fun _ => True) NotAssertion (call.run env) s fun _ _ => True := by
  cases call with
  | u3 q gate => exact wp_u3_asserts
  | ctlX ctl q => exact wp_ctlX_asserts hv
  | ctlSwap ctl q1 q2 => exact wp_ctlSwap_asserts hv.1 hv.2.1 hv.2.2
  | ctlPhase ctl a => exact wp_ctlPhase_asserts
  | measure q bias => exact .bind wp_measure_asserts fun _ _ _ => .pure trivial
  | qubitProbs q => exact .bind (wp_qubitProbs wp_premeasure_asserts) fun _ _ _ => .pure trivial
  | flush =>
    exact .bind_read (.bind (.each (fun _ _ => True) (fun _ _ _ _ => wp_preflush_any) trivial)
      fun _ _ _ => wp_innerFlush_any)
  | trim => exact .change trivial trivial
  | resetState => exact absurd trivial hc
  | importDense values => exact absurd trivial hc

/-- Between the calls, after a reservation failed. -/
structure Failed (s : Simulator ℝ) : Prop where
  dead : Dead s
  clean : Clean s
  range : InRange s

/-- A call that is quiet returns. -/
theorem Failed.returns (hs : Failed s) (hv : call.Valid) (hc : ¬ call.Restarts)
    (hq : Quiet env call s) : ∃ t, (call.run env).result s = .ok ((), t) := by
  cases hr : (call.run env).result s with
  | ok r => exact ⟨r.2, rfl⟩
  | error e =>
    have h1 := (wp_run_quiet hs.dead hc hq).fails e hr
    have h2 := (wp_run_flags hs.clean call).fails e hr
    have h3 := (wp_run_range hs.range call selectOutcome_one_zero).fails e hr
    have h4 := (@wp_run_asserts _ s env call hv hc).fails e hr
    cases e with
    | assertion => exact absurd rfl h4
    | debugAssertion => exact absurd rfl h2
    | bitIndex => exact absurd rfl h3
    | chunkSize => exact absurd rfl h1

theorem Failed.next (hs : Failed s) (hc : ¬ call.Restarts)
    (hr : (call.run env).result s = .ok ((), t)) : Failed t :=
  ⟨(wp_run_dead hs.dead hc).ends _ _ hr, (wp_run_flags hs.clean call).ends _ _ hr,
    (wp_run_range hs.range call selectOutcome_one_zero).ends _ _ hr⟩

/-- The calls do what is said of them: each one returns, the vector stays empty, and a measurement
returns false and no probabilities. -/
def Meets : List (Env × Call ℝ) → Simulator ℝ → Prop
  | [], s => s.isError = true
  | (env, call) :: l, s => s.isError = true ∧
    (∀ q bias, call = .measure q bias → ∃ t, (measure env q bias).result s = .ok ((false, none), t)) ∧
    ∃ t, (call.run env).result s = .ok ((), t) ∧ Meets l t

/-- Every call is quiet in the state in which it starts. -/
def QuietRun : List (Env × Call ℝ) → Simulator ℝ → Prop
  | [], _ => True
  | (env, call) :: l, s => Quiet env call s ∧ ∀ t, (call.run env).result s = .ok ((), t) → QuietRun l t

theorem Failed.meets_iff (hs : Failed s) {calls : List (Env × Call ℝ)}
    (hcalls : ∀ p ∈ calls, p.2.Valid ∧ ¬ p.2.Restarts) : Meets calls s ↔ QuietRun calls s := by
  induction calls generalizing s with
  | nil => exact ⟨fun _ => trivial, fun _ => hs.dead.empty⟩
  | cons p calls ih =>
    obtain ⟨env, call⟩ := p
    rw [List.forall_mem_cons] at hcalls
    obtain ⟨⟨hv, hc⟩, hcalls⟩ := hcalls
    constructor
    · rintro ⟨-, hm, t, hr, ht⟩
      have hnm : ∀ q bias, call ≠ .measure q bias := fun q bias he => by
        obtain ⟨u, hu⟩ := hm q bias he
        exact ((wp_measure_dead hs.dead).ends _ _ hu).2 rfl
      have hq : Quiet env call s := by
        by_contra hn
        exact (wp_run_stuck hs.dead hnm hn).ends _ _ hr
      refine ⟨hq, fun u hu => ?_⟩
      rw [hr] at hu
      cases hu
      exact (ih (hs.next hc hr) hcalls).mp ht
    · rintro ⟨hq, hrest⟩
      obtain ⟨t, hr⟩ := hs.returns hv hc hq
      exact ⟨hs.dead.empty, fun q bias he => absurd he (hq.1 q bias), t, hr,
        (ih (hs.next hc hr) hcalls).mpr (hrest t hr)⟩

theorem Failed.run (hs : Failed s) {calls : List (Env × Call ℝ)}
    (hcalls : ∀ p ∈ calls, ¬ p.2.Restarts) :
    Wp Dead (fun _ => True) (runCalls calls) s fun _ t => Dead t := by
  have h := @Wp.each (Simulator ℝ) Panic (Env × Call ℝ) Dead (fun _ => True) s
    (fun p => p.2.run p.1) (fun l t => Dead t ∧ ∀ p ∈ l, ¬ p.2.Restarts) ?_ calls ⟨hs.dead, hcalls⟩
  · exact h.mono fun _ t ht => ht.1
  · rintro p l t ⟨ht, hl⟩
    rw [List.forall_mem_cons] at hl
    exact (wp_run_dead ht hl.1).mono fun _ u hu => ⟨hu, hl.2⟩

theorem failed_of_run {ctx : Context} {alloc : Bool} {sim : Simulator ℝ}
    (hnew : new ctx alloc = .ok sim) (before : List (Env × Call ℝ))
    (hbefore : (runCalls before).result sim = .ok ((), s)) (herr : s.isError = true)
    (hpos : s.ctx.Positive) : Failed s := by
  obtain ⟨v, hv, rfl, -, -⟩ := new_cases hnew
  have hclean : Clean (newWithState ctx ⟨_, v⟩ : Simulator ℝ) := fun _ _ h => nomatch h
  have hrange : InRange (newWithState ctx ⟨_, v⟩ : Simulator ℝ) :=
    ⟨AnyVector.numWords_pos _, fun p hp => ((Statevector.new_inv hv).2.partitioned p hp).1,
      Queue.good_new⟩
  have hc := (wp_runCalls_flags hclean before).ends _ _ hbefore
  have hr := (wp_runCalls_range hrange before selectOutcome_one_zero).ends _ _ hbefore
  exact ⟨⟨herr, hr.words, hr.part, hpos⟩, hc, hr⟩

/-- The calls after a failed reservation, which are given valid arguments and of which none is
`reset_state` or `import_dense`. At every moment of them `is_error` is true. They return, and the
measurements return what their documentation says, if and only if each of them is quiet where it
starts. -/
theorem error_sticky_iff {ctx : Context} {alloc : Bool} {sim : Simulator ℝ}
    (hnew : new ctx alloc = .ok sim) (before : List (Env × Call ℝ))
    (hbefore : (runCalls before).result sim = .ok ((), s)) (herr : s.isError = true)
    (hpos : s.ctx.Positive) (later : List (Env × Call ℝ))
    (hlater : ∀ p ∈ later, p.2.Valid ∧ ¬ p.2.Restarts) :
    (∀ mid ∈ (runCalls later).states s, mid.isError = true) ∧ (Meets later s ↔ QuietRun later s) := by
  have hs := failed_of_run hnew before hbefore herr hpos
  exact ⟨fun mid hmid => ((hs.run fun p hp => (hlater p hp).2).always mid hmid).empty,
    hs.meets_iff hlater⟩

/-- The measurement of the first qubit panics in every such state. -/
theorem Failed.measure_first (hs : Failed s) (bias : BitVec 64) :
    (measure env Qubit.ZERO bias).result s = .error .chunkSize := by
  cases hr : (measure env Qubit.ZERO bias).result s with
  | ok r =>
    have h : Wp Dead (fun _ => True) (measure env Qubit.ZERO bias) s fun _ _ => False :=
      .bind (wp_premeasure_dead hs.dead) fun r t ⟨_, ht, _⟩ => absurd ht (Nat.not_lt_zero _)
    exact (h.ends _ _ hr).elim
  | error e =>
    have h1 := (wp_measure_flags hs.clean).fails e hr
    have h2 := (wp_measure_range hs.range fun i => selectOutcome_one_zero i bias).fails e hr
    have h3 := wp_measure_asserts.fails e hr
    cases e with
    | assertion => exact absurd rfl h3
    | debugAssertion => exact absurd rfl h1
    | bitIndex => exact absurd rfl h2
    | chunkSize => rfl

/-- The simulator after its first reservation failed. -/
def failedSim : Simulator ℝ := newWithState Context.default ⟨1, some 0, [], []⟩

omit [Eps ℝ] in
theorem failedSim_new : new Context.default false = .ok failedSim := rfl

omit [Eps ℝ] in
/-- A flush and a gate. -/
theorem error_sticky_gate : letI : Eps ℝ := ⟨1 / 2 ^ 40⟩
    Meets [(Env.default, .flush), (Env.default, .u3 0 U3.H)] failedSim := by
  let _ : Eps ℝ := ⟨1 / 2 ^ 40⟩
  refine (error_sticky_iff failedSim_new [] rfl rfl Context.default_positive _ fun p hp => ?_).2.mpr
    ⟨⟨nofun, fun b t hr => ?_⟩, fun t _ => ⟨⟨nofun, fun b u hr => nomatch hr⟩, fun _ _ => trivial⟩⟩
  · simp only [List.mem_cons, List.not_mem_nil, or_false] at hp
    rcases hp with rfl | rfl
    · exact ⟨trivial, id⟩
    · exact ⟨trivial, id⟩
  · -- nothing is pending, and the queue is empty
    have hnone : ((Env.default.keys .keys).filter fun q => (failedSim.qubits q).isSome) = [] :=
      List.filter_eq_nil_iff.mpr fun q _ => Bool.false_ne_true
    rw [Call.prepare, result_bind_read, hnone] at hr
    cases hr
    exact ⟨nofun, nofun⟩

omit [Eps ℝ] in
/-- A measurement after the first reservation failed panics. -/
theorem error_sticky_fails : letI : Eps ℝ := ⟨1 / 2 ^ 40⟩
    new Context.default false = .ok failedSim ∧ failedSim.isError = true ∧
      (measure Env.default 0 0).result failedSim = .error .chunkSize ∧
      ¬ Meets [(Env.default, .measure 0 0)] failedSim := by
  let _ : Eps ℝ := ⟨1 / 2 ^ 40⟩
  have hs := failed_of_run failedSim_new [] rfl rfl Context.default_positive
  have hr : (measure Env.default 0 0).result failedSim = .error .chunkSize := hs.measure_first 0
  refine ⟨failedSim_new, rfl, hr, fun h => ?_⟩
  obtain ⟨t, ht⟩ := h.2.1 0 0 rfl
  rw [hr] at ht
  cases ht

end Simulator

end Qblaze
