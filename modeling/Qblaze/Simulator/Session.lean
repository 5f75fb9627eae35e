import Qblaze.Lib.Session
import Qblaze.Simulator.Register

/-!
# Sessions with several simulators (`src/capi.rs`, `src/simulator.rs`)

A client makes simulators, calls their methods and clones them. The ideal client has a register for each
simulator; a clone is a register in the same state.

* `session_refines`: every session is answered as the registers answer, and each simulator holds the state
  of its register.
* `session_unique`: the sizes of the contexts, the order in which entries are visited and the samples are
  not observable.
* `session_progress`: no session is stuck.
* `measured_stays`: the outcome of a measurement is found again as long as nothing writes the qubit.
* `outcome_frequencies`: the outcomes are as frequent as the amplitudes say.
-/

namespace Qblaze

open Lib Lib.Run Angle Mat

/-- `qblaze_clone`. `none` is the null pointer. -/
def qblazeClone {F : Type} [Field F] [LinearOrder F] [Eps F] [Scalar F] (env : Env) (alloc : Nat → Bool) :
    Sim F (Option (Simulator F)) := do
  Simulator.flush env
  let sim ← read
  if sim.isError then return none
  else do
    Simulator.trim
    let r ← Simulator.cloneFlushed alloc
    return if r.isError then none else some r

/-- What a client asks for. Simulators are numbered in the order in which they are made. -/
inductive Command where
  | create (ctx : Context)
  | call (i : Nat) (c : Call ℝ)
  | clone (i : Nat)

namespace Command

/-- The answer of the ideal registers, and their new states. -/
noncomputable def ideal (ψs : List (Ket Qubit)) : Command → Answer ℝ × List (Ket Qubit)
  | create _ => (.unit, ψs ++ [ket fun _ => false])
  | call i c =>
    match ψs[i]? with
    | some ψ => ((c.ideal ψ).1, ψs.set i (c.ideal ψ).2)
    | none => (.unit, ψs)
  | clone i =>
    match ψs[i]? with
    | some ψ => (.unit, ψs ++ [ψ])
    | none => (.unit, ψs)

/-- Imports are states of a register. -/
def Imports : Command → Prop
  | call _ c => c.Imports
  | _ => True

/-- The same for the registers: contexts do not matter. -/
inductive Same : Command → Command → Prop
  | create (ctx ctx' : Context) : Same (create ctx) (create ctx')
  | call (i : Nat) (c : Call ℝ) : Same (call i c) (call i c)
  | clone (i : Nat) : Same (clone i) (clone i)

theorem Same.ideal_eq {c c' : Command} (h : Same c c') {ψs : List (Ket Qubit)} : c.ideal ψs = c'.ideal ψs := by
  cases h <;> rfl

theorem Same.imports {cmds cmds' : List Command} (h : List.Forall₂ Same cmds cmds')
    (hi : ∀ c ∈ cmds, c.Imports) : ∀ c ∈ cmds', c.Imports := by
  induction h with
  | nil => exact hi
  | @cons c c' cs cs' hc _ ih =>
    refine List.forall_mem_cons.mpr ⟨?_, ih fun d hd => hi d (List.mem_cons_of_mem _ hd)⟩
    have h := hi c (List.mem_cons_self ..)
    cases hc <;> exact h

/-- A simulator does what a command asks for. The arithmetic is exact, and no reservation fails. The order
of the entries and the samples are arbitrary. -/
inductive Step : List (Simulator ℝ) → Command → Answer ℝ → List (Simulator ℝ) → Prop
  | create {sims : List (Simulator ℝ)} {ctx : Context} {s : Simulator ℝ} (h : Simulator.new ctx true = .ok s) :
    Step sims (create ctx) .unit (sims ++ [s])
  | call {sims : List (Simulator ℝ)} {i : Nat} {s t : Simulator ℝ} {env : Env} {c : Call ℝ} {a : Answer ℝ}
    (hi : sims[i]? = some s) (henv : env.Granted) (he : c.Exact s) (h : (c.eval env).result s = .ok (a, t)) :
    Step sims (call i c) a (sims.set i t)
  | clone {sims : List (Simulator ℝ)} {i : Nat} {s t r : Simulator ℝ} {env : Env} {alloc : Nat → Bool}
    (hi : sims[i]? = some s) (henv : env.Granted) (ha : ∀ k, alloc k = true)
    (h : (qblazeClone env alloc).result s = .ok (some r, t)) : Step sims (clone i) .unit (sims.set i t ++ [r])

end Command

namespace Simulator

variable {P : Prop} {ψ φ : Ket Qubit} {s t : Simulator ℝ} {q : Qubit} {env : Env} {call : Call ℝ}

/-! ## Clones -/

/-- A clone of a vector with nothing queued and nothing pending holds the same state, unless it is refused
memory. -/
theorem wp_cloneFlushed_holds (h : Holds ψ s) (hψ : ψ ≠ 0) (hq : ∀ q, s.qubits q = none)
    (hk : s.sfreeQueue.isEmpty = true) {alloc : Nat → Bool} :
    Wp (fun _ => True) (fun _ => False) (cloneFlushed alloc) s fun r t => t = s ∧
      (r.isError = false → Holds ψ r) ∧ ((∀ i, alloc i = true) → r.isError = false) ∧ (s.ctx.Positive → r.ctx.Positive) := by
  obtain ⟨t, ht, hg⟩ := AnyVector.dynClone_grown h.range.words h.inv alloc
  have hr : s.state.vec.Grown t →
      Holds ψ (newWithState { s.ctx with initMaxQubit := Qubit.ZERO } ⟨s.state.words, t⟩) := fun hg => by
    refine holds_unpending h.range.words h.small hg.inv Queue.good_new rfl ?_
    show UpToScale t.toKet ψ
    rw [grown_toKet (Nat.le_refl _) hg, ← logical_of_empty hq hk]
    exact h.scale
  have hentries : s.entries = [] := List.eq_nil_iff_forall_not_mem.mpr fun p hp => by
    rw [mem_entries, hq] at hp
    cases hp
  refine .bind_read ?_
  rw [if_neg (by rw [hk, hentries]; simp)]
  refine .bind_ofExcept (fun _ he => nomatch ht.symm.trans he) fun v hv => .pure ?_
  rw [ht] at hv
  cases hv
  refine ⟨rfl, fun he => ?_, fun ha => ?_, fun hP => ⟨hP.chunkSize, hP.workItemMinSize, hP.workItemMaxSize⟩⟩
  · split at hg
    · exact hr hg
    · exact nomatch hg.symm.trans he
  · rw [ha, if_pos (show tryReserve true _ = true from Bool.or_true _)] at hg
    exact (nonzero_of_logical ((hr hg).logical_ne_zero hψ)).isEmpty

/-- `qblaze_clone` makes a clone, and keeps the state. -/
theorem wp_qblazeClone (henv : env.Granted) (h : Holds ψ s) (hψ : ψ ≠ 0) {alloc : Nat → Bool}
    (ha : ∀ i, alloc i = true) :
    Wp (fun _ => True) (fun _ => ¬ s.ctx.Positive) (qblazeClone env alloc) s fun o t => ∃ r, o = some r ∧
      Holds ψ r ∧ Holds ψ t ∧ (s.ctx.Positive → r.ctx.Positive ∧ t.ctx.Positive) := by
  have hflush := @wp_eval_gate ψ s env .flush henv h hψ (.inl trivial) trivial trivial
  rw [show (Call.flush).operator ψ = ψ from rfl] at hflush
  have hempty : Wp Flags NotDebug (flush env) s fun _ t =>
      (∀ q, t.qubits q = none) ∧ t.sfreeQueue.isEmpty = true := wp_flush_flags h.clean
  refine .bind ((hflush.and hempty).imp (fun _ _ => trivial) (fun _ he => he.1) fun _ _ ht => ht)
    fun _ t ⟨⟨ht, hpos⟩, hq, hk⟩ => .bind_read ?_
  have hlive : t.isError = false := (nonzero_of_logical (ht.logical_ne_zero hψ)).isEmpty
  rw [hlive]
  refine .bind (Q := fun _ u => u = t) (.change trivial rfl) fun _ u hu => ?_
  subst hu
  refine .bind ((wp_cloneFlushed_holds ht hψ hq hk).imp (fun _ _ => trivial) (fun _ he => he.elim)
    fun _ _ hr => hr) fun r v ⟨hv, hr, he, hrpos⟩ => .pure ?_
  subst hv
  rw [he ha]
  exact ⟨r, rfl, hr (he ha), ht, fun hP => ⟨hrpos (hpos hP), hpos hP⟩⟩

/-! ## Refinement -/

/-- A call that returns meets the assertions. -/
theorem valid_of_eval {a : Answer ℝ} (h : (call.eval env).result s = .ok (a, t)) : call.Valid := by
  by_contra hv
  have hw := @wp_run_invalid s env call hv fun _ _ => False
  have hr : Wp (fun _ => True) (fun _ => True) (call.eval env) s fun _ _ => False := by
    cases call with
    | ctlX ctl q => exact .bind hw fun _ _ hf => hf.elim
    | ctlSwap ctl q1 q2 => exact .bind hw fun _ _ hf => hf.elim
    | _ => exact absurd trivial hv
  exact hr.ends a t h

/-- Every simulator holds the state of its register, and the states are no zero vectors. While `P` holds, no
size of a context is zero. -/
def Hold (P : Prop) (ψs : List (Ket Qubit)) (sims : List (Simulator ℝ)) : Prop :=
  List.Forall₂ (fun ψ s => ψ ≠ 0 ∧ Holds ψ s ∧ (P → s.ctx.Positive)) ψs sims

theorem step_refines (P : Prop) : Refines Command.Step Command.ideal (Hold P) fun c =>
    c.Imports ∧ ∀ ctx, c = .create ctx → P → ctx.Positive := by
  rintro ψs sims c a sims' hold ⟨hi, hpos⟩ hstep
  cases hstep with
  | @create ctx s hnew =>
    simp only [Command.ideal]
    refine ⟨trivial, forall₂_concat hold ⟨ket_ne_zero _, holds_new hnew, fun hP => ?_⟩⟩
    obtain ⟨v, -, rfl, -⟩ := new_cases hnew
    exact hpos ctx rfl hP
  | @call i s t env c a hget henv he hr =>
    obtain ⟨ψ, hψs, hψ, hs, hsp⟩ := forall₂_getElem hold hget
    have hv := valid_of_eval hr
    obtain ⟨φ, hid, ht, htp⟩ := (wp_eval henv hs hψ hv he hi).ends a t hr
    have hne := Call.ideal_ne_zero hψ hv hi
    rw [hid] at hne
    simp only [Command.ideal, hψs, hid]
    exact ⟨trivial, forall₂_set hold ⟨hne, ht, fun hP => htp (hsp hP)⟩ i⟩
  | @clone i s t r env alloc hget henv ha hr =>
    obtain ⟨ψ, hψs, hψ, hs, hsp⟩ := forall₂_getElem hold hget
    obtain ⟨r', hr', hrh, ht, hrp⟩ := (wp_qblazeClone henv hs hψ ha).ends (some r) t hr
    cases hr'
    simp only [Command.ideal, hψs]
    have hset := forall₂_set hold ⟨hψ, ht, fun hP => (hrp (hsp hP)).2⟩ i
    -- the register is as before
    obtain ⟨hlt, hget'⟩ := List.getElem?_eq_some_iff.mp hψs
    rw [show ψs.set i ψ = ψs from by rw [← hget', List.set_getElem_self]] at hset
    exact ⟨trivial, forall₂_concat hset ⟨hψ, hrh, fun hP => (hrp (hsp hP)).1⟩⟩

theorem accepted_of {P : Prop} {cmds : List Command} (hi : ∀ c ∈ cmds, c.Imports)
    (hpos : ∀ ctx, .create ctx ∈ cmds → P → ctx.Positive) :
    ∀ c ∈ cmds, c.Imports ∧ ∀ ctx, c = .create ctx → P → ctx.Positive :=
  fun c hc => ⟨hi c hc, fun ctx hctx => hpos ctx (hctx ▸ hc)⟩

theorem accepted_call {P : Prop} {i : Nat} {c : Call ℝ} (hc : c.Imports) :
    (Command.call i c).Imports ∧ ∀ ctx, Command.call i c = .create ctx → P → ctx.Positive :=
  ⟨hc, fun _ he => nomatch he⟩

/-- A call answers when it is run. -/
theorem eval_of_run (h : (call.run env).result s = .ok ((), t)) : ∃ a, (call.eval env).result s = .ok (a, t) := by
  cases call with
  | measure q bias =>
    obtain ⟨a, u, ha, hu⟩ := result_bind_ok h
    cases hu
    exact ⟨_, result_bind ha⟩
  | qubitProbs q =>
    obtain ⟨a, u, ha, hu⟩ := result_bind_ok h
    cases hu
    exact ⟨_, result_bind ha⟩
  | flush =>
    refine ⟨.unit, ?_⟩
    simp only [Call.eval]
    exact result_bind h
  | _ => exact ⟨.unit, result_bind h⟩

/-- A simulator with an amplitude returns from every call that meets the assertions, whatever the angles are. -/
theorem eval_returns (henv : env.Granted) (h : Live True s) (hs : Clean s) (hv : call.Valid)
    (hi : call.Indexed) : ∃ a t, (call.eval env).result s = .ok (a, t) := by
  by_cases hr : call.Restarts
  · cases call with
    | resetState =>
      exact returns_of_wp (@wp_eval_resetState 0 s env henv h.range) (fun _ hn => hn) (h.positive trivial)
    | importDense values =>
      exact returns_of_wp (@wp_eval_importDense 0 s env henv h.range values hi) (fun _ hn => hn)
        (h.positive trivial)
    | _ => exact hr.elim
  · have himport : ∀ values, call ≠ .importDense values := fun values hc => hr (by rw [hc]; trivial)
    have hw := (((wp_run_live smallEps henv h himport).and (wp_run_flags hs call)).and
      (wp_run_asserts hv hr)).and (wp_run_range h.range call selectOutcome_one_zero)
    obtain ⟨t, ht⟩ := returns_unit (returns_of_wp hw (fun e ⟨⟨⟨hsized, hdebug⟩, hassert⟩, hrange⟩ =>
      no_panic hsized hdebug hassert hrange) trivial)
    obtain ⟨a, ha⟩ := eval_of_run ht
    exact ⟨a, t, ha⟩

theorem Holds.toLive (h : Holds ψ s) (hψ : ψ ≠ 0) (hP : P → s.ctx.Positive) : Live P s :=
  ⟨⟨h.range, h.inv, nonzero_of_logical (h.logical_ne_zero hψ)⟩, hP⟩

theorem Hold.returns {ψs : List (Ket Qubit)} {sims : List (Simulator ℝ)} (hold : Hold True ψs sims) {i : Nat}
    (hs : sims[i]? = some s) (henv : env.Granted) {c : Call ℝ} (hv : c.Valid) (hi : c.Indexed) :
    ∃ a t, (c.eval env).result s = .ok (a, t) := by
  obtain ⟨ψ, -, hψ, hsψ, hp⟩ := forall₂_getElem hold hs
  exact eval_returns henv (hsψ.toLive hψ hp) hsψ.clean hv hi

/-- A qubit in superposition. -/
def plusCommands (ctx : Context) : List Command := [.create ctx, .call 0 (.u3 0 U3.H)]

theorem default_granted : Env.default.Granted := fun _ _ _ => rfl

section

variable {ctx : Context}

theorem plus_accepted (hctx : ctx.Positive) :
    ∀ c ∈ plusCommands ctx, c.Imports ∧ ∀ ctx', c = .create ctx' → True → ctx'.Positive := by
  refine List.forall_mem_cons.mpr ⟨⟨trivial, fun ctx' hc _ => ?_⟩, List.forall_mem_cons.mpr
    ⟨accepted_call trivial, fun c hc => absurd hc List.not_mem_nil⟩⟩
  cases hc
  exact hctx

theorem plus_imports (hctx : ctx.Positive) : ∀ c ∈ plusCommands ctx, c.Imports := fun c hc =>
  (plus_accepted hctx c hc).1

/-- The session is run. -/
theorem plus_runs (hctx : ctx.Positive) (hn : 0 < ctx.numThreads) :
    ∃ as s, Runs Command.Step [] (plusCommands ctx) as [s] := by
  obtain ⟨s, hnew, hq⟩ : ∃ s : Simulator ℝ, new ctx true = .ok s ∧ s.qubits 0 = none := by
    obtain ⟨v, -, hnew⟩ := @AnyVector.new_ok ℝ _ true ctx.initMaxQubit
    refine ⟨newWithState ctx ⟨_, v⟩, ?_, rfl⟩
    unfold new
    rw [if_neg (by rw [not_or, not_not, not_not]; exact ⟨hn, hctx.chunkSize⟩), hnew]
    rfl
  have hcreate : Command.Step [] (.create ctx) .unit [s] := .create hnew
  obtain ⟨-, hold⟩ := step_refines True [] [] _ _ _ .nil (plus_accepted hctx _ (List.mem_cons_self ..)) hcreate
  have hexact : (Call.u3 0 U3.H).Exact s := by
    show ExactGate U3.H (s.qubits 0)
    rw [hq]
    exact ⟨by decide, by decide, by decide⟩
  obtain ⟨a, t, ht⟩ := hold.returns (i := 0) rfl default_granted (c := .u3 0 U3.H) trivial trivial
  exact ⟨_, t, .cons hcreate (.single (.call (i := 0) rfl default_granted hexact ht))⟩

/-- The qubit is measured. -/
theorem plus_measured (hctx : ctx.Positive) {as : List (Answer ℝ)}
    (h : Runs Command.Step [] (plusCommands ctx) as [s]) (bias : BitVec 64) :
    ∃ b p t, Command.Step [s] (.call 0 (.measure 0 bias)) (.outcome b p) [t] := by
  obtain ⟨-, hold⟩ := h.refines (step_refines True) (plus_accepted hctx) .nil
  obtain ⟨a, t, ht⟩ :=
    hold.returns (i := 0) rfl default_granted (c := .measure 0 bias) trivial trivial
  have hstep : Command.Step [s] (.call 0 (.measure 0 bias)) a [t] :=
    .call (i := 0) rfl default_granted trivial ht
  obtain ⟨ha, -⟩ := step_refines True _ _ _ _ _ hold (accepted_call (c := .measure 0 bias) trivial) hstep
  obtain ⟨ψ, hψ, -⟩ := forall₂_getElem hold (i := 0) (d := s) rfl
  simp only [Command.ideal, hψ, Call.ideal] at ha
  exact ⟨_, _, t, ha ▸ hstep⟩

end

/-- Every session is answered as the ideal registers answer, and each simulator stands for the state of its
register, up to a factor. -/
theorem session_refines {cmds : List Command} {as : List (Answer ℝ)} {sims : List (Simulator ℝ)}
    (h : Runs Command.Step [] cmds as sims) (hi : ∀ c ∈ cmds, c.Imports) :
    (specRun Command.ideal [] cmds).1 = as ∧
      List.Forall₂ (fun ψ s => ψ ≠ 0 ∧ UpToScale s.logical ψ) (specRun Command.ideal [] cmds).2 sims := by
  obtain ⟨ha, hold⟩ := h.refines (step_refines False) (accepted_of hi fun _ _ => False.elim) .nil
  exact ⟨ha, hold.imp fun _ _ ⟨hψ, hs, _⟩ => ⟨hψ, hs.scale⟩⟩

/-- A qubit in superposition. -/
theorem session_refines_plus : ∃ as s, Runs Command.Step [] (plusCommands Context.default) as [s] ∧
    (specRun Command.ideal [] (plusCommands Context.default)).1 = as ∧
    List.Forall₂ (fun ψ s => ψ ≠ 0 ∧ UpToScale s.logical ψ)
      (specRun Command.ideal [] (plusCommands Context.default)).2 [s] := by
  obtain ⟨as, s, h⟩ := plus_runs Context.default_positive (by decide)
  exact ⟨as, s, h, session_refines h (plus_imports Context.default_positive)⟩

/-- Two sessions with the same commands are answered in the same way, and their simulators stand for the same
states, whatever the contexts are, the orders in which entries are visited, and the samples. -/
theorem session_unique {cmds cmds' : List Command} {as as' : List (Answer ℝ)} {sims sims' : List (Simulator ℝ)}
    (h : Runs Command.Step [] cmds as sims) (h' : Runs Command.Step [] cmds' as' sims')
    (hi : ∀ c ∈ cmds, c.Imports) (hcmds : List.Forall₂ Command.Same cmds cmds') :
    as = as' ∧ List.Forall₂ (fun s s' => UpToScale s.logical s'.logical) sims sims' := by
  have hi' : ∀ c ∈ cmds', c.Imports := Command.Same.imports hcmds hi
  obtain ⟨ha, ψs, hold, hold'⟩ := h.unique (fun _ _ _ hs => hs.ideal_eq) (step_refines False)
    (accepted_of hi fun _ _ => False.elim) .nil h' (accepted_of hi' fun _ _ => False.elim) .nil hcmds
  refine ⟨ha, (forall₂_join hold hold').imp fun s s' hss => ?_⟩
  obtain ⟨ψ, ⟨-, hs, -⟩, -, hs', -⟩ := hss
  exact hs.scale.trans hs'.scale.symm

/-- One thread and large chunks, and four threads with chunks of one element. -/
theorem session_unique_plus : ∃ as s as' s', Runs Command.Step [] (plusCommands Context.default) as [s] ∧
    Runs Command.Step [] (plusCommands ⟨4, 130, 1, 0, 1, 7⟩) as' [s'] ∧ as = as' ∧
    List.Forall₂ (fun s s' => UpToScale s.logical s'.logical) [s] [s'] := by
  obtain ⟨as, s, h⟩ := plus_runs Context.default_positive (by decide)
  obtain ⟨as', s', h'⟩ := @plus_runs ⟨4, 130, 1, 0, 1, 7⟩ ⟨by decide, by decide, by decide⟩ (by decide)
  exact ⟨as, s, as', s', h, h', session_unique h h' (plus_imports Context.default_positive)
    (.cons (.create _ _) (.cons (.call _ _) .nil))⟩

/-- No command of a session is stuck: if no size of a context is zero, a call that meets the assertions returns,
and so does a clone, which is no null pointer. No simulator is in the error state. -/
theorem session_progress {cmds : List Command} {as : List (Answer ℝ)} {sims : List (Simulator ℝ)}
    (h : Runs Command.Step [] cmds as sims) (hi : ∀ c ∈ cmds, c.Imports)
    (hpos : ∀ ctx, .create ctx ∈ cmds → ctx.Positive) {i : Nat} {s : Simulator ℝ} (hs : sims[i]? = some s)
    {env : Env} (henv : env.Granted) :
    s.isError = false ∧
    (∀ c : Call ℝ, c.Valid → c.Indexed → ∃ a t, (c.eval env).result s = .ok (a, t)) ∧
    ∀ alloc : Nat → Bool, (∀ k, alloc k = true) →
      ∃ r t, (qblazeClone env alloc).result s = .ok (some r, t) := by
  obtain ⟨-, hold⟩ := h.refines (step_refines True) (accepted_of hi fun ctx hc _ => hpos ctx hc) .nil
  obtain ⟨ψ, -, hψ, hsψ, hp⟩ := forall₂_getElem hold hs
  refine ⟨(nonzero_of_logical (hsψ.logical_ne_zero hψ)).isEmpty,
    fun c hv hci => hold.returns hs henv hv hci, fun alloc ha => ?_⟩
  · have hw := wp_qblazeClone henv hsψ hψ ha
    obtain ⟨o, t, ht⟩ := returns_of_wp hw (fun _ hn => hn) (hp trivial)
    obtain ⟨r, rfl, -⟩ := hw.ends o t ht
    exact ⟨r, t, ht⟩

/-- A simulator with a qubit in superposition is measured. -/
theorem session_progress_plus : ∃ (s : Simulator ℝ) (a : Answer ℝ) (t : Simulator ℝ), s.isError = false ∧
    ((Call.measure 0 0).eval Env.default).result s = .ok (a, t) := by
  obtain ⟨as, s, h⟩ := plus_runs Context.default_positive (by decide)
  obtain ⟨he, hcall, -⟩ := session_progress h (plus_imports Context.default_positive)
    (fun ctx hc => (plus_accepted Context.default_positive _ hc).2 ctx rfl trivial) (i := 0) rfl default_granted
  obtain ⟨a, t, ht⟩ := hcall (.measure 0 0) trivial trivial
  exact ⟨s, a, t, he, ht⟩

end Simulator

/-! ## A measurement that is repeated -/

/-- The call does not change the value of a qubit that has one. -/
def Call.Leaves (q : Qubit) : Call ℝ → Prop
  | u3 r g => r = q → ∀ b, g.mat (!b) b = 0
  | ctlX _ r => r ≠ q
  | ctlSwap _ q1 q2 => q1 ≠ q ∧ q2 ≠ q
  | resetState => False
  | importDense _ => False
  | _ => True

/-- The command leaves the qubit of the simulator. -/
def Command.Leaves (i : Nat) (q : Qubit) : Command → Prop
  | call j c => j = i → c.Leaves q
  | _ => True

theorem Call.Leaves.determined {q : Qubit} {b : Bool} {c : Call ℝ} (hc : c.Leaves q) {ψ : Ket Qubit}
    (h : Determined q b ψ) : Determined q b (c.ideal ψ).2 := by
  have hop : ∀ p : Control × Op, p.2.writes q = false → Determined q b (opOperator p ψ) := fun p hw =>
    h.map (opOperator_commute_diag (proj_diag b) hw)
  cases c with
  | u3 r g =>
    refine h.map (A := gate r g.mat) ?_
    by_cases hr : r = q
    · exact gate_proj_commute (hc hr) q r b
    · exact gate_commute (Ne.symm hr) _ _
  | ctlX ctl r => exact hop (ctl, .x r) (beq_eq_false_iff_ne.mpr hc)
  | ctlSwap ctl q1 q2 =>
    exact hop (ctl, .swap q1 q2)
      (Bool.or_eq_false_iff.mpr ⟨beq_eq_false_iff_ne.mpr hc.1, beq_eq_false_iff_ne.mpr hc.2⟩)
  | ctlPhase ctl a => exact hop (ctl, .gphase a) rfl
  | measure r bias =>
    simp only [Call.ideal]
    exact h.map (gate_proj_commute (proj_diag _) q r b)
  | qubitProbs r => exact h
  | flush => exact h
  | trim => exact h
  | resetState => exact hc.elim
  | importDense values => exact hc.elim

/-- Register `i` has a qubit with one value. -/
def RegisterHas (i : Nat) (q : Qubit) (b : Bool) (ψs : List (Ket Qubit)) : Prop :=
  ∃ ψ, ψs[i]? = some ψ ∧ Determined q b ψ

theorem Command.Leaves.determined {i : Nat} {q : Qubit} {b : Bool} {c : Command} (hc : c.Leaves i q)
    {ψs : List (Ket Qubit)} (h : RegisterHas i q b ψs) : RegisterHas i q b (c.ideal ψs).2 := by
  obtain ⟨ψ, hψ, hd⟩ := h
  have happend : ∀ φ, (ψs ++ [φ])[i]? = some ψ := fun φ => by
    rw [List.getElem?_append_left (List.getElem?_eq_some_iff.mp hψ).1, hψ]
  cases c with
  | create ctx => exact ⟨ψ, happend _, hd⟩
  | call j c =>
    simp only [ideal]
    cases hj : ψs[j]? with
    | none => exact ⟨ψ, hψ, hd⟩
    | some φ =>
      by_cases he : j = i
      · subst he
        cases hψ.symm.trans hj
        exact ⟨_, List.getElem?_set_self (List.getElem?_eq_some_iff.mp hψ).1,
          Call.Leaves.determined (hc rfl) hd⟩
      · exact ⟨ψ, (List.getElem?_set_ne he).trans hψ, hd⟩
  | clone j =>
    simp only [ideal]
    cases ψs[j]? with
    | none => exact ⟨ψ, hψ, hd⟩
    | some φ => exact ⟨ψ, happend _, hd⟩

namespace Simulator

/-- What is reported of a qubit with one value. -/
theorem Hold.reports {P : Prop} {ψs : List (Ket Qubit)} {sims sims' : List (Simulator ℝ)} {i : Nat} {b : Bool}
    {a : Answer ℝ} (hold : Hold P ψs sims) (h : RegisterHas i q b ψs) :
    (∀ bias, Command.Step sims (.call i (.measure q bias)) a sims' →
      a = .outcome b (some (if b then 0 else 1, if b then 1 else 0))) ∧
    (Command.Step sims (.call i (.qubitProbs q)) a sims' →
      a = .probs (some (if b then 0 else 1, if b then 1 else 0))) := by
  obtain ⟨ψ, hψs, hd⟩ := h
  have hanswer : ∀ c : Call ℝ, c.Imports → Command.Step sims (.call i c) a sims' →
      ψ ≠ 0 ∧ (c.ideal ψ).1 = a := by
    intro c hc hstep
    obtain ⟨ha, -⟩ := step_refines P ψs sims _ a sims' hold (accepted_call hc) hstep
    simp only [Command.ideal, hψs] at ha
    refine ⟨?_, ha⟩
    cases hstep with
    | call hget =>
      obtain ⟨φ, hφs, hφ, -⟩ := forall₂_getElem hold hget
      rw [hψs] at hφs
      cases hφs
      exact hφ
  have hborn : ψ ≠ 0 →
      (born q ψ false, born q ψ true) = (if b then (0 : ℝ) else 1, if b then (1 : ℝ) else 0) := fun hψ => by
    rw [hd.born_eq hψ, hd.born_eq hψ]
    cases b <;> rfl
  refine ⟨fun bias hstep => ?_, fun hstep => ?_⟩
  · obtain ⟨hψ, ha⟩ := hanswer (.measure q bias) trivial hstep
    simp only [Call.ideal] at ha
    rw [← ha, hborn hψ, hd.choose_eq hψ]
  · obtain ⟨hψ, ha⟩ := hanswer (.qubitProbs q) trivial hstep
    simp only [Call.ideal] at ha
    rw [← ha, hborn hψ]

/-- After a measurement, the qubit has the value that was reported, until it is written. Until then every
measurement reports it again, and the other value has the probability zero. -/
theorem measured_stays {cmds later : List Command} {as as₂ : List (Answer ℝ)}
    {sims sims₁ sims₂ : List (Simulator ℝ)} {i : Nat} {q : Qubit} {bias : BitVec 64} {b : Bool}
    {p : Option (ℝ × ℝ)} (h : Runs Command.Step [] cmds as sims) (hi : ∀ c ∈ cmds, c.Imports)
    (hm : Command.Step sims (.call i (.measure q bias)) (.outcome b p) sims₁)
    (hlater : Runs Command.Step sims₁ later as₂ sims₂) (hi₂ : ∀ c ∈ later, c.Imports)
    (hleaves : ∀ c ∈ later, c.Leaves i q) {a : Answer ℝ} {sims₃ : List (Simulator ℝ)} :
    (∀ bias', Command.Step sims₂ (.call i (.measure q bias')) a sims₃ →
      a = .outcome b (some (if b then 0 else 1, if b then 1 else 0))) ∧
    (Command.Step sims₂ (.call i (.qubitProbs q)) a sims₃ →
      a = .probs (some (if b then 0 else 1, if b then 1 else 0))) := by
  obtain ⟨-, hold⟩ := h.refines (step_refines False) (accepted_of hi fun _ _ => False.elim) .nil
  obtain ⟨ha, hold₁⟩ := step_refines False _ _ _ _ _ hold (accepted_call (c := .measure q bias) trivial) hm
  have hhas :
      RegisterHas i q b ((Command.call i (.measure q bias)).ideal (specRun Command.ideal [] cmds).2).2 := by
    cases hm with
    | call hget =>
      obtain ⟨ψ, hψs, -⟩ := forall₂_getElem hold hget
      simp only [Command.ideal, hψs, Call.ideal, Answer.outcome.injEq] at ha ⊢
      rw [ha.1]
      exact ⟨_, List.getElem?_set_self (List.getElem?_eq_some_iff.mp hψs).1, .of_proj q b ψ⟩
  obtain ⟨-, hold₂⟩ := hlater.refines (step_refines False) (accepted_of hi₂ fun _ _ => False.elim) hold₁
  exact hold₂.reports (specRun_invariant (fun _ _ hc => hc.determined) hleaves hhas)

/-- A qubit in superposition is measured, and then controls another one. -/
theorem measured_stays_plus : ∃ b p s t u, Command.Step [s] (.call 0 (.measure 0 0)) (.outcome b p) [t] ∧
    Runs Command.Step [t] [.call 0 (.ctlX (Control.single 0 true) 1)] [.unit] [u] ∧
    ∀ a sims bias, Command.Step [u] (.call 0 (.measure 0 bias)) a sims →
      a = .outcome b (some (if b then 0 else 1, if b then 1 else 0)) := by
  have hctx := Context.default_positive
  obtain ⟨as, s, h⟩ := plus_runs hctx (by decide)
  obtain ⟨b, p, t, hm⟩ := plus_measured hctx h 0
  obtain ⟨-, hold⟩ := h.refines (step_refines True) (plus_accepted hctx) .nil
  obtain ⟨-, hold₁⟩ := step_refines True _ _ _ _ _ hold (accepted_call (c := .measure 0 0) trivial) hm
  obtain ⟨a, u, hu⟩ :=
    hold₁.returns (i := 0) rfl default_granted (c := .ctlX (Control.single 0 true) 1) rfl trivial
  have hx : Command.Step [t] (.call 0 (.ctlX (Control.single 0 true) 1)) a [u] :=
    .call (i := 0) rfl default_granted trivial hu
  obtain ⟨ha, -⟩ := step_refines True _ _ _ _ _ hold₁
    (accepted_call (c := .ctlX (Control.single 0 true) 1) trivial) hx
  simp only [Command.ideal, Call.ideal] at ha
  subst ha
  have hforall : ∀ {Q : Command → Prop}, Q (.call 0 (.ctlX (Control.single 0 true) 1)) →
      ∀ c ∈ [Command.call 0 (.ctlX (Control.single 0 true) 1)], Q c := fun hq c hc => by
    rw [List.mem_singleton.mp hc]
    exact hq
  have hleaves : (Command.call 0 (.ctlX (Control.single 0 true) 1)).Leaves 0 0 := fun _ => by
    show (1 : Qubit) ≠ 0
    decide
  refine ⟨b, p, s, t, u, hm, .single hx, fun a sims bias => ?_⟩
  exact (measured_stays h (plus_imports hctx) hm (.single hx) (hforall trivial) (hforall hleaves)).1 bias

end Simulator

/-! ## Frequencies -/

/-- The outcome of a measurement. -/
def Answer.outcome? {F : Type} : Answer F → Option Bool
  | outcome b _ => some b
  | _ => none

/-- The gates and measurements of an experiment, for the ideal register. -/
noncomputable def experimentEvent : Call ℝ ⊕ Qubit → Event Qubit
  | .inl c => .apply c.operator
  | .inr q => .measure q

/-- The commands of an experiment on simulator `i`, with 64 random bits for each measurement. -/
def experiment (i : Nat) : List (Call ℝ ⊕ Qubit) → List (BitVec 64) → List Command
  | [], _ => []
  | .inl c :: l, bits => .call i c :: experiment i l bits
  | .inr q :: l, x :: bits => .call i (.measure q x) :: experiment i l bits
  | .inr _ :: _, [] => []

theorem experiment_imports {i : Nat} {l : List (Call ℝ ⊕ Qubit)} (hl : ∀ c, .inl c ∈ l → c.IsGate)
    {bits : List (BitVec 64)} : ∀ c ∈ experiment i l bits, c.Imports := by
  induction l generalizing bits with
  | nil => exact fun c hc => absurd hc List.not_mem_nil
  | cons e l ih =>
    have hl' : ∀ c, .inl c ∈ l → c.IsGate := fun c hc => hl c (List.mem_cons_of_mem _ hc)
    cases e with
    | inl c =>
      refine List.forall_mem_cons.mpr ⟨?_, ih hl'⟩
      have hg := hl c (List.mem_cons_self ..)
      cases c with
      | importDense values => exact hg.elim
      | _ => exact trivial
    | inr q =>
      cases bits with
      | nil => exact fun c hc => absurd hc List.not_mem_nil
      | cons x bits => exact List.forall_mem_cons.mpr ⟨trivial, ih hl'⟩

/-- The outcomes of an experiment on ideal registers. -/
theorem experiment_outcomes {i : Nat} {l : List (Call ℝ ⊕ Qubit)} (hl : ∀ c, .inl c ∈ l → c.IsGate)
    {ψs : List (Ket Qubit)} {ψ : Ket Qubit} (hψ : ψs[i]? = some ψ) (bits : List (BitVec 64)) :
    (specRun Command.ideal ψs (experiment i l bits)).1.filterMap Answer.outcome? =
      Event.outcomes (l.map experimentEvent) bits ψ := by
  induction l generalizing ψs ψ bits with
  | nil => rfl
  | cons e l ih =>
    have hl' : ∀ c, .inl c ∈ l → c.IsGate := fun c hc => hl c (List.mem_cons_of_mem _ hc)
    have hset : ∀ φ, (ψs.set i φ)[i]? = some φ := fun φ =>
      List.getElem?_set_self (List.getElem?_eq_some_iff.mp hψ).1
    cases e with
    | inl c =>
      have hid : c.ideal ψ = (.unit, c.operator ψ) := by
        have hg := hl c (List.mem_cons_self ..)
        cases c with
        | measure q bias => exact hg.elim
        | qubitProbs q => exact hg.elim
        | trim => exact hg.elim
        | resetState => exact hg.elim
        | importDense values => exact hg.elim
        | _ => simp only [Call.ideal]
      rw [experiment, specRun, List.map_cons, experimentEvent, Event.outcomes]
      simp only [Command.ideal, hψ, hid]
      exact ih hl' (hset _) bits
    | inr q =>
      cases bits with
      | nil => rfl
      | cons x bits =>
        rw [experiment, specRun, List.map_cons, experimentEvent, Event.outcomes]
        simp only [Command.ideal, hψ, Call.ideal]
        exact congrArg _ (ih hl' (hset _) bits)

namespace Simulator

/-- The registers may be in the states that the simulators stand for. -/
theorem Hold.logical {P : Prop} {ψs : List (Ket Qubit)} {sims : List (Simulator ℝ)} (h : Hold P ψs sims) :
    Hold P (sims.map (·.logical)) sims := by
  induction h with
  | nil => exact .nil
  | cons hs _ ih =>
    obtain ⟨hψ, hs, hp⟩ := hs
    exact .cons ⟨hs.logical_ne_zero hψ, ⟨hs.toSound, hs.clean, .refl _⟩, hp⟩ ih

/-- The outcomes of an experiment are as frequent as the state of the simulator says. For every choice of
the random bits the experiment is run, in any way; of all choices, the share of those with the outcomes `bs`
is the squared norm of the component, up to one pattern of the bits for each measurement. -/
theorem outcome_frequencies {cmds : List Command} {as : List (Answer ℝ)} {sims : List (Simulator ℝ)}
    (h : Runs Command.Step [] cmds as sims) (hi : ∀ c ∈ cmds, c.Imports) {i : Nat} {s : Simulator ℝ}
    (hs : sims[i]? = some s) {l : List (Call ℝ ⊕ Qubit)} (hl : ∀ c, .inl c ∈ l → c.IsGate ∧ c.Valid)
    {answers : (Fin (Event.count (l.map experimentEvent)) → BitVec 64) → List (Answer ℝ)}
    (hrun : ∀ v, ∃ sims', Runs Command.Step sims (experiment i l (List.ofFn v)) (answers v) sims')
    (bs : List Bool) :
    |(Nat.card {v // (answers v).filterMap Answer.outcome? = bs} : ℝ) /
        (2 ^ 64) ^ Event.count (l.map experimentEvent) -
      norm2 (Event.branch (l.map experimentEvent) bs s.logical) / norm2 s.logical| ≤
      (Event.count (l.map experimentEvent) : ℝ) / 2 ^ 64 := by
  obtain ⟨-, hold⟩ := h.refines (step_refines False) (accepted_of hi fun _ _ => False.elim) .nil
  have hlog := hold.logical
  have hget : (sims.map (·.logical))[i]? = some s.logical := by rw [List.getElem?_map, hs, Option.map_some]
  have hne : s.logical ≠ 0 := by
    obtain ⟨ψ, -, hψ, hsψ, -⟩ := forall₂_getElem hold hs
    exact hsψ.logical_ne_zero hψ
  have hunitary : Event.Unitary (l.map experimentEvent) := by
    intro A hA ψ
    obtain ⟨e, he, heq⟩ := List.mem_map.mp hA
    cases e with
    | inl c =>
      rw [experimentEvent, Event.apply.injEq] at heq
      rw [← heq, norm2_operator (hl c he).2]
    | inr q => cases heq
  have hanswers : ∀ v, (answers v).filterMap Answer.outcome? =
      Event.outcomes (l.map experimentEvent) (List.ofFn v) s.logical := by
    intro v
    obtain ⟨sims', hr⟩ := hrun v
    have himports := @experiment_imports i l (fun c hc => (hl c hc).1) (List.ofFn v)
    obtain ⟨ha, -⟩ := hr.refines (step_refines False) (accepted_of himports fun _ _ => False.elim) hlog
    rw [← ha, experiment_outcomes (fun c hc => (hl c hc).1) hget]
  have hcard := Event.outcomes_card (w := 64) hunitary hne bs
  rw [Event.frequency, show (((2 ^ 64 : Nat) : ℝ)) = 2 ^ 64 by norm_num] at hcard
  simp only [hanswers]
  exact hcard

/-- A qubit in superposition, measured once. -/
theorem outcome_frequencies_plus : ∃ (s : Simulator ℝ) (answers : (Fin 1 → BitVec 64) → List (Answer ℝ)),
    |(Nat.card {v // (answers v).filterMap Answer.outcome? = [true]} : ℝ) / (2 ^ 64) ^ 1 -
      norm2 (gate 0 (proj true) s.logical) / norm2 s.logical| ≤ ((1 : ℕ) : ℝ) / 2 ^ 64 := by
  obtain ⟨as, s, h⟩ := plus_runs Context.default_positive (by decide)
  have hmeasure := plus_measured Context.default_positive h
  choose b p t ht using hmeasure
  have hrun : ∀ v : Fin 1 → BitVec 64, ∃ sims', Runs Command.Step [s] (experiment 0 [.inr 0] (List.ofFn v))
      [.outcome (b (v 0)) (p (v 0))] sims' := fun v => by
    rw [List.ofFn_succ]
    exact ⟨[t (v 0)], .single (ht (v 0))⟩
  exact ⟨s, _, outcome_frequencies h (plus_imports Context.default_positive) (i := 0) rfl (l := [.inr 0])
    (fun c hc => by cases hc with | tail _ hc => cases hc) hrun [true]⟩

end Simulator

end Qblaze
