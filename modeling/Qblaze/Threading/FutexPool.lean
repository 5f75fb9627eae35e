import Qblaze.Threading.FutexSafe
import Qblaze.Threading.Pool

/-!
# The futex pool refines the abstract pool

`src/threading/sync_impl.futex.rs` (`Qblaze/Threading/Futex.lean`) as an implementation of the
abstract pool (`Qblaze/Threading/Pool.lean`), like the spin lock and the condition variable: a
successful compare-exchange of `lock` or of an idle thread takes the lock, the swaps of `unlock` and
`unlock_idle` give it away, and reads, failed exchanges, sleeps and wake-ups are not seen.
-/

namespace Qblaze.Futex

open Pool (Ask Mode Store Work perform perform_work)

variable {n : Nat} {s s' : St n} {t u : Fin n}

/-- The stack and what has been run. -/
def St.store (s : St n) : Store := ⟨s.stack, s.jobs, s.gens, s.started, s.ended, s.dropped⟩

/-- The abstract pool that a state stands for. -/
def St.abs (s : St n) : Pool.St n := ⟨fun t => (s.pc t).mode, s.store⟩

/-! ## The refinement -/

theorem abs_goto (s : St n) (t : Fin n) (p : Pc) : (s.goto t p).abs = s.abs.goto t p.mode :=
  Pool.goto_of_place Pc.mode s.pc s.store t p

theorem abs_same {p : Pc} (h : p.mode = (s.pc t).mode) : (s.goto t p).abs = s.abs := by
  rw [abs_goto, h]
  exact Pool.goto_mode_self s.abs t

/-- The abstract pool does not see the word. -/
theorem abs_word (s : St n) (w : Nat) (b : Bool) :
    ({ s with word := w, stopping := b } : St n).abs = s.abs := rfl

theorem Inv.free (hi : Inv s) (hw : s.word % 2 = 0) : s.abs.Free := by
  intro u
  show (s.pc u).mode.holds = false
  rw [mode_holds]
  by_contra hc
  have := hi.odd (Bool.eq_true_of_not_eq_false hc)
  omega

/-- An idle thread that reads `STOPPING` reads it after `stop`. -/
theorem Inv.stopped_main (hn2 : 2 ≤ n) (hi : Inv s) (hm : (s.pc t).mode = .idle) (hw : s.word = 0) :
    ∃ u : Fin n, u.val = 0 ∧ s.abs.mode u = .ended := by
  have hs : s.stopping = true := by
    by_contra hc
    have := hi.idle_pos (Bool.eq_false_iff.mpr hc) (mode_idle.mp hm)
    omega
  refine ⟨⟨0, by omega⟩, rfl, mode_past.mpr ?_⟩
  obtain h | ⟨-, h⟩ := (hi.stop hs).2.2 ⟨0, by omega⟩
  · exact h
  · exact absurd rfl h

/-- When the main thread is about to leave `wait_main`, all threads are idle. -/
theorem Inv.exit_idle (hi : Inv s) {v : Nat} (hp : s.pc t = .mainExit v) (u : Fin n) :
    s.abs.mode u = .idle := by
  obtain ⟨-, hw, -⟩ := hi.exit_word hp
  have hn : 0 < n := Fin.pos t
  have hs : s.stopping = false := by
    by_contra hc
    have := (hi.stop (Bool.eq_true_of_not_eq_false hc)).1
    omega
  exact mode_idle.mpr (idle_of_all ((hi.idle hs).trans (by omega)) u)

theorem Step.abs (hn2 : 2 ≤ n) (hi : Inv s) (h : Step t s s') :
    s'.abs = s.abs ∨ Pool.Step t s.abs s'.abs := by
  have hread : ∀ p, SeenAs s.word (s.pc t) p →
      (s.goto t p).abs = s.abs ∨ Pool.Step t s.abs (s.goto t p).abs := by
    rintro p (hp | ⟨hw, hp, rfl⟩)
    · exact .inl (abs_same hp)
    · obtain ⟨u, hu, he⟩ := hi.stopped_main hn2 hp hw
      rw [abs_goto]
      exact .inr (.exit hp hu he)
  -- user code and critical sections
  have hwork : ∀ {r : St n} {p : Pc} {m : Mode}, Work m s.store p.mode r.store → (s.pc t).mode = m →
      r.pc = s.pc → (r.goto t p).abs = s.abs ∨ Pool.Step t s.abs (r.goto t p).abs := by
    rintro r p m hw rfl hpc
    have : r.abs = { s.abs with store := r.store } := by
      unfold St.abs
      rw [hpc]
    rw [abs_goto, this]
    exact .inr (.work hw)
  cases h with
  | load ha => exact hread _ (load_seen ha _)
  | casFail ha => exact hread _ (casFail_seen ha _)
  | casOk ha hw =>
    subst hw
    rw [abs_goto]
    obtain ⟨c, hp, rfl, hv⟩ | hp | ⟨hp, rfl, hv⟩ := casOk_mode ha (hi.loc t)
    · exact .inr (.acquire hp (hi.free hv))
    · rw [hp]
      exact .inl (Pool.goto_mode_self s.abs t)
    · exact .inr (.take hp (hi.free (by omega)) ((hi.work (by omega)).mp hv))
  | @swap _ _ v k ha =>
    rw [abs_goto]
    obtain ⟨b, hp, hk⟩ | ⟨hp, hk⟩ := swap_mode ha s.word
    · rw [hk]
      exact .inr (.release hp)
    · rw [hk]
      exact .inr (.rest hp)
  | store ha =>
    obtain ⟨v', hp, rfl, rfl⟩ := store_eq ha
    rw [abs_goto]
    exact .inr (.leave (hi.exit_idle hp) (hi.main t (by rw [hp]; rfl)))
  | @sleep _ _ v m k ha _ =>
    have hm : k.mode = (s.pc t).mode := wait_mode ha
    exact .inl (abs_same (p := .asleep m k) hm)
  | noSleep ha => exact .inl (abs_same (wait_mode ha))
  | spurious hp => exact .inl (abs_same (by rw [hp]; rfl))
  | @wakeSome _ _ m k u ha _ =>
    have h1 : (s.goto u (s.pc u).wakened).abs = s.abs := abs_same (wakened_mode _)
    refine .inl ?_
    rw [abs_goto, h1, wakeOne_mode ha]
    exact Pool.goto_mode_self s.abs t
  | wakeNone ha _ => exact .inl (abs_same (wakeOne_mode ha false))
  | @wakeAll _ _ m k ha =>
    obtain ⟨hp, rfl, rfl⟩ := wakeAll_eq ha
    have h1 : ({ s with pc := fun u => wakeAllPc (waitWork + waitLock) (s.pc u) } : St n).abs =
        s.abs := by
      unfold St.abs
      simp only [wakeAllPc_mode]
      rfl
    refine .inl ?_
    rw [abs_goto, h1, show Pc.stopped.mode = (s.pc t).mode by rw [hp]; rfl]
    exact Pool.goto_mode_self s.abs t
  | stop hp =>
    rw [abs_goto, abs_word]
    exact .inr (.stop (show (s.pc t).mode = _ by rw [hp]; rfl))
  | enter hp => exact hwork (r := s) .enter (by rw [hp]; rfl) rfl
  | submitOne hp => exact hwork (r := s) .submitOne (by rw [hp]; rfl) rfl
  | submitMulti hp => exact hwork (r := s) .submitMulti (by rw [hp]; rfl) rfl
  | endScope hp => exact hwork (r := s) .endScope (by rw [hp]; rfl) rfl
  | endClosure hp => exact hwork .endClosure (by rw [hp]; rfl) rfl
  | pushOne hp => exact hwork .pushOne (by rw [hp]; rfl) rfl
  | pushMulti hp => exact hwork .pushMulti (by rw [hp]; rfl) rfl
  | idle hp hs => exact hwork (r := s) (.idle hs) (by rw [hp]; rfl) rfl
  | runSimple hp hs => exact hwork (.runSimple hs) (by rw [hp]; rfl) rfl
  | runMulti hp hs => exact hwork (.runMulti hs) (by rw [hp]; rfl) rfl
  | dropMulti hp hs => exact hwork (.dropMulti hs) (by rw [hp]; rfl) rfl

theorem abs_init (h : s.Init) : s.abs.Init := by
  obtain ⟨-, hst, hpc, hj, hg, h1, h2, h3, -⟩ := h
  refine ⟨fun t => ?_, ?_⟩
  · show (s.pc t).mode = _
    rw [hpc t]
    split <;> rfl
  · show s.store = _
    unfold St.store
    rw [hst, hj, hg, funext h1, funext h2, funext h3]
    rfl

theorem Inv.reach_abs (hn2 : 2 ≤ n) (hn : n ≤ maxThreads) (h : (pool n).Reach s) :
    Inv s ∧ (Pool.pool n).Reach s.abs :=
  h.refines (A := Pool.pool n) (I := Inv) (fun _ hs => ⟨Inv.init hs, abs_init hs⟩)
    (fun _ _ _ hi _ hst => Step.abs hn2 hi hst) fun _ _ _ hi _ _ hst => hi.step hn2 hn hst

/-- The pool over a futex refines the abstract pool: it reaches only states of the abstract pool, and
each step is a step of the same thread there, or changes nothing. -/
theorem futex_refines (hn2 : 2 ≤ n) (hn : n ≤ maxThreads) (h : (pool n).Reach s) :
    (Pool.pool n).Reach s.abs ∧
      ∀ t s', Step t s s' → s'.abs = s.abs ∨ (Pool.pool n).step t s.abs s'.abs := by
  obtain ⟨hi, ha⟩ := Inv.reach_abs hn2 hn h
  exact ⟨ha, fun t s' hst => hst.abs hn2 hi⟩

/-! ## Schedules -/

/-- The code is in `src/threading.rs`. -/
def Pc.isCode : Pc → Bool
  | .outside | .body _ | .held _ => true
  | _ => false

/-- `src/threading.rs` goes on with mode `m`: the call of a function of the lock. -/
def call (σ : Store) : Mode → Pc
  | .outside => .outside
  | .body b => .body b
  | .want k => .lockLoad k maxSpin
  | .held k => .held k
  | .release b => .unlockLoad (!σ.stack.isEmpty) b
  | .resting => .idleLoad
  | .idle => .startLoad
  | .ended => .exited

/-- `s` with the tasks of `σ`. -/
def St.withStore (s : St n) (σ : Store) : St n :=
  { s with stack := σ.stack, jobs := σ.jobs, gens := σ.gens, started := σ.started,
           ended := σ.ended, dropped := σ.dropped }

theorem call_code {p : Pc} (h : p.isCode = true) (σ : Store) : call σ p.mode = p := by
  cases p <;> first | rfl | cases h

theorem step_of_work {m : Mode} {σ : Store} (hc : (s.pc t).isCode = true)
    (hw : Work (s.pc t).mode s.store m σ) : Step t s ((s.withStore σ).goto t (call σ m)) := by
  have hp : s.pc t = call s.store (s.pc t).mode := (call_code hc s.store).symm
  generalize (s.pc t).mode = m0 at hw hp
  cases hw with
  | enter => exact .enter hp
  | submitOne => exact .submitOne hp
  | submitMulti => exact .submitMulti hp
  | endScope => exact .endScope hp
  | endClosure => exact .endClosure hp
  | pushOne => exact .pushOne hp
  | pushMulti => exact .pushMulti hp
  | idle hs => exact .idle hp hs
  | runSimple hs => exact .runSimple hp hs
  | runMulti hs =>
    have hst : (s.store.stack.isEmpty) = false := by rw [hs]; rfl
    have := Step.runMulti hp hs
    rwa [show (true : Bool) = !s.store.stack.isEmpty by rw [hst]; rfl] at this
  | dropMulti hs => exact .dropMulti hp hs

/-- The thread is asleep with a mask that overlaps `mask`. -/
def Pc.sleeps (mask : Nat) : Pc → Bool
  | .asleep m _ => m &&& mask != 0
  | _ => false

theorem sleeper_iff (s : St n) (m : Nat) (u : Fin n) : s.Sleeper m u ↔ (s.pc u).sleeps m = true := by
  unfold St.Sleeper
  cases s.pc u <;> simp [Pc.sleeps]

/-- The next step of thread `c.1`, on choice `c.2` of its user code: an exchange that can succeed
does, a thread sleeps if it can, and a wake-up goes to the first sleeper. -/
def advance (c : Fin n × Ask) (s : St n) : Option (St n) :=
  match act n (c.1.val == 0) (s.pc c.1) with
  | .load k => some (s.goto c.1 (k s.word))
  | .cas v v2 ok fail =>
    if s.word = v then some ({ s with word := v2 }.goto c.1 ok) else some (s.goto c.1 (fail s.word))
  | .swap v k => some ({ s with word := v }.goto c.1 (k s.word))
  | .store v k => some ({ s with word := v }.goto c.1 k)
  | .wait v m k => if s.word = v then some (s.goto c.1 (.asleep m k)) else some (s.goto c.1 k)
  | .wakeOne m k =>
    match (List.finRange n).find? fun u => (s.pc u).sleeps m with
    | some u => some ((s.goto u (s.pc u).wakened).goto c.1 (k true))
    | none => some (s.goto c.1 (k false))
  | .wakeAll m k => some ({ s with pc := fun u => wakeAllPc m (s.pc u) }.goto c.1 k)
  | .none =>
    if c.2 = .stop then
      if s.pc c.1 = .outside then some ({ s with word := 0, stopping := true }.goto c.1 .stopWake)
      else none
    else if (s.pc c.1).isCode then
      (perform c.2 s.store (s.pc c.1).mode).map fun r => (s.withStore r.2).goto c.1 (call r.2 r.1)
    else none

theorem advance_step {c : Fin n × Ask} (h : advance c s = some s') : Step c.1 s s' := by
  unfold advance at h
  split at h
  case h_1 k ha =>
    cases h
    exact .load ha
  case h_2 v v2 ok fail ha =>
    split at h <;> cases h
    · exact .casOk ha ‹_›
    · exact .casFail ha
  case h_3 v k ha =>
    cases h
    exact .swap ha
  case h_4 v k ha =>
    cases h
    exact .store ha
  case h_5 v m k ha =>
    split at h <;> cases h
    · exact .sleep ha ‹_›
    · exact .noSleep ha
  case h_6 m k ha =>
    split at h <;> cases h
    case h_1 u hu =>
      have hs := List.find?_some (p := fun u => (s.pc u).sleeps m) hu
      exact .wakeSome ha ((sleeper_iff s m u).mpr hs)
    · refine .wakeNone ha fun u hu => ?_
      exact List.find?_eq_none.mp ‹_› u (List.mem_finRange u) ((sleeper_iff s m u).mp hu)
  case h_7 m k ha =>
    cases h
    exact .wakeAll ha
  case h_8 ha =>
    split at h
    · split at h <;> cases h
      exact .stop ‹_›
    · split at h
      · obtain ⟨r, hr, rfl⟩ := Option.map_eq_some_iff.mp h
        exact step_of_work ‹_› (perform_work hr)
      · cases h

/-- The pool of two threads as `Pool::new` makes it. -/
def fresh : St 2 :=
  { word := 4, stack := [], pc := fun t => if t.val = 0 then .outside else .startLoad, jobs := 0,
    gens := 0, started := fun _ => 0, ended := fun _ => 0, dropped := fun _ => 0,
    stopping := false }

theorem fresh_reach : (pool 2).Reach fresh :=
  .init ⟨rfl, rfl, fun _ => rfl, rfl, rfl, fun _ => rfl, fun _ => rfl, fun _ => rfl, rfl⟩

/-- The worker falls asleep in `start_work`. The main thread enters a scope, submits a task and wakes
the worker up, which runs the task and is idle again. The main thread ends the scope. -/
def oneTask (main worker : Fin n) : List (Fin n × Ask) :=
  .replicate 2 (worker, .go) ++ [(main, .enter), (main, .submitOne)] ++ .replicate 6 (main, .go) ++
    .replicate 5 (worker, .go) ++ [(worker, .finish)] ++ .replicate 5 (worker, .go) ++ [(main, .finish)] ++
    .replicate 6 (main, .go)

/-- What a schedule reaches from the fresh pool. -/
theorem exists_of_schedule (ks : List (Fin 2 × Ask)) (P : St 2 → Prop) [DecidablePred P]
    (hp : (Lib.System.follow advance ks fresh).any (fun s => decide (P s)) = true) :
    ∃ s, (pool 2).Reach s ∧ P s :=
  Lib.System.exists_of_follow (fun c _ _ h => ⟨c.1, advance_step h⟩) fresh_reach ks P hp

/-- The worker has taken the lock to run the task of a scope, which is a step of the pool; and the
scope is over. -/
theorem futex_refines_oneTask :
    (∃ s s' : St 2, s.jobs = 1 ∧ s.pc 1 = .startCas 6 ∧ s'.pc 1 = .held .runAll ∧ s'.abs ≠ s.abs ∧
      (Pool.pool 2).step 1 s.abs s'.abs) ∧
    ∃ s : St 2, s.pc 0 = .outside ∧ s.ended 0 = 1 ∧ (Pool.pool 2).Reach s.abs := by
  refine ⟨?_, ?_⟩
  · obtain ⟨s, hr, hp, hj, hw⟩ := exists_of_schedule ((oneTask 0 1).take 11)
      (fun s => s.pc 1 = .startCas 6 ∧ s.jobs = 1 ∧ s.word = 6) (by decide +kernel)
    have hst : Step 1 s ({ s with word := takeIdle 6 }.goto 1 (.held .runAll)) :=
      .casOk (by rw [hp]; rfl) hw
    have hne : ({ s with word := takeIdle 6 }.goto 1 (.held .runAll)).abs ≠ s.abs := by
      intro h
      have h1 : Mode.held .runAll = (s.pc 1).mode := congrArg (fun a => a.mode 1) h
      rw [hp] at h1
      cases h1
    exact ⟨s, { s with word := takeIdle 6 }.goto 1 (.held .runAll), hj, hp, rfl, hne,
      ((futex_refines (by decide) (by decide) hr).2 1 _ hst).resolve_left hne⟩
  · obtain ⟨s, hr, h0, hend⟩ := exists_of_schedule (oneTask 0 1)
      (fun s => s.pc 0 = .outside ∧ s.ended 0 = 1) (by decide +kernel)
    exact ⟨s, h0, hend, (futex_refines (by decide) (by decide) hr).1⟩

end Qblaze.Futex
