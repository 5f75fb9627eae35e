import Mathlib.Data.Nat.Bitwise
import Qblaze.Threading.Pool

/-!
# The thread pool over a mutex and a condition variable (`src/threading/sync_impl.rs`)

The implementation for systems without futexes: the number of idle threads is behind a
`std::sync::Mutex`, and threads wait at a `std::sync::Condvar`. The model is the interleaving of
`n` threads, where the code with the mutex up to its next use of the mutex or of the condition
variable is one step:

* `Pc`: where a thread is; `act`: what it does there. `Condvar::wait` gives the mutex away and
  sleeps in one step. It returns when it is woken up, or for no reason (`spurious`), and takes the
  mutex again.
* `Inv`: at most one thread has the mutex; the number behind it counts the idle threads until
  `stop`. An idle thread may have the mutex, but not the lock of the abstract pool
  (`Qblaze/Threading/Pool.lean`).
* `condvar_refines`, `condvar_safe`: the pool refines the abstract pool, so that a scope ends when
  everything in it has run exactly once; no assertion fails.
-/

namespace Qblaze.Condvar

open Futex (Body Cont Task maxThreads)
open Pool (Ask Mode Store Work goto_self goto_of_ne perform perform_work)

def STOPPING : Nat := 2 ^ 31

/-! ## Threads -/

/-- Where a thread is. -/
inductive Pc where
  -- `src/threading.rs`; `held` has the mutex
  | outside
  | body (b : Body)
  | held (k : Cont)
  /-- `lock` -/
  | lockMtx (k : Cont)
  -- `unlock`, which returns to `b`
  | unlockDrop (nonempty : Bool) (b : Body)
  | unlockNotify (b : Body)
  /-- `start_work` -/
  | startMtx
  -- `wait_work`
  | workGive
  | workNotify
  -- `lock_work`: the head of its loop, and behind `cond_wait`
  | workLoop
  | workCheck
  -- `wait_main`
  | mainGive
  | mainLoop
  | mainCheck
  -- in `cond_wait`, asleep and woken up
  | asleep (main : Bool)
  | woken (main : Bool)
  -- `stop`
  | stopMtx
  | stopStore
  | stopNotify
  /-- The `assert!` of `stop` has failed. -/
  | panicked
  -- behind `stop`, or `State::work`
  | stopped
  | exited
  deriving DecidableEq

/-- What the code with the mutex does: the new count, whether it keeps the mutex, and where the
thread goes on. -/
structure Crit where
  count : Nat
  keeps : Bool
  next : Pc

/-- What a thread does. -/
inductive Act where
  | lock (k : Pc)
  /-- With the mutex; `f` reads the count and whether the stack is empty. -/
  | crit (f : Nat → Bool → Crit)
  | notifyOne (k : Pc)
  | notifyAll (k : Pc)
  /-- User code, a critical section of `src/threading.rs`, asleep or ended. -/
  | none

/-- What a thread does at a `Pc`. -/
def act (n : Nat) : Pc → Act
  | .lockMtx k => .lock (.held k)
  | .unlockDrop nonempty b => .crit fun idle _ =>
    ⟨idle, false, if nonempty && idle != 0 then .unlockNotify b else .body b⟩
  | .unlockNotify b => .notifyOne (.body b)
  | .startMtx => .lock .workLoop
  | .workGive => .crit fun c _ => ⟨c + 1, true, if c + 1 = n then .workNotify else .workLoop⟩
  | .workNotify => .notifyAll .workLoop
  | .workLoop => .crit fun c _ =>
    ⟨c, false, if c &&& STOPPING = 0 then .asleep false else .exited⟩
  | .workCheck => .crit fun c empty =>
    if empty then ⟨c, true, .workLoop⟩ else ⟨c - 1, true, .held .runAll⟩
  | .mainGive => .crit fun c _ => ⟨c + 1, true, .mainLoop⟩
  | .mainLoop => .crit fun c _ =>
    if c = n then ⟨n - 1, false, .outside⟩ else ⟨c, false, .asleep true⟩
  | .mainCheck => .crit fun c empty =>
    if empty then ⟨c, true, .mainLoop⟩ else ⟨c - 1, true, .held .runAll⟩
  | .woken main => .lock (if main then .mainCheck else .workCheck)
  | .stopMtx => .lock .stopStore
  | .stopStore => .crit fun c _ =>
    if c = n - 1 then ⟨STOPPING, false, .stopNotify⟩ else ⟨c, false, .panicked⟩
  | .stopNotify => .notifyAll .stopped
  | .outside | .body _ | .held _ | .asleep _ | .panicked | .stopped | .exited => .none

/-- The thread after a wake-up. -/
def Pc.wake : Pc → Pc
  | .asleep main => .woken main
  | p => p

def Pc.isAsleep : Pc → Bool
  | .asleep _ => true
  | _ => false

/-- What the thread does in the abstract pool. -/
def Pc.mode : Pc → Mode
  | .outside | .stopMtx | .stopStore => .outside
  | .body b | .unlockNotify b => .body b
  | .held k => .held k
  | .lockMtx k => .want k
  | .unlockDrop _ b => .release b
  | .workGive | .mainGive => .resting
  | .startMtx | .workNotify | .workLoop | .workCheck | .mainLoop | .mainCheck | .asleep _
  | .woken _ => .idle
  | .stopNotify | .panicked | .stopped | .exited => .ended

/-- `src/threading.rs` goes on with mode `m`: the call of a function of the lock. `Lock::submit`
calls `unlock` with `true`, and the stack has the task; the drop of a `Lock` looks at the stack. -/
def call (main : Bool) (σ : Store) : Mode → Pc
  | .outside => .outside
  | .body b => .body b
  | .want k => .lockMtx k
  | .held k => .held k
  | .release b => .unlockDrop (!σ.stack.isEmpty) b
  | .resting => if main then .mainGive else .workGive
  | .idle => .startMtx
  | .ended => .exited

/-- The code is in `src/threading.rs`. -/
def Pc.isCode : Pc → Bool
  | .outside | .body _ | .held _ => true
  | _ => false

/-! ## The pool -/

/-- The pool of `n` threads; thread `0` is the main thread. -/
structure St (n : Nat) where
  /-- A thread has the mutex. -/
  locked : Bool
  /-- The number behind the mutex. -/
  count : Nat
  pc : Fin n → Pc
  store : Store

variable {n : Nat}

/-- `s` with thread `t` at `p`. -/
def St.goto (s : St n) (t : Fin n) (p : Pc) : St n := { s with pc := Function.update s.pc t p }

/-- The steps of thread `t`, but for spurious wake-ups. -/
inductive Step : Fin n → St n → St n → Prop
  | lock {s : St n} {t k} : act n (s.pc t) = .lock k → s.locked = false →
      Step t s ({ s with locked := true }.goto t k)
  | crit {s : St n} {t f} : act n (s.pc t) = .crit f →
      Step t s ({ s with
        locked := (f s.count s.store.stack.isEmpty).keeps
        count := (f s.count s.store.stack.isEmpty).count }.goto t
          (f s.count s.store.stack.isEmpty).next)
  | notifyOne {s : St n} {t k u} : act n (s.pc t) = .notifyOne k → (s.pc u).isAsleep = true →
      Step t s ((s.goto u (s.pc u).wake).goto t k)
  | notifyNone {s : St n} {t k} : act n (s.pc t) = .notifyOne k →
      (∀ u, (s.pc u).isAsleep = false) → Step t s (s.goto t k)
  | notifyAll {s : St n} {t k} : act n (s.pc t) = .notifyAll k →
      Step t s ({ s with pc := fun u => (s.pc u).wake }.goto t k)
  /-- The main thread drops the pool. -/
  | stop {s : St n} {t} : s.pc t = .outside → Step t s (s.goto t .stopMtx)
  /-- `src/threading.rs`: user code and critical sections. -/
  | work {s : St n} {t m σ} : (s.pc t).isCode = true → Work (s.pc t).mode s.store m σ →
      Step t s ({ s with store := σ }.goto t (call (t.val == 0) σ m))

/-- A return of `Condvar::wait` for no reason. -/
def Spurious (t : Fin n) (s s' : St n) : Prop :=
  (s.pc t).isAsleep = true ∧ s' = s.goto t (s.pc t).wake

/-- `Pool::new` -/
def St.Init (s : St n) : Prop :=
  s.locked = false ∧ s.count = n - 1 ∧
    (∀ t : Fin n, s.pc t = if t.val = 0 then .outside else .startMtx) ∧ s.store = Store.new

/-- The pool as a system. -/
def pool (n : Nat) : Lib.System (St n) (Fin n) :=
  ⟨St.Init, fun t s s' => Step t s s' ∨ Spurious t s s'⟩

/-- The abstract pool that a state stands for. -/
def St.abs (s : St n) : Pool.St n := ⟨fun t => (s.pc t).mode, s.store⟩

/-! ## The invariant -/

/-- The thread has the mutex. -/
def Pc.owns : Pc → Bool
  | .held _ | .unlockDrop _ _ | .workGive | .workNotify | .workLoop | .workCheck | .mainGive
  | .mainLoop | .mainCheck | .stopStore => true
  | _ => false

/-- The places that only the main thread reaches. -/
def Pc.mainOnly : Pc → Bool
  | .outside | .mainGive | .mainLoop | .mainCheck | .asleep true | .woken true | .stopMtx
  | .stopStore | .stopNotify | .stopped => true
  | _ => false

/-- The places that only a worker reaches. -/
def Pc.workerOnly : Pc → Bool
  | .startMtx | .workGive | .workNotify | .workLoop | .workCheck | .asleep false | .woken false
  | .exited => true
  | _ => false

/-- What a thread relies on: the main thread and the workers wait in places of their own; `unlock`
is told if the stack is empty; no assertion has failed. -/
structure Pc.Local (main : Bool) (stk : List Task) (p : Pc) : Prop where
  only : p.mainOnly = true → main = true
  worker : p.workerOnly = true → main = false
  nonempty : ∀ e b, p = .unlockDrop e b → e = !stk.isEmpty
  fine : p ≠ .panicked

/-- The number behind the mutex. -/
structure Encodes (a : Pool.St n) (c : Nat) : Prop where
  idle : a.Open → c = a.idlers
  closed : ¬ a.Open → c = STOPPING

/-- The mutex is locked if a thread has it, and no other thread has it then. -/
structure Mutex (locked : Bool) (pc : Fin n → Pc) : Prop where
  one : ∀ t u, (pc t).owns = true → (pc u).owns = true → t = u
  locked : locked = true ↔ ∃ t, (pc t).owns = true

/-- The invariant. -/
structure Inv (s : St n) : Prop where
  mutex : Mutex s.locked s.pc
  count : Encodes s.abs s.count
  loc : ∀ t, (s.pc t).Local (t.val == 0) s.store.stack

/-! ## What a thread does -/

section Act

variable {main : Bool} {p k : Pc} {c : Nat} {e : Bool} {stk : List Task}

theorem holds_owns (h : p.mode.holds = true) : p.owns = true := by
  cases p <;> first | rfl | cases h

theorem wake_mode (p : Pc) : p.wake.mode = p.mode := by
  cases p <;> rfl

theorem wake_owns (p : Pc) : p.wake.owns = p.owns := by
  cases p <;> rfl

theorem wake_local (h : p.Local main stk) : p.wake.Local main stk := by
  cases p <;> try exact h
  case asleep m => cases m <;> exact ⟨h.only, h.worker, nofun, nofun⟩

/-- A place that is not one of `unlock`, and not one that only the main thread or only a worker
reaches. -/
theorem local_free (h1 : p.mainOnly = false) (h2 : p.workerOnly = false)
    (h3 : ∀ e b, p ≠ .unlockDrop e b) (h4 : p ≠ .panicked) : p.Local main stk := by
  refine ⟨fun h => ?_, fun h => ?_, fun e b h => absurd h (h3 e b), h4⟩
  · rw [h1] at h
    cases h
  · rw [h2] at h
    cases h

/-- The mutex is taken: `lock` takes the lock, all others are no closer to it. -/
theorem lock_spec (h : act n p = .lock k) : p.owns = false ∧ k.owns = true ∧
    ((∃ c, p.mode = .want c ∧ k = .held c) ∨ k.mode = p.mode) := by
  cases p <;> simp only [act, Act.lock.injEq, reduceCtorEq] at h <;> subst h
  case lockMtx c => exact ⟨rfl, rfl, .inl ⟨c, rfl, rfl⟩⟩
  case startMtx => exact ⟨rfl, rfl, .inr rfl⟩
  case woken m => cases m <;> exact ⟨rfl, rfl, .inr rfl⟩
  case stopMtx => exact ⟨rfl, rfl, .inr rfl⟩

theorem lock_local (h : act n p = .lock k) (hl : p.Local main stk) : k.Local main stk := by
  cases p <;> simp only [act, Act.lock.injEq, reduceCtorEq] at h <;> subst h
  case lockMtx c => exact local_free rfl rfl nofun nofun
  case startMtx => exact ⟨hl.only, hl.worker, nofun, nofun⟩
  case woken m => cases m <;> exact ⟨hl.only, hl.worker, nofun, nofun⟩
  case stopMtx => exact ⟨hl.only, hl.worker, nofun, nofun⟩

theorem notify_spec (h : act n p = .notifyOne k ∨ act n p = .notifyAll k) :
    k.mode = p.mode ∧ k.owns = p.owns := by
  cases p <;> simp only [act, Act.notifyOne.injEq, Act.notifyAll.injEq, reduceCtorEq, or_false,
    false_or] at h <;> subst h
  case unlockNotify b => exact ⟨rfl, rfl⟩
  case workNotify => exact ⟨rfl, rfl⟩
  case stopNotify => exact ⟨rfl, rfl⟩

theorem notify_local (h : act n p = .notifyOne k ∨ act n p = .notifyAll k)
    (hl : p.Local main stk) : k.Local main stk := by
  cases p <;> simp only [act, Act.notifyOne.injEq, Act.notifyAll.injEq, reduceCtorEq, or_false,
    false_or] at h <;> subst h
  case unlockNotify b => exact local_free rfl rfl nofun nofun
  case workNotify => exact ⟨hl.only, hl.worker, nofun, nofun⟩
  case stopNotify => exact ⟨hl.only, hl.worker, nofun, nofun⟩

/-- What the code with the mutex does, for the abstract pool. -/
inductive CritStep (n : Nat) (p : Pc) (c : Nat) (empty : Bool) : Crit → Prop
  | release {b q} : p.mode = .release b → q.mode = .body b → CritStep n p c empty ⟨c, false, q⟩
  | rest {q} : p.mode = .resting → q.mode = .idle → CritStep n p c empty ⟨c + 1, true, q⟩
  | wait {keeps q} : p.mode = .idle → q.mode = .idle → CritStep n p c empty ⟨c, keeps, q⟩
  | exit : p.mode = .idle → c &&& STOPPING ≠ 0 → CritStep n p c empty ⟨c, false, .exited⟩
  | take : p.mode = .idle → empty = false → CritStep n p c empty ⟨c - 1, true, .held .runAll⟩
  | leave : p = .mainLoop → c = n → CritStep n p c empty ⟨n - 1, false, .outside⟩
  | stop : p = .stopStore → c = n - 1 → CritStep n p c empty ⟨STOPPING, false, .stopNotify⟩
  | panic : p = .stopStore → c ≠ n - 1 → CritStep n p c empty ⟨c, false, .panicked⟩

theorem crit_step {f : Nat → Bool → Crit} (h : act n p = .crit f) (c : Nat) (e : Bool) :
    CritStep n p c e (f c e) := by
  cases p <;> simp only [act, Act.crit.injEq, reduceCtorEq] at h <;> subst h
  case unlockDrop nonempty b => exact .release (b := b) rfl (by split <;> rfl)
  case workGive => exact .rest rfl (by split <;> rfl)
  case workLoop =>
    dsimp only
    split
    · exact .wait rfl rfl
    · exact .exit rfl ‹_›
  case workCheck =>
    dsimp only
    split
    · exact .wait rfl rfl
    · exact .take rfl (Bool.eq_false_iff.mpr ‹_›)
  case mainGive => exact .rest rfl rfl
  case mainLoop =>
    dsimp only
    split
    · exact .leave rfl ‹_›
    · exact .wait rfl rfl
  case mainCheck =>
    dsimp only
    split
    · exact .wait rfl rfl
    · exact .take rfl (Bool.eq_false_iff.mpr ‹_›)
  case stopStore =>
    dsimp only
    split
    · exact .stop rfl ‹_›
    · exact .panic rfl ‹_›

/-- The code with the mutex starts and ends with it as `act` says. -/
theorem crit_owns {f : Nat → Bool → Crit} (h : act n p = .crit f) (c : Nat) (e : Bool) :
    p.owns = true ∧ (f c e).next.owns = (f c e).keeps := by
  cases p <;> simp only [act, Act.crit.injEq, reduceCtorEq] at h <;> subst h <;>
    refine ⟨rfl, ?_⟩ <;> dsimp only <;> first | rfl | (split <;> rfl)

theorem crit_local {f : Nat → Bool → Crit} (h : act n p = .crit f) (hl : p.Local main stk)
    (hs : p = .stopStore → c = n - 1) : (f c e).next.Local main stk := by
  cases p <;> simp only [act, Act.crit.injEq, reduceCtorEq] at h <;> subst h <;> dsimp only
  case unlockDrop nonempty b => split <;> exact local_free rfl rfl nofun nofun
  case mainGive => exact ⟨hl.only, hl.worker, nofun, nofun⟩
  case workCheck =>
    split
    · exact ⟨hl.only, hl.worker, nofun, nofun⟩
    · exact local_free rfl rfl nofun nofun
  case mainCheck =>
    split
    · exact ⟨hl.only, hl.worker, nofun, nofun⟩
    · exact local_free rfl rfl nofun nofun
  case stopStore =>
    rw [if_pos (hs rfl)]
    exact ⟨hl.only, hl.worker, nofun, nofun⟩
  all_goals split <;> exact ⟨hl.only, hl.worker, nofun, nofun⟩

end Act

/-! ## The mutex -/

section Mutex

variable {l keeps : Bool} {f g : Fin n → Pc} {t : Fin n} {p : Pc}

theorem Mutex.congr (h : Mutex l f) (hg : ∀ u, (g u).owns = (f u).owns) : Mutex l g := by
  refine ⟨fun x y hx hy => h.one x y ?_ ?_, h.locked.trans (exists_congr fun u => by rw [hg u])⟩
  · rwa [← hg x]
  · rwa [← hg y]

theorem Mutex.same (h : Mutex l f) (hp : p.owns = (f t).owns) :
    Mutex l (Function.update f t p) := by
  refine h.congr fun u => ?_
  by_cases hu : u = t
  · subst hu
    rwa [Function.update_self]
  · rw [Function.update_of_ne hu]

/-- No other thread has the mutex when thread `t` may have it. -/
theorem Mutex.only (h : Mutex l f) (ht : l = false ∨ (f t).owns = true) (u : Fin n) (hu : u ≠ t) :
    (f u).owns = false := by
  by_contra hc
  have hc : (f u).owns = true := Bool.eq_true_of_not_eq_false hc
  obtain rfl | ht := ht
  · exact absurd (h.locked.mpr ⟨u, hc⟩) nofun
  · exact hu (h.one u t hc ht)

/-- Thread `t` takes the mutex, or goes on with it or without. -/
theorem Mutex.update (h : Mutex l f) (ht : l = false ∨ (f t).owns = true) (hp : p.owns = keeps) :
    Mutex keeps (Function.update f t p) := by
  have hown : ∀ u, (Function.update f t p u).owns = true → u = t ∧ keeps = true := by
    intro u
    by_cases hu : u = t
    · subst hu
      rw [Function.update_self, hp]
      exact fun h => ⟨rfl, h⟩
    · rw [Function.update_of_ne hu, h.only ht u hu]
      nofun
  refine ⟨fun x y hx hy => (hown x hx).1.trans (hown y hy).1.symm,
    fun hk => ⟨t, ?_⟩, fun ⟨u, hu⟩ => (hown u hu).2⟩
  rw [Function.update_self, hp, hk]

end Mutex

/-! ## The number behind the mutex -/

section Encodes

variable {a : Pool.St n} {t : Fin n} {c : Nat} {m : Mode} {σ : Store}

theorem Encodes.small (h : Encodes a c) (hn : n ≤ maxThreads) (ho : a.Open) : c &&& STOPPING = 0 := by
  have h1 := h.idle ho
  have h2 := Pool.idlers_le a
  unfold maxThreads at hn
  unfold STOPPING
  rw [Nat.and_two_pow, Nat.testBit_lt_two_pow (by omega)]
  rfl

theorem Encodes.store (h : Encodes a c) (σ : Store) : Encodes { a with store := σ } c :=
  ⟨h.idle, h.closed⟩

/-- The thread goes on, and it is as idle as before. -/
theorem Encodes.goto (h : Encodes a c) (h1 : a.mode t ≠ .idle) (h2 : a.mode t ≠ .ended)
    (h3 : m ≠ .idle) (h4 : m ≠ .ended) : Encodes (a.goto t m) c := by
  refine ⟨fun ho => ?_, fun ho => h.closed fun hc => ho ((Pool.open_goto h2 h4).mpr hc)⟩
  rw [Pool.idlers_goto_of_ne h1 h3]
  exact h.idle ((Pool.open_goto h2 h4).mp ho)

theorem Encodes.rest (h : Encodes a c) (hi : Pool.Inv a) (hm : a.mode t = .resting) :
    Encodes (a.goto t .idle) (c + 1) := by
  have hne : a.mode t ≠ .idle ∧ a.mode t ≠ .ended := by rw [hm]; exact ⟨nofun, nofun⟩
  have ho := hi.open_of hne.1 hne.2
  have hgo := Pool.idlers_goto a t .idle
  rw [Pool.idles_of_ne hne.1, show Mode.idle.idles = 1 from rfl] at hgo
  have := h.idle ho
  exact ⟨fun _ => by omega,
    fun hc => absurd ((Pool.open_goto (m := .idle) hne.2 nofun).mpr ho) hc⟩

/-- An idle thread stops to be idle. -/
theorem Encodes.take (h : Encodes a c) (ho : a.Open) (hm : a.mode t = .idle) (h3 : m ≠ .idle)
    (h4 : m ≠ .ended) : Encodes (a.goto t m) (c - 1) := by
  have hgo := Pool.idlers_goto a t m
  rw [Pool.idles_of_ne h3, hm, show Mode.idle.idles = 1 from rfl] at hgo
  have := h.idle ho
  exact ⟨fun _ => by omega,
    fun hc => absurd ((Pool.open_goto (by rw [hm]; nofun) h4).mpr ho) hc⟩

theorem Encodes.stop (hi : Pool.Inv a) (hm : a.mode t = .outside) :
    Encodes (a.goto t .ended) STOPPING :=
  ⟨fun h => absurd (goto_self ..) (h t (hi.main t hm)), fun _ => rfl⟩

theorem Encodes.exit (h : Encodes a c) (hn : n ≤ maxThreads) (hm : a.mode t = .idle)
    (hc : c &&& STOPPING ≠ 0) : ¬ a.Open ∧ Encodes (a.goto t .ended) c := by
  have hno : ¬ a.Open := fun ho => hc (h.small hn ho)
  refine ⟨hno, fun ho => absurd (fun u hu => ?_) hno, fun _ => h.closed hno⟩
  by_cases hut : u = t
  · rw [hut, hm]
    nofun
  · rw [← goto_of_ne a .ended hut]
    exact ho u hu

/-- The count is `n`: all threads are idle. -/
theorem Encodes.all_idle (h : Encodes a c) (hn : n ≤ maxThreads) (hc : c = n) :
    ∀ u, a.mode u = .idle := by
  have ho : a.Open := by
    by_contra hno
    have := h.closed hno
    unfold maxThreads at hn
    unfold STOPPING at this
    omega
  rw [← Pool.idlers_eq_iff, ← h.idle ho, hc]

end Encodes

/-! ## What a step changes -/

variable {s s' : St n} {t u : Fin n}

theorem abs_goto (s : St n) (t : Fin n) (p : Pc) : (s.goto t p).abs = s.abs.goto t p.mode :=
  Pool.goto_of_place Pc.mode s.pc s.store t p

/-- The abstract pool does not see the mutex and the number behind it. -/
theorem abs_mutex (s : St n) (l : Bool) (c : Nat) :
    ({ s with locked := l, count := c } : St n).abs = s.abs := rfl

theorem abs_wake (s : St n) : ({ s with pc := fun u => (s.pc u).wake } : St n).abs = s.abs := by
  unfold St.abs
  simp only [wake_mode]

theorem abs_same {p : Pc} (h : p.mode = (s.pc t).mode) : (s.goto t p).abs = s.abs := by
  rw [abs_goto, h]
  exact Pool.goto_mode_self s.abs t

theorem call_mode (main : Bool) (σ : Store) (m : Mode) : (call main σ m).mode = m := by
  cases m <;> try rfl
  cases main <;> rfl

theorem call_owns (main : Bool) (σ : Store) (m : Mode) : (call main σ m).owns = m.holds := by
  cases m <;> try rfl
  cases main <;> rfl

theorem call_local (main : Bool) (σ : Store) {m : Mode} (h1 : m ≠ .outside) (h2 : m ≠ .idle)
    (h3 : m ≠ .ended) : (call main σ m).Local main σ.stack := by
  cases m <;> try contradiction
  case release b =>
    refine ⟨nofun, nofun, fun e b' h => ?_, nofun⟩
    cases h
    rfl
  case resting =>
    cases main
    · exact ⟨nofun, fun _ => rfl, nofun, nofun⟩
    · exact ⟨fun _ => rfl, nofun, nofun, nofun⟩
  all_goals exact local_free rfl rfl nofun nofun

theorem code_owns {p : Pc} (h : p.isCode = true) : p.owns = p.mode.holds := by
  cases p <;> first | rfl | cases h

theorem free_of (h : ∀ u, (s.pc u).mode.holds = true → (s.pc u).owns = true → False) :
    s.abs.Free := by
  intro u
  by_contra hc
  have hc : (s.pc u).mode.holds = true := Bool.eq_true_of_not_eq_false hc
  exact h u hc (holds_owns hc)

theorem Inv.free_of_unlocked (hi : Inv s) (h : s.locked = false) : s.abs.Free := by
  refine free_of fun u _ ho => ?_
  rw [hi.mutex.locked.mpr ⟨u, ho⟩] at h
  cases h

theorem Inv.free_of_owner (hi : Inv s) (ho : (s.pc t).owns = true)
    (hh : (s.pc t).mode.holds = false) : s.abs.Free := by
  refine free_of fun u hu huo => ?_
  rw [hi.mutex.one u t huo ho, hh] at hu
  cases hu

/-- The count at the store of `stop`. -/
theorem Inv.stop_count (hi : Inv s) (ha : Pool.Inv s.abs) (hp : s.pc t = .stopStore) :
    s.count = n - 1 := by
  have hm : s.abs.mode t = .outside := by
    show (s.pc t).mode = _
    rw [hp]
    rfl
  rw [hi.count.idle (ha.open_of (t := t) (by rw [hm]; nofun) (by rw [hm]; nofun))]
  exact ha.idlers_outside hm

/-- The code with the mutex, for the abstract pool. -/
theorem Inv.crit_matches (hn : n ≤ maxThreads) (hi : Inv s) (ha : Pool.Inv s.abs) {r : Crit}
    (ho : (s.pc t).owns = true) (h : CritStep n (s.pc t) s.count s.store.stack.isEmpty r) :
    (s.abs.goto t r.next.mode = s.abs ∨ Pool.Step t s.abs (s.abs.goto t r.next.mode)) ∧
      Encodes (s.abs.goto t r.next.mode) r.count := by
  have hsame : ∀ {m : Mode}, (s.pc t).mode = m → s.abs.goto t m = s.abs := by
    rintro m rfl
    exact Pool.goto_mode_self s.abs t
  cases h with
  | @release b q hp hq =>
    show (s.abs.goto t q.mode = s.abs ∨ _) ∧ Encodes (s.abs.goto t q.mode) s.count
    rw [hq]
    exact ⟨.inr (.release hp), hi.count.goto (by rw [show s.abs.mode t = _ from hp]; nofun)
      (by rw [show s.abs.mode t = _ from hp]; nofun) nofun nofun⟩
  | @rest q hp hq =>
    show (s.abs.goto t q.mode = s.abs ∨ _) ∧ Encodes (s.abs.goto t q.mode) (s.count + 1)
    rw [hq]
    exact ⟨.inr (.rest hp), hi.count.rest ha hp⟩
  | @wait keeps q hp hq =>
    show (s.abs.goto t q.mode = s.abs ∨ _) ∧ Encodes (s.abs.goto t q.mode) s.count
    rw [hq, hsame hp]
    exact ⟨.inl rfl, hi.count⟩
  | exit hp hc =>
    obtain ⟨hno, he⟩ := hi.count.exit hn hp hc
    unfold Pool.St.Open at hno
    push Not at hno
    obtain ⟨u, hu, hend⟩ := hno
    exact ⟨.inr (.exit hp hu hend), he⟩
  | take hp he =>
    have hs : s.abs.store.stack ≠ [] := by
      intro h
      rw [show s.store.stack = [] from h] at he
      cases he
    have hopen : s.abs.Open := by
      intro u hu hend
      exact hs (ha.quiet u hu (.inr hend)).1
    exact ⟨.inr (.take hp (hi.free_of_owner ho (by rw [hp]; rfl)) hs),
      hi.count.take hopen hp nofun nofun⟩
  | leave hp hc =>
    have hall := hi.count.all_idle hn hc
    have h0 : t.val = 0 := beq_iff_eq.mp ((hi.loc t).only (by rw [hp]; rfl))
    have hopen : s.abs.Open := fun u _ => by rw [hall u]; nofun
    have := hi.count.take (m := .outside) hopen (hall t) nofun nofun
    rw [hc] at this
    exact ⟨.inr (.leave hall h0), this⟩
  | stop hp hc =>
    have hm : s.abs.mode t = .outside := by
      show (s.pc t).mode = _
      rw [hp]
      rfl
    exact ⟨.inr (.stop hm), .stop ha hm⟩
  | panic hp hc => exact absurd (hi.stop_count ha hp) hc

/-- A step is a step of the abstract pool, or none of its business; the number stays right. -/
theorem Inv.step_matches (hn : n ≤ maxThreads) (hi : Inv s) (ha : Pool.Inv s.abs)
    (h : Step t s s') : (s'.abs = s.abs ∨ Pool.Step t s.abs s'.abs) ∧ Encodes s'.abs s'.count := by
  have hquiet : ∀ r : St n, r.abs = s.abs → r.count = s.count →
      (r.abs = s.abs ∨ Pool.Step t s.abs r.abs) ∧ Encodes r.abs r.count := by
    intro r hr hc
    rw [hr, hc]
    exact ⟨.inl rfl, hi.count⟩
  cases h with
  | @lock _ _ k hk hl =>
    obtain ⟨-, -, hm⟩ := lock_spec hk
    have hgo : ({ s with locked := true }.goto t k).abs = s.abs.goto t k.mode := abs_goto _ t k
    rw [hgo]
    show _ ∧ Encodes _ s.count
    obtain ⟨c, hc, rfl⟩ | hm := hm
    · have hc : s.abs.mode t = .want c := hc
      exact ⟨.inr (.acquire hc (hi.free_of_unlocked hl)),
        hi.count.goto (by rw [hc]; nofun) (by rw [hc]; nofun) nofun nofun⟩
    · rw [hm, show s.abs.goto t (s.pc t).mode = s.abs from Pool.goto_mode_self s.abs t]
      exact ⟨.inl rfl, hi.count⟩
  | @crit _ _ f hf =>
    rw [abs_goto, abs_mutex]
    exact hi.crit_matches hn ha (crit_owns hf 0 true).1 (crit_step hf _ _)
  | @notifyOne _ _ k u hk _ =>
    refine hquiet _ ?_ rfl
    have h1 : (s.goto u (s.pc u).wake).abs = s.abs := abs_same (wake_mode _)
    rw [abs_goto, h1, (notify_spec (.inl hk)).1]
    exact Pool.goto_mode_self s.abs t
  | notifyNone hk _ =>
    exact hquiet _ (abs_same (notify_spec (.inl hk)).1) rfl
  | @notifyAll _ _ k hk =>
    refine hquiet _ ?_ rfl
    rw [abs_goto, abs_wake, (notify_spec (.inr hk)).1]
    exact Pool.goto_mode_self s.abs t
  | stop hp => exact hquiet _ (abs_same (by rw [hp]; rfl)) rfl
  | @work _ _ m σ hc hw =>
    have hgo : ({ s with store := σ }.goto t (call (t.val == 0) σ m)).abs =
        { s.abs with store := σ }.goto t m := by
      rw [abs_goto, call_mode]
      rfl
    rw [hgo]
    obtain ⟨h1, h2, h3, h4, -⟩ := hw.shape
    exact ⟨.inr (.work hw), (hi.count.store σ).goto h1 h2 h3 h4⟩

theorem Inv.step_mutex (hi : Inv s) (h : Step t s s') : Mutex s'.locked s'.pc := by
  cases h with
  | lock hk hl =>
    obtain ⟨-, ho, -⟩ := lock_spec hk
    exact hi.mutex.update (.inl hl) ho
  | crit hf =>
    obtain ⟨h1, h2⟩ := crit_owns hf s.count s.store.stack.isEmpty
    exact hi.mutex.update (.inr h1) h2
  | @notifyOne _ _ k u hk _ =>
    have h1 : Mutex s.locked (s.goto u (s.pc u).wake).pc := hi.mutex.same (wake_owns _)
    refine h1.same (t := t) ?_
    rw [(notify_spec (.inl hk)).2]
    show (s.pc t).owns = (Function.update s.pc u (s.pc u).wake t).owns
    by_cases htu : t = u
    · subst htu
      rw [Function.update_self, wake_owns]
    · rw [Function.update_of_ne htu]
  | notifyNone hk _ => exact hi.mutex.same (notify_spec (.inl hk)).2
  | @notifyAll _ _ k hk =>
    have h1 : Mutex s.locked fun u => (s.pc u).wake := hi.mutex.congr fun u => wake_owns _
    refine h1.same (t := t) ?_
    rw [(notify_spec (.inr hk)).2, wake_owns]
  | stop hp => exact hi.mutex.same (by rw [hp]; rfl)
  | work hc hw =>
    refine hi.mutex.same ?_
    rw [call_owns, code_owns hc]
    exact hw.shape.2.2.2.2.2.1

/-- What a thread with the mutex knows of the stack stays true as long as the stack does. -/
theorem Pc.Local.stack {p : Pc} {main : Bool} {stk stk' : List Task} (h : p.Local main stk)
    (hs : p.owns = true → stk' = stk) : p.Local main stk' := by
  refine ⟨h.only, h.worker, fun e b hp => ?_, h.fine⟩
  rw [hs (by rw [hp]; rfl)]
  exact h.nonempty e b hp

theorem goto_local (r : St n) {p : Pc} (hp : p.Local (t.val == 0) r.store.stack)
    (h : ∀ u ≠ t, (r.pc u).Local (u.val == 0) r.store.stack) (u : Fin n) :
    ((r.goto t p).pc u).Local (u.val == 0) r.store.stack := by
  unfold St.goto
  by_cases hu : u = t
  · subst hu
    simp only [Function.update_self]
    exact hp
  · simp only [Function.update_of_ne hu]
    exact h u hu

theorem Inv.step_local (hi : Inv s) (ha : Pool.Inv s.abs) (h : Step t s s') (u : Fin n) :
    (s'.pc u).Local (u.val == 0) s'.store.stack := by
  have hgo : ∀ {p : Pc}, p.Local (t.val == 0) s.store.stack →
      ((s.goto t p).pc u).Local (u.val == 0) s.store.stack :=
    fun hp => goto_local s hp (fun u _ => hi.loc u) u
  cases h with
  | lock hk _ => exact hgo (lock_local hk (hi.loc t))
  | crit hf => exact hgo (crit_local hf (hi.loc t) fun hp => hi.stop_count ha hp)
  | @notifyOne _ _ k x hk _ =>
    refine goto_local (s.goto x (s.pc x).wake) (notify_local (.inl hk) (hi.loc t))
      (fun y _ => ?_) u
    exact goto_local s (wake_local (hi.loc x)) (fun y _ => hi.loc y) y
  | notifyNone hk _ => exact hgo (notify_local (.inl hk) (hi.loc t))
  | notifyAll hk =>
    exact goto_local { s with pc := fun u => (s.pc u).wake } (notify_local (.inr hk) (hi.loc t))
      (fun y _ => wake_local (hi.loc y)) u
  | stop hp =>
    refine hgo ⟨fun _ => (hi.loc t).only (by rw [hp]; rfl), nofun, nofun, nofun⟩
  | @work _ _ m σ hc hw =>
    obtain ⟨-, -, h3, h4, h5, -, hs, -⟩ := hw.shape
    refine goto_local { s with store := σ } (call_local _ σ h5 h3 h4)
      (fun y hy => (hi.loc y).stack fun hyo => ?_) u
    -- only the owner of the mutex changes the stack
    obtain hs | ht := hs
    · exact hs
    · exact absurd (hi.mutex.one y t hyo (holds_owns ht)) hy

theorem Inv.step (hn : n ≤ maxThreads) (hi : Inv s) (ha : Pool.Inv s.abs) (h : Step t s s') :
    Inv s' :=
  ⟨hi.step_mutex h, (hi.step_matches hn ha h).2, hi.step_local ha h⟩

theorem spurious_abs (h : Spurious t s s') : s'.abs = s.abs := by
  obtain ⟨-, rfl⟩ := h
  exact abs_same (wake_mode _)

theorem Inv.spurious (hi : Inv s) (h : Spurious t s s') : Inv s' := by
  have ha := spurious_abs h
  obtain ⟨-, rfl⟩ := h
  refine ⟨hi.mutex.same (wake_owns _), ?_, goto_local s (wake_local (hi.loc t)) fun u _ => hi.loc u⟩
  rw [ha]
  exact hi.count

/-! ## The invariant of the pool -/

theorem Inv.init (hn2 : 2 ≤ n) (h : s.Init) : Inv s ∧ (Pool.pool n).init s.abs := by
  obtain ⟨hl, hc, hpc, hs⟩ := h
  have hinit : s.abs.Init := by
    refine ⟨fun t => ?_, hs⟩
    show (s.pc t).mode = _
    rw [hpc t]
    split <;> rfl
  have hout : s.abs.mode ⟨0, by omega⟩ = .outside := by
    rw [hinit.1, if_pos rfl]
  have hidle := (Pool.Inv.init hinit).idlers_outside hout
  have hopen : s.abs.Open := by
    intro t _
    rw [hinit.1 t]
    split <;> nofun
  have hown : ∀ t, (s.pc t).owns = false := by
    intro t
    rw [hpc t]
    split <;> rfl
  refine ⟨⟨⟨fun t u ht => absurd ((hown t).symm.trans ht) nofun, fun h => ?_, fun ⟨t, ht⟩ => ?_⟩,
    ⟨fun _ => hc.trans hidle.symm, fun h => absurd hopen h⟩, fun t => ?_⟩, hinit⟩
  · rw [hl] at h
    cases h
  · rw [hown t] at ht
    cases ht
  · rw [hpc t]
    split
    · exact ⟨fun _ => beq_iff_eq.mpr ‹_›, nofun, nofun, nofun⟩
    · exact ⟨nofun, fun _ => beq_eq_false_iff_ne.mpr ‹_›, nofun, nofun⟩

theorem Inv.reach (hn2 : 2 ≤ n) (hn : n ≤ maxThreads) (h : (pool n).Reach s) :
    Inv s ∧ (Pool.pool n).Reach s.abs := by
  refine h.refines (A := Pool.pool n) (fun _ => Inv.init hn2) (fun t s s' hi ha hst => ?_)
    fun t s s' hi ha _ hst => ?_
  · obtain hst | hst := hst
    · exact (hi.step_matches hn (Pool.Inv.reach ha) hst).1
    · exact .inl (spurious_abs hst)
  · obtain hst | hst := hst
    · exact hi.step hn (Pool.Inv.reach ha) hst
    · exact hi.spurious hst

/-- The pool over a condition variable refines the abstract pool: it reaches only states of the
abstract pool, and each step is a step of the same thread there, or changes nothing. -/
theorem condvar_refines (hn2 : 2 ≤ n) (hn : n ≤ maxThreads) (h : (pool n).Reach s) :
    (Pool.pool n).Reach s.abs ∧
      ∀ t s', (pool n).step t s s' → s'.abs = s.abs ∨ (Pool.pool n).step t s.abs s'.abs := by
  obtain ⟨hi, ha⟩ := Inv.reach hn2 hn h
  refine ⟨ha, fun t s' hst => ?_⟩
  obtain hst | hst := hst
  · exact (hi.step_matches hn (Pool.Inv.reach ha) hst).1
  · exact .inl (spurious_abs hst)

/-! ## Schedules -/

/-- The next step of thread `c.1`, on choice `c.2` of its user code, if it is not blocked. A
`notify_one` wakes up the first sleeper. -/
def advance (c : Fin n × Ask) (s : St n) : Option (St n) :=
  match act n (s.pc c.1) with
  | .lock k => if s.locked = false then some ({ s with locked := true }.goto c.1 k) else none
  | .crit f => some ({ s with
      locked := (f s.count s.store.stack.isEmpty).keeps
      count := (f s.count s.store.stack.isEmpty).count }.goto c.1
        (f s.count s.store.stack.isEmpty).next)
  | .notifyOne k =>
    match (List.finRange n).find? fun u => (s.pc u).isAsleep with
    | some u => some ((s.goto u (s.pc u).wake).goto c.1 k)
    | none => some (s.goto c.1 k)
  | .notifyAll k => some ({ s with pc := fun u => (s.pc u).wake }.goto c.1 k)
  | .none =>
    if c.2 = .stop then if s.pc c.1 = .outside then some (s.goto c.1 .stopMtx) else none
    else if (s.pc c.1).isCode then
      (perform c.2 s.store (s.pc c.1).mode).map fun r =>
        { s with store := r.2 }.goto c.1 (call (c.1.val == 0) r.2 r.1)
    else none

theorem advance_step {c : Fin n × Ask} (h : advance c s = some s') : (pool n).step c.1 s s' := by
  left
  unfold advance at h
  split at h
  case h_1 k ha =>
    split at h <;> cases h
    exact .lock ha ‹_›
  case h_2 f ha =>
    cases h
    exact .crit ha
  case h_3 k ha =>
    split at h <;> cases h
    case h_1 u hu => exact .notifyOne ha (List.find?_some (p := fun u => (s.pc u).isAsleep) hu)
    case h_2 hn =>
      refine .notifyNone ha fun u => ?_
      have := List.find?_eq_none.mp hn u (List.mem_finRange u)
      simpa using this
  case h_4 k ha =>
    cases h
    exact .notifyAll ha
  case h_5 ha =>
    split at h
    · split at h <;> cases h
      exact .stop ‹_›
    · split at h
      · obtain ⟨r, hr, rfl⟩ := Option.map_eq_some_iff.mp h
        exact .work ‹_› (perform_work hr)
      · cases h

/-- The pool of two threads as `Pool::new` makes it. -/
def fresh : St 2 :=
  { locked := false, count := 1, pc := fun t => if t.val = 0 then .outside else .startMtx,
    store := Store.new }

theorem fresh_reach : (pool 2).Reach fresh := .init ⟨rfl, rfl, fun _ => rfl, rfl⟩

/-- The worker falls asleep. The main thread enters a scope, submits a task and wakes the worker up,
which runs the task. The main thread ends the scope and falls asleep, and the worker wakes it up
when it is idle again. -/
def oneTask (main worker : Fin n) : List (Fin n × Ask) :=
  .replicate 2 (worker, .go) ++ [(main, .enter), (main, .submitOne)] ++ .replicate 4 (main, .go) ++
    .replicate 4 (worker, .go) ++ [(main, .finish)] ++ .replicate 4 (main, .go) ++ [(worker, .finish)] ++
    .replicate 5 (worker, .go) ++ .replicate 3 (main, .go)

/-- What a schedule reaches from the fresh pool. -/
theorem exists_of_schedule (ks : List (Fin 2 × Ask)) (P : St 2 → Prop) [DecidablePred P]
    (hp : (Lib.System.follow advance ks fresh).any (fun s => decide (P s)) = true) :
    ∃ s, (pool 2).Reach s ∧ P s :=
  Lib.System.exists_of_follow (fun c _ _ h => ⟨c.1, advance_step h⟩) fresh_reach ks P hp

/-- The worker, woken up with the mutex, takes the task of a scope, which is a step of the pool; and
the scope is over. -/
theorem condvar_refines_oneTask :
    (∃ s s' : St 2, s.pc 1 = .workCheck ∧ s'.pc 1 = .held .runAll ∧ s'.abs ≠ s.abs ∧
      (Pool.pool 2).step 1 s.abs s'.abs) ∧
    ∃ s : St 2, s.pc 0 = .outside ∧ s.store.ended 0 = 1 ∧ (Pool.pool 2).Reach s.abs := by
  refine ⟨?_, ?_⟩
  · obtain ⟨s, hr, hp, he⟩ := exists_of_schedule ((oneTask 0 1).take 9)
      (fun s => s.pc 1 = .workCheck ∧ s.store.stack.isEmpty = false) (by decide +kernel)
    have hst := Step.crit (s := s) (t := 1) (by rw [hp]; rfl)
    rw [he] at hst
    have hne : ({ s with locked := true, count := s.count - 1 }.goto 1 (.held .runAll)).abs ≠ s.abs := by
      intro h
      have h1 : Mode.held .runAll = (s.pc 1).mode := congrArg (fun a => a.mode 1) h
      rw [hp] at h1
      cases h1
    exact ⟨s, _, hp, rfl, hne,
      ((condvar_refines (by decide) (by decide) hr).2 1 _ (.inl hst)).resolve_left hne⟩
  · obtain ⟨s, hr, h0, hend⟩ := exists_of_schedule (oneTask 0 1)
      (fun s => s.pc 0 = .outside ∧ s.store.ended 0 = 1) (by decide +kernel)
    exact ⟨s, h0, hend, (condvar_refines (by decide) (by decide) hr).1⟩

/-! ## Safety -/

/-- What the assertions of the code with the mutex check, if the count is `c`. -/
def Pc.Asserts (n : Nat) (c : Nat) : Pc → Prop
  | .workGive | .mainGive => c &&& STOPPING = 0
  | .workLoop => c &&& STOPPING = 0 ∨ c = STOPPING
  | .mainLoop => c = n ∨ c &&& STOPPING = 0
  | .stopStore => c = n - 1
  | .panicked => False
  | _ => True

theorem Inv.asserts (hn : n ≤ maxThreads) (hi : Inv s) (ha : Pool.Inv s.abs) (t : Fin n) :
    (s.pc t).Asserts n s.count := by
  have hsmall : (s.pc t).mode = .resting → s.count &&& STOPPING = 0 := by
    intro hm
    have hm : s.abs.mode t = .resting := hm
    exact hi.count.small hn (ha.open_of (t := t) (by rw [hm]; nofun) (by rw [hm]; nofun))
  have hfine := (hi.loc t).fine
  cases hp : s.pc t <;> rw [hp] at hsmall hfine <;> try trivial
  case workGive => exact hsmall rfl
  case mainGive => exact hsmall rfl
  case workLoop =>
    by_cases ho : s.abs.Open
    · exact .inl (hi.count.small hn ho)
    · exact .inr (hi.count.closed ho)
  case mainLoop =>
    refine .inr (hi.count.small hn fun u hu he => ?_)
    have h0 : t.val = 0 := beq_iff_eq.mp ((hi.loc t).only (by rw [hp]; rfl))
    have hut : u = t := Fin.ext (hu.trans h0.symm)
    have he : (s.pc u).mode = .ended := he
    rw [hut, hp] at he
    cases he
  case stopStore => exact hi.stop_count ha hp

/-- The main thread is outside a scope or past `stop`. -/
def Pc.scopeOver : Pc → Bool
  | .outside | .stopMtx | .stopStore | .stopNotify | .stopped => true
  | _ => false

theorem Inv.done (hi : Inv s) (ha : Pool.Inv s.abs) (hp : (s.pc t).scopeOver = true) :
    s.store.Done := by
  have h0 : t.val = 0 := by
    refine beq_iff_eq.mp ((hi.loc t).only ?_)
    cases hq : s.pc t <;> rw [hq] at hp <;> first | rfl | cases hp
  refine ha.done_of_over h0 ?_
  show (s.pc t).mode = _ ∨ (s.pc t).mode = _
  cases hq : s.pc t <;> rw [hq] at hp <;> first | exact .inl rfl | exact .inr rfl | cases hp

/-- The pool over a condition variable is safe under every interleaving: at most one thread has the
mutex; until `stop` the number behind it counts the idle threads; no assertion fails; and when a
scope is over, everything has run exactly once. -/
theorem condvar_safe (hn2 : 2 ≤ n) (hn : n ≤ maxThreads) (h : (pool n).Reach s) :
    (∀ t u, (s.pc t).owns = true → (s.pc u).owns = true → t = u) ∧
    (s.abs.Open → s.count = s.abs.idlers) ∧
    (∀ t, (s.pc t).Asserts n s.count) ∧
    ∀ t, (s.pc t).scopeOver = true → s.store.Done := by
  obtain ⟨hi, hr⟩ := Inv.reach hn2 hn h
  have ha := Pool.Inv.reach hr
  exact ⟨hi.mutex.one, hi.count.idle, hi.asserts hn ha, fun t => hi.done ha⟩

/-- The worker has the mutex to run the task of a scope; the scope is over. -/
theorem condvar_safe_oneTask :
    (∃ s : St 2, s.pc 1 = .held .runAll ∧ s.store.jobs = 1 ∧ ∀ u, (s.pc u).owns = true → u = 1) ∧
    (∃ s : St 2, s.pc 0 = .outside ∧ s.store.jobs = 1 ∧ s.store.Done) ∧
    ∃ s : St 2, s.pc 0 = .stopStore ∧ s.store.jobs = 1 ∧ s.count = s.abs.idlers ∧
      (s.pc 0).Asserts 2 s.count := by
  refine ⟨?_, ?_, ?_⟩
  · obtain ⟨s, hr, h1, hj⟩ := exists_of_schedule ((oneTask 0 1).take 10)
      (fun s => s.pc 1 = .held .runAll ∧ s.store.jobs = 1) (by decide +kernel)
    have h := condvar_safe (by decide) (by decide) hr
    exact ⟨s, h1, hj, fun u hu => h.1 u 1 hu (by rw [h1]; rfl)⟩
  · obtain ⟨s, hr, h0, hj⟩ := exists_of_schedule (oneTask 0 1)
      (fun s => s.pc 0 = .outside ∧ s.store.jobs = 1) (by decide +kernel)
    exact ⟨s, h0, hj, (condvar_safe (by decide) (by decide) hr).2.2.2 0 (by rw [h0]; rfl)⟩
  · obtain ⟨s, hr, h0, hj, ho⟩ := exists_of_schedule (oneTask 0 1 ++ [(0, .stop), (0, .go)])
      (fun s => s.pc 0 = .stopStore ∧ s.store.jobs = 1 ∧
        ∀ u : Fin 2, u.val = 0 → s.abs.mode u ≠ .ended) (by decide +kernel)
    have h := condvar_safe (by decide) (by decide) hr
    exact ⟨s, h0, hj, h.2.1 ho, h.2.2.1 0⟩

end Qblaze.Condvar
