import Qblaze.Lib.System

/-!
# The thread pool over a futex (`src/threading.rs`, `src/threading/sync_impl.futex.rs`)

The pool has one lock, one stack of tasks and one 32-bit word. The word's two low bits are the
state of the lock (`0` unlocked without work, `1` locked, `2` unlocked with work, `3` locked and
contended); the other bits count the idle threads. The model is the interleaving of the atomic
actions of `n` threads on the word, with sequentially consistent memory:

* `Pc`: where a thread is. A `Pc` stands in front of one atomic action and carries the local
  variables that the code still reads. `Pc.asleep m k` is a thread inside `futex::wait` with mask
  `m`, which goes on at `k`.
* `act`: the atomic action at a `Pc`, with the code up to the next action as its continuation.
* `Step`: the actions. A `compare_exchange_weak` may fail for no reason, and so may a
  `futex::wait` return. The critical sections (a push, `top_func`, a pop, a call of a
  generator) are one step each: only the holder of the lock touches the stack.

User code is arbitrary: a closure may submit tasks and end at any time, and a generator may
yield a closure or end. Each closure that may run has a number (`jobs` counts them) and so has
each generator (`gens`). `started`, `ended` and `dropped` record what has been run.
-/

namespace Qblaze.Futex

/-! ## The word -/

def maxSpin : Nat := 100
def maxThreads : Nat := 2 ^ 12

def waitLock : Nat := 1
def waitWork : Nat := 2
def waitIdle : Nat := 4

/-- `v & !STATE` -/
def clearState (v : Nat) : Nat := v - v % 4

/-- `v - IDLE_1 - STATE_WORK + STATE_LOCKED`, in 32 bits. -/
@[irreducible] def takeIdle (v : Nat) : Nat := (v + 2 ^ 32 - 4 - 2 + 1) % 2 ^ 32

theorem takeIdle_eq {w : Nat} (h2 : w % 4 = 2) (h1 : 1 ≤ w / 4) (hb : w < 2 ^ 15) :
    takeIdle w = w - 5 := by
  unfold takeIdle; omega

/-- `(v & !STATE) + IDLE_1`, in 32 bits. -/
@[irreducible] def giveIdle (v : Nat) : Nat := (clearState v + 4) % 2 ^ 32

/-! ## Threads -/

/-- A task on the stack: a `SimpleTask` with its closure, or a `MultiTask` with its generator. -/
inductive Task where
  | simple (j : Nat)
  | multi (g : Nat)
  deriving DecidableEq

/-- The user code that a thread runs: the closure given to `PoolRef::scope`, or closure `j`. -/
inductive Body where
  | scope
  | closure (j : Nat)
  deriving DecidableEq

/-- Why a thread takes the lock. -/
inductive Cont where
  /-- `Scope::submit_one`, called by `b`. -/
  | submitOne (b : Body)
  /-- `Scope::submit_multi`, called by `b`. -/
  | submitMulti (b : Body)
  /-- `State::main`, or the end of a task's `run`: go on with `Lock::run_all`. -/
  | runAll
  deriving DecidableEq

/-- The closure that the thread is in, also while it submits a task. -/
def Body.job : Body → Option Nat
  | .scope => none
  | .closure j => some j

def Cont.job : Cont → Option Nat
  | .submitOne b | .submitMulti b => b.job
  | .runAll => none

/-- Where a thread is. -/
inductive Pc where
  /-- The main thread, between two scopes. -/
  | outside
  /-- In user code. -/
  | body (b : Body)
  -- `lock`
  | lockLoad (k : Cont) (spin : Nat)
  | lockCas (k : Cont) (spin v : Nat)
  | lockSlow (k : Cont) (v : Nat)
  | lockWait (k : Cont) (v : Nat)
  | lockReload (k : Cont)
  /-- The lock is held, in front of a critical section. -/
  | held (k : Cont)
  -- `unlock`, called by `Lock::submit` and by the drop of a `Lock`; the thread returns to `b`
  | unlockLoad (nonempty : Bool) (b : Body)
  | unlockSwap (v : Nat) (wake : Bool) (b : Body)
  | unlockWakeLock (wake : Bool) (b : Body)
  | unlockWakeWork (b : Body)
  -- `start_work`
  | startLoad
  | startCas (v : Nat)
  | startWait (v : Nat)
  -- `unlock_idle`
  | idleLoad
  | idleSwap (v : Nat)
  | idleWakeLock (v : Nat)
  -- `wait_work`
  | workWakeMain (v : Nat)
  | workLoad (spin : Nat)
  | workWait (v : Nat)
  | workCas (spin v : Nat)
  -- `wait_main`
  | mainLoad (spin : Nat)
  | mainWait (v : Nat)
  | mainCas (spin v : Nat)
  | mainExit (v : Nat)
  -- `stop`
  | stopWake
  | stopped
  /-- A worker that has returned from `State::work`. -/
  | exited
  | asleep (mask : Nat) (k : Pc)
  deriving DecidableEq

/-- An atomic action, with the code after it. -/
inductive Act where
  | load (k : Nat → Pc)
  | cas (v v2 : Nat) (ok : Pc) (fail : Nat → Pc)
  | swap (v : Nat) (k : Nat → Pc)
  | store (v : Nat) (k : Pc)
  | wait (v mask : Nat) (k : Pc)
  | wakeOne (mask : Nat) (k : Bool → Pc)
  | wakeAll (mask : Nat) (k : Pc)
  /-- No action on the word: user code, a critical section, asleep or ended. -/
  | none

/-- `lock`, at the head of its second loop. -/
def slowNext (k : Cont) (v : Nat) : Pc :=
  if v % 4 ≠ 3 then .lockSlow k v else .lockWait k v

/-- `lock`, at the inner `while` of its first loop. -/
def lockNext (k : Cont) (spin v : Nat) : Pc :=
  if v % 2 = 0 then .lockCas k spin v
  else if v / 2 % 2 = 1 ∨ spin = 0 then slowNext k v
  else .lockLoad k (spin - 1)

/-- `start_work`, after a read of the word. -/
def startNext (v : Nat) : Pc :=
  if v % 4 = 2 then .startCas v else if v = 0 then .exited else .startWait v

/-- `wait_work`, at the head of its loop: spin or wait. -/
def workHead (spin v : Nat) : Pc :=
  if 0 < spin then .workLoad (spin - 1) else .workWait v

/-- `wait_work`, after a read of the word. -/
def workNext (spin v : Nat) : Pc :=
  if v % 4 = 2 then .workCas spin v
  else if v % 4 = 3 then workHead 0 v
  else if v = 0 then .exited
  else workHead spin v

/-- `wait_main`, at the head of its loop: leave, spin or wait. -/
def mainHead (n spin v : Nat) : Pc :=
  if v = n * 4 then .mainExit v else if 0 < spin then .mainLoad (spin - 1) else .mainWait v

/-- `wait_main`, after a read of the word. -/
def mainNext (n spin v : Nat) : Pc :=
  if v % 4 = 2 then .mainCas spin v else mainHead n (if v % 4 = 3 then 0 else spin) v

/-- `wait_main` or `wait_work`, after `unlock_idle`. -/
def idleNext (n : Nat) (main : Bool) (v : Nat) : Pc :=
  if main then mainHead n maxSpin v
  else if v / 4 = n then .workWakeMain v
  else workHead maxSpin v

/-- `unlock`, after its wake-up of a thread in `lock`. -/
def unlockNext (wake : Bool) (b : Body) : Pc :=
  if wake then .unlockWakeWork b else .body b

/-- The atomic action at a `Pc`. -/
def act (n : Nat) (main : Bool) : Pc → Act
  | .lockLoad k spin => .load (lockNext k spin)
  | .lockCas k spin v => .cas v (clearState v + 1) (.held k) (lockNext k spin)
  | .lockSlow k v =>
    .cas v (clearState v + 3) (if v % 2 = 0 then .held k else .lockWait k (clearState v + 3))
      (slowNext k)
  | .lockWait k v => .wait v waitLock (.lockReload k)
  | .lockReload k => .load (slowNext k)
  | .unlockLoad nonempty b => .load fun v =>
    let v' := clearState v + if nonempty then 2 else 0
    .unlockSwap v' (nonempty && decide (4 ≤ v')) b
  | .unlockSwap v wake b => .swap v fun old =>
    if old / 2 % 2 = 1 then .unlockWakeLock wake b else unlockNext wake b
  | .unlockWakeLock wake b => .wakeOne waitLock fun r => if r then .body b else unlockNext wake b
  | .unlockWakeWork b => .wakeOne waitWork fun _ => .body b
  | .startLoad => .load startNext
  | .startCas v => .cas v (takeIdle v) (.held .runAll) startNext
  | .startWait v => .wait v waitWork .startLoad
  | .idleLoad => .load fun v => .idleSwap (giveIdle v)
  | .idleSwap v => .swap v fun old =>
    if old / 2 % 2 = 1 then .idleWakeLock v else idleNext n main v
  | .idleWakeLock v => .wakeOne waitLock fun _ => idleNext n main v
  | .workWakeMain v => .wakeOne waitIdle fun _ => workHead maxSpin v
  | .workLoad spin => .load (workNext spin)
  | .workWait v => .wait v waitWork (.workLoad 0)
  | .workCas spin v => .cas v (takeIdle v) (.held .runAll) (workNext spin)
  | .mainLoad spin => .load (mainNext n spin)
  | .mainWait v => .wait v (waitWork + waitIdle) (.mainLoad 0)
  | .mainCas spin v => .cas v (takeIdle v) (.held .runAll) (mainNext n spin)
  | .mainExit v => .store (v - 4) .outside
  | .stopWake => .wakeAll (waitWork + waitLock) .stopped
  | .outside | .body _ | .held _ | .stopped | .exited | .asleep _ _ => .none

/-! ## The pool -/

/-- The pool of `n` threads; thread `0` is the main thread. -/
structure St (n : Nat) where
  word : Nat
  stack : List Task
  pc : Fin n → Pc
  /-- The closures so far: of `SimpleTask`s that were pushed, and from generators. -/
  jobs : Nat
  /-- The generators so far: of `MultiTask`s that were pushed. -/
  gens : Nat
  /-- How often closure `j` was started, and how often it ran to its end. -/
  started : Nat → Nat
  ended : Nat → Nat
  /-- How often generator `g` ended and was dropped. -/
  dropped : Nat → Nat
  /-- `stop` has stored `STOPPING`. -/
  stopping : Bool

variable {n : Nat}

/-- `s` with thread `t` at `p`. -/
def St.goto (s : St n) (t : Fin n) (p : Pc) : St n := { s with pc := Function.update s.pc t p }

/-- `f` with one more at `i`. -/
def bump (f : Nat → Nat) (i : Nat) : Nat → Nat := Function.update f i (f i + 1)

theorem bump_apply (f : Nat → Nat) (i j : Nat) : bump f i j = f j + if i = j then 1 else 0 := by
  unfold bump
  by_cases h : j = i
  · subst h; simp
  · rw [Function.update_of_ne h, if_neg (Ne.symm h), Nat.add_zero]

/-- One for the numbers that were given out. -/
def given (m j : Nat) : Nat := if j < m then 1 else 0

theorem given_succ (m j : Nat) : given (m + 1) j = given m j + if m = j then 1 else 0 := by
  unfold given
  split <;> split <;> split <;> omega

/-- Thread `u` is asleep with a mask that overlaps `mask`. -/
def St.Sleeper (s : St n) (mask : Nat) (u : Fin n) : Prop :=
  ∃ m k, s.pc u = .asleep m k ∧ m &&& mask ≠ 0

/-- The thread after a wake-up: it goes on behind its `futex::wait`. -/
def Pc.wakened : Pc → Pc
  | .asleep _ k => k
  | p => p

/-- `wake_all(mask)`: every sleeper with an overlapping mask goes on. -/
def wakeAllPc (mask : Nat) : Pc → Pc
  | .asleep m k => if m &&& mask ≠ 0 then k else .asleep m k
  | p => p

/-- The atomic steps of thread `t`. -/
inductive Step : Fin n → St n → St n → Prop
  | load {s : St n} {t k} : act n (t.val == 0) (s.pc t) = .load k → Step t s (s.goto t (k s.word))
  | casOk {s : St n} {t v v2 ok fail} : act n (t.val == 0) (s.pc t) = .cas v v2 ok fail →
      s.word = v → Step t s ({ s with word := v2 }.goto t ok)
  | casFail {s : St n} {t v v2 ok fail} : act n (t.val == 0) (s.pc t) = .cas v v2 ok fail →
      Step t s (s.goto t (fail s.word))
  | swap {s : St n} {t v k} : act n (t.val == 0) (s.pc t) = .swap v k →
      Step t s ({ s with word := v }.goto t (k s.word))
  | store {s : St n} {t v k} : act n (t.val == 0) (s.pc t) = .store v k →
      Step t s ({ s with word := v }.goto t k)
  | sleep {s : St n} {t v m k} : act n (t.val == 0) (s.pc t) = .wait v m k → s.word = v →
      Step t s (s.goto t (.asleep m k))
  | noSleep {s : St n} {t v m k} : act n (t.val == 0) (s.pc t) = .wait v m k →
      Step t s (s.goto t k)
  | spurious {s : St n} {t m k} : s.pc t = .asleep m k → Step t s (s.goto t k)
  | wakeSome {s : St n} {t m k u} : act n (t.val == 0) (s.pc t) = .wakeOne m k → s.Sleeper m u →
      Step t s ((s.goto u (s.pc u).wakened).goto t (k true))
  | wakeNone {s : St n} {t m k} : act n (t.val == 0) (s.pc t) = .wakeOne m k →
      (∀ u, ¬ s.Sleeper m u) → Step t s (s.goto t (k false))
  | wakeAll {s : St n} {t m k} : act n (t.val == 0) (s.pc t) = .wakeAll m k →
      Step t s ({ s with pc := fun u => wakeAllPc m (s.pc u) }.goto t k)
  -- the main thread calls `PoolRef::scope`, or drops the pool (`stop`)
  | enter {s : St n} {t} : s.pc t = .outside → Step t s (s.goto t (.body .scope))
  | stop {s : St n} {t} : s.pc t = .outside →
      Step t s ({ s with word := 0, stopping := true }.goto t .stopWake)
  -- user code
  | submitOne {s : St n} {t b} : s.pc t = .body b →
      Step t s (s.goto t (.lockLoad (.submitOne b) maxSpin))
  | submitMulti {s : St n} {t b} : s.pc t = .body b →
      Step t s (s.goto t (.lockLoad (.submitMulti b) maxSpin))
  | endScope {s : St n} {t} : s.pc t = .body .scope →
      Step t s (s.goto t (.lockLoad .runAll maxSpin))
  | endClosure {s : St n} {t j} : s.pc t = .body (.closure j) →
      Step t s ({ s with ended := bump s.ended j }.goto t (.lockLoad .runAll maxSpin))
  -- critical sections
  | pushOne {s : St n} {t b} : s.pc t = .held (.submitOne b) →
      Step t s ({ s with stack := .simple s.jobs :: s.stack, jobs := s.jobs + 1 }.goto t
        (.unlockLoad true b))
  | pushMulti {s : St n} {t b} : s.pc t = .held (.submitMulti b) →
      Step t s ({ s with stack := .multi s.gens :: s.stack, gens := s.gens + 1 }.goto t
        (.unlockLoad true b))
  | idle {s : St n} {t} : s.pc t = .held .runAll → s.stack = [] → Step t s (s.goto t .idleLoad)
  | runSimple {s : St n} {t j rest} : s.pc t = .held .runAll → s.stack = .simple j :: rest →
      Step t s ({ s with stack := rest, started := bump s.started j }.goto t
        (.unlockLoad (!rest.isEmpty) (.closure j)))
  | runMulti {s : St n} {t g rest} : s.pc t = .held .runAll → s.stack = .multi g :: rest →
      Step t s ({ s with jobs := s.jobs + 1, started := bump s.started s.jobs }.goto t
        (.unlockLoad true (.closure s.jobs)))
  | dropMulti {s : St n} {t g rest} : s.pc t = .held .runAll → s.stack = .multi g :: rest →
      Step t s ({ s with stack := rest, dropped := bump s.dropped g }.goto t (.held .runAll))

/-- `Pool::new`: the workers have not started, and count as idle. -/
def St.Init (s : St n) : Prop :=
  s.word = (n - 1) * 4 ∧ s.stack = [] ∧
    (∀ t : Fin n, s.pc t = if t.val = 0 then .outside else .startLoad) ∧
    s.jobs = 0 ∧ s.gens = 0 ∧ (∀ j, s.started j = 0) ∧ (∀ j, s.ended j = 0) ∧
    (∀ g, s.dropped g = 0) ∧ s.stopping = false

/-- The pool as a system. -/
def pool (n : Nat) : Lib.System (St n) (Fin n) := ⟨St.Init, Step⟩

end Qblaze.Futex
