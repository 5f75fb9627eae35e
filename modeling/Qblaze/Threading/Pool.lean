import Qblaze.Threading.Futex

/-!
# What a thread pool is for (`src/threading.rs`)

The abstract pool. There is one lock and one stack of tasks, and nothing is said of how threads wait
for either: a thread takes the lock when nobody has it, an idle thread takes it when there is a
task too, and the main thread leaves a scope when all threads are idle. Each implementation of the
lock under `src/threading/` refines this pool.

* `Work`: what `src/threading.rs` itself does, in user code and with the lock held. This part is
  the same for all implementations. A closure may submit tasks and end at any time, and a
  generator may yield a closure or end (`Qblaze/Threading/Futex.lean`).
* `perform`: these steps as a function, for schedules that run (`Lib.System.follow`).
* `Step`: these steps, and what the functions of an implementation do: `lock`, `unlock`,
  `wait_work` and `wait_main` give the lock away, an idle thread takes it, `wait_main` returns
  `None`, `stop`, and a worker exits.
* `Inv`, `St.Done`: at most one thread has the lock, and when a scope is over, everything that was
  submitted has run exactly once. This is proved here once for all implementations.
-/

namespace Qblaze.Pool

open Futex (Task Body Cont bump given bump_apply given_succ)

/-! ## Threads and tasks -/

/-- What a thread does. -/
inductive Mode where
  /-- The main thread, between two scopes. -/
  | outside
  /-- In user code. -/
  | body (b : Body)
  /-- In `lock`. -/
  | want (k : Cont)
  /-- The lock is held, in front of a critical section. -/
  | held (k : Cont)
  /-- In `unlock`, with the lock; the thread goes on with `b`. -/
  | release (b : Body)
  /-- At the call of `wait_work` or `wait_main`, with the lock. -/
  | resting
  /-- Waiting for a task. A worker starts like this. -/
  | idle
  /-- A worker that has exited, or the main thread past `stop`. -/
  | ended
  deriving DecidableEq

/-- Between taking and giving away the lock. -/
def Mode.holds : Mode → Bool
  | .held _ | .release _ | .resting => true
  | _ => false

/-- The closure that the thread is in, also while it submits a task. -/
def Mode.job : Mode → Option Nat
  | .body b | .release b => b.job
  | .want k | .held k => k.job
  | _ => none

/-- The stack of tasks, and what has been submitted and run (as `Futex.St` has it). -/
structure Store where
  stack : List Task
  jobs : Nat
  gens : Nat
  started : Nat → Nat
  ended : Nat → Nat
  dropped : Nat → Nat

def Store.new : Store := ⟨[], 0, 0, fun _ => 0, fun _ => 0, fun _ => 0⟩

/-- User code and critical sections. -/
inductive Work : Mode → Store → Mode → Store → Prop
  | enter {σ} : Work .outside σ (.body .scope) σ
  | submitOne {σ b} : Work (.body b) σ (.want (.submitOne b)) σ
  | submitMulti {σ b} : Work (.body b) σ (.want (.submitMulti b)) σ
  | endScope {σ} : Work (.body .scope) σ (.want .runAll) σ
  | endClosure {σ j} :
      Work (.body (.closure j)) σ (.want .runAll) { σ with ended := bump σ.ended j }
  | pushOne {σ b} : Work (.held (.submitOne b)) σ (.release b)
      { σ with stack := .simple σ.jobs :: σ.stack, jobs := σ.jobs + 1 }
  | pushMulti {σ b} : Work (.held (.submitMulti b)) σ (.release b)
      { σ with stack := .multi σ.gens :: σ.stack, gens := σ.gens + 1 }
  | idle {σ} : σ.stack = [] → Work (.held .runAll) σ .resting σ
  | runSimple {σ j rest} : σ.stack = .simple j :: rest →
      Work (.held .runAll) σ (.release (.closure j))
        { σ with stack := rest, started := bump σ.started j }
  | runMulti {σ g rest} : σ.stack = .multi g :: rest →
      Work (.held .runAll) σ (.release (.closure σ.jobs))
        { σ with jobs := σ.jobs + 1, started := bump σ.started σ.jobs }
  | dropMulti {σ g rest} : σ.stack = .multi g :: rest →
      Work (.held .runAll) σ (.held .runAll)
        { σ with stack := rest, dropped := bump σ.dropped g }

/-- What a schedule lets user code do: enter a scope, submit a task, or come to an end (of the scope,
of a closure or of a generator). `go` takes the step that needs no choice, and `stop` drops the
pool. -/
inductive Ask where
  | go
  | enter
  | submitOne
  | submitMulti
  | finish
  | stop
  deriving DecidableEq

/-- User code and critical sections as a function of the choice. -/
def perform (a : Ask) (σ : Store) : Mode → Option (Mode × Store)
  | .outside => if a = .enter then some (.body .scope, σ) else none
  | .body b =>
    match a with
    | .submitOne => some (.want (.submitOne b), σ)
    | .submitMulti => some (.want (.submitMulti b), σ)
    | .finish =>
      match b with
      | .scope => some (.want .runAll, σ)
      | .closure j => some (.want .runAll, { σ with ended := bump σ.ended j })
    | _ => none
  | .held (.submitOne b) =>
    some (.release b, { σ with stack := .simple σ.jobs :: σ.stack, jobs := σ.jobs + 1 })
  | .held (.submitMulti b) =>
    some (.release b, { σ with stack := .multi σ.gens :: σ.stack, gens := σ.gens + 1 })
  | .held .runAll =>
    match σ.stack with
    | [] => some (.resting, σ)
    | .simple j :: rest =>
      some (.release (.closure j), { σ with stack := rest, started := bump σ.started j })
    | .multi g :: rest =>
      if a = .finish then some (.held .runAll, { σ with stack := rest, dropped := bump σ.dropped g })
      else some (.release (.closure σ.jobs),
        { σ with jobs := σ.jobs + 1, started := bump σ.started σ.jobs })
  | _ => none

theorem perform_work {a : Ask} {m : Mode} {σ : Store} {r : Mode × Store}
    (h : perform a σ m = some r) : Work m σ r.1 r.2 := by
  cases m with
  | outside =>
    obtain ⟨-, h⟩ := Option.ite_none_right_eq_some.mp h
    cases h
    exact .enter
  | body b =>
    cases a with
    | submitOne | submitMulti =>
      cases h
      constructor
    | finish => cases b <;> cases h <;> constructor
    | _ => cases h
  | held k =>
    cases k with
    | submitOne b | submitMulti b =>
      cases h
      constructor
    | runAll =>
      simp only [perform] at h
      split at h
      · cases h
        exact .idle ‹_›
      · cases h
        exact .runSimple ‹_›
      · split at h <;> cases h
        · exact .dropMulti ‹_›
        · exact .runMulti ‹_›
  | _ => cases h

/-! ## The pool -/

/-- The pool of `n` threads; thread `0` is the main thread. -/
structure St (n : Nat) where
  mode : Fin n → Mode
  store : Store

variable {n : Nat}

/-- `s` with thread `t` at `m`. -/
def St.goto (s : St n) (t : Fin n) (m : Mode) : St n := { s with mode := Function.update s.mode t m }

/-- Nobody has the lock. -/
def St.Free (s : St n) : Prop := ∀ u, (s.mode u).holds = false

/-- The steps of thread `t`. -/
inductive Step : Fin n → St n → St n → Prop
  | work {s : St n} {t m σ} : Work (s.mode t) s.store m σ →
      Step t s ({ s with store := σ }.goto t m)
  | acquire {s : St n} {t k} : s.mode t = .want k → s.Free → Step t s (s.goto t (.held k))
  | release {s : St n} {t b} : s.mode t = .release b → Step t s (s.goto t (.body b))
  | rest {s : St n} {t} : s.mode t = .resting → Step t s (s.goto t .idle)
  | take {s : St n} {t} : s.mode t = .idle → s.Free → s.store.stack ≠ [] →
      Step t s (s.goto t (.held .runAll))
  | leave {s : St n} {t} : (∀ u, s.mode u = .idle) → t.val = 0 → Step t s (s.goto t .outside)
  | stop {s : St n} {t} : s.mode t = .outside → Step t s (s.goto t .ended)
  | exit {s : St n} {t u} : s.mode t = .idle → u.val = 0 → s.mode u = .ended →
      Step t s (s.goto t .ended)

/-- `Pool::new`: the workers have not started, and count as idle. -/
def St.Init (s : St n) : Prop :=
  (∀ t : Fin n, s.mode t = if t.val = 0 then .outside else .idle) ∧ s.store = Store.new

/-- The pool as a system. -/
def pool (n : Nat) : Lib.System (St n) (Fin n) := ⟨St.Init, Step⟩

/-! ## The invariant -/

variable {s s' : St n} {t u : Fin n} {m m' : Mode} {σ σ' : Store}

/-- One if the thread runs closure `j`. -/
def Mode.runs (j : Nat) (m : Mode) : Nat := if m.job = some j then 1 else 0

/-- The number of threads that run closure `j`. -/
def St.running (s : St n) (j : Nat) : Nat := ∑ t, (s.mode t).runs j

/-- The main thread is not in a scope: nothing is left on the stack, and nobody else runs. -/
def St.Quiet (s : St n) (t : Fin n) : Prop :=
  s.store.stack = [] ∧ ∀ u ≠ t, s.mode u = .idle ∨ s.mode t = .ended ∧ s.mode u = .ended

/-- The lock is exclusive; a thread rests only with an empty stack, so that a stack with a task on
it has somebody who is not idle; the main thread is outside a scope only when the pool is quiet;
every closure and every generator is in one place. -/
structure Inv (s : St n) : Prop where
  one : ∀ t u, (s.mode t).holds = true → (s.mode u).holds = true → t = u
  rest : ∀ t, s.mode t = .resting → s.store.stack = []
  main : ∀ t, s.mode t = .outside → t.val = 0
  quiet : ∀ t, t.val = 0 → s.mode t = .outside ∨ s.mode t = .ended → s.Quiet t
  closed : ∀ t, s.mode t = .ended → ∃ u : Fin n, u.val = 0 ∧ s.mode u = .ended
  awake : s.store.stack ≠ [] → ∃ u, s.mode u ≠ .idle
  start : ∀ j, s.store.stack.count (.simple j) + s.store.started j = given s.store.jobs j
  finish : ∀ j, s.running j + s.store.ended j = s.store.started j
  multi : ∀ g, s.store.stack.count (.multi g) + s.store.dropped g = given s.store.gens g

theorem goto_self (s : St n) (t : Fin n) (m : Mode) : (s.goto t m).mode t = m := by
  unfold St.goto
  exact Function.update_self ..

theorem goto_of_ne (s : St n) (m : Mode) (h : u ≠ t) : (s.goto t m).mode u = s.mode u := by
  unfold St.goto
  exact Function.update_of_ne h ..

theorem goto_mode_self (s : St n) (t : Fin n) : s.goto t (s.mode t) = s := by
  unfold St.goto
  rw [Function.update_eq_self]

/-- An implementation with places `P`: a thread that moves to a place moves to its mode in the pool. -/
theorem goto_of_place {P : Type} (mode : P → Mode) (pc : Fin n → P) (σ : Store) (t : Fin n) (p : P) :
    (⟨fun u => mode (Function.update pc t p u), σ⟩ : St n) =
      (⟨fun u => mode (pc u), σ⟩ : St n).goto t (mode p) :=
  congrArg (St.mk · σ) (Function.comp_update mode pc t p)

/-- What holds of the thread that moved, and held of the others, holds of all. -/
theorem goto_cases {P : Fin n → Mode → Prop} (hm : P t m) (h : ∀ u ≠ t, P u (s.mode u)) (u : Fin n) :
    P u ((s.goto t m).mode u) := by
  by_cases hu : u = t
  · subst hu
    rwa [goto_self]
  · rw [goto_of_ne s m hu]
    exact h u hu

theorem running_goto (s : St n) (t : Fin n) (m : Mode) (j : Nat) :
    (s.goto t m).running j + (s.mode t).runs j = s.running j + m.runs j :=
  Lib.sum_update (fun m : Mode => m.runs j) s.mode t m

theorem runs_of_job (h : m.job = none) (j : Nat) : m.runs j = 0 := by
  unfold Mode.runs
  rw [h]
  rfl

theorem runs_closure {i : Nat} (h : m.job = some i) (j : Nat) :
    m.runs j = if i = j then 1 else 0 := by
  unfold Mode.runs
  rw [h]
  simp

/-! ## User code and critical sections -/

/-- Every closure and every generator is in one place, for a thread in `m`; `r` are the threads that
run a closure, besides this one. -/
structure Counts (m : Mode) (σ : Store) (r : Nat → Nat) : Prop where
  start : ∀ j, σ.stack.count (.simple j) + σ.started j = given σ.jobs j
  finish : ∀ j, r j + m.runs j + σ.ended j = σ.started j
  multi : ∀ g, σ.stack.count (.multi g) + σ.dropped g = given σ.gens g

/-- Another mode of the thread, in the same closure. -/
theorem Counts.congr {r : Nat → Nat} (h : Counts m σ r) (hj : m'.job = m.job) : Counts m' σ r := by
  refine ⟨h.start, fun j => ?_, h.multi⟩
  have := h.finish j
  unfold Mode.runs at this ⊢
  rwa [hj]

theorem Work.counts {r : Nat → Nat} (hw : Work m σ m' σ') (h : Counts m σ r) : Counts m' σ' r := by
  cases hw with
  | enter | submitOne | submitMulti | endScope => exact h.congr rfl
  | idle _ => exact h.congr rfl
  | @endClosure _ i =>
    refine ⟨h.start, fun j => ?_, h.multi⟩
    have h1 := h.finish j
    rw [runs_closure (m := .body (.closure i)) rfl] at h1
    show r j + Mode.runs j (.want .runAll) + bump σ.ended i j = σ.started j
    rw [runs_of_job (m := .want .runAll) rfl, bump_apply]
    omega
  | @pushOne _ b =>
    obtain ⟨h1, h2, h3⟩ : Counts (.release b) _ r := h.congr rfl
    refine ⟨fun j => ?_, h2, fun g => ?_⟩
    · show (Task.simple σ.jobs :: σ.stack).count _ + σ.started j = given (σ.jobs + 1) j
      have := h1 j
      rw [List.count_cons, given_succ]
      simp only [beq_iff_eq, Task.simple.injEq]
      omega
    · show (Task.simple σ.jobs :: σ.stack).count _ + σ.dropped g = given σ.gens g
      rw [List.count_cons_of_ne (by simp)]
      exact h3 g
  | @pushMulti _ b =>
    obtain ⟨h1, h2, h3⟩ : Counts (.release b) _ r := h.congr rfl
    refine ⟨fun j => ?_, h2, fun g => ?_⟩
    · show (Task.multi σ.gens :: σ.stack).count _ + σ.started j = given σ.jobs j
      rw [List.count_cons_of_ne (by simp)]
      exact h1 j
    · show (Task.multi σ.gens :: σ.stack).count _ + σ.dropped g = given (σ.gens + 1) g
      have := h3 g
      rw [List.count_cons, given_succ]
      simp only [beq_iff_eq, Task.multi.injEq]
      omega
  | @runSimple _ i rest hst =>
    obtain ⟨h1, h2, h3⟩ := h
    refine ⟨fun j => ?_, fun j => ?_, fun g => ?_⟩
    · have := h1 j
      rw [hst, List.count_cons] at this
      simp only [beq_iff_eq, Task.simple.injEq] at this
      show rest.count _ + bump σ.started i j = given σ.jobs j
      rw [bump_apply]
      omega
    · have := h2 j
      rw [runs_of_job (m := .held .runAll) rfl] at this
      show r j + Mode.runs j (.release (.closure i)) + σ.ended j = bump σ.started i j
      rw [runs_closure (m := .release (.closure i)) rfl, bump_apply]
      omega
    · have := h3 g
      rwa [hst, List.count_cons_of_ne (by simp)] at this
  | @runMulti _ g' rest hst =>
    obtain ⟨h1, h2, h3⟩ := h
    refine ⟨fun j => ?_, fun j => ?_, h3⟩
    · have := h1 j
      show σ.stack.count _ + bump σ.started σ.jobs j = given (σ.jobs + 1) j
      rw [bump_apply, given_succ]
      omega
    · have := h2 j
      rw [runs_of_job (m := .held .runAll) rfl] at this
      show r j + Mode.runs j (.release (.closure σ.jobs)) + σ.ended j = bump σ.started σ.jobs j
      rw [runs_closure (m := .release (.closure σ.jobs)) rfl, bump_apply]
      omega
  | @dropMulti _ i rest hst =>
    obtain ⟨h1, h2, h3⟩ := h
    refine ⟨fun j => ?_, h2, fun g => ?_⟩
    · have := h1 j
      rwa [hst, List.count_cons_of_ne (by simp)] at this
    · have := h3 g
      rw [hst, List.count_cons] at this
      simp only [beq_iff_eq, Task.multi.injEq] at this
      show rest.count _ + bump σ.dropped i g = given σ.gens g
      rw [bump_apply]
      omega

/-- A thread in user code or in a critical section is not idle and has not ended, and stays so; it
does not take or give away the lock; it changes the stack with the lock only, and calls
`wait_work` or `wait_main` with an empty one. -/
theorem Work.shape (hw : Work m σ m' σ') : m ≠ .idle ∧ m ≠ .ended ∧ m' ≠ .idle ∧ m' ≠ .ended ∧
    m' ≠ .outside ∧ m'.holds = m.holds ∧ (σ'.stack = σ.stack ∨ m.holds = true) ∧
    (m' = .resting → σ'.stack = []) := by
  cases hw with
  | idle h => exact ⟨nofun, nofun, nofun, nofun, nofun, rfl, .inl rfl, fun _ => h⟩
  | enter | submitOne | submitMulti | endScope | endClosure =>
    exact ⟨nofun, nofun, nofun, nofun, nofun, rfl, .inl rfl, nofun⟩
  | _ => exact ⟨nofun, nofun, nofun, nofun, nofun, rfl, .inr rfl, nofun⟩

/-! ## The steps keep the invariant -/

section Goto

variable (hi : Inv s)
include hi

theorem Inv.one_goto (hm : m.holds = true → s.Free ∨ (s.mode t).holds = true) :
    ∀ x y, ((s.goto t m).mode x).holds = true → ((s.goto t m).mode y).holds = true → x = y := by
  -- nobody else has the lock when thread `t` has it
  have hother : m.holds = true → ∀ y ≠ t, (s.mode y).holds = false := by
    intro h y hy
    obtain hf | ht := hm h
    · exact hf y
    · by_contra hc
      exact hy (hi.one y t (by simpa using hc) ht)
  intro x y hx hy
  by_cases hxt : x = t <;> by_cases hyt : y = t
  · rw [hxt, hyt]
  · rw [hxt, goto_self] at hx
    rw [goto_of_ne s m hyt, hother hx y hyt] at hy
    cases hy
  · rw [hyt, goto_self] at hy
    rw [goto_of_ne s m hxt, hother hy x hxt] at hx
    cases hx
  · rw [goto_of_ne s m hxt] at hx
    rw [goto_of_ne s m hyt] at hy
    exact hi.one x y hx hy

theorem Inv.rest_goto (hm : m = .resting → σ.stack = [])
    (hs : σ.stack = s.store.stack ∨ (s.mode t).holds = true) :
    ∀ x, (s.goto t m).mode x = .resting → σ.stack = [] := by
  refine goto_cases (P := fun _ m => m = .resting → σ.stack = []) hm fun x hx hr => ?_
  obtain hs | ht := hs
  · exact hs.trans (hi.rest x hr)
  · exact absurd (hi.one x t (by rw [hr]; rfl) ht) hx

/-- The counts of a state, seen from thread `t`. -/
theorem Inv.counts (t : Fin n) :
    ∃ r, Counts (s.mode t) s.store r ∧ ∀ m j, (s.goto t m).running j = r j + m.runs j := by
  have hle : ∀ j, (s.mode t).runs j ≤ s.running j :=
    fun j => Lib.le_sum (fun m : Mode => m.runs j) s.mode t
  refine ⟨fun j => s.running j - (s.mode t).runs j, ⟨hi.start, fun j => ?_, hi.multi⟩,
    fun m j => ?_⟩
  · have := hi.finish j
    have := hle j
    omega
  · have := running_goto s t m j
    have := hle j
    show (s.goto t m).running j = s.running j - (s.mode t).runs j + m.runs j
    omega

end Goto

/-- While the pool is quiet, a worker takes no step but to exit after `stop`. -/
theorem quiet_other (h : Step t s s') {x : Fin n} (hx : x.val = 0) (hxt : x ≠ t)
    (hq : s.Quiet x) : s'.store = s.store ∧ s.mode x = .ended ∧ s'.mode t = .ended := by
  obtain ⟨hstack, hall⟩ := hq
  have hm : s.mode t = .idle ∨ s.mode t = .ended := by
    obtain h | h := hall t hxt.symm
    · exact .inl h
    · exact .inr h.2
  cases h with
  | work hw =>
    obtain ⟨h1, h2, -⟩ := hw.shape
    obtain h | h := hm
    · exact absurd h h1
    · exact absurd h h2
  | acquire h | release h | rest h | stop h => rw [h] at hm; simp at hm
  | take _ _ h => exact absurd hstack h
  | leave _ h => exact absurd (Fin.ext (hx.trans h.symm)) hxt
  | @exit _ _ u _ hu he =>
    have : u = x := Fin.ext (hu.trans hx.symm)
    subst this
    exact ⟨rfl, he, goto_self ..⟩

section Step

variable (hi : Inv s) (h : Step t s s')
include hi h

theorem Inv.one_step : ∀ x y, (s'.mode x).holds = true → (s'.mode y).holds = true → x = y := by
  cases h with
  | work hw => exact hi.one_goto fun hm => .inr (hw.shape.2.2.2.2.2.1 ▸ hm)
  | acquire _ hf | take _ hf _ => exact hi.one_goto fun _ => .inl hf
  | release _ | rest _ | leave _ _ | stop _ | exit _ _ _ => exact hi.one_goto nofun

theorem Inv.rest_step : ∀ x, s'.mode x = .resting → s'.store.stack = [] := by
  cases h with
  | work hw =>
    obtain ⟨-, -, -, -, -, -, hs, hr⟩ := hw.shape
    exact hi.rest_goto hr hs
  | acquire _ _ | release _ | rest _ | take _ _ _ | leave _ _ | stop _ | exit _ _ _ =>
    exact hi.rest_goto nofun (.inl rfl)

theorem Inv.main_step : ∀ x, s'.mode x = .outside → x.val = 0 := by
  have hgo : ∀ m, (m = .outside → t.val = 0) → ∀ x, (s.goto t m).mode x = .outside → x.val = 0 :=
    fun m hm => goto_cases (P := fun x m => m = .outside → x.val = 0) hm fun x _ => hi.main x
  cases h with
  | work hw => exact hgo _ fun hm => absurd hm hw.shape.2.2.2.2.1
  | leave _ h0 => exact hgo _ fun _ => h0
  | acquire _ _ | release _ | rest _ | take _ _ _ | stop _ | exit _ _ _ => exact hgo _ nofun

theorem Inv.quiet_step : ∀ x : Fin n, x.val = 0 → s'.mode x = .outside ∨ s'.mode x = .ended →
    s'.Quiet x := by
  intro x hx hm
  by_cases hxt : x = t
  · subst hxt
    -- the main thread leaves a scope, or stops the pool
    cases h with
    | work hw =>
      rw [goto_self] at hm
      exact absurd hm (not_or.mpr ⟨hw.shape.2.2.2.2.1, hw.shape.2.2.2.1⟩)
    | acquire _ _ | release _ | rest _ | take _ _ _ => rw [goto_self] at hm; simp at hm
    | leave hall _ =>
      refine ⟨?_, fun u hu => .inl ((goto_of_ne s _ hu).trans (hall u))⟩
      by_contra hne
      obtain ⟨u, hu⟩ := hi.awake hne
      exact hu (hall u)
    | stop ho =>
      obtain ⟨hs, hall⟩ := hi.quiet x hx (.inl ho)
      refine ⟨hs, fun u hu => ?_⟩
      rw [goto_of_ne s _ hu]
      obtain hu | ⟨he, -⟩ := hall u hu
      · exact .inl hu
      · rw [ho] at he
        cases he
    | @exit _ _ u ho hu he =>
      have hux : u = x := Fin.ext (hu.trans hx.symm)
      rw [hux, ho] at he
      cases he
  · have hsame : s'.mode x = s.mode x := by
      cases h <;> exact goto_of_ne _ _ hxt
    rw [hsame] at hm
    obtain ⟨hs, he, ht⟩ := quiet_other h hx hxt (hi.quiet x hx hm)
    refine ⟨hs ▸ (hi.quiet x hx hm).1, fun u hu => ?_⟩
    by_cases hut : u = t
    · exact .inr ⟨hsame.trans he, hut ▸ ht⟩
    · have hsame' : s'.mode u = s.mode u := by
        cases h <;> exact goto_of_ne _ _ hut
      rw [hsame, hsame']
      exact (hi.quiet x hx hm).2 u hu

theorem Inv.over_step : ∀ x, s'.mode x = .ended → ∃ u : Fin n, u.val = 0 ∧ s'.mode u = .ended := by
  -- nothing moves a thread that has ended
  have hstay : ∀ u, s.mode u = .ended → s'.mode u = .ended := by
    intro u hu
    have hut : u ≠ t := by
      rintro rfl
      cases h with
      | work hw => exact hw.shape.2.1 hu
      | acquire h _ | release h | rest h | take h _ _ | stop h | exit h _ _ => rw [h] at hu; cases hu
      | leave h _ => rw [h u] at hu; cases hu
    rw [← hu]
    cases h <;> exact goto_of_ne _ _ hut
  intro x hx
  by_cases hxt : x = t
  · subst hxt
    cases h with
    | work hw => exact absurd ((goto_self ..).symm.trans hx) hw.shape.2.2.2.1
    | acquire _ _ | release _ | rest _ | take _ _ _ | leave _ _ => rw [goto_self] at hx; cases hx
    | stop ho => exact ⟨x, hi.main x ho, hx⟩
    | exit _ hu he => exact ⟨_, hu, hstay _ he⟩
  · have hsame : s'.mode x = s.mode x := by
      cases h <;> exact goto_of_ne _ _ hxt
    obtain ⟨u, hu, he⟩ := hi.closed x (hsame ▸ hx)
    exact ⟨u, hu, hstay u he⟩

theorem Inv.awake_step : s'.store.stack ≠ [] → ∃ u, s'.mode u ≠ .idle := by
  have hgo : ∀ m (σ : Store), m ≠ .idle → ∃ u, ({ s with store := σ }.goto t m).mode u ≠ .idle :=
    fun m σ hm => ⟨t, by rwa [goto_self]⟩
  intro hs
  cases h with
  | work hw => exact hgo _ _ hw.shape.2.2.1
  | rest hr => exact absurd (hi.rest t hr) hs
  | acquire _ _ | release _ | take _ _ _ | leave _ _ | stop _ | exit _ _ _ => exact hgo _ _ nofun

theorem Inv.counts_step : (∀ j, s'.store.stack.count (.simple j) + s'.store.started j =
    given s'.store.jobs j) ∧ (∀ j, s'.running j + s'.store.ended j = s'.store.started j) ∧
    ∀ g, s'.store.stack.count (.multi g) + s'.store.dropped g = given s'.store.gens g := by
  obtain ⟨r, hr, hrun⟩ := hi.counts t
  obtain ⟨m, σ, rfl, hc⟩ : ∃ m σ, s' = { s with store := σ }.goto t m ∧ Counts m σ r := by
    cases h with
    | work hw => exact ⟨_, _, rfl, hw.counts hr⟩
    | acquire h | release h | rest h | stop h =>
      exact ⟨_, s.store, rfl, hr.congr (by rw [h]; rfl)⟩
    | take h _ _ | exit h _ _ => exact ⟨_, s.store, rfl, hr.congr (by rw [h]; rfl)⟩
    | leave h _ => exact ⟨_, s.store, rfl, hr.congr (by rw [h t]; rfl)⟩
  refine ⟨hc.start, fun j => ?_, hc.multi⟩
  show (s.goto t m).running j + σ.ended j = σ.started j
  rw [hrun]
  exact hc.finish j

theorem Inv.step : Inv s' :=
  have hc := hi.counts_step h
  ⟨hi.one_step h, hi.rest_step h, hi.main_step h, hi.quiet_step h, hi.over_step h, hi.awake_step h,
    hc.1, hc.2.1, hc.2.2⟩

end Step

theorem Inv.init (h : s.Init) : Inv s := by
  obtain ⟨hm, hs⟩ := h
  have hmode : ∀ t, s.mode t = .outside ∧ t.val = 0 ∨ s.mode t = .idle := by
    intro t
    rw [hm t]
    split
    · exact .inl ⟨rfl, ‹_›⟩
    · exact .inr rfl
  have hjob : ∀ t, (s.mode t).job = none ∧ (s.mode t).holds = false ∧ s.mode t ≠ .ended := by
    intro t
    obtain ⟨h, -⟩ | h := hmode t <;> rw [h] <;> exact ⟨rfl, rfl, nofun⟩
  have hrun : ∀ j, s.running j = 0 :=
    fun j => Finset.sum_eq_zero fun t _ => runs_of_job (hjob t).1 j
  refine ⟨fun t u ht => ?_, fun t _ => by rw [hs]; rfl, fun t ht => ?_, fun t h0 _ => ?_,
    fun t ht => absurd ht (hjob t).2.2, fun h => absurd (by rw [hs]; rfl) h, fun j => by rw [hs]; rfl,
    fun j => by rw [hrun, hs]; rfl, fun g => by rw [hs]; rfl⟩
  · rw [(hjob t).2.1] at ht
    cases ht
  · obtain ⟨-, h⟩ | h := hmode t
    · exact h
    · rw [ht] at h
      cases h
  · refine ⟨by rw [hs]; rfl, fun u hu => .inl ?_⟩
    obtain ⟨-, h⟩ | h := hmode u
    · exact absurd (Fin.ext (h.trans h0.symm)) hu
    · exact h

theorem Inv.reach (h : (pool n).Reach s) : Inv s :=
  h.invariant (fun _ => Inv.init) fun _ _ _ hi hst => hi.step hst

/-! ## The lock -/

theorem free_of_holds (ht : (s.mode t).holds = true) (hm : m.holds = false)
    (hone : ∀ t u, (s.mode t).holds = true → (s.mode u).holds = true → t = u) :
    (s.goto t m).Free := by
  refine goto_cases (P := fun _ m => m.holds = false) hm fun u hu => ?_
  by_contra hc
  exact hu (hone u t (by simpa using hc) ht)

theorem not_free_goto (hm : m.holds = true) : ¬ (s.goto t m).Free := by
  intro h
  have := h t
  rw [goto_self, hm] at this
  cases this

/-- Who has the lock does not change. -/
theorem holds_goto (hm : m.holds = (s.mode t).holds) (u : Fin n) :
    ((s.goto t m).mode u).holds = (s.mode u).holds :=
  goto_cases (P := fun u m => m.holds = (s.mode u).holds) hm (fun _ _ => rfl) u

theorem free_congr (h : ∀ u, (s'.mode u).holds = (s.mode u).holds) : s'.Free ↔ s.Free :=
  forall_congr' fun u => by rw [h u]

/-! ## `stop` -/

/-- `stop` has not been called. -/
def St.Open (s : St n) : Prop := ∀ u : Fin n, u.val = 0 → s.mode u ≠ .ended

theorem open_goto (ht : s.mode t ≠ .ended) (hm : m ≠ .ended) : (s.goto t m).Open ↔ s.Open := by
  refine forall_congr' fun u => imp_congr_right fun _ => not_congr ?_
  by_cases hu : u = t
  · subst hu
    rw [goto_self]
    exact iff_of_false hm ht
  · rw [goto_of_ne s m hu]

/-- After `stop` all workers are idle or have exited. -/
theorem Inv.open_of (hi : Inv s) (h1 : s.mode t ≠ .idle) (h2 : s.mode t ≠ .ended) : s.Open := by
  intro u hu he
  have htu : t ≠ u := by
    rintro rfl
    exact h2 he
  obtain h | h := (hi.quiet u hu (.inr he)).2 t htu
  · exact h1 h
  · exact h2 h.2

/-! ## Idle threads -/

/-- One if the thread is idle. -/
def Mode.idles (m : Mode) : Nat := if m = .idle then 1 else 0

/-- The number of idle threads. -/
def St.idlers (s : St n) : Nat := ∑ t, (s.mode t).idles

theorem idlers_goto (s : St n) (t : Fin n) (m : Mode) :
    (s.goto t m).idlers + (s.mode t).idles = s.idlers + m.idles :=
  Lib.sum_update Mode.idles s.mode t m

theorem idles_of_ne (h : m ≠ .idle) : m.idles = 0 := if_neg h

theorem idlers_goto_of_ne (h : s.mode t ≠ .idle) (hm : m ≠ .idle) :
    (s.goto t m).idlers = s.idlers := by
  have := idlers_goto s t m
  rwa [idles_of_ne h, idles_of_ne hm] at this

theorem idlers_pos (h : s.mode t = .idle) : 1 ≤ s.idlers := by
  have := Lib.le_sum Mode.idles s.mode t
  rw [h] at this
  exact this

theorem idlers_add_busy (s : St n) : s.idlers + ∑ t, (1 - (s.mode t).idles) = n := by
  unfold St.idlers
  rw [← Finset.sum_add_distrib]
  have : ∀ t, (s.mode t).idles + (1 - (s.mode t).idles) = 1 := fun t => by
    unfold Mode.idles
    split <;> rfl
  simp [this]

theorem idlers_le (s : St n) : s.idlers ≤ n := by
  have := idlers_add_busy s
  omega

/-- The count is `n` exactly if all threads are idle. -/
theorem idlers_eq_iff (s : St n) : s.idlers = n ↔ ∀ t, s.mode t = .idle := by
  have h := idlers_add_busy s
  refine ⟨fun hn t => ?_, fun hall => ?_⟩
  · have h1 := Lib.le_sum (fun m : Mode => 1 - m.idles) s.mode t
    by_contra hne
    simp only [idles_of_ne hne] at h1
    omega
  · unfold St.idlers
    simp [hall, Mode.idles]

/-- Outside a scope, all but the main thread are idle. -/
theorem Inv.idlers_outside (hi : Inv s) (ht : s.mode t = .outside) : s.idlers = n - 1 := by
  obtain ⟨-, hall⟩ := hi.quiet t (hi.main t ht) (.inl ht)
  have hidle : ∀ u, (s.goto t .idle).mode u = .idle := by
    refine goto_cases (P := fun _ m => m = .idle) rfl fun u hu => ?_
    obtain h | ⟨h, -⟩ := hall u hu
    · exact h
    · rw [ht] at h
      cases h
  have h1 := (idlers_eq_iff _).mpr hidle
  have h2 := idlers_goto s t .idle
  rw [ht, idles_of_ne (m := .outside) nofun] at h2
  have h3 : Mode.idle.idles = 1 := rfl
  omega

/-! ## A scope that is over -/

/-- Nothing is left to do: the stack is empty, every closure has run to its end exactly once, and
every generator has ended and was dropped exactly once. -/
def Store.Done (σ : Store) : Prop :=
  σ.stack = [] ∧ (∀ j, σ.started j = given σ.jobs j ∧ σ.ended j = given σ.jobs j) ∧
    ∀ g, σ.dropped g = given σ.gens g

/-- When nobody runs a closure and the stack is empty, everything is done. -/
theorem Inv.done (hi : Inv s) (hs : s.store.stack = []) (hj : ∀ u, (s.mode u).job = none) :
    s.store.Done := by
  have hrun : ∀ j, s.running j = 0 := fun j => Finset.sum_eq_zero fun u _ => runs_of_job (hj u) j
  refine ⟨hs, fun j => ?_, fun g => ?_⟩
  · have h1 := hi.start j
    have h2 := hi.finish j
    rw [hs, List.count_nil, Nat.zero_add] at h1
    rw [hrun j, Nat.zero_add] at h2
    exact ⟨h1, h2.trans h1⟩
  · have h1 := hi.multi g
    rwa [hs, List.count_nil, Nat.zero_add] at h1

/-- Outside a scope and after `stop`, everything is done. -/
theorem Inv.done_of_over (hi : Inv s) (h0 : t.val = 0)
    (ht : s.mode t = .outside ∨ s.mode t = .ended) : s.store.Done := by
  obtain ⟨hs, hall⟩ := hi.quiet t h0 ht
  refine hi.done hs fun u => ?_
  by_cases hu : u = t
  · subst hu
    obtain h | h := ht <;> rw [h] <;> rfl
  · obtain h | h := hall u hu
    · rw [h]
      rfl
    · rw [h.2]
      rfl

/-- When all threads are idle, everything is done. -/
theorem Inv.done_of_idle (hi : Inv s) (h : ∀ u, s.mode u = .idle) : s.store.Done := by
  refine hi.done ?_ fun u => by rw [h u]; rfl
  by_contra hne
  obtain ⟨u, hu⟩ := hi.awake hne
  exact hu (h u)

end Qblaze.Pool
