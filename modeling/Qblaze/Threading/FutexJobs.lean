import Qblaze.Threading.FutexPool

/-!
# Everything that is submitted runs exactly once

What `PoolRef::scope` promises. The counts of closures and generators are those of the abstract
pool (`Pool.Inv`), which the futex pool refines:

* `scope_done`: when the main thread is about to leave `wait_main`, or is outside a scope, the
  stack is empty and every closure has run to its end exactly once;
* `pool_safe`: this, with the exclusion and the idle count, in every reachable state.
-/

namespace Qblaze.Futex

variable {n : Nat} {s : St n} {t : Fin n}

/-- Nothing is left to do: the stack is empty, every closure has run to its end exactly once, and
every generator has ended and was dropped exactly once. -/
def St.Done (s : St n) : Prop :=
  s.stack = [] ∧ (∀ j, s.started j = given s.jobs j ∧ s.ended j = given s.jobs j) ∧
    ∀ g, s.dropped g = given s.gens g

/-- `wait_main` has found the pool idle: it is about to return `None`, or `PoolRef::scope` has
returned. -/
def Pc.scopeOver : Pc → Bool
  | .mainExit _ | .outside => true
  | _ => false

/-- When a scope is over, everything that was submitted so far has run. -/
theorem scope_done (hi : Inv s) (ha : Pool.Inv s.abs) (hp : (s.pc t).scopeOver = true) : s.Done := by
  cases h : s.pc t <;> rw [h] at hp <;> simp only [Pc.scopeOver, Bool.false_eq_true] at hp
  case outside =>
    have hm : s.abs.mode t = .outside := by
      show (s.pc t).mode = _
      rw [h]
      rfl
    exact ha.done_of_over (ha.main t hm) (.inl hm)
  case mainExit v => exact ha.done_of_idle (hi.exit_idle h)

/-- The futex pool is safe under every interleaving: at most one thread holds the lock; the idle
field counts the idle threads until `stop`, and the word is `STOPPING` from then on; when a scope
is over, everything has run exactly once. -/
theorem pool_safe (hn2 : 2 ≤ n) (hn : n ≤ maxThreads) (h : (pool n).Reach s) :
    (∀ t u, (s.pc t).holds = true → (s.pc u).holds = true → t = u) ∧
    (s.stopping = false → s.word / 4 = s.idlers) ∧ (s.stopping = true → s.word = 0) ∧
    ∀ t, (s.pc t).scopeOver = true → s.Done := by
  obtain ⟨hi, ha⟩ := Inv.reach_abs hn2 hn h
  exact ⟨fun t u => hi.one, fun hs => (hi.idle hs).symm, fun hs => (hi.stop hs).1,
    fun t => scope_done hi (Pool.Inv.reach ha)⟩

/-- The worker has taken the lock to run the task of a scope; the scope is over; `stop` after it. -/
theorem pool_safe_oneTask :
    (∃ s : St 2, s.pc 1 = .held .runAll ∧ s.jobs = 1 ∧ (∀ u, (s.pc u).holds = true → u = 1) ∧
      s.word / 4 = s.idlers) ∧
    (∃ s : St 2, s.pc 0 = .outside ∧ s.jobs = 1 ∧ s.word / 4 = s.idlers ∧ s.Done) ∧
    ∃ s : St 2, s.stopping = true ∧ s.jobs = 1 ∧ s.word = 0 := by
  refine ⟨?_, ?_, ?_⟩
  · obtain ⟨s, hr, h1, hj, hs⟩ := exists_of_schedule ((oneTask 0 1).take 12)
      (fun s => s.pc 1 = .held .runAll ∧ s.jobs = 1 ∧ s.stopping = false) (by decide +kernel)
    have h := pool_safe (by decide) (by decide) hr
    exact ⟨s, h1, hj, fun u hu => h.1 u 1 hu (by rw [h1]; rfl), h.2.1 hs⟩
  · obtain ⟨s, hr, h0, hj, hs⟩ := exists_of_schedule (oneTask 0 1)
      (fun s => s.pc 0 = .outside ∧ s.jobs = 1 ∧ s.stopping = false) (by decide +kernel)
    have h := pool_safe (by decide) (by decide) hr
    exact ⟨s, h0, hj, h.2.1 hs, h.2.2.2 0 (by rw [h0]; rfl)⟩
  · obtain ⟨s, hr, hj, hs⟩ := exists_of_schedule (oneTask 0 1 ++ [(0, .stop)])
      (fun s => s.jobs = 1 ∧ s.stopping = true) (by decide +kernel)
    exact ⟨s, hs, hj, (pool_safe (by decide) (by decide) hr).2.2.1 hs⟩

/-- After the store of `stop`, a worker that has not read the word yet is idle, and the idle field
is `0`. -/
theorem stop_idle_field : ∃ s : St 2, (pool 2).Reach s ∧ s.word / 4 = 0 ∧ s.idlers = 1 :=
  ⟨_, fresh_reach.next 0 (Step.stop rfl), rfl, rfl⟩

end Qblaze.Futex
