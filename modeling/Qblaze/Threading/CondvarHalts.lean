import Mathlib.Algebra.BigOperators.Fin
import Qblaze.Threading.Condvar

/-!
# The pool over a condition variable comes to its end

* No wake-up is lost (`Wakes`): the main thread sleeps only while somebody is not idle, or is about
  to wake it up; after the `notify_all` of `stop` nobody sleeps.
* So there is always a thread that can go on, until all have ended (`progress`).
* `condvar_halts`: when user code asks for finitely much, every run ends, with all workers exited.
  A step lowers `load`, which pays for the wake-ups and tasks that are still to come: a task on
  the stack pays for the thread that will run it, and a thread in front of a `notify` for the
  sleepers.
-/

namespace Qblaze.Condvar

open Futex (Body Cont Task maxThreads)
open Pool (Mode Store Work)

variable {n : Nat} {s s' : St n} {t u : Fin n}

/-! ## Wake-ups -/

/-- No wake-up is lost (module doc). -/
structure Wakes (s : St n) : Prop where
  main : ∀ t, s.pc t = .asleep true → s.count ≠ n ∨ ∃ u, s.pc u = .workNotify
  stopped : ∀ t, s.pc t = .stopped → ∀ u, (s.pc u).isAsleep = false

theorem goto_pc (s : St n) (t : Fin n) (p : Pc) : (s.goto t p).pc t = p := by
  unfold St.goto
  exact Function.update_self ..

theorem goto_pc_of_ne (s : St n) (p : Pc) (h : u ≠ t) : (s.goto t p).pc u = s.pc u := by
  unfold St.goto
  exact Function.update_of_ne h ..

/-- A step that leaves the number behind the mutex as it is, from a place that is not `workNotify`
to one that is neither `stopped` nor asleep. -/
theorem Wakes.keep (hw : Wakes s) (hc : s'.count = s.count) (h1 : s.pc t ≠ .workNotify)
    (h2 : (s'.pc t).isAsleep = false) (h3 : s'.pc t ≠ .stopped)
    (ho : ∀ u ≠ t, s'.pc u = s.pc u ∨ s'.pc u = (s.pc u).wake ∧ (s.pc u).isAsleep = true) :
    Wakes s' := by
  refine ⟨fun x hx => ?_, fun x hx u => ?_⟩
  · have hxt : x ≠ t := by
      rintro rfl
      rw [hx] at h2
      cases h2
    have hold : s.pc x = .asleep true := by
      obtain h | ⟨h, ha⟩ := ho x hxt
      · rw [← h, hx]
      · rw [hx] at h
        cases hp : s.pc x <;> rw [hp] at h ha <;> cases h
    rw [hc]
    refine (hw.main x hold).imp_right fun ⟨u, hu⟩ => ⟨u, ?_⟩
    have hut : u ≠ t := by
      rintro rfl
      exact h1 hu
    obtain h | ⟨-, ha⟩ := ho u hut
    · rw [h, hu]
    · rw [hu] at ha
      cases ha
  · have hxt : x ≠ t := by
      rintro rfl
      exact h3 hx
    have hold : s.pc x = .stopped := by
      obtain h | ⟨h, ha⟩ := ho x hxt
      · rw [← h, hx]
      · rw [hx] at h
        cases hp : s.pc x <;> rw [hp] at h ha <;> cases h
    by_cases hut : u = t
    · rw [hut, h2]
    · obtain h | ⟨-, ha⟩ := ho u hut
      · rw [h]
        exact hw.stopped x hold u
      · rw [hw.stopped x hold u] at ha
        cases ha

/-- Only the main thread is at a place of the main thread. -/
theorem Inv.main_eq (hi : Inv s) (ht : (s.pc t).mainOnly = true) (hu : (s.pc u).mainOnly = true) :
    u = t :=
  Fin.ext ((beq_iff_eq.mp ((hi.loc u).only hu)).trans (beq_iff_eq.mp ((hi.loc t).only ht)).symm)

/-- The number behind the mutex is at most `n` until `stop`, and `n` only if all are idle. -/
theorem Inv.count_ne (hn : n ≤ maxThreads) (hi : Inv s) (hm : (s.pc t).mode ≠ .idle) : s.count ≠ n :=
  fun hc => hm (hi.count.all_idle hn hc t)

/-- The code with the mutex loses no wake-up. -/
theorem Wakes.crit (hn : n ≤ maxThreads) (hi : Inv s) (hi' : Inv s') (hw : Wakes s)
    {f : Nat → Bool → Crit} (hf : act n (s.pc t) = .crit f)
    (hs : s' = { s with
      locked := (f s.count s.store.stack.isEmpty).keeps
      count := (f s.count s.store.stack.isEmpty).count }.goto t
        (f s.count s.store.stack.isEmpty).next) : Wakes s' := by
  have hc : s'.count = (f s.count s.store.stack.isEmpty).count := by rw [hs]; rfl
  have hp' : s'.pc t = (f s.count s.store.stack.isEmpty).next := by rw [hs]; exact goto_pc _ t _
  have ho : ∀ u ≠ t, s'.pc u = s.pc u := fun u hu => by rw [hs]; exact goto_pc_of_ne _ _ hu
  have hne : s.pc t ≠ .workNotify := by
    intro h
    rw [h] at hf
    cases hf
  -- nobody is asleep behind `stop`, if thread `t` is not
  have hst : (s'.pc t).isAsleep = false → s'.pc t ≠ .stopped → ∀ x, s'.pc x = .stopped →
      ∀ u, (s'.pc u).isAsleep = false := by
    intro h1 h2 x hx u
    have hxt : x ≠ t := by
      rintro rfl
      exact h2 hx
    by_cases hut : u = t
    · rw [hut, h1]
    · rw [ho u hut]
      exact hw.stopped x ((ho x hxt).symm.trans hx) u
  have hkeep : s'.count = s.count → (s'.pc t).isAsleep = false → s'.pc t ≠ .stopped → Wakes s' :=
    fun h1 h2 h3 => hw.keep h1 hne h2 h3 fun u hu => .inl (ho u hu)
  -- the main thread is not asleep, if it is thread `t`
  have hmain : (s'.pc t).mainOnly = true → (s'.pc t).isAsleep = false → s'.pc t ≠ .stopped →
      Wakes s' := by
    refine fun hm h1 h2 => ⟨fun x hx => ?_, hst h1 h2⟩
    have := hi'.main_eq (t := x) (u := t) (by rw [hx]; rfl) hm
    rw [this, hx] at h1
    cases h1
  -- the lock was taken, so that not all threads are idle
  have htake : s'.pc t = .held .runAll → Wakes s' := by
    refine fun h => ⟨fun _ _ => .inl (hi'.count_ne hn (t := t) ?_), hst ?_ ?_⟩ <;> rw [h] <;> decide
  cases hp : s.pc t <;> rw [hp] at hf hne <;>
    simp only [act, Act.crit.injEq, reduceCtorEq] at hf <;> subst hf
  case unlockDrop nonempty b =>
    refine hkeep hc ?_ ?_ <;> rw [hp'] <;> dsimp only <;> split <;> first | rfl | simp
  case workGive =>
    dsimp only at hc hp'
    split at hp' <;> refine ⟨fun x _ => ?_, hst (by rw [hp']; rfl) (by rw [hp']; simp)⟩
    · exact .inr ⟨t, hp'⟩
    · exact .inl (by omega)
  case workLoop =>
    dsimp only at hc hp'
    split at hp'
    case isFalse => exact hkeep hc (by rw [hp']; rfl) (by rw [hp']; simp)
    case isTrue hsmall =>
      have hxt : ∀ x, s'.pc x ≠ .asleep false → s.pc x = s'.pc x := fun x hx =>
        (ho x fun h => hx (h ▸ hp')).symm
      refine ⟨fun x hx => ?_, fun x hx => ?_⟩
      · rw [hc]
        obtain hlt | ⟨u, hu⟩ := hw.main x ((hxt x (by rw [hx]; simp)).trans hx)
        · exact .inl hlt
        refine .inr ⟨u, ?_⟩
        have hut : u ≠ t := by
          rintro rfl
          rw [hp] at hu
          cases hu
        rw [ho u hut, hu]
      · -- after `stop` the number is `STOPPING`
        have hx' := (hxt x (by rw [hx]; simp)).trans hx
        have h0 := beq_iff_eq.mp ((hi.loc x).only (by rw [hx']; rfl))
        have hno : ¬ s.abs.Open := fun h => h x h0 (by show (s.pc x).mode = _; rw [hx']; rfl)
        rw [hi.count.closed hno] at hsmall
        cases hsmall
  case workCheck =>
    dsimp only at hc hp'
    by_cases he : s.store.stack.isEmpty = true
    · rw [if_pos he] at hc hp'
      exact hkeep hc (by rw [hp']; rfl) (by rw [hp']; simp)
    · rw [if_neg he] at hc hp'
      exact htake hp'
  case mainGive => exact hmain (by rw [hp']; rfl) (by rw [hp']; rfl) (by rw [hp']; simp)
  case mainLoop =>
    dsimp only at hc hp'
    by_cases he : s.count = n
    · rw [if_pos he] at hc hp'
      exact hmain (by rw [hp']; rfl) (by rw [hp']; rfl) (by rw [hp']; simp)
    · rw [if_neg he] at hc hp'
      refine ⟨fun _ _ => .inl (by rwa [hc]), fun x hx => ?_⟩
      have := hi'.main_eq (t := x) (u := t) (by rw [hx]; rfl) (by rw [hp']; rfl)
      rw [← this, hp'] at hx
      cases hx
  case mainCheck =>
    dsimp only at hc hp'
    by_cases he : s.store.stack.isEmpty = true
    · rw [if_pos he] at hc hp'
      exact hmain (by rw [hp']; rfl) (by rw [hp']; rfl) (by rw [hp']; simp)
    · rw [if_neg he] at hc hp'
      exact htake hp'
  case stopStore =>
    dsimp only at hc hp'
    by_cases he : s.count = n - 1
    · rw [if_pos he] at hc hp'
      exact hmain (by rw [hp']; rfl) (by rw [hp']; rfl) (by rw [hp']; simp)
    · rw [if_neg he] at hc hp'
      exact hkeep hc (by rw [hp']; rfl) (by rw [hp']; simp)

/-- A place at which a thread neither sleeps, nor is behind `stop`, nor is about to wake all. -/
def Pc.isPlain : Pc → Bool
  | .asleep _ | .stopped | .workNotify => false
  | _ => true

theorem not_asleep {p : Pc} (h : p.isPlain = true) : p.isAsleep = false := by
  cases p <;> first | rfl | cases h

theorem not_stopped {p : Pc} (h : p.isPlain = true) : p ≠ .stopped := by
  rintro rfl
  cases h

theorem not_notify {p : Pc} (h : p.isPlain = true) : p ≠ .workNotify := by
  rintro rfl
  cases h

theorem lock_plain {p k : Pc} (h : act n p = .lock k) : p.isPlain = true ∧ k.isPlain = true := by
  cases p <;> simp only [act, Act.lock.injEq, reduceCtorEq] at h <;> subst h
  case woken m => cases m <;> exact ⟨rfl, rfl⟩
  all_goals exact ⟨rfl, rfl⟩

theorem notifyOne_plain {p k : Pc} (h : act n p = .notifyOne k) :
    p.isPlain = true ∧ k.isPlain = true := by
  cases p <;> simp only [act, Act.notifyOne.injEq, reduceCtorEq] at h
  subst h
  exact ⟨rfl, rfl⟩

theorem notifyAll_asleep {p k : Pc} (h : act n p = .notifyAll k) : k.isAsleep = false := by
  cases p <;> simp only [act, Act.notifyAll.injEq, reduceCtorEq] at h <;> subst h <;> rfl

theorem code_plain {p : Pc} (h : p.isCode = true) : p.isPlain = true := by
  cases p <;> first | rfl | cases h

theorem call_plain (main : Bool) (σ : Store) {m : Mode} : (call main σ m).isPlain = true := by
  cases m <;> try rfl
  cases main <;> rfl

theorem asleep_eq {p : Pc} (h : p.isAsleep = true) : ∃ main, p = .asleep main := by
  cases p <;> first | exact ⟨_, rfl⟩ | cases h

theorem wake_asleep (p : Pc) : p.wake.isAsleep = false := by
  cases p <;> rfl

theorem Wakes.step (hn : n ≤ maxThreads) (hi : Inv s) (hi' : Inv s') (hw : Wakes s)
    (h : Step t s s') : Wakes s' := by
  -- a step from a plain place to a plain place
  have hkeep : s'.count = s.count → (s.pc t).isPlain = true → (s'.pc t).isPlain = true →
      (∀ u ≠ t, s'.pc u = s.pc u ∨ s'.pc u = (s.pc u).wake ∧ (s.pc u).isAsleep = true) → Wakes s' :=
    fun hc h1 h2 ho => hw.keep hc (not_notify h1) (not_asleep h2) (not_stopped h2) ho
  have hself : ∀ (r : St n) (p : Pc), p.isPlain = true → ((r.goto t p).pc t).isPlain = true :=
    fun r p hp => by rwa [goto_pc]
  cases h with
  | lock hk _ =>
    obtain ⟨h1, h2⟩ := lock_plain hk
    exact hkeep rfl h1 (hself _ _ h2) fun u hu => .inl (goto_pc_of_ne _ _ hu)
  | crit hf => exact hw.crit hn hi hi' hf rfl
  | @notifyOne _ _ k x hk hx =>
    obtain ⟨h1, h2⟩ := notifyOne_plain hk
    refine hkeep rfl h1 (hself _ _ h2) fun u hu => ?_
    rw [goto_pc_of_ne _ _ hu]
    by_cases hux : u = x
    · rw [hux, goto_pc]
      exact .inr ⟨rfl, hx⟩
    · exact .inl (goto_pc_of_ne _ _ hux)
  | notifyNone hk _ =>
    obtain ⟨h1, h2⟩ := notifyOne_plain hk
    exact hkeep rfl h1 (hself _ _ h2) fun u hu => .inl (goto_pc_of_ne _ _ hu)
  | @notifyAll _ _ k hk =>
    -- nobody sleeps
    have hall : ∀ u, ((({ s with pc := fun u => (s.pc u).wake } : St n).goto t k).pc u).isAsleep =
        false := by
      intro u
      by_cases hu : u = t
      · rw [hu, goto_pc]
        exact notifyAll_asleep hk
      · rw [goto_pc_of_ne _ _ hu]
        exact wake_asleep _
    refine ⟨fun x hx => ?_, fun _ _ => hall⟩
    have := hall x
    rw [hx] at this
    cases this
  | stop hp => exact hkeep rfl (by rw [hp]; rfl) (hself _ _ rfl) fun u hu => .inl (goto_pc_of_ne _ _ hu)
  | work hc _ =>
    exact hkeep rfl (code_plain hc) (hself _ _ (call_plain _ _)) fun u hu =>
      .inl (goto_pc_of_ne _ _ hu)

theorem Wakes.spurious (hw : Wakes s) (h : Spurious t s s') : Wakes s' := by
  obtain ⟨ha, rfl⟩ := h
  have hne : s.pc t ≠ .workNotify := by
    intro h
    rw [h] at ha
    cases ha
  refine hw.keep (t := t) rfl hne ?_ ?_ fun u hu => .inl (goto_pc_of_ne _ _ hu)
  · rw [goto_pc]
    exact wake_asleep _
  · obtain ⟨main, hp⟩ := asleep_eq ha
    rw [goto_pc, hp]
    nofun

/-- The invariants of the reachable states. -/
theorem reach_wakes (hn2 : 2 ≤ n) (hn : n ≤ maxThreads) (h : (pool n).Reach s) : Wakes s := by
  have hinv : ∀ s, (pool n).Reach s → Inv s := fun _ h => (Inv.reach hn2 hn h).1
  refine h.invariant_of hinv (fun s hs => ?_) fun t s s' hi hi' hw hst => ?_
  · obtain ⟨-, -, hpc, -⟩ := hs
    refine ⟨fun t ht => ?_, fun t ht => ?_⟩ <;> rw [hpc t] at ht <;> split at ht <;> cases ht
  · obtain hst | hst := hst
    · exact hw.step hn hi hi' hst
    · exact hw.spurious hst

/-! ## What user code asks for -/

/-- What user code asks for when a thread goes from `p` to `p'`: a scope, a call of `submit_one` or
`submit_multi`, or `yields` closures from a generator. A return of `Condvar::wait` for no reason
counts, too. -/
def ask (yields : Nat) : Pc → Pc → Nat
  | .outside, .body _ => 1
  | .body _, .lockMtx (.submitOne _) => 1
  | .body _, .lockMtx (.submitMulti _) => 1
  | .held .runAll, _ => yields
  | .asleep _, _ => 1
  | _, _ => 0

/-- What thread `t` asks for in a step. -/
def cost (t : Fin n) (s s' : St n) : Nat :=
  ask (s'.store.jobs - s.store.jobs) (s.pc t) (s'.pc t)

theorem cost_goto (s r : St n) (t : Fin n) (p : Pc) :
    cost t s (r.goto t p) = ask (r.store.jobs - s.store.jobs) (s.pc t) p := by
  unfold cost
  rw [goto_pc]
  rfl

/-! ## Progress -/

/-- All threads have ended. -/
def St.Over (s : St n) : Prop := ∀ t : Fin n, s.pc t = if t.val = 0 then .stopped else .exited

/-- The holder of the lock can go on, and a generator need not yield a closure for it. -/
theorem work_held (k : Cont) (σ : Store) :
    ∃ m σ', Work (.held k) σ m σ' ∧ ∀ p, ask (σ'.jobs - σ.jobs) (.held k) p = 0 := by
  cases k with
  | submitOne b => exact ⟨_, _, .pushOne, fun _ => rfl⟩
  | submitMulti b => exact ⟨_, _, .pushMulti, fun _ => rfl⟩
  | runAll =>
    have hask : ∀ p, ask (σ.jobs - σ.jobs) (.held .runAll) p = 0 := fun _ => Nat.sub_self _
    cases hs : σ.stack with
    | nil => exact ⟨_, _, .idle hs, hask⟩
    | cons task rest =>
      cases task with
      | simple j => exact ⟨_, _, .runSimple hs, hask⟩
      | multi g => exact ⟨_, _, .dropMulti hs, hask⟩

theorem owns_awake {p : Pc} (h : p.owns = true) :
    p.isAsleep = false ∧ p ≠ .stopped ∧ p ≠ .exited := by
  cases p <;> simp only [Pc.owns, Bool.false_eq_true] at h <;> exact ⟨rfl, nofun, nofun⟩

/-- A thread can go on if it is neither asleep nor ended and does not wait for the mutex. It need not
ask for more. -/
theorem step_of (h1 : (s.pc t).isAsleep = false) (h2 : s.locked = true → (s.pc t).owns = true)
    (h3 : s.pc t ≠ .stopped) (h4 : s.pc t ≠ .exited) (h5 : s.pc t ≠ .panicked) :
    ∃ s', Step t s s' ∧ cost t s s' = 0 := by
  have hlock : (s.pc t).owns = false → s.locked = false := by
    intro ho
    by_contra hc
    rw [h2 (Bool.eq_true_of_not_eq_false hc)] at ho
    cases ho
  have hfree : ∀ {r : St n} {p : Pc}, Step t s (r.goto t p) →
      (∀ y, ask y (s.pc t) p = 0) → ∃ s', Step t s s' ∧ cost t s s' = 0 :=
    fun hst ha => ⟨_, hst, (cost_goto ..).trans (ha _)⟩
  cases hp : s.pc t <;> rw [hp] at h1 h3 h4 h5 hlock hfree <;> try contradiction
  case outside => exact hfree (.stop hp) fun _ => rfl
  case body b =>
    cases b with
    | scope => exact hfree (.work (by rw [hp]; rfl) (by rw [hp]; exact .endScope)) fun _ => rfl
    | closure j =>
      exact hfree (.work (by rw [hp]; rfl) (by rw [hp]; exact .endClosure)) fun _ => rfl
  case held k =>
    obtain ⟨m, σ, hw, ha⟩ := work_held k s.store
    refine ⟨_, .work (by rw [hp]; rfl) (by rw [hp]; exact hw), ?_⟩
    rw [cost_goto, hp]
    exact ha _
  case unlockNotify b =>
    by_cases ha : ∃ u, (s.pc u).isAsleep = true
    · obtain ⟨u, hu⟩ := ha
      exact hfree (.notifyOne (by rw [hp]; rfl) hu) fun _ => rfl
    · exact hfree (.notifyNone (by rw [hp]; rfl) fun u =>
        Bool.eq_false_iff.mpr fun hu => ha ⟨u, hu⟩) fun _ => rfl
  case workNotify => exact hfree (.notifyAll (by rw [hp]; rfl)) fun _ => rfl
  case stopNotify => exact hfree (.notifyAll (by rw [hp]; rfl)) fun _ => rfl
  case lockMtx k => exact hfree (.lock (by rw [hp]; rfl) (hlock rfl)) fun _ => rfl
  case startMtx => exact hfree (.lock (by rw [hp]; rfl) (hlock rfl)) fun _ => rfl
  case woken m => exact hfree (.lock (by rw [hp]; rfl) (hlock rfl)) fun _ => rfl
  case stopMtx => exact hfree (.lock (by rw [hp]; rfl) (hlock rfl)) fun _ => rfl
  all_goals exact hfree (.crit (by rw [hp]; rfl)) fun _ => rfl

/-- The pool does not hang: a thread can go on, unless all have ended. User code need not ask for
more. -/
theorem progress (hn2 : 2 ≤ n) (hi : Inv s) (ha : Pool.Inv s.abs)
    (hw : Wakes s) : s.Over ∨ ∃ t s', Step t s s' ∧ cost t s s' = 0 := by
  by_cases hno : ∃ t s', Step t s s' ∧ cost t s s' = 0
  · exact .inr hno
  refine .inl ?_
  -- a thread that has the mutex can go on, so nobody has it
  have howner : ∀ t, (s.pc t).owns = false := by
    intro t
    by_contra hc
    have hc : (s.pc t).owns = true := Bool.eq_true_of_not_eq_false hc
    obtain ⟨h1, h2, h3⟩ := owns_awake hc
    exact hno ⟨t, step_of h1 (fun _ => hc) h2 h3 (hi.loc t).fine⟩
  have hend : ∀ t, (s.pc t).isAsleep = true ∨ s.pc t = .stopped ∨ s.pc t = .exited := by
    intro t
    by_contra hc
    push Not at hc
    obtain ⟨h1, h2, h3⟩ := hc
    refine hno ⟨t, step_of (Bool.eq_false_iff.mpr h1) (fun hl => ?_) h2 h3 (hi.loc t).fine⟩
    obtain ⟨u, hu⟩ := hi.mutex.locked.mp hl
    rw [howner u] at hu
    cases hu
  have hmain : ∀ t, s.pc t = .stopped ∨ s.pc t = .asleep true → t.val = 0 := by
    rintro t (h | h) <;> exact beq_iff_eq.mp ((hi.loc t).only (by rw [h]; rfl))
  have hworker : ∀ t, s.pc t = .exited ∨ s.pc t = .asleep false → t.val ≠ 0 := by
    rintro t (h | h) <;> exact beq_eq_false_iff_ne.mp ((hi.loc t).worker (by rw [h]; rfl))
  -- the main thread
  obtain ⟨m, hm0⟩ : ∃ m : Fin n, m.val = 0 := ⟨⟨0, by omega⟩, rfl⟩
  have hm : s.pc m = .stopped := by
    obtain h | h | h := hend m
    · -- it is asleep: then all are idle, and it would be woken up
      exfalso
      have hsleep : s.pc m = .asleep true := by
        cases hp : s.pc m <;> rw [hp] at h <;> try cases h
        case asleep b =>
          cases b with
          | true => rfl
          | false => exact absurd hm0 (hworker m (.inr hp))
      have hopen : s.abs.Open := by
        intro u hu
        have : u = m := Fin.ext (hu.trans hm0.symm)
        show (s.pc u).mode ≠ _
        rw [this, hsleep]
        nofun
      have hall : ∀ u, s.abs.mode u = .idle := by
        intro u
        show (s.pc u).mode = _
        obtain h | h | h := hend u
        · cases hp : s.pc u <;> rw [hp] at h <;> first | rfl | cases h
        · have : u = m := Fin.ext ((hmain u (.inl h)).trans hm0.symm)
          rw [this, hsleep] at h
          cases h
        · obtain ⟨x, hx0, hx⟩ := ha.closed u (show (s.pc u).mode = .ended by rw [h]; rfl)
          exact absurd hx (hopen x hx0)
      obtain hc | ⟨u, hu⟩ := hw.main m hsleep
      · exact hc ((hi.count.idle hopen).trans ((Pool.idlers_eq_iff _).mpr hall))
      · obtain h | h | h := hend u <;> rw [hu] at h <;> cases h
    · exact h
    · exact absurd hm0 (hworker m (.inl h))
  intro t
  by_cases ht : t.val = 0
  · rw [if_pos ht, show t = m from Fin.ext (ht.trans hm0.symm)]
    exact hm
  · rw [if_neg ht]
    obtain h | h | h := hend t
    · rw [hw.stopped m hm t] at h
      cases h
    · exact absurd (hmain t (.inl h)) ht
    · exact h

/-! ## The weight -/

/-- The pool, when there is `b` left to ask for, of `budget` in all. -/
def bounded (n budget : Nat) : Lib.System (St n × Nat) (Fin n) :=
  ⟨fun x => x.1.Init ∧ x.2 = budget,
    fun t x y => (pool n).step t x.1 y.1 ∧ y.2 + cost t x.1 y.1 = x.2⟩

/-- The weight of a task on the stack, and of a call. -/
def taskWeight (n : Nat) : Nat := 3 * n + 14

def callWeight (n : Nat) : Nat := taskWeight n + 8

/-- The weight of a thread: how many steps it takes until it sleeps or has ended, with the wake-ups
of others. A thread that holds the lock to run a task is paid for by the task. -/
def weight (n : Nat) (empty : Bool) : Pc → Nat
  | .outside => 3 * n + 4
  | .body _ => 3 * n + 9
  | .lockMtx .runAll => 3 * n + 8
  | .lockMtx _ => taskWeight n + 3 * n + 16
  | .held .runAll => if empty then 3 * n + 7 else 1
  | .held _ => taskWeight n + 3 * n + 15
  | .unlockDrop _ _ => 3 * n + 14
  | .unlockNotify _ => 3 * n + 13
  | .startMtx => 2
  | .workGive => 3 * n + 3
  | .workNotify => 3 * n + 2
  | .workLoop => 1
  | .workCheck => 2
  | .mainGive => 3 * n + 6
  | .mainLoop => 3 * n + 5
  | .mainCheck => 3 * n + 6
  | .asleep main => if main then 3 * n + 4 else 0
  | .woken main => if main then 3 * n + 7 else 3
  | .stopMtx => 3 * n + 3
  | .stopStore => 3 * n + 2
  | .stopNotify => 3 * n + 1
  | .panicked | .stopped | .exited => 0

/-- The weight of a state. -/
def St.load (s : St n) : Nat :=
  taskWeight n * s.store.stack.length + ∑ t, weight n s.store.stack.isEmpty (s.pc t)

/-- The part of thread `t` and of the stack in the weight. -/
def St.own (s : St n) (t : Fin n) : Nat :=
  taskWeight n * s.store.stack.length + weight n s.store.stack.isEmpty (s.pc t)

/-- What another thread weighs does not depend on the stack, unless it has the lock. -/
theorem weight_congr {e e' : Bool} {p : Pc} (h : p.owns = true → e' = e) :
    weight n e' p = weight n e p := by
  cases p <;> try rfl
  case lockMtx k => cases k <;> rfl
  case held k => rw [h rfl]

/-- A step that lowers the part of `t` lowers the weight, if no other part grows. -/
theorem load_le (ho : ∀ u ≠ t, weight n s'.store.stack.isEmpty (s'.pc u) ≤
    weight n s.store.stack.isEmpty (s.pc u)) : s'.load + s.own t ≤ s.load + s'.own t := by
  have h := Lib.sum_le_of_others (fun u => weight n s'.store.stack.isEmpty (s'.pc u))
    (fun u => weight n s.store.stack.isEmpty (s.pc u)) t ho
  unfold St.load St.own
  omega

/-- A wake-up weighs `3`. -/
theorem weight_wake (e : Bool) (p : Pc) : weight n e p.wake ≤ weight n e p + 3 := by
  cases p <;> try exact Nat.le_add_right _ _
  case asleep main => cases main <;> exact Nat.le_refl _

theorem load_goto (p : Pc) : (s.goto t p).load + s.own t ≤ s.load + (s.goto t p).own t :=
  load_le fun u hu => by rw [goto_pc_of_ne s p hu]; exact Nat.le_refl _

/-- Everybody is woken up. -/
theorem load_wakeAll (s : St n) :
    St.load { s with pc := fun u => (s.pc u).wake } ≤ s.load + 3 * n := by
  have h : ∑ t, weight n s.store.stack.isEmpty (s.pc t).wake ≤
      ∑ t, (weight n s.store.stack.isEmpty (s.pc t) + 3) :=
    Finset.sum_le_sum fun t _ => weight_wake _ _
  rw [Finset.sum_add_distrib, Finset.sum_const, Finset.card_univ, Fintype.card_fin] at h
  unfold St.load
  simp only [smul_eq_mul] at h
  dsimp only
  omega

theorem own_goto (s : St n) (t : Fin n) (p : Pc) : (s.goto t p).own t =
    taskWeight n * s.store.stack.length + weight n s.store.stack.isEmpty p := by
  unfold St.own
  rw [goto_pc]
  rfl

/-- User code and critical sections, for the part of the thread. -/
theorem work_own {m : Mode} {σ : Store} (hc : (s.pc t).isCode = true)
    (hw : Work (s.pc t).mode s.store m σ) :
    St.own ({ s with store := σ }.goto t (call (t.val == 0) σ m)) t <
      s.own t + callWeight n * cost t s ({ s with store := σ }.goto t (call (t.val == 0) σ m)) := by
  rw [own_goto, cost_goto]
  unfold St.own
  cases hp : s.pc t <;> rw [hp] at hc hw <;> try cases hc
  case outside =>
    cases hw
    simp only [weight, call, ask, callWeight, taskWeight]
    omega
  case body b =>
    cases hw <;> simp only [weight, call, ask, callWeight, taskWeight] <;> omega
  case held k =>
    cases hw with
    | idle hs =>
      have hrest : weight n true (call (t.val == 0) s.store .resting) ≤ 3 * n + 6 := by
        unfold call
        cases (t.val == 0)
        · exact Nat.add_le_add_left (by decide) _
        · exact Nat.le_refl _
      rw [hs]
      show taskWeight n * 0 + weight n true (call (t.val == 0) s.store .resting) <
        taskWeight n * 0 + (3 * n + 7) + _
      omega
    | pushOne | pushMulti =>
      simp only [weight, call, ask, List.length_cons, Nat.mul_add]
      omega
    | @runSimple _ j rest hs =>
      rw [hs]
      show taskWeight n * rest.length + (3 * n + 14) < taskWeight n * (rest.length + 1) + 1 + _
      rw [Nat.mul_add, Nat.mul_one, show taskWeight n = 3 * n + 14 from rfl]
      omega
    | @runMulti _ g rest hs =>
      rw [hs]
      show taskWeight n * (rest.length + 1) + (3 * n + 14) <
        taskWeight n * (rest.length + 1) + 1 + callWeight n * (s.store.jobs + 1 - s.store.jobs)
      rw [Nat.add_sub_cancel_left, callWeight, taskWeight]
      omega
    | @dropMulti _ g rest hs =>
      have hheld : weight n rest.isEmpty (.held .runAll) ≤ 3 * n + 7 := by
        show (if rest.isEmpty = true then 3 * n + 7 else 1) ≤ 3 * n + 7
        split <;> omega
      rw [hs]
      show taskWeight n * rest.length + weight n rest.isEmpty (.held .runAll) <
        taskWeight n * (rest.length + 1) + 1 + _
      rw [Nat.mul_add, Nat.mul_one, show taskWeight n = 3 * n + 14 from rfl]
      omega

section Weight

variable {p k : Pc} {e : Bool}

theorem weight_held (n : Nat) (e : Bool) : weight n e (.held .runAll) ≤ 3 * n + 7 := by
  show (if e = true then 3 * n + 7 else 1) ≤ 3 * n + 7
  split <;> omega

theorem lock_weight (h : act n p = .lock k) (e : Bool) : weight n e k < weight n e p := by
  cases p <;> simp only [act, Act.lock.injEq, reduceCtorEq] at h <;> subst h
  case lockMtx c =>
    cases c with
    | runAll => exact Nat.lt_succ_of_le (weight_held n e)
    | submitOne b | submitMulti b => exact Nat.lt_succ_self _
  case startMtx => exact Nat.lt_succ_self 1
  case woken m => cases m <;> exact Nat.lt_succ_self _
  case stopMtx => exact Nat.lt_succ_self _

theorem crit_weight {f : Nat → Bool → Crit} (h : act n p = .crit f) (c : Nat) (e : Bool) :
    weight n e (f c e).next < weight n e p := by
  cases p <;> simp only [act, Act.crit.injEq, reduceCtorEq] at h <;> subst h
  case unlockDrop nonempty b => dsimp only; split <;> simp only [weight] <;> omega
  case workGive => dsimp only; split <;> simp only [weight] <;> omega
  case workLoop => dsimp only; split <;> exact Nat.lt_succ_self 0
  case workCheck => cases e <;> exact Nat.lt_succ_self 1
  case mainGive => exact Nat.lt_succ_self _
  case mainLoop => dsimp only; split <;> exact Nat.lt_succ_self _
  case mainCheck =>
    cases e with
    | true => exact Nat.lt_succ_self _
    | false =>
      show 1 < 3 * n + 6
      omega
  case stopStore => dsimp only; split <;> simp only [weight] <;> omega

theorem notifyOne_weight (h : act n p = .notifyOne k) (e : Bool) :
    weight n e k + 3 < weight n e p := by
  cases p <;> simp only [act, Act.notifyOne.injEq, reduceCtorEq] at h
  subst h
  exact Nat.lt_succ_self _

theorem notifyAll_weight (h : act n p = .notifyAll k) (e : Bool) :
    weight n e k + 3 * n < weight n e p := by
  cases p <;> simp only [act, Act.notifyAll.injEq, reduceCtorEq] at h <;> subst h <;>
    simp only [weight] <;> omega

end Weight

/-- A step lowers the weight, but for what it asks for. -/
theorem step_load (hi : Inv s) (h : (pool n).step t s s') :
    s'.load < s.load + callWeight n * cost t s s' := by
  -- a step of a thread to a place with less weight
  have hgo : ∀ {r : St n} {p : Pc} {x : Nat}, r.store = s.store → r.pc t = s.pc t →
      r.load ≤ s.load + x →
      weight n s.store.stack.isEmpty p + x < weight n s.store.stack.isEmpty (s.pc t) →
      (r.goto t p).load < s.load := by
    intro r p x hs hp hx hlt
    have h1 := load_goto (s := r) (t := t) p
    rw [own_goto, St.own, hs, hp] at h1
    omega
  have hcost := Nat.zero_le (callWeight n * cost t s s')
  obtain h | ⟨ha, rfl⟩ := h
  · cases h with
    | lock hk _ =>
      have := hgo (r := { s with locked := true }) (x := 0) rfl rfl (Nat.le_refl _)
        (lock_weight hk _)
      omega
    | @crit _ _ f hf =>
      have := hgo (r := { s with
        locked := (f s.count s.store.stack.isEmpty).keeps
        count := (f s.count s.store.stack.isEmpty).count }) (x := 0) rfl rfl (Nat.le_refl _)
        (crit_weight hf s.count s.store.stack.isEmpty)
      omega
    | @notifyOne _ _ k u hk hu =>
      have hut : t ≠ u := by
        rintro rfl
        rw [not_asleep (notifyOne_plain hk).1] at hu
        cases hu
      have h1 := load_goto (s := s) (t := u) (s.pc u).wake
      rw [own_goto, St.own] at h1
      have h2 := weight_wake (n := n) s.store.stack.isEmpty (s.pc u)
      have := hgo (r := s.goto u (s.pc u).wake) (x := 3) rfl (goto_pc_of_ne _ _ hut) (by omega)
        (notifyOne_weight hk _)
      omega
    | @notifyNone _ _ k hk _ =>
      have h1 := notifyOne_weight hk s.store.stack.isEmpty
      have := hgo (r := s) (p := k) (x := 0) rfl rfl (Nat.le_refl _) (by omega)
      omega
    | @notifyAll _ _ k hk =>
      have hwake : (s.pc t).wake = s.pc t := by
        cases hp : s.pc t <;> rw [hp] at hk <;> first | rfl | cases hk
      have := hgo (r := { s with pc := fun u => (s.pc u).wake }) rfl hwake (load_wakeAll s)
        (notifyAll_weight hk _)
      omega
    | stop hp =>
      have := hgo (r := s) (p := .stopMtx) (x := 0) rfl rfl (Nat.le_refl _) (by
        rw [hp]
        exact Nat.lt_succ_self _)
      omega
    | @work _ _ m σ hc hw =>
      have h1 := work_own hc hw
      have h2 := @load_le _ s ({ s with store := σ }.goto t (call (t.val == 0) σ m)) t
        fun u hu => ?_
      · omega
      · rw [goto_pc_of_ne _ _ hu]
        refine Nat.le_of_eq (weight_congr fun ho => ?_)
        obtain ⟨-, -, -, -, -, -, hs | ht, -⟩ := hw.shape
        · show σ.stack.isEmpty = _
          rw [hs]
        · exact absurd (hi.mutex.one u t ho (holds_owns ht)) hu
  · have h1 := load_goto (s := s) (t := t) (s.pc t).wake
    rw [own_goto, St.own] at h1
    have h2 := weight_wake (n := n) s.store.stack.isEmpty (s.pc t)
    have h3 : cost t s (s.goto t (s.pc t).wake) = 1 := by
      obtain ⟨m, hm⟩ := asleep_eq ha
      unfold cost
      rw [hm]
      rfl
    rw [h3, callWeight, taskWeight]
    omega

/-! ## The end -/

theorem bounded_reach {budget : Nat} {x : St n × Nat} (h : (bounded n budget).Reach x) :
    (pool n).Reach x.1 := by
  induction h with
  | init hi => exact .init hi.1
  | next t _ hst ih => exact ih.next t hst.1

/-- The weight of a fresh pool. -/
theorem init_load (h : s.Init) : s.load ≤ n * (3 * n + 4) := by
  obtain ⟨-, -, hpc, hs⟩ := h
  have h1 : ∀ t, weight n s.store.stack.isEmpty (s.pc t) ≤ 3 * n + 4 := by
    intro t
    rw [hpc t]
    split <;> simp only [weight] <;> omega
  have h2 := Finset.sum_le_sum fun t (_ : t ∈ Finset.univ) => h1 t
  rw [Finset.sum_const, Finset.card_univ, Fintype.card_fin, smul_eq_mul] at h2
  unfold St.load
  rw [hs] at h2 ⊢
  exact Nat.le_trans (by simp [Store.new]) h2

/-- The pool over a condition variable comes to its end: when user code asks for `budget` scopes,
tasks and closures in all, and `Condvar::wait` returns for no reason as often at most, every run
ends, and it ends when the main thread has stopped the pool, all workers have exited, and
everything that was submitted has run exactly once. -/
theorem condvar_halts (hn2 : 2 ≤ n) (hn : n ≤ maxThreads) (budget : Nat) :
    (bounded n budget).Halts fun x => x.1.Over ∧ x.1.store.Done := by
  refine Lib.System.halts_of_measure (fun x => callWeight n * x.2 + x.1.load)
    (b := callWeight n * budget + n * (3 * n + 4)) (fun x hx => ?_) (fun t x y hr hst => ?_)
    fun x hr => ?_
  · rw [hx.2]
    exact Nat.add_le_add_left (init_load hx.1) _
  · obtain ⟨hst, hb⟩ := hst
    have := step_load (Inv.reach hn2 hn (bounded_reach hr)).1 hst
    rw [← hb, Nat.mul_add]
    omega
  · obtain ⟨hi, hra⟩ := Inv.reach hn2 hn (bounded_reach hr)
    have ha := Pool.Inv.reach hra
    obtain hover | ⟨t, s', hst, hc⟩ := progress hn2 hi ha (reach_wakes hn2 hn (bounded_reach hr))
    · refine .inl ⟨hover, hi.done ha (t := ⟨0, by omega⟩) ?_⟩
      rw [hover, if_pos rfl]
      rfl
    · exact .inr ⟨t, (s', x.2), .inl hst, by rw [hc]; rfl⟩

/-- The pool of two threads ends. -/
theorem condvar_halts_fresh :
    ∃ x, (bounded 2 1).Reach x ∧ x.1.Over ∧ x.1.store.Done :=
  (condvar_halts (by decide) (by decide) 1).reaches ⟨(fresh, 1), ⟨rfl, rfl, fun _ => rfl, rfl⟩, rfl⟩

/-- No wake-up is lost: whatever user code does, a thread can go on in every reachable state, unless
all have ended; and behind `stop` nobody sleeps. -/
theorem condvar_progress (hn2 : 2 ≤ n) (hn : n ≤ maxThreads) (h : (pool n).Reach s) :
    (s.Over ∨ ∃ t s', Step t s s') ∧
    ∀ t u, s.pc t = .stopped → (s.pc u).isAsleep = false := by
  obtain ⟨hi, hra⟩ := Inv.reach hn2 hn h
  have hw := reach_wakes hn2 hn h
  refine ⟨?_, fun t u ht => hw.stopped t ht u⟩
  exact (progress hn2 hi (Pool.Inv.reach hra) hw).imp_right fun ⟨t, s', hst, _⟩ => ⟨t, s', hst⟩

/-- The main thread sleeps in a scope, and the worker, idle again, is about to wake it up; the worker
sleeps when `stop` is about to wake it up; and it does not sleep behind `stop`. -/
theorem condvar_progress_oneTask :
    (∃ s : St 2, s.pc 0 = .asleep true ∧ s.pc 1 = .workNotify ∧ ∃ t s', Step t s s') ∧
    (∃ s : St 2, s.pc 0 = .stopNotify ∧ s.pc 1 = .asleep false ∧ ∃ t s', Step t s s') ∧
    ∃ s : St 2, s.pc 0 = .stopped ∧ s.store.jobs = 1 ∧ (s.pc 1).isAsleep = false := by
  refine ⟨?_, ?_, ?_⟩
  · obtain ⟨s, hr, h0, h1⟩ := exists_of_schedule ((oneTask 0 1).take 21)
      (fun s => s.pc 0 = .asleep true ∧ s.pc 1 = .workNotify) (by decide +kernel)
    refine ⟨s, h0, h1, (condvar_progress (by decide) (by decide) hr).1.resolve_left fun h => ?_⟩
    cases h0.symm.trans (h 0)
  · obtain ⟨s, hr, h0, h1⟩ := exists_of_schedule (oneTask 0 1 ++ (0, .stop) :: .replicate 2 (0, .go))
      (fun s => s.pc 0 = .stopNotify ∧ s.pc 1 = .asleep false) (by decide +kernel)
    refine ⟨s, h0, h1, (condvar_progress (by decide) (by decide) hr).1.resolve_left fun h => ?_⟩
    cases h0.symm.trans (h 0)
  · obtain ⟨s, hr, h0, hj⟩ := exists_of_schedule (oneTask 0 1 ++ (0, .stop) :: .replicate 3 (0, .go))
      (fun s => s.pc 0 = .stopped ∧ s.store.jobs = 1) (by decide +kernel)
    exact ⟨s, h0, hj, (condvar_progress (by decide) (by decide) hr).2 0 1 h0⟩

end Qblaze.Condvar
