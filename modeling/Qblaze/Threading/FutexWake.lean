import Qblaze.Threading.FutexJobs

/-!
# No lost wake-up

A thread sleeps only while some other thread is bound to wake it. Two invariants say which:

* `Covered`: while a thread sleeps in `lock`, the lock is held and marked as contended (and its
  holder wakes a sleeper when it releases the lock), or some thread is on its way to wake one or
  to mark the lock again (`Pc.wakes`);
* `Called`: while the main thread sleeps in `wait_main` and all threads are idle, the last thread
  to become idle has not sent its wake-up yet (`Pc.calls`).

With them, the last thread that is awake never goes to sleep (`awake_step`). After `stop`, the word
is `0` and no `futex::wait` compares with `0`, so no worker sleeps any more (`Roused`).
-/

namespace Qblaze.Futex

variable {n : Nat} {s s' : St n} {t u : Fin n}

def Pc.isAsleep : Pc → Bool
  | .asleep _ _ => true
  | _ => false

/-- Asleep with the mask `WAIT_LOCK`. -/
def Pc.lockSleeps : Pc → Bool
  | .asleep m _ => decide (m &&& waitLock ≠ 0)
  | _ => false

/-- On its way to wake a thread in `lock`, or to mark the lock as contended. -/
def Pc.wakes : Pc → Bool
  | .lockSlow _ _ | .lockReload _ | .unlockWakeLock _ _ | .idleWakeLock _ => true
  | _ => false

/-- Asleep with the mask `WAIT_IDLE`. -/
def Pc.idleSleeps : Pc → Bool
  | .asleep m _ => decide (m &&& waitIdle ≠ 0)
  | _ => false

/-- On its way to wake the main thread, after it was the last to become idle. -/
def Pc.calls (n : Nat) : Pc → Bool
  | .idleWakeLock v => v == n * 4
  | .workWakeMain _ => true
  | _ => false

/-- A sleeper in `lock` is not forgotten (module doc). -/
def Covered (s : St n) : Prop :=
  (∃ u, (s.pc u).lockSleeps = true) → s.word % 4 = 3 ∨ ∃ u, (s.pc u).wakes = true

/-- The main thread in `wait_main` is not forgotten (module doc). -/
def Called (s : St n) : Prop :=
  (∃ u, (s.pc u).idleSleeps = true) → s.word = n * 4 → ∃ u, (s.pc u).calls n = true

/-! ## Sleepers -/

theorem asleep_of_lockSleeps {p : Pc} (h : p.lockSleeps = true) : p.isAsleep = true := by
  cases p <;> first | rfl | cases h

theorem asleep_of_idleSleeps {p : Pc} (h : p.idleSleeps = true) : p.isAsleep = true := by
  cases p <;> first | rfl | cases h

/-- A sleeper is in `lock` or in one of the waits of an idle thread. -/
theorem asleep_cases {p : Pc} (hl : p.Local n) (h : p.isAsleep = true) :
    (p.lockSleeps = true ∧ p.idleSleeps = false ∧ ∃ c, p.wakened = .lockReload c) ∨
      (p.lockSleeps = false ∧ p.idleSleeps = false ∧ p.idle = true ∧ p.workerOnly = true) ∨
      (p.lockSleeps = false ∧ p.idleSleeps = true ∧ p.idle = true ∧ p.mainOnly = true) := by
  cases p <;> try cases h
  case asleep m k =>
    obtain ⟨rfl, c, rfl⟩ | ⟨rfl, rfl | rfl⟩ | ⟨rfl, rfl⟩ := hl
    · exact .inl ⟨rfl, rfl, c, rfl⟩
    · exact .inr (.inl ⟨rfl, rfl, rfl, rfl⟩)
    · exact .inr (.inl ⟨rfl, rfl, rfl, rfl⟩)
    · exact .inr (.inr ⟨rfl, rfl, rfl, rfl⟩)

theorem holds_of_asleep {p : Pc} (hl : p.Local n) (h : p.isAsleep = true) : p.holds = false := by
  cases p <;> try cases h
  case asleep m k =>
    obtain ⟨-, c, rfl⟩ | ⟨-, rfl | rfl⟩ | ⟨-, rfl⟩ := hl <;> rfl

theorem wakened_awake {p : Pc} (hl : p.Local n) : p.wakened.isAsleep = false := by
  cases p <;> try rfl
  case asleep m k =>
    obtain ⟨-, c, rfl⟩ | ⟨-, rfl | rfl⟩ | ⟨-, rfl⟩ := hl <;> rfl

theorem wakened_of_awake {p : Pc} (h : p.isAsleep = false) : p.wakened = p := by
  cases p <;> first | rfl | cases h

/-- A thread that sleeps after another one's step slept before it. -/
theorem Step.sleeper (hi : Inv s) (h : Step t s s') (hu : u ≠ t)
    (ha : (s'.pc u).isAsleep = true) : s'.pc u = s.pc u := by
  obtain h' | ⟨h', -, -⟩ := h.other hu
  · exact h'
  · rw [h', wakened_awake (hi.loc u)] at ha; cases ha

/-- A thread that is awake does not move in another one's step. -/
theorem Step.awake (h : Step t s s') (hu : u ≠ t) (ha : (s.pc u).isAsleep = false) :
    s'.pc u = s.pc u := by
  obtain h' | ⟨h', -, -⟩ := h.other hu
  · exact h'
  · rw [h', wakened_of_awake ha]

theorem awake_of_wakes {p : Pc} (h : p.wakes = true) : p.isAsleep = false := by
  cases p <;> first | rfl | cases h

theorem awake_of_calls {p : Pc} (h : p.calls n = true) : p.isAsleep = false := by
  cases p <;> first | rfl | cases h

/-! ## Actions of a thread that wakes -/

section Act

variable {main : Bool} {p ok k' : Pc} {k fail : Nat → Pc} {v v2 m w : Nat}

theorem slowNext_wakes (c : Cont) : w % 4 = 3 ∨ (slowNext c w).wakes = true := by
  unfold slowNext
  split
  · exact .inr rfl
  · rename_i h; exact .inl (not_not.mp h)

theorem load_wakes (h : act n main p = .load k) (hp : p.wakes = true) :
    w % 4 = 3 ∨ (k w).wakes = true := by
  cases p <;> simp only [act, Act.load.injEq, reduceCtorEq] at h <;> subst h <;> try cases hp
  case lockReload => exact slowNext_wakes _

theorem cas_wakes (h : act n main p = .cas v v2 ok fail) (hp : p.wakes = true) :
    v2 % 4 = 3 ∧ (w % 4 = 3 ∨ (fail w).wakes = true) := by
  cases p <;> simp only [act, Act.cas.injEq, reduceCtorEq] at h <;>
    obtain ⟨rfl, rfl, rfl, rfl⟩ := h <;> try cases hp
  case lockSlow c v =>
    refine ⟨?_, slowNext_wakes _⟩
    unfold clearState
    omega

theorem wakeOne_wakes {kb : Bool → Pc} (h : act n main p = .wakeOne m kb) (hp : p.wakes = true) :
    m = waitLock := by
  cases p <;> simp only [act, Act.wakeOne.injEq, reduceCtorEq] at h <;> try cases hp
  case unlockWakeLock => exact h.1.symm
  case idleWakeLock => exact h.1.symm

theorem wait_wakes (h : act n main p = .wait v m k') : p.wakes = false := by
  cases p <;> simp only [act, reduceCtorEq] at h <;> rfl

theorem wait_calls (h : act n main p = .wait v m k') : p.calls n = false := by
  cases p <;> simp only [act, reduceCtorEq] at h <;> rfl

/-- Who releases a contended lock wakes a sleeper. -/
theorem swap_wakes (h : act n main p = .swap v k) (hw : w % 4 = 3) : (k w).wakes = true := by
  have hb : w / 2 % 2 = 1 := by omega
  cases p <;> simp only [act, Act.swap.injEq, reduceCtorEq] at h <;> obtain ⟨rfl, rfl⟩ := h <;>
    simp only [hb, if_true] <;> rfl

theorem idleNext_calls (hm : main = false) : (idleNext n main (n * 4)).calls n = true := by
  unfold idleNext
  rw [hm, if_neg Bool.false_ne_true, if_pos (Nat.mul_div_cancel n (by decide))]
  rfl

/-- A worker that makes all threads idle calls the main thread. -/
theorem swap_calls (h : act n main p = .swap v k) (hp : p = .idleSwap v) (hm : main = false)
    (hv : v = n * 4) : (k w).calls n = true := by
  subst hp
  simp only [act, Act.swap.injEq, true_and] at h
  rw [← h]
  simp only
  split
  · simp [Pc.calls, hv]
  · rw [hv]; exact idleNext_calls hm

theorem wakeOne_calls {kb : Bool → Pc} (h : act n main p = .wakeOne m kb)
    (hp : p.calls n = true) (hm : main = false) (r : Bool) :
    (kb r).calls n = true ∨ m = waitIdle := by
  cases p <;> simp only [act, Act.wakeOne.injEq, reduceCtorEq] at h <;> try cases hp
  case idleWakeLock v =>
    left
    have hv : v = n * 4 := by simpa [Pc.calls] using hp
    rw [← h.2, hv]
    exact idleNext_calls hm
  case workWakeMain => exact .inr h.1.symm

end Act

/-! ## Falling asleep -/

section Act

variable {main : Bool} {p ok k' : Pc} {k fail : Nat → Pc} {v v2 m w : Nat}

theorem slowNext_awake (c : Cont) : (slowNext c v).isAsleep = false := by
  unfold slowNext; split <;> rfl

theorem lockNext_awake (c : Cont) (spin : Nat) : (lockNext c spin v).isAsleep = false := by
  unfold lockNext
  split
  · rfl
  · split
    · exact slowNext_awake c
    · rfl

theorem startNext_awake : (startNext v).isAsleep = false := by
  unfold startNext
  split
  · rfl
  · split <;> rfl

theorem workHead_awake (spin : Nat) : (workHead spin v).isAsleep = false := by
  unfold workHead; split <;> rfl

theorem workNext_awake (spin : Nat) : (workNext spin v).isAsleep = false := by
  unfold workNext
  split
  · rfl
  · split
    · exact workHead_awake _
    · split
      · rfl
      · exact workHead_awake _

theorem mainHead_awake (spin : Nat) : (mainHead n spin v).isAsleep = false := by
  unfold mainHead
  split
  · rfl
  · split <;> rfl

theorem mainNext_awake (spin : Nat) : (mainNext n spin v).isAsleep = false := by
  unfold mainNext
  split
  · rfl
  · exact mainHead_awake _

theorem idleNext_awake : (idleNext n main v).isAsleep = false := by
  unfold idleNext
  split
  · exact mainHead_awake _
  · split
    · rfl
    · exact workHead_awake _

theorem unlockNext_awake (wake : Bool) (b : Body) : (unlockNext wake b).isAsleep = false := by
  unfold unlockNext; split <;> rfl

theorem load_awake (h : act n main p = .load k) : (k w).isAsleep = false := by
  cases p <;> simp only [act, Act.load.injEq, reduceCtorEq] at h <;> subst h
  case lockLoad => exact lockNext_awake _ _
  case lockReload => exact slowNext_awake _
  case unlockLoad => rfl
  case startLoad => exact startNext_awake
  case idleLoad => rfl
  case workLoad => exact workNext_awake _
  case mainLoad => exact mainNext_awake _

theorem cas_awake (h : act n main p = .cas v v2 ok fail) :
    ok.isAsleep = false ∧ (fail w).isAsleep = false := by
  cases p <;> simp only [act, Act.cas.injEq, reduceCtorEq] at h <;> obtain ⟨rfl, rfl, rfl, rfl⟩ := h
  case lockCas => exact ⟨rfl, lockNext_awake _ _⟩
  case lockSlow =>
    refine ⟨?_, slowNext_awake _⟩
    split <;> rfl
  case startCas => exact ⟨rfl, startNext_awake⟩
  case workCas => exact ⟨rfl, workNext_awake _⟩
  case mainCas => exact ⟨rfl, mainNext_awake _⟩

theorem swap_awake (h : act n main p = .swap v k) : (k w).isAsleep = false := by
  cases p <;> simp only [act, Act.swap.injEq, reduceCtorEq] at h <;> obtain ⟨rfl, rfl⟩ := h <;>
    simp only <;> split
  · rfl
  · exact unlockNext_awake _ _
  · rfl
  · exact idleNext_awake

theorem wait_awake (h : act n main p = .wait v m k') : k'.isAsleep = false := by
  cases p <;> simp only [act, Act.wait.injEq, reduceCtorEq] at h <;> rw [← h.2.2] <;> rfl

theorem wakeOne_awake {kb : Bool → Pc} (h : act n main p = .wakeOne m kb) (r : Bool) :
    (kb r).isAsleep = false := by
  cases p <;> simp only [act, Act.wakeOne.injEq, reduceCtorEq] at h <;> rw [← h.2]
  case unlockWakeLock wake b =>
    simp only
    split
    · rfl
    · exact unlockNext_awake _ _
  case unlockWakeWork => rfl
  case idleWakeLock => exact idleNext_awake
  case workWakeMain => exact workHead_awake _

/-- Who waits in `lock` saw a contended lock. -/
theorem lockSleeps_wait (h : act n main p = .wait v m k') (hl : p.Local n)
    (hs : (Pc.asleep m k').lockSleeps = true) : v % 4 = 3 := by
  cases p <;> simp only [act, Act.wait.injEq, reduceCtorEq] at h <;> obtain ⟨rfl, rfl, rfl⟩ := h <;>
    first | exact hl | cases hs

/-- The main thread does not wait when all threads are idle. -/
theorem idleSleeps_wait (h : act n main p = .wait v m k') (hl : p.Local n)
    (hs : (Pc.asleep m k').idleSleeps = true) : v ≠ n * 4 := by
  cases p <;> simp only [act, Act.wait.injEq, reduceCtorEq] at h <;> obtain ⟨rfl, rfl, rfl⟩ := h <;>
    first | exact hl.2 | cases hs

end Act

/-- Only `futex::wait` puts the thread to sleep, and only while the word is the one it read. -/
theorem Step.sleeps (hi : Inv s) (h : Step t s s') (ha : (s'.pc t).isAsleep = true) :
    ∃ v m k, act n (t.val == 0) (s.pc t) = .wait v m k ∧ s.word = v ∧ s' = s.goto t (.asleep m k) := by
  have hself : ∀ (f : Fin n → Pc) (p : Pc), p.isAsleep = false →
      (Function.update f t p t).isAsleep = true → False := fun f p hp h => by
    rw [Function.update_self, hp] at h; cases h
  cases h with
  | sleep hact hw => exact ⟨_, _, _, hact, hw, rfl⟩
  | load hact => exact (hself _ _ (load_awake hact) ha).elim
  | casOk hact _ => exact (hself _ _ (cas_awake (w := 0) hact).1 ha).elim
  | casFail hact => exact (hself _ _ (cas_awake hact).2 ha).elim
  | swap hact => exact (hself _ _ (swap_awake hact) ha).elim
  | store hact =>
    obtain ⟨-, -, -, rfl⟩ := store_eq hact
    exact (hself _ _ rfl ha).elim
  | noSleep hact => exact (hself _ _ (wait_awake hact) ha).elim
  | spurious hp =>
    have := wakened_awake (hi.loc t)
    rw [hp] at this
    exact (hself _ _ this ha).elim
  | wakeSome hact _ => exact (hself _ _ (wakeOne_awake hact true) ha).elim
  | wakeNone hact _ => exact (hself _ _ (wakeOne_awake hact false) ha).elim
  | wakeAll hact =>
    obtain ⟨-, -, rfl⟩ := wakeAll_eq hact
    exact (hself _ _ rfl ha).elim
  | _ => exact (hself _ _ rfl ha).elim

/-! ## `Covered` -/

/-- A step of a thread that wakes: the lock is contended after it, or it still wakes, or some
thread was woken up in `lock`, or there was no sleeper in `lock`. -/
theorem wakes_step (hi : Inv s) (h : Step t s s') (hp : (s.pc t).wakes = true) :
    s'.word % 4 = 3 ∨ (∃ u, (s'.pc u).wakes = true) ∨ ∀ u, (s.pc u).lockSleeps = false := by
  have hself : ∀ (f : Fin n → Pc) (p : Pc), p.wakes = true →
      ∃ u, (Function.update f t p u).wakes = true :=
    fun f p h => ⟨t, by rw [Function.update_self]; exact h⟩
  cases h with
  | load ha =>
    rcases load_wakes ha hp with h | h
    · exact .inl h
    · exact .inr (.inl (hself _ _ h))
  | casOk ha _ => exact .inl (cas_wakes (w := 0) ha hp).1
  | casFail ha =>
    rcases (cas_wakes ha hp).2 with h | h
    · exact .inl h
    · exact .inr (.inl (hself _ _ h))
  | @wakeSome _ _ m k x ha hx =>
    obtain ⟨mx, kx, hpx, hm⟩ := hx
    have hxs : (s.pc x).lockSleeps = true := by
      rw [wakeOne_wakes ha hp] at hm
      rw [hpx]; exact decide_eq_true hm
    have hxt : x ≠ t := by
      intro e
      rw [← e, hpx] at hp; cases hp
    rcases asleep_cases (hi.loc x) (asleep_of_lockSleeps hxs) with ⟨-, -, c, hw⟩ | ⟨hn, -⟩ | ⟨hn, -⟩
    · refine .inr (.inl ⟨x, ?_⟩)
      show (Function.update (Function.update s.pc x _) t _ x).wakes = true
      rw [Function.update_of_ne hxt, Function.update_self, hw]
      rfl
    · rw [hn] at hxs; cases hxs
    · rw [hn] at hxs; cases hxs
  | wakeNone ha hno =>
    refine .inr (.inr fun u => ?_)
    rw [wakeOne_wakes ha hp] at hno
    cases hu : (s.pc u).lockSleeps with
    | false => rfl
    | true =>
      cases hpu : s.pc u <;> rw [hpu] at hu <;> try cases hu
      case asleep m k => exact absurd ⟨m, k, hpu, of_decide_eq_true hu⟩ (hno u)
  | swap ha =>
    obtain ⟨wake, b, hq, -⟩ | ⟨hq, -⟩ := swap_kind ha <;> rw [hq] at hp <;> cases hp
  | store ha =>
    obtain ⟨v', hq, -, -⟩ := store_eq ha
    rw [hq] at hp; cases hp
  | sleep ha _ => rw [wait_wakes ha] at hp; cases hp
  | noSleep ha => rw [wait_wakes ha] at hp; cases hp
  | wakeAll ha =>
    obtain ⟨hq, -, -⟩ := wakeAll_eq ha
    rw [hq] at hp; cases hp
  | spurious hq | enter hq | stop hq | submitOne hq | submitMulti hq | endScope hq | endClosure hq
  | pushOne hq | pushMulti hq => rw [hq] at hp; cases hp
  | idle hq _ | runSimple hq _ | runMulti hq _ | dropMulti hq _ => rw [hq] at hp; cases hp

/-- A contended lock stays contended until its holder releases it, who then wakes a sleeper. -/
theorem contended_step (hi : Inv s) (h : Step t s s') (hw : s.word % 4 = 3) :
    s'.word % 4 = 3 ∨ ∃ u, (s'.pc u).wakes = true := by
  cases h with
  | casOk ha hv =>
    obtain ⟨-, ⟨-, -, -, h0, -⟩ | ⟨-, -, -, h1, -⟩ | ⟨-, -, h2, -⟩⟩ := cas_kind ha (hi.loc t)
    · omega
    · omega
    · omega
  | @swap _ _ v k ha =>
    refine .inr ⟨t, ?_⟩
    show (Function.update s.pc t (k s.word) t).wakes = true
    rw [Function.update_self]
    exact swap_wakes ha hw
  | store ha =>
    obtain ⟨v', hp, -, -⟩ := store_eq ha
    have := (hi.exit_word hp).2.1
    omega
  | stop hp =>
    have := (hi.outside_word hp).1
    omega
  | _ => exact .inl hw

/-- A sleeper in `lock` after a step: it saw a contended lock, or it slept before. -/
theorem Covered.step (hi : Inv s) (hc : Covered s) (h : Step t s s') : Covered s' := by
  rintro ⟨u, hu⟩
  have ha := asleep_of_lockSleeps hu
  by_cases hut : u = t
  · subst hut
    obtain ⟨v, m, k, hact, hw, rfl⟩ := h.sleeps hi ha
    have hw' : (s.goto u (.asleep m k)).word = v := hw
    have hp : (s.goto u (.asleep m k)).pc u = .asleep m k := Function.update_self _ _ _
    rw [hp] at hu
    exact .inl (hw' ▸ lockSleeps_wait hact (hi.loc u) hu)
  · have hs : (s.pc u).lockSleeps = true := h.sleeper hi hut ha ▸ hu
    rcases hc ⟨u, hs⟩ with hw | ⟨x, hx⟩
    · exact contended_step hi h hw
    · by_cases hxt : x = t
      · subst hxt
        rcases wakes_step hi h hx with h' | h' | h'
        · exact .inl h'
        · exact .inr h'
        · rw [h' u] at hs; cases hs
      · exact .inr ⟨x, by rw [h.awake hxt (awake_of_wakes hx)]; exact hx⟩

theorem Covered.init (hs : s.Init) : Covered s := by
  rintro ⟨u, hu⟩
  rw [hs.2.2.1 u] at hu
  split at hu <;> cases hu

/-! ## `Called` -/

/-- The word becomes `n * 4` only when the last thread becomes idle. -/
theorem Called.swap (hi : Inv s) (hn2 : 2 ≤ n) {v : Nat} {k : Nat → Pc}
    (ha : act n (t.val == 0) (s.pc t) = .swap v k) (ht : t.val ≠ 0) (hv : v = n * 4) :
    (k s.word).calls n = true := by
  obtain ⟨wake, b, hp, -⟩ | ⟨hp, -⟩ := swap_kind ha
  · have hs := hi.running (t := t) (by rw [hp]; rfl) (by rw [hp]; rfl)
    have h1 := hi.swap_word hp
    have h2 := hi.idle hs
    have h3 : s.idlers = n := by
      unfold clearState at h1
      split at h1 <;> omega
    have := idle_of_all h3 t
    rw [hp] at this; cases this
  · exact swap_calls ha hp (by simpa using ht) hv

/-- Only the main thread sleeps with `WAIT_IDLE`. -/
theorem Inv.main_of_idleSleeps (hi : Inv s) (h : (s.pc u).idleSleeps = true) : u.val = 0 := by
  rcases asleep_cases (hi.loc u) (asleep_of_idleSleeps h) with ⟨-, hn, -⟩ | ⟨-, hn, -⟩ | ⟨-, -, -, hm⟩
  · rw [hn] at h; cases h
  · rw [hn] at h; cases h
  · exact hi.main u hm

/-- A step of a worker that calls the main thread: it still calls, or the main thread is awake. -/
theorem calls_step (hi : Inv s) (h : Step t s s') (hp : (s.pc t).calls n = true) (ht : t.val ≠ 0)
    (hu : (s'.pc u).idleSleeps = true) (hsame : s'.pc u = s.pc u) :
    ∃ x, (s'.pc x).calls n = true := by
  have hself : ∀ (f : Fin n → Pc) (p : Pc), p.calls n = true →
      ∃ x, (Function.update f t p x).calls n = true :=
    fun f p h => ⟨t, by rw [Function.update_self]; exact h⟩
  have hm : (t.val == 0) = false := by simpa using ht
  -- `u` sleeps with a mask that overlaps `WAIT_IDLE`
  have hsl : s.Sleeper waitIdle u := by
    rw [hsame] at hu
    cases hpu : s.pc u <;> rw [hpu] at hu <;> try cases hu
    case asleep m k => exact ⟨m, k, hpu, of_decide_eq_true hu⟩
  cases h with
  | @wakeSome _ _ m k x ha hx =>
    rcases wakeOne_calls ha hp hm true with h | rfl
    · exact hself _ _ h
    · -- it wakes the main thread, the only sleeper with this mask
      exfalso
      obtain ⟨mx, kx, hpx, hmx⟩ := hx
      have hx0 : x.val = 0 := hi.main_of_idleSleeps (u := x) (by rw [hpx]; exact decide_eq_true hmx)
      have hu0 : u.val = 0 := hi.main_of_idleSleeps (u := u) (hsame ▸ hu)
      have hxu : x = u := Fin.ext (hx0.trans hu0.symm)
      subst hxu
      have hxt : x ≠ t := fun e => ht (e ▸ hx0)
      have hpc : Function.update (Function.update s.pc x (s.pc x).wakened) t (k true) x =
          (s.pc x).wakened := by
        rw [Function.update_of_ne hxt, Function.update_self]
      have hw := wakened_awake (hi.loc x)
      rw [← hpc] at hw
      have := asleep_of_idleSleeps hu
      exact Bool.false_ne_true (hw.symm.trans this)
  | wakeNone ha hno =>
    rcases wakeOne_calls ha hp hm false with h | rfl
    · exact hself _ _ h
    · exact absurd hsl (hno u)
  | load ha => cases h : s.pc t <;> rw [h] at ha hp <;> simp only [act, reduceCtorEq] at ha <;> cases hp
  | casOk ha _ =>
    cases h : s.pc t <;> rw [h] at ha hp <;> simp only [act, reduceCtorEq] at ha <;> cases hp
  | casFail ha =>
    cases h : s.pc t <;> rw [h] at ha hp <;> simp only [act, reduceCtorEq] at ha <;> cases hp
  | swap ha =>
    obtain ⟨wake, b, hq, -⟩ | ⟨hq, -⟩ := swap_kind ha <;> rw [hq] at hp <;> cases hp
  | store ha =>
    obtain ⟨v', hq, -, -⟩ := store_eq ha
    rw [hq] at hp; cases hp
  | sleep ha _ => rw [wait_calls ha] at hp; cases hp
  | noSleep ha => rw [wait_calls ha] at hp; cases hp
  | wakeAll ha =>
    obtain ⟨hq, -, -⟩ := wakeAll_eq ha
    rw [hq] at hp; cases hp
  | spurious hq | enter hq | stop hq | submitOne hq | submitMulti hq | endScope hq | endClosure hq
  | pushOne hq | pushMulti hq => rw [hq] at hp; cases hp
  | idle hq _ | runSimple hq _ | runMulti hq _ | dropMulti hq _ => rw [hq] at hp; cases hp

/-- A step of a worker after which the word is `n * 4`: it was `n * 4` before, or the worker is
the last to become idle. -/
theorem calls_word (hn2 : 2 ≤ n) (hi : Inv s) (h : Step t s s') (ht : t.val ≠ 0)
    (hw : s'.word = n * 4) : s.word = n * 4 ∨ ∃ x, (s'.pc x).calls n = true := by
  cases h with
  | @casOk _ _ v v2 ok fail ha hv =>
    exfalso
    have hw : v2 = n * 4 := hw
    obtain ⟨-, ⟨-, -, -, h0, h2⟩ | ⟨-, -, -, h1, h2⟩ | ⟨-, -, h1, h2⟩⟩ := cas_kind ha (hi.loc t)
    · unfold clearState at h2; omega
    · unfold clearState at h2; omega
    · unfold takeIdle at h2; omega
  | @swap _ _ v k ha =>
    refine .inr ⟨t, ?_⟩
    show (Function.update s.pc t (k s.word) t).calls n = true
    rw [Function.update_self]
    exact Called.swap hi hn2 ha ht hw
  | store ha =>
    obtain ⟨v', hp, -, -⟩ := store_eq ha
    exact absurd (hi.main t (by rw [hp]; rfl)) ht
  | stop hp => exact absurd (hi.main t (by rw [hp]; rfl)) ht
  | _ => exact .inl hw

theorem Called.step (hn2 : 2 ≤ n) (hi : Inv s) (hc : Called s) (h : Step t s s') : Called s' := by
  rintro ⟨u, hu⟩ hw
  have ha := asleep_of_idleSleeps hu
  have hut : u ≠ t := by
    intro e
    subst e
    obtain ⟨v, m, k, hact, hv, rfl⟩ := h.sleeps hi ha
    have hp : (s.goto u (.asleep m k)).pc u = .asleep m k := Function.update_self _ _ _
    rw [hp] at hu
    exact idleSleeps_wait hact (hi.loc u) hu (hv.symm.trans hw)
  have hsame := h.sleeper hi hut ha
  have hs : (s.pc u).idleSleeps = true := hsame ▸ hu
  have ht : t.val ≠ 0 := fun h0 => hut (Fin.ext ((hi.main_of_idleSleeps hs).trans h0.symm))
  rcases calls_word hn2 hi h ht hw with hw' | h'
  · obtain ⟨x, hx⟩ := hc ⟨u, hs⟩ hw'
    by_cases hxt : x = t
    · subst hxt; exact calls_step hi h hx ht hu hsame
    · exact ⟨x, by rw [h.awake hxt (awake_of_calls hx)]; exact hx⟩
  · exact h'

theorem Called.init (hs : s.Init) : Called s := by
  rintro ⟨u, hu⟩
  rw [hs.2.2.1 u] at hu
  split at hu <;> cases hu

/-! ## The last thread that is awake -/

/-- Some thread is awake. -/
def Awake (s : St n) : Prop := ∃ t, (s.pc t).isAsleep = false

/-- If all the others sleep, a thread does not fall asleep. -/
theorem awake_step (hn2 : 2 ≤ n) (hn : n ≤ maxThreads) (hi : Inv s) (hc : Covered s)
    (hm : Called s) (h : Step t s s') : Awake s' := by
  by_contra hno
  have hall : ∀ u, (s'.pc u).isAsleep = true := by
    intro u
    cases hu : (s'.pc u).isAsleep with
    | true => rfl
    | false => exact absurd ⟨u, hu⟩ hno
  have hi' : Inv s' := hi.step hn2 hn h
  have hothers : ∀ u, u ≠ t → s'.pc u = s.pc u := fun u hu => h.sleeper hi hu (hall u)
  obtain ⟨v, m, k, hact, hv, rfl⟩ := h.sleeps hi (hall t)
  -- nobody holds the lock
  have heven : s.word % 2 = 0 := by
    have h1 : (s.goto t (.asleep m k)).holders = s.word % 2 := hi'.lock
    have h2 : (s.goto t (.asleep m k)).holders = 0 :=
      Finset.sum_eq_zero fun u _ => by rw [holds_of_asleep (hi'.loc u) (hall u)]; rfl
    omega
  have h2 := (wait_local hact (hi.loc t)).2
  -- so nobody sleeps in `lock`
  have hnolock : ∀ u, ((s.goto t (.asleep m k)).pc u).lockSleeps = false := by
    intro u
    cases hu : ((s.goto t (.asleep m k)).pc u).lockSleeps with
    | false => rfl
    | true =>
      rcases hc.step hi h ⟨u, hu⟩ with h3 | ⟨x, hx⟩
      · have : s.word % 4 = 3 := h3
        omega
      · have := hall x
        rw [awake_of_wakes hx] at this; cases this
  -- so all are idle, and the word is `n * 4`
  have hidle : ∀ u, ((s.goto t (.asleep m k)).pc u).idle = true := by
    intro u
    rcases asleep_cases (hi'.loc u) (hall u) with ⟨hl, -⟩ | ⟨-, -, hid, -⟩ | ⟨-, -, hid, -⟩
    · rw [hnolock u] at hl; cases hl
    · exact hid
    · exact hid
  have hmain : (Fin.mk 0 (by omega) : Fin n).val = 0 := rfl
  have hstop : (s.goto t (.asleep m k)).stopping = false := by
    cases hs : (s.goto t (.asleep m k)).stopping with
    | false => rfl
    | true =>
      rcases (hi'.stop hs).2.2 ⟨0, by omega⟩ with ho | ⟨-, h0⟩
      · rw [past_of_idle (hidle _)] at ho; cases ho
      · exact absurd hmain h0
  have hword : s.word = n * 4 := by
    have h1 : (s.goto t (.asleep m k)).idlers = s.word / 4 := hi'.idle hstop
    have h3 : (s.goto t (.asleep m k)).idlers = n := by simp [St.idlers, hidle]
    omega
  -- but then the main thread, which sleeps too, is about to be called
  have hcalled : ∃ u, ((s.goto t (.asleep m k)).pc u).idleSleeps = true := by
    refine ⟨⟨0, by omega⟩, ?_⟩
    rcases asleep_cases (hi'.loc _) (hall ⟨0, by omega⟩) with ⟨hl, -⟩ | ⟨-, -, -, hw⟩ | ⟨-, hs, -⟩
    · rw [hnolock] at hl; cases hl
    · exact absurd hmain (hi'.worker _ hw)
    · exact hs
  obtain ⟨x, hx⟩ := hm.step hn2 hi h hcalled hword
  have := hall x
  rw [awake_of_calls hx] at this; cases this

/-- The invariants of the wake-ups, in every reachable state. -/
theorem wake_reach (hn2 : 2 ≤ n) (hn : n ≤ maxThreads) (h : (pool n).Reach s) :
    Covered s ∧ Called s ∧ Awake s := by
  refine h.invariant_of (I := fun s => Covered s ∧ Called s ∧ Awake s)
    (fun _ hr => Inv.reach hn2 hn hr) (fun s hs => ?_) ?_
  · refine ⟨.init hs, .init hs, ⟨0, by omega⟩, ?_⟩
    rw [hs.2.2.1]; rfl
  · rintro t s s' hi - ⟨hc, hm, -⟩ hst
    exact ⟨hc.step hi hst, hm.step hn2 hi hst, awake_step hn2 hn hi hc hm hst⟩

/-! ## After `stop` -/

/-- No thread sleeps once the main thread is past the `wake_all` of `stop`. -/
def Roused (s : St n) : Prop := ∀ m, s.pc m = .stopped → ∀ u, (s.pc u).isAsleep = false

/-- No `futex::wait` of a worker compares with `0`. -/
theorem wait_ne_zero {main : Bool} {p k : Pc} {v m : Nat} (h : act n main p = .wait v m k)
    (hl : p.Local n) (hp : p.mainOnly = false) : v ≠ 0 := by
  cases p <;> simp only [act, Act.wait.injEq, reduceCtorEq] at h <;> obtain ⟨rfl, rfl, rfl⟩ := h
  case lockWait c v =>
    have : v % 4 = 3 := hl
    omega
  case startWait => exact hl.2
  case workWait => exact hl.2
  case mainWait => cases hp

/-- `wake_all` with `WAIT_WORK | WAIT_LOCK` wakes every sleeper. -/
theorem wakeAllPc_awake {p : Pc} (hl : p.Local n) :
    (wakeAllPc (waitWork + waitLock) p).isAsleep = false := by
  cases p <;> try rfl
  case asleep m k =>
    obtain ⟨rfl, c, rfl⟩ | ⟨rfl, rfl | rfl⟩ | ⟨rfl, rfl⟩ := hl <;> rfl

theorem Inv.stopping_of_stopped (hi : Inv s) {m : Fin n} (h : s.pc m = .stopped) :
    s.stopping = true := by
  cases hs : s.stopping with
  | true => rfl
  | false =>
    have := hi.live hs m
    rw [h] at this; cases this

/-- A thread that takes a step on the word is not past `stop`. -/
theorem past_none {main : Bool} {p : Pc} (h : p.past = true) :
    act n main p = .none ∨ p = .stopWake := by
  cases p <;> simp only [Pc.past, Bool.false_eq_true] at h <;> first | exact .inl rfl | exact .inr rfl

/-- The main thread gets past `stop` by its `wake_all` only. -/
theorem stopped_self (hi : Inv s) (h : Step t s s') (hs : s'.pc t = .stopped) :
    ∀ u, (s'.pc u).isAsleep = false := by
  have hl := hi.loc t
  -- a step on the word that keeps the kind
  have hkind : ∀ (f : Fin n → Pc) (p : Pc), Function.update f t p t = .stopped →
      p.kind = (s.pc t).kind → act n (t.val == 0) (s.pc t) = .none ∨ s.pc t = .stopWake := by
    intro f p he hk
    rw [Function.update_self] at he
    subst he
    exact past_none (congrArg Kind.past hk).symm
  have hself : ∀ (f : Fin n → Pc) (p : Pc), Function.update f t p t = .stopped → p.past = true := by
    intro f p he
    rw [Function.update_self] at he
    subst he; rfl
  cases h with
  | @wakeAll _ _ m k ha =>
    obtain ⟨hp, rfl, rfl⟩ := wakeAll_eq ha
    exact update_cases (P := fun _ q => q.isAsleep = false) rfl fun u _ =>
      wakeAllPc_awake (hi.loc u)
  | load ha =>
    rcases load_kind ha s.word with hk | ⟨-, -, he⟩
    · rcases hkind _ _ hs hk with h | h
      · rw [h] at ha; cases ha
      · rw [h] at ha; cases ha
    · have : Function.update s.pc t _ t = Pc.stopped := hs
      rw [Function.update_self, he] at this; cases this
  | casFail ha =>
    rcases (cas_kind ha hl).1 s.word with hk | ⟨-, -, he⟩
    · rcases hkind _ _ hs hk with h | h
      · rw [h] at ha; cases ha
      · rw [h] at ha; cases ha
    · have : Function.update s.pc t _ t = Pc.stopped := hs
      rw [Function.update_self, he] at this; cases this
  | casOk ha _ =>
    have ho := hself _ _ hs
    obtain ⟨-, ⟨-, -, ⟨c, rfl⟩, -⟩ | ⟨-, -, ⟨c, rfl⟩, -⟩ | ⟨-, rfl, -⟩⟩ := cas_kind ha hl <;> cases ho
  | swap ha =>
    have ho := hself _ _ hs
    obtain ⟨wake, b, -, hk⟩ | ⟨-, hk⟩ := swap_kind ha
    · rw [show Pc.past _ = false from congrArg Kind.past (hk s.word)] at ho; cases ho
    · rw [show Pc.past _ = false from congrArg Kind.past (hk s.word)] at ho; cases ho
  | store ha =>
    obtain ⟨-, -, -, rfl⟩ := store_eq ha
    cases hself _ _ hs
  | sleep ha _ =>
    have : Function.update s.pc t _ t = Pc.stopped := hs
    rw [Function.update_self] at this; cases this
  | noSleep ha =>
    rcases hkind _ _ hs (kind_of_mode (wait_mode ha)) with h | h
    · rw [h] at ha; cases ha
    · rw [h] at ha; cases ha
  | wakeSome ha _ =>
    rcases hkind _ _ hs (kind_of_mode (wakeOne_mode ha true)) with h | h
    · rw [h] at ha; cases ha
    · rw [h] at ha; cases ha
  | wakeNone ha _ =>
    rcases hkind _ _ hs (kind_of_mode (wakeOne_mode ha false)) with h | h
    · rw [h] at ha; cases ha
    · rw [h] at ha; cases ha
  | spurious hp =>
    have ho := hself _ _ hs
    rw [hp] at hl
    obtain ⟨-, c, rfl⟩ | ⟨-, rfl | rfl⟩ | ⟨-, rfl⟩ := hl <;> cases ho
  | stop hp =>
    have : Function.update s.pc t _ t = Pc.stopped := hs
    rw [Function.update_self] at this; cases this
  | _ => cases hself _ _ hs

theorem Roused.step (hi : Inv s) (hr : Roused s) (h : Step t s s') : Roused s' := by
  intro m hm u
  by_cases hmt : m = t
  · subst hmt; exact stopped_self hi h hm u
  · -- the main thread was past `stop` before the step
    have hm' : s.pc m = .stopped := by
      obtain h' | ⟨h', -, -⟩ := h.other hmt
      · rw [← h', hm]
      · have hl := hi.loc m
        rw [hm] at h'
        cases hp : s.pc m with
        | stopped => rfl
        | asleep m' k =>
          rw [hp] at h' hl
          obtain ⟨-, c, rfl⟩ | ⟨-, rfl | rfl⟩ | ⟨-, rfl⟩ := hl <;> cases h'
        | _ => rw [hp] at h'; cases h'
    cases hu : (s'.pc u).isAsleep with
    | false => rfl
    | true =>
      by_cases hut : u = t
      · subst hut
        obtain ⟨v, mask, k, hact, hv, -⟩ := h.sleeps hi hu
        have hw := (hi.stop (hi.stopping_of_stopped hm')).1
        have hnm : (s.pc u).mainOnly = false := by
          cases hmo : (s.pc u).mainOnly with
          | false => rfl
          | true =>
            have h1 := hi.main u hmo
            have h2 := hi.main m (by rw [hm']; rfl)
            exact absurd (Fin.ext (h2.trans h1.symm)) hmt
        exact absurd (hv.symm.trans hw) (wait_ne_zero hact (hi.loc u) hnm)
      · rw [h.sleeper hi hut hu, hr m hm' u] at hu; cases hu

theorem Roused.init (hs : s.Init) : Roused s := by
  intro m hm
  rw [hs.2.2.1 m] at hm
  split at hm <;> cases hm

/-! ### The workers exit -/

/-- An upper bound of the steps that a worker still takes after `stop`. -/
def Pc.toExit : Pc → Nat
  | .exited => 0
  | .startLoad | .startCas _ | .workLoad _ | .workCas _ _ => 1
  | .startWait _ | .workWait _ => 2
  | .workWakeMain _ => 3
  | _ => 4

section Act

variable {main : Bool} {p ok k' : Pc} {k fail : Nat → Pc} {v v2 m : Nat}

/-- An idle worker that reads `STOPPING` exits. -/
theorem load_exit (h : act n main p = .load k) (hid : p.idle = true) (hp : p.mainOnly = false) :
    k 0 = .exited ∧ p.toExit = 1 := by
  cases p <;> simp only [act, Act.load.injEq, reduceCtorEq] at h <;> subst h
  case startLoad => exact ⟨rfl, rfl⟩
  case workLoad => exact ⟨rfl, rfl⟩
  case mainLoad => cases hp
  all_goals cases hid

theorem cas_exit (h : act n main p = .cas v v2 ok fail) (hl : p.Local n) (hid : p.idle = true)
    (hp : p.mainOnly = false) : v ≠ 0 ∧ fail 0 = .exited ∧ p.toExit = 1 := by
  cases p <;> simp only [act, Act.cas.injEq, reduceCtorEq] at h <;> obtain ⟨rfl, rfl, rfl, rfl⟩ := h
  case startCas v =>
    have : v % 4 = 2 := hl
    exact ⟨by omega, rfl, rfl⟩
  case workCas spin v =>
    have : v % 4 = 2 := hl
    exact ⟨by omega, rfl, rfl⟩
  case mainCas => cases hp
  all_goals cases hid

theorem wait_exit (h : act n main p = .wait v m k') (hid : p.idle = true)
    (hp : p.mainOnly = false) : k'.toExit < p.toExit := by
  cases p <;> simp only [act, Act.wait.injEq, reduceCtorEq] at h <;> obtain ⟨rfl, rfl, rfl⟩ := h
  case startWait => exact Nat.lt_succ_self 1
  case workWait => exact Nat.lt_succ_self 1
  case mainWait => cases hp
  case lockWait => cases hid

theorem workHead_exit (spin : Nat) : (workHead spin v).toExit < 3 := by
  unfold workHead
  split
  · exact (by decide : 1 < 3)
  · exact (by decide : 2 < 3)

theorem wakeOne_exit {kb : Bool → Pc} (h : act n main p = .wakeOne m kb) (hid : p.idle = true)
    (hm : main = false) (r : Bool) : (kb r).toExit < p.toExit := by
  cases p <;> simp only [act, Act.wakeOne.injEq, reduceCtorEq] at h <;> rw [← h.2] <;> try cases hid
  case idleWakeLock v =>
    show (idleNext n main v).toExit < 4
    unfold idleNext
    rw [hm, if_neg Bool.false_ne_true]
    split
    · exact Nat.lt_succ_self 3
    · exact Nat.lt_succ_of_lt (workHead_exit _)
  case workWakeMain => exact workHead_exit _

end Act

/-- A worker that cannot hang: it is awake, its next read of the word makes it exit, it cannot fall
asleep, and it exits after at most `toExit` steps of its own. -/
structure Exits (s : St n) (u : Fin n) : Prop where
  awake : (s.pc u).isAsleep = false
  load : ∀ k, act n (u.val == 0) (s.pc u) = .load k → k s.word = .exited
  cas : ∀ v v2 ok fail, act n (u.val == 0) (s.pc u) = .cas v v2 ok fail →
    s.word ≠ v ∧ fail s.word = .exited
  wait : ∀ v m k, act n (u.val == 0) (s.pc u) = .wait v m k → s.word ≠ v
  step : ∀ s', Step u s s' → (s'.pc u).toExit < (s.pc u).toExit

/-- An idle worker after the `wake_all` of `stop`. -/
theorem exits_of_idle (hw : s.word = 0) (ha : (s.pc u).isAsleep = false) (hl : (s.pc u).Local n)
    (hid : (s.pc u).idle = true) (hp : (s.pc u).mainOnly = false) (hu : u.val ≠ 0) :
    Exits s u := by
  have hm : (u.val == 0) = false := by simpa using hu
  have hself : ∀ (f : Fin n → Pc) (p : Pc) (b : Nat), p.toExit < b →
      (Function.update f u p u).toExit < b :=
    fun f p b h => by rw [Function.update_self]; exact h
  refine ⟨ha, fun k h => ?_, fun v v2 ok fail h => ?_, fun v m k h => ?_, fun s' h => ?_⟩
  · rw [hw]; exact (load_exit h hid hp).1
  · rw [hw]
    obtain ⟨h1, h2, -⟩ := cas_exit h hl hid hp
    exact ⟨h1.symm, h2⟩
  · rw [hw]; exact (wait_ne_zero h hl hp).symm
  · cases h with
    | load h =>
      obtain ⟨h1, h2⟩ := load_exit h hid hp
      refine hself _ _ _ ?_
      rw [hw, h1, h2]; exact Nat.lt_succ_self 0
    | casOk h hv => exact absurd (hv.symm.trans hw) (cas_exit h hl hid hp).1
    | casFail h =>
      obtain ⟨-, h1, h2⟩ := cas_exit h hl hid hp
      refine hself _ _ _ ?_
      rw [hw, h1, h2]; exact Nat.lt_succ_self 0
    | swap h =>
      obtain ⟨wake, b, hq, -⟩ | ⟨hq, -⟩ := swap_kind h <;> rw [hq] at hid <;> cases hid
    | store h =>
      obtain ⟨v', hq, -, -⟩ := store_eq h
      rw [hq] at hp; cases hp
    | sleep h hv => exact absurd (hv.symm.trans hw) (wait_ne_zero h hl hp)
    | noSleep h => exact hself _ _ _ (wait_exit h hid hp)
    | spurious hq => rw [hq] at ha; cases ha
    | wakeSome h _ => exact hself _ _ _ (wakeOne_exit h hid hm true)
    | wakeNone h _ => exact hself _ _ _ (wakeOne_exit h hid hm false)
    | wakeAll h =>
      obtain ⟨hq, -, -⟩ := wakeAll_eq h
      rw [hq] at hid; cases hid
    | enter hq | stop hq | submitOne hq | submitMulti hq | endScope hq | endClosure hq
    | pushOne hq | pushMulti hq => rw [hq] at hid; cases hid
    | idle hq _ | runSimple hq _ | runMulti hq _ | dropMulti hq _ => rw [hq] at hid; cases hid

/-- A worker that has exited takes no step. -/
theorem exits_of_exited (hp : s.pc u = .exited) : Exits s u := by
  have hact : ∀ b, act n b (s.pc u) = .none := fun b => by rw [hp]; rfl
  refine ⟨by rw [hp]; rfl, fun k h => ?_, fun v v2 ok fail h => ?_, fun v m k h => ?_,
    fun s' h => ?_⟩
  · rw [hact] at h; cases h
  · rw [hact] at h; cases h
  · rw [hact] at h; cases h
  · cases h with
    | load h | casFail h | swap h | store h | noSleep h | wakeAll h => rw [hact] at h; cases h
    | casOk h _ | sleep h _ | wakeSome h _ | wakeNone h _ => rw [hact] at h; cases h
    | spurious hq | enter hq | stop hq | submitOne hq | submitMulti hq | endScope hq | endClosure hq
    | pushOne hq | pushMulti hq => rw [hq] at hp; cases hp
    | idle hq _ | runSimple hq _ | runMulti hq _ | dropMulti hq _ => rw [hq] at hp; cases hp

theorem Inv.exits (hi : Inv s) (hr : Roused s) {m : Fin n} (hm : s.pc m = .stopped) (hu : u ≠ m) :
    Exits s u := by
  obtain ⟨hw, -, hall⟩ := hi.stop (hi.stopping_of_stopped hm)
  have hm0 := hi.main m (by rw [hm]; rfl)
  have hu0 : u.val ≠ 0 := fun h => hu (Fin.ext (h.trans hm0.symm))
  have hnm : (s.pc u).mainOnly = false := by
    cases hmo : (s.pc u).mainOnly with
    | false => rfl
    | true => exact absurd (hi.main u hmo) hu0
  have ha := hr m hm u
  rcases hall u with ho | ⟨hid, -⟩
  · refine exits_of_exited ?_
    cases hp : s.pc u <;> rw [hp] at ho hnm ha <;> simp only [Pc.past, Bool.false_eq_true] at ho
    case stopWake => cases hnm
    case stopped => cases hnm
    case asleep => cases ha
  · exact exits_of_idle hw ha (hi.loc u) hid hnm hu0

/-- No wake-up is lost: in no reachable state do all threads sleep, and after the `wake_all` of
`stop` every worker exits. -/
theorem no_lost_wakeup (hn2 : 2 ≤ n) (hn : n ≤ maxThreads) (h : (pool n).Reach s) :
    (¬ ∀ t, (s.pc t).isAsleep = true) ∧
    ∀ m, s.pc m = .stopped → ∀ u, u ≠ m → Exits s u := by
  refine ⟨fun hall => ?_, fun m hm u hu => ?_⟩
  · obtain ⟨t, ht⟩ := (wake_reach hn2 hn h).2.2
    rw [hall t] at ht; cases ht
  · have hr : Roused s := h.invariant_of (fun _ hr => Inv.reach hn2 hn hr) (fun _ => Roused.init)
      fun _ _ _ hi _ hr hst => hr.step hi hst
    exact (Inv.reach hn2 hn h).exits hr hm hu

/-- After a task the worker spins and falls asleep, and `stop` stores `STOPPING`. -/
def sleptThenStop (main worker : Fin n) : List (Fin n × Pool.Ask) :=
  oneTask main worker ++ .replicate 101 (worker, .go) ++ [(main, .stop)]

/-- A worker that sleeps when `stop` has stored `STOPPING`, and the same worker behind the `wake_all`
of `stop`. -/
theorem no_lost_wakeup_slept :
    (∃ s : St 2, (s.pc 1).isAsleep = true ∧ s.word = 0 ∧ s.jobs = 1 ∧
      ¬ ∀ t, (s.pc t).isAsleep = true) ∧
    ∃ s : St 2, s.pc 0 = .stopped ∧ s.pc 1 = .workLoad 0 ∧ s.jobs = 1 ∧ Exits s 1 := by
  refine ⟨?_, ?_⟩
  · obtain ⟨s, hr, h1, hw, hj⟩ := exists_of_schedule (sleptThenStop 0 1)
      (fun s => (s.pc 1).isAsleep = true ∧ s.word = 0 ∧ s.jobs = 1) (by decide +kernel)
    exact ⟨s, h1, hw, hj, (no_lost_wakeup (by decide) (by decide) hr).1⟩
  · obtain ⟨s, hr, h0, h1, hj⟩ := exists_of_schedule (sleptThenStop 0 1 ++ [(0, .go)])
      (fun s => s.pc 0 = .stopped ∧ s.pc 1 = .workLoad 0 ∧ s.jobs = 1) (by decide +kernel)
    exact ⟨s, h0, h1, hj, (no_lost_wakeup (by decide) (by decide) hr).2 0 h0 1 (by decide)⟩

end Qblaze.Futex
