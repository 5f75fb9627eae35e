import Qblaze.Threading.Pool

/-!
# The invariant of the pool

`Inv` relates the word, the stack and the threads:

* the lock bit of the word counts the threads between taking and releasing the lock, so there is
  at most one;
* until `stop`, the idle field counts the idle threads; after it, the word is `STOPPING`;
* an unlocked word has the work state exactly if the stack has a task;
* each thread's local variables agree with the word and the stack where the code relies on it
  (`Pc.Local`): the holder's copy of the word is the word but for the contention flag, and the
  main thread outside a scope sees an empty stack and all workers idle.

A thread does something in the abstract pool (`Pc.mode`), and what the invariant counts follows from
that (`kind_of_mode`). A step changes little of the rest: `Step.change` says once what it can change
(`Change`), and each part of the invariant is proved from that.
-/

namespace Qblaze.Futex

open Pool (Mode)

variable {n : Nat}

/-! ## Where a thread counts -/

/-- Between taking and releasing the lock. -/
def Pc.holds : Pc → Bool
  | .held _ | .unlockLoad _ _ | .unlockSwap _ _ _ | .idleLoad | .idleSwap _ => true
  | .asleep _ k => k.holds
  | _ => false

/-- A worker not past `start_work`, or a thread between the swap of `unlock_idle` and its
compare-exchange or exit. -/
def Pc.idle : Pc → Bool
  | .startLoad | .startCas _ | .startWait _ | .idleWakeLock _ | .workWakeMain _ | .workLoad _
  | .workWait _ | .workCas _ _ | .mainLoad _ | .mainWait _ | .mainCas _ _ | .mainExit _ => true
  | .asleep _ k => k.idle
  | _ => false

/-- The thread is past its last use of the pool: a worker that has exited, or the main thread
behind the store of `stop`. -/
def Pc.past : Pc → Bool
  | .stopWake | .stopped | .exited => true
  | .asleep _ k => k.past
  | _ => false

/-- What the invariant reads of a thread. -/
structure Kind where
  holds : Bool
  idle : Bool
  past : Bool
  deriving DecidableEq

def Pc.kind (p : Pc) : Kind := ⟨p.holds, p.idle, p.past⟩

/-- What the thread does in the abstract pool. -/
def Pc.mode : Pc → Mode
  | .outside => .outside
  | .body b | .unlockWakeLock _ b | .unlockWakeWork b => .body b
  | .lockLoad k _ | .lockCas k _ _ | .lockSlow k _ | .lockWait k _ | .lockReload k => .want k
  | .held k => .held k
  | .unlockLoad _ b | .unlockSwap _ _ b => .release b
  | .idleLoad | .idleSwap _ => .resting
  | .startLoad | .startCas _ | .startWait _ | .idleWakeLock _ | .workWakeMain _ | .workLoad _
  | .workWait _ | .workCas _ _ | .mainLoad _ | .mainWait _ | .mainCas _ _ | .mainExit _ => .idle
  | .stopWake | .stopped | .exited => .ended
  | .asleep _ k => k.mode

theorem mode_holds (p : Pc) : p.mode.holds = p.holds := by
  induction p with
  | asleep m k ih => exact ih
  | _ => rfl

theorem mode_idle {p : Pc} : p.mode = .idle ↔ p.idle = true := by
  induction p with
  | asleep m k ih => exact ih
  | _ => first | exact iff_of_true rfl rfl | exact iff_of_false nofun nofun

theorem mode_past {p : Pc} : p.mode = .ended ↔ p.past = true := by
  induction p with
  | asleep m k ih => exact ih
  | _ => first | exact iff_of_true rfl rfl | exact iff_of_false nofun nofun

/-- What the invariant reads of a thread is part of what it does. -/
theorem kind_of_mode {p q : Pc} (h : p.mode = q.mode) : p.kind = q.kind := by
  have hholds : p.holds = q.holds := by rw [← mode_holds, h, mode_holds]
  have hidle : p.idle = q.idle := Bool.eq_iff_iff.mpr (by rw [← mode_idle, h, mode_idle])
  have hpast : p.past = q.past := Bool.eq_iff_iff.mpr (by rw [← mode_past, h, mode_past])
  unfold Pc.kind
  rw [hholds, hidle, hpast]

/-- The number of threads between taking and releasing the lock. -/
def St.holders (s : St n) : Nat := ∑ t, (s.pc t).holds.toNat

/-- The number of idle threads. -/
def St.idlers (s : St n) : Nat := ∑ t, (s.pc t).idle.toNat

/-! ## Local variables -/

/-- What the code relies on of its local variables at a `Pc`. -/
def Pc.Local (n : Nat) : Pc → Prop
  | .lockCas _ _ v => v % 2 = 0
  | .lockSlow _ v => v % 4 ≠ 3
  | .lockWait _ v => v % 4 = 3
  | .startCas v | .workCas _ v | .mainCas _ v => v % 4 = 2
  | .startWait v | .workWait v => v % 4 ≠ 2 ∧ v ≠ 0
  | .idleWakeLock v | .workWakeMain v => v % 4 = 0 ∧ v ≠ 0
  | .mainWait v => v % 4 ≠ 2 ∧ v ≠ n * 4
  | .asleep m k => (m = waitLock ∧ ∃ c, k = .lockReload c) ∨
      (m = waitWork ∧ (k = .startLoad ∨ k = .workLoad 0)) ∨
      (m = waitWork + waitIdle ∧ k = .mainLoad 0)
  | _ => True

/-- What the code relies on of the word `w` and the stack `stk`: the holder of the lock, that its
copies are current; the main thread, that nothing runs when it leaves a scope. -/
def Pc.View (n : Nat) (main : Bool) (w : Nat) (stk : List Task) : Pc → Prop
  | .unlockLoad nonempty _ => nonempty = !stk.isEmpty
  | .unlockSwap v _ _ => v = clearState w + if stk.isEmpty then 0 else 2
  | .idleLoad => stk = []
  | .idleSwap v => stk = [] ∧ v = clearState w + 4
  | .idleWakeLock v => main = true → v = n * 4 → w = n * 4 ∧ stk = []
  | .mainExit v => v = n * 4 ∧ w = n * 4 ∧ stk = []
  | .outside => w = (n - 1) * 4 ∧ stk = []
  | _ => True

/-- The places that only the main thread reaches. -/
def Pc.mainOnly : Pc → Bool
  | .outside | .mainLoad _ | .mainWait _ | .mainCas _ _ | .mainExit _ | .stopWake | .stopped => true
  | .asleep _ k => k.mainOnly
  | _ => false

/-- The places that only a worker reaches. -/
def Pc.workerOnly : Pc → Bool
  | .startLoad | .startCas _ | .startWait _ | .workWakeMain _ | .workLoad _ | .workWait _
  | .workCas _ _ | .exited => true
  | .asleep _ k => k.workerOnly
  | _ => false

/-! ## What one action does to a thread -/

section Act

variable {main : Bool} {p ok k' : Pc} {k : Nat → Pc} {fail : Nat → Pc} {v v2 m : Nat}

/-- A read of the word: the thread does what it did before, or it is idle, read `STOPPING` and
exits. -/
def SeenAs (w : Nat) (p p' : Pc) : Prop :=
  p'.mode = p.mode ∨ w = 0 ∧ p.mode = .idle ∧ p' = .exited

theorem slowNext_mode (c : Cont) (w : Nat) : (slowNext c w).mode = .want c := by
  unfold slowNext
  split <;> rfl

theorem lockNext_mode (c : Cont) (spin w : Nat) : (lockNext c spin w).mode = .want c := by
  unfold lockNext
  split
  · rfl
  · split
    · exact slowNext_mode c w
    · rfl

theorem startNext_seen {w : Nat} (hp : p.mode = .idle) : SeenAs w p (startNext w) := by
  unfold startNext
  split
  · exact .inl hp.symm
  · split
    · exact .inr ⟨‹_›, hp, rfl⟩
    · exact .inl hp.symm

theorem workHead_mode (spin w : Nat) : (workHead spin w).mode = .idle := by
  unfold workHead
  split <;> rfl

theorem workNext_seen {w spin : Nat} (hp : p.mode = .idle) : SeenAs w p (workNext spin w) := by
  unfold workNext
  split
  · exact .inl hp.symm
  · split
    · exact .inl ((workHead_mode _ _).trans hp.symm)
    · split
      · exact .inr ⟨‹_›, hp, rfl⟩
      · exact .inl ((workHead_mode _ _).trans hp.symm)

theorem mainHead_mode (n spin w : Nat) : (mainHead n spin w).mode = .idle := by
  unfold mainHead
  split
  · rfl
  · split <;> rfl

theorem mainNext_mode (n spin w : Nat) : (mainNext n spin w).mode = .idle := by
  unfold mainNext
  split
  · rfl
  · exact mainHead_mode _ _ _

theorem idleNext_mode (n : Nat) (main : Bool) (w : Nat) : (idleNext n main w).mode = .idle := by
  unfold idleNext
  split
  · exact mainHead_mode _ _ _
  · split
    · rfl
    · exact workHead_mode _ _

theorem unlockNext_mode (wake : Bool) (b : Body) : (unlockNext wake b).mode = .body b := by
  unfold unlockNext
  split <;> rfl

theorem load_seen (h : act n main p = .load k) (w : Nat) : SeenAs w p (k w) := by
  cases p <;> simp only [act, Act.load.injEq, reduceCtorEq] at h <;> subst h
  case lockLoad => exact .inl (lockNext_mode _ _ _)
  case lockReload => exact .inl (slowNext_mode _ _)
  case startLoad => exact startNext_seen rfl
  case workLoad => exact workNext_seen rfl
  case mainLoad => exact .inl (mainNext_mode _ _ _)
  all_goals exact .inl rfl

theorem casFail_seen (h : act n main p = .cas v v2 ok fail) (w : Nat) : SeenAs w p (fail w) := by
  cases p <;> simp only [act, Act.cas.injEq, reduceCtorEq] at h <;> obtain ⟨-, -, -, rfl⟩ := h
  case lockCas => exact .inl (lockNext_mode _ _ _)
  case lockSlow => exact .inl (slowNext_mode _ _)
  case startCas => exact startNext_seen rfl
  case workCas => exact workNext_seen rfl
  case mainCas => exact .inl (mainNext_mode _ _ _)

/-- A successful compare-exchange takes the lock, in `lock` or as an idle thread, or marks it as
contended. -/
theorem casOk_mode (h : act n main p = .cas v v2 ok fail) (hl : p.Local n) :
    (∃ c, p.mode = .want c ∧ ok = .held c ∧ v % 2 = 0) ∨ ok.mode = p.mode ∨
    p.mode = .idle ∧ ok = .held .runAll ∧ v % 4 = 2 := by
  cases p <;> simp only [act, Act.cas.injEq, reduceCtorEq] at h <;> obtain ⟨rfl, -, rfl, -⟩ := h
  case lockCas c _ _ => exact .inl ⟨c, rfl, rfl, hl⟩
  case lockSlow c v =>
    split
    · exact .inl ⟨c, rfl, rfl, ‹_›⟩
    · exact .inr (.inl rfl)
  all_goals exact .inr (.inr ⟨rfl, rfl, hl⟩)

/-- A swap gives the lock away. -/
theorem swap_mode (h : act n main p = .swap v k) (w : Nat) :
    (∃ b, p.mode = .release b ∧ (k w).mode = .body b) ∨ p.mode = .resting ∧ (k w).mode = .idle := by
  cases p <;> simp only [act, Act.swap.injEq, reduceCtorEq] at h <;> obtain ⟨-, rfl⟩ := h
  case unlockSwap wake b =>
    refine .inl ⟨b, rfl, ?_⟩
    dsimp only
    split
    · rfl
    · exact unlockNext_mode _ _
  case idleSwap =>
    refine .inr ⟨rfl, ?_⟩
    dsimp only
    split
    · rfl
    · exact idleNext_mode _ _ _

theorem wait_mode (h : act n main p = .wait v m k') : k'.mode = p.mode := by
  cases p <;> simp only [act, Act.wait.injEq, reduceCtorEq] at h <;> obtain ⟨-, -, rfl⟩ := h <;> rfl

theorem wakeOne_mode {kb : Bool → Pc} (h : act n main p = .wakeOne m kb) (r : Bool) :
    (kb r).mode = p.mode := by
  cases p <;> simp only [act, Act.wakeOne.injEq, reduceCtorEq] at h <;> obtain ⟨-, rfl⟩ := h
  case unlockWakeLock wake b =>
    dsimp only
    split
    · rfl
    · exact unlockNext_mode _ _
  case idleWakeLock => exact idleNext_mode _ _ _
  case workWakeMain => exact workHead_mode _ _
  case unlockWakeWork => rfl

theorem wakened_mode (p : Pc) : p.wakened.mode = p.mode := by
  cases p <;> rfl

theorem wakeAllPc_mode (m : Nat) (p : Pc) : (wakeAllPc m p).mode = p.mode := by
  cases p <;> try rfl
  case asleep m' k =>
    show (if m' &&& m ≠ 0 then k else .asleep m' k).mode = k.mode
    split <;> rfl

/-- A read of the word: the thread counts as before, or it is an idle thread that read `STOPPING`
and exits. -/
def ReadTo (w : Nat) (p p' : Pc) : Prop :=
  p'.kind = p.kind ∨ (w = 0 ∧ p.idle = true ∧ p' = .exited)

theorem SeenAs.read {w : Nat} {p' : Pc} (h : SeenAs w p p') : ReadTo w p p' :=
  h.imp kind_of_mode fun ⟨hw, hp, he⟩ => ⟨hw, mode_idle.mp hp, he⟩

theorem load_kind (h : act n main p = .load k) (w : Nat) : ReadTo w p (k w) := (load_seen h w).read

/-- A compare-exchange: it fails like a read; when it succeeds, a thread in `lock` takes the lock
or marks it as contended, or an idle thread takes the lock. -/
theorem cas_kind (h : act n main p = .cas v v2 ok fail) (hl : p.Local n) :
    (∀ w, ReadTo w p (fail w)) ∧
    ((p.kind = ⟨false, false, false⟩ ∧ ok.kind = ⟨true, false, false⟩ ∧ (∃ c, ok = .held c) ∧
        v % 2 = 0 ∧ (v2 = clearState v + 1 ∨ v2 = clearState v + 3)) ∨
      (p.kind = ⟨false, false, false⟩ ∧ ok.kind = p.kind ∧ (∃ c, ok = .lockWait c v2) ∧
        v % 4 = 1 ∧ v2 = clearState v + 3) ∨
      (p.kind = ⟨false, true, false⟩ ∧ ok = .held .runAll ∧ v % 4 = 2 ∧ v2 = takeIdle v)) := by
  refine ⟨fun w => (casFail_seen h w).read, ?_⟩
  cases p <;> simp only [act, Act.cas.injEq, reduceCtorEq] at h <;> obtain ⟨rfl, rfl, rfl, -⟩ := h
  case lockCas c spin v => exact .inl ⟨rfl, rfl, ⟨c, rfl⟩, hl, .inl rfl⟩
  case lockSlow c v =>
    have hv3 : v % 4 ≠ 3 := hl
    by_cases hv : v % 2 = 0
    · exact .inl ⟨rfl, by rw [if_pos hv]; rfl, ⟨c, if_pos hv⟩, hv, .inr rfl⟩
    · exact .inr (.inl ⟨rfl, by rw [if_neg hv]; rfl, ⟨c, if_neg hv⟩, by omega, rfl⟩)
  all_goals exact .inr (.inr ⟨rfl, rfl, hl, rfl⟩)

/-- A swap releases the lock, to user code or to wait for work. -/
theorem swap_kind (h : act n main p = .swap v k) :
    (∃ wake b, p = .unlockSwap v wake b ∧ ∀ w, (k w).kind = ⟨false, false, false⟩) ∨
      (p = .idleSwap v ∧ ∀ w, (k w).kind = ⟨false, true, false⟩) := by
  cases p <;> simp only [act, Act.swap.injEq, reduceCtorEq] at h <;> obtain ⟨rfl, rfl⟩ := h
  case unlockSwap wake b =>
    refine .inl ⟨wake, b, rfl, fun w => ?_⟩
    simp only
    split
    · rfl
    · exact kind_of_mode (q := .body b) (unlockNext_mode _ _)
  case idleSwap =>
    refine .inr ⟨rfl, fun w => ?_⟩
    simp only
    split
    · rfl
    · exact kind_of_mode (q := .startLoad) (idleNext_mode _ _ _)

theorem store_eq (h : act n main p = .store v k') :
    ∃ v', p = .mainExit v' ∧ v = v' - 4 ∧ k' = .outside := by
  cases p <;> simp only [act, Act.store.injEq, reduceCtorEq] at h
  case mainExit v' => exact ⟨v', rfl, h.1.symm, h.2.symm⟩

theorem wakeAll_eq (h : act n main p = .wakeAll m k') :
    p = .stopWake ∧ m = waitWork + waitLock ∧ k' = .stopped := by
  cases p <;> simp only [act, Act.wakeAll.injEq, reduceCtorEq] at h
  case stopWake => exact ⟨rfl, h.1.symm, h.2.symm⟩

/-! ### Local variables after an action -/

theorem slowNext_local (c : Cont) : (slowNext c v).Local n := by
  unfold slowNext
  split
  · assumption
  · rename_i h; exact not_not.mp h

theorem lockNext_local (c : Cont) (spin : Nat) : (lockNext c spin v).Local n := by
  unfold lockNext
  split
  · assumption
  · split
    · exact slowNext_local c
    · trivial

theorem startNext_local : (startNext v).Local n := by
  unfold startNext
  split
  · assumption
  · split
    · trivial
    · exact ⟨by assumption, by assumption⟩

theorem workHead_local (spin : Nat) (h2 : v % 4 ≠ 2) (h0 : v ≠ 0) : (workHead spin v).Local n := by
  unfold workHead
  split
  · trivial
  · exact ⟨h2, h0⟩

theorem workNext_local (spin : Nat) : (workNext spin v).Local n := by
  unfold workNext
  split
  · assumption
  · split
    · exact workHead_local _ (by omega) (by omega)
    · split
      · trivial
      · exact workHead_local _ (by assumption) (by assumption)

theorem mainHead_local (spin : Nat) (h2 : v % 4 ≠ 2) : (mainHead n spin v).Local n := by
  unfold mainHead
  split
  · trivial
  · split
    · trivial
    · exact ⟨h2, by assumption⟩

theorem mainNext_local (spin : Nat) : (mainNext n spin v).Local n := by
  unfold mainNext
  split
  · assumption
  · exact mainHead_local _ (by assumption)

theorem idleNext_local (h4 : v % 4 = 0) (h0 : v ≠ 0) : (idleNext n main v).Local n := by
  unfold idleNext
  split
  · exact mainHead_local _ (by omega)
  · split
    · exact ⟨h4, h0⟩
    · exact workHead_local _ (by omega) h0

theorem unlockNext_local (wake : Bool) (b : Body) : (unlockNext wake b).Local n := by
  unfold unlockNext; split <;> trivial

theorem load_local (h : act n main p = .load k) (w : Nat) : (k w).Local n := by
  cases p <;> simp only [act, Act.load.injEq, reduceCtorEq] at h <;> subst h
  case lockLoad => exact lockNext_local _ _
  case lockReload => exact slowNext_local _
  case unlockLoad => trivial
  case startLoad => exact startNext_local
  case idleLoad => trivial
  case workLoad => exact workNext_local _
  case mainLoad => exact mainNext_local _

theorem casFail_local (h : act n main p = .cas v v2 ok fail) (w : Nat) : (fail w).Local n := by
  cases p <;> simp only [act, Act.cas.injEq, reduceCtorEq] at h <;> obtain ⟨rfl, rfl, rfl, rfl⟩ := h
  case lockCas => exact lockNext_local _ _
  case lockSlow => exact slowNext_local _
  case startCas => exact startNext_local
  case workCas => exact workNext_local _
  case mainCas => exact mainNext_local _

/-- A thread never waits on a word with work. -/
theorem wait_local (h : act n main p = .wait v m k') (hl : p.Local n) :
    (Pc.asleep m k').Local n ∧ v % 4 ≠ 2 := by
  cases p <;> simp only [act, Act.wait.injEq, reduceCtorEq] at h <;> obtain ⟨rfl, rfl, rfl⟩ := h
  case lockWait c v =>
    have : v % 4 = 3 := hl
    exact ⟨.inl ⟨rfl, c, rfl⟩, by omega⟩
  case startWait => exact ⟨.inr (.inl ⟨rfl, .inl rfl⟩), hl.1⟩
  case workWait => exact ⟨.inr (.inl ⟨rfl, .inr rfl⟩), hl.1⟩
  case mainWait => exact ⟨.inr (.inr ⟨rfl, rfl⟩), hl.1⟩

theorem wakeOne_local {kb : Bool → Pc} (h : act n main p = .wakeOne m kb) (hl : p.Local n)
    (r : Bool) : (kb r).Local n := by
  cases p <;> simp only [act, Act.wakeOne.injEq, reduceCtorEq] at h <;> rw [← h.2]
  case unlockWakeLock wake b =>
    simp only
    split
    · trivial
    · exact unlockNext_local _ _
  case unlockWakeWork => trivial
  case idleWakeLock => exact idleNext_local hl.1 hl.2
  case workWakeMain v =>
    have : v % 4 = 0 ∧ v ≠ 0 := hl
    exact workHead_local _ (by omega) this.2

/-- A thread that is woken up is in front of a read. -/
theorem wakened_local (h : p.Local n) : p.wakened.Local n := by
  cases p <;> try exact h
  case asleep m k =>
    obtain ⟨-, c, rfl⟩ | ⟨-, rfl | rfl⟩ | ⟨-, rfl⟩ := h <;> trivial

theorem asleep_kind (m : Nat) (k : Pc) : (Pc.asleep m k).kind = k.kind := rfl

/-! ### The word and the stack after an action -/

variable {stk : List Task} {w : Nat}

theorem mainHead_view (spin : Nat) (hw : v = n * 4 → w = v ∧ stk = []) :
    (mainHead n spin v).View n main w stk := by
  unfold mainHead
  split
  · rename_i h
    exact ⟨h, (hw h).1.trans h, (hw h).2⟩
  · split <;> trivial

theorem mainNext_view (spin : Nat) (hw : w = n * 4 → stk = []) :
    (mainNext n spin w).View n main w stk := by
  unfold mainNext
  split
  · trivial
  · exact mainHead_view _ fun h => ⟨rfl, hw h⟩

theorem idleNext_view (hw : main = true → v = n * 4 → w = v ∧ stk = []) :
    (idleNext n main v).View n main w stk := by
  unfold idleNext
  split
  · rename_i h; exact mainHead_view _ (hw h)
  · split
    · trivial
    · unfold workHead; split <;> trivial

theorem slowNext_view (c : Cont) : (slowNext c v).View n main w stk := by
  unfold slowNext; split <;> trivial

theorem lockNext_view (c : Cont) (spin : Nat) : (lockNext c spin v).View n main w stk := by
  unfold lockNext
  split
  · trivial
  · split
    · exact slowNext_view c
    · trivial

theorem startNext_view : (startNext v).View n main w stk := by
  unfold startNext
  split
  · trivial
  · split <;> trivial

theorem workNext_view (spin : Nat) : (workNext spin v).View n main w stk := by
  unfold workNext workHead
  split
  · trivial
  · split
    · trivial
    · split
      · trivial
      · split <;> trivial

theorem load_view (h : act n main p = .load k) (hv : p.View n main w stk) (hb : w + 4 < 2 ^ 32)
    (hw : w = n * 4 → stk = []) : (k w).View n main w stk := by
  cases p <;> simp only [act, Act.load.injEq, reduceCtorEq] at h <;> subst h
  case lockLoad => exact lockNext_view _ _
  case lockReload => exact slowNext_view _
  case unlockLoad nonempty b =>
    have hn : nonempty = !stk.isEmpty := hv
    subst hn
    show clearState w + _ = clearState w + _
    cases stk <;> rfl
  case startLoad => exact startNext_view
  case idleLoad =>
    refine ⟨hv, ?_⟩
    unfold giveIdle clearState
    omega
  case workLoad => exact workNext_view _
  case mainLoad => exact mainNext_view _ hw

theorem casFail_view (h : act n main p = .cas v v2 ok fail) (hw : w = n * 4 → stk = []) :
    (fail w).View n main w stk := by
  cases p <;> simp only [act, Act.cas.injEq, reduceCtorEq] at h <;> obtain ⟨rfl, rfl, rfl, rfl⟩ := h
  case lockCas => exact lockNext_view _ _
  case lockSlow => exact slowNext_view _
  case startCas => exact startNext_view
  case workCas => exact workNext_view _
  case mainCas => exact mainNext_view _ hw

theorem unlockNext_view (wake : Bool) (b : Body) : (unlockNext wake b).View n main w stk := by
  unfold unlockNext; split <;> trivial

/-- The swap of `unlock_idle` by the main thread, with the new word `v`. -/
theorem swap_view (h : act n main p = .swap v k) (hv : p = .idleSwap v → stk = []) (w' : Nat) :
    (k w').View n main v stk := by
  cases p <;> simp only [act, Act.swap.injEq, reduceCtorEq] at h <;> obtain ⟨rfl, rfl⟩ := h
  case unlockSwap =>
    simp only
    split
    · trivial
    · exact unlockNext_view _ _
  case idleSwap v =>
    simp only
    split
    · exact fun _ h => ⟨h, hv rfl⟩
    · exact idleNext_view fun _ _ => ⟨rfl, hv rfl⟩

theorem wait_view (h : act n main p = .wait v m k') :
    k'.View n main w stk ∧ (Pc.asleep m k').View n main w stk := by
  cases p <;> simp only [act, Act.wait.injEq, reduceCtorEq] at h <;> obtain ⟨rfl, rfl, rfl⟩ := h <;>
    exact ⟨trivial, trivial⟩

theorem wakeOne_view {kb : Bool → Pc} (h : act n main p = .wakeOne m kb)
    (hv : p.View n main w stk) (r : Bool) : (kb r).View n main w stk := by
  cases p <;> simp only [act, Act.wakeOne.injEq, reduceCtorEq] at h <;> rw [← h.2]
  case unlockWakeLock wake b =>
    simp only
    split
    · trivial
    · exact unlockNext_view _ _
  case unlockWakeWork => trivial
  case idleWakeLock v =>
    exact idleNext_view fun hm hn => ⟨(hv hm hn).1.trans hn.symm, (hv hm hn).2⟩
  case workWakeMain => unfold workHead; split <;> trivial

theorem wakened_view (hl : p.Local n) (hv : p.View n main w stk) :
    p.wakened.View n main w stk := by
  cases p <;> try exact hv
  case asleep m k =>
    obtain ⟨-, c, rfl⟩ | ⟨-, rfl | rfl⟩ | ⟨-, rfl⟩ := hl <;> trivial

end Act

/-! ## What a step changes -/

theorem clearState_locked {w : Nat} (h : w % 4 = 1) : clearState w + 3 = w + 2 := by
  unfold clearState; omega

/-- What a step of thread `t` changes of the word, the stack and the counts. -/
inductive Change (s : St n) (t : Fin n) : St n → Prop
  /-- Nothing: a read, a failed compare-exchange, a wait, a wake-up, a step in user code. -/
  | quiet {s' : St n} : s'.word = s.word → s'.stack = s.stack → s'.stopping = s.stopping →
      (∀ u, (s'.pc u).holds = (s.pc u).holds ∧ (s'.pc u).idle = (s.pc u).idle ∧
        (s'.pc u).past = (s.pc u).past) → Change s t s'
  /-- A worker read `STOPPING`. -/
  | exit : s.word = 0 → (s.pc t).idle = true → Change s t (s.goto t .exited)
  /-- `lock` took the lock. -/
  | take {w : Nat} {p : Pc} : s.word % 2 = 0 → (w = clearState s.word + 1 ∨
      w = clearState s.word + 3) → (s.pc t).kind = ⟨false, false, false⟩ →
      p.kind = ⟨true, false, false⟩ → Change s t ({ s with word := w }.goto t p)
  /-- `lock` marked the lock as contended. -/
  | mark {p : Pc} : s.word % 4 = 1 → p.kind = (s.pc t).kind → (s.pc t).holds = false →
      Change s t ({ s with word := s.word + 2 }.goto t p)
  /-- An idle thread took the lock. -/
  | takeIdle {w : Nat} : s.word % 4 = 2 → w = takeIdle s.word →
      (s.pc t).kind = ⟨false, true, false⟩ →
      Change s t ({ s with word := w }.goto t (.held .runAll))
  /-- A critical section. -/
  | crit {s' : St n} {p : Pc} : (s.pc t).holds = true → s'.word = s.word →
      s'.stopping = s.stopping → s'.pc = Function.update s.pc t p → p.holds = true →
      Change s t s'
  | release {v : Nat} {wake : Bool} {b : Body} {p : Pc} : s.pc t = .unlockSwap v wake b →
      p.kind = ⟨false, false, false⟩ → Change s t ({ s with word := v }.goto t p)
  | releaseIdle {v : Nat} {p : Pc} : s.pc t = .idleSwap v → p.kind = ⟨false, true, false⟩ →
      Change s t ({ s with word := v }.goto t p)
  /-- `wait_main` returned `None`. -/
  | leave {v : Nat} : s.pc t = .mainExit v →
      Change s t ({ s with word := v - 4 }.goto t .outside)
  | stop : s.pc t = .outside →
      Change s t ({ s with word := 0, stopping := true }.goto t .stopWake)

theorem goto_kind {s : St n} {t : Fin n} {p : Pc} (h : p.kind = (s.pc t).kind) (u : Fin n) :
    ((s.goto t p).pc u).kind = (s.pc u).kind := by
  show (Function.update s.pc t p u).kind = _
  by_cases hu : u = t
  · subst hu; rw [Function.update_self, h]
  · rw [Function.update_of_ne hu]

theorem quiet_of_kind {s s' : St n} {t : Fin n} (hw : s'.word = s.word) (hs : s'.stack = s.stack)
    (hp : s'.stopping = s.stopping) (h : ∀ u, (s'.pc u).kind = (s.pc u).kind) : Change s t s' :=
  .quiet hw hs hp fun u =>
    ⟨congrArg Kind.holds (h u), congrArg Kind.idle (h u), congrArg Kind.past (h u)⟩

theorem quiet_goto {s : St n} {t : Fin n} {p : Pc} (h : p.kind = (s.pc t).kind) :
    Change s t (s.goto t p) :=
  quiet_of_kind rfl rfl rfl (goto_kind h)

/-- A read of the current word. -/
theorem change_read {s : St n} {t : Fin n} {p : Pc} (h : ReadTo s.word (s.pc t) p) :
    Change s t (s.goto t p) := by
  rcases h with h | ⟨hw, hi, rfl⟩
  · exact quiet_goto h
  · exact .exit hw hi

/-- A wake-up of `u`, followed by a move of `t`. -/
theorem wake_kind {s : St n} {t u : Fin n} {p : Pc} (h : p.kind = (s.pc t).kind) (x : Fin n) :
    (((s.goto u (s.pc u).wakened).goto t p).pc x).kind = (s.pc x).kind := by
  have hu := goto_kind (s := s) (t := u) (kind_of_mode (wakened_mode (s.pc u)))
  rw [goto_kind (s := s.goto u _) (h.trans (hu t).symm), hu]

theorem wakeAll_kind {s : St n} {t : Fin n} {p : Pc} {m : Nat} (h : p.kind = (s.pc t).kind)
    (x : Fin n) :
    (({ s with pc := fun u => wakeAllPc m (s.pc u) }.goto t p).pc x).kind = (s.pc x).kind := by
  rw [goto_kind (s := { s with pc := fun u => wakeAllPc m (s.pc u) })
    (h.trans (kind_of_mode (wakeAllPc_mode m _)).symm)]
  exact kind_of_mode (wakeAllPc_mode m _)

theorem Step.change {s s' : St n} {t : Fin n} (h : Step t s s') (hl : (s.pc t).Local n) :
    Change s t s' := by
  cases h with
  | load ha => exact change_read (load_kind ha _)
  | casFail ha => exact change_read ((cas_kind ha hl).1 _)
  | casOk ha hw =>
    subst hw
    obtain ⟨-, ⟨hk, ho, -, h0, h2⟩ | ⟨hk, ho, -, h1, hv⟩ | ⟨hk, ho, h2, hv⟩⟩ := cas_kind ha hl
    · exact .take h0 h2 hk ho
    · rw [hv, clearState_locked h1]
      exact .mark h1 ho (congrArg Kind.holds hk)
    · rw [ho]
      exact .takeIdle h2 hv hk
  | swap ha =>
    obtain ⟨wake, b, hp, hk⟩ | ⟨hp, hk⟩ := swap_kind ha
    · exact .release hp (hk _)
    · exact .releaseIdle hp (hk _)
  | store ha =>
    obtain ⟨v', hp, rfl, rfl⟩ := store_eq ha
    exact .leave hp
  | sleep ha _ => exact quiet_goto ((asleep_kind _ _).trans (kind_of_mode (wait_mode ha)))
  | noSleep ha => exact quiet_goto (kind_of_mode (wait_mode ha))
  | spurious hp => exact quiet_goto (by rw [hp]; rfl)
  | wakeSome ha _ => exact quiet_of_kind rfl rfl rfl (wake_kind (kind_of_mode (wakeOne_mode ha true)))
  | wakeNone ha _ => exact quiet_goto (kind_of_mode (wakeOne_mode ha false))
  | wakeAll ha =>
    obtain ⟨hp, rfl, rfl⟩ := wakeAll_eq ha
    exact quiet_of_kind rfl rfl rfl (wakeAll_kind (by rw [hp]; rfl))
  | enter hp => exact quiet_goto (by rw [hp]; rfl)
  | stop hp => exact .stop hp
  | submitOne hp => exact quiet_goto (by rw [hp]; rfl)
  | submitMulti hp => exact quiet_goto (by rw [hp]; rfl)
  | endScope hp => exact quiet_goto (by rw [hp]; rfl)
  | endClosure hp =>
    refine .quiet rfl rfl rfl fun u => ?_
    show (Function.update s.pc t _ u).holds = _ ∧ (Function.update s.pc t _ u).idle = _ ∧
      (Function.update s.pc t _ u).past = _
    by_cases hu : u = t
    · subst hu; rw [Function.update_self, hp]; exact ⟨rfl, rfl, rfl⟩
    · rw [Function.update_of_ne hu]; exact ⟨rfl, rfl, rfl⟩
  | pushOne hp => exact .crit (by rw [hp]; rfl) rfl rfl rfl rfl
  | pushMulti hp => exact .crit (by rw [hp]; rfl) rfl rfl rfl rfl
  | idle hp _ => exact .crit (by rw [hp]; rfl) rfl rfl rfl rfl
  | runSimple hp _ => exact .crit (by rw [hp]; rfl) rfl rfl rfl rfl
  | runMulti hp _ => exact .crit (by rw [hp]; rfl) rfl rfl rfl rfl
  | dropMulti hp _ => exact .crit (by rw [hp]; rfl) rfl rfl rfl rfl

/-- A step of `t` leaves another thread where it is, or wakes it up. -/
theorem Step.other {s s' : St n} {t u : Fin n} (h : Step t s s') (hu : u ≠ t) :
    s'.pc u = s.pc u ∨
      (s'.pc u = (s.pc u).wakened ∧ s'.word = s.word ∧ s'.stack = s.stack) := by
  have hne : ∀ (f : Fin n → Pc) (p : Pc), Function.update f t p u = f u :=
    fun f p => Function.update_of_ne hu _ _
  cases h with
  | @wakeSome _ _ m k x ha hx =>
    show Function.update (Function.update s.pc x _) t _ u = _ ∨
      (Function.update (Function.update s.pc x _) t _ u = _ ∧ _)
    rw [hne]
    by_cases hux : u = x
    · subst hux; rw [Function.update_self]; exact .inr ⟨rfl, rfl, rfl⟩
    · rw [Function.update_of_ne hux]; exact .inl rfl
  | @wakeAll _ _ m k ha =>
    show Function.update (fun x => wakeAllPc _ (s.pc x)) t _ u = _ ∨
      (Function.update (fun x => wakeAllPc _ (s.pc x)) t _ u = _ ∧ _)
    rw [hne]
    cases hp : s.pc u <;> try exact .inl rfl
    case asleep m' k' =>
      simp only [wakeAllPc]
      split
      · exact .inr ⟨rfl, rfl, rfl⟩
      · exact .inl rfl
  | _ => exact .inl (hne _ _)

/-! ## The invariant -/

/-- The invariant (module doc). -/
structure Inv (s : St n) : Prop where
  loc : ∀ t, (s.pc t).Local n
  view : ∀ t, (s.pc t).View n (t.val == 0) s.word s.stack
  main : ∀ t, (s.pc t).mainOnly = true → t.val = 0
  worker : ∀ t, (s.pc t).workerOnly = true → t.val ≠ 0
  lock : s.holders = s.word % 2
  idle : s.stopping = false → s.idlers = s.word / 4
  work : s.word % 2 = 0 → (s.word % 4 = 2 ↔ s.stack ≠ [])
  live : s.stopping = false → ∀ t, (s.pc t).past = false
  stop : s.stopping = true → s.word = 0 ∧ s.stack = [] ∧
    ∀ t, (s.pc t).past = true ∨ (s.pc t).idle = true ∧ t.val ≠ 0

theorem holds_of_idle {p : Pc} (h : p.idle = true) : p.holds = false := by
  induction p with
  | asleep m k ih => exact ih h
  | _ => first | rfl | cases h

theorem idle_of_holds {p : Pc} (h : p.holds = true) : p.idle = false := by
  induction p with
  | asleep m k ih => exact ih h
  | _ => first | rfl | cases h

theorem past_of_holds {p : Pc} (h : p.holds = true) : p.past = false := by
  induction p with
  | asleep m k ih => exact ih h
  | _ => first | rfl | cases h

theorem past_of_idle {p : Pc} (h : p.idle = true) : p.past = false := by
  induction p with
  | asleep m k ih => exact ih h
  | _ => first | rfl | cases h

section Counts

variable {s : St n} {t u : Fin n} {p : Pc}

theorem holders_goto : (s.goto t p).holders + (s.pc t).holds.toNat = s.holders + p.holds.toNat :=
  Lib.sum_update (fun p : Pc => p.holds.toNat) s.pc t p

theorem idlers_goto : (s.goto t p).idlers + (s.pc t).idle.toNat = s.idlers + p.idle.toNat :=
  Lib.sum_update (fun p : Pc => p.idle.toNat) s.pc t p

theorem idlers_add_busy : s.idlers + ∑ t, (!(s.pc t).idle).toNat = n := by
  unfold St.idlers
  rw [← Finset.sum_add_distrib]
  have : ∀ t, (s.pc t).idle.toNat + (!(s.pc t).idle).toNat = 1 := fun t => by
    cases (s.pc t).idle <;> rfl
  simp [this]

theorem idlers_le : s.idlers ≤ n := by
  have := idlers_add_busy (s := s)
  omega

theorem idle_of_all (h : s.idlers = n) (t : Fin n) : (s.pc t).idle = true := by
  have h1 := idlers_add_busy (s := s)
  have h2 := Lib.le_sum (fun p : Pc => (!p.idle).toNat) s.pc t
  cases hi : (s.pc t).idle with
  | true => rfl
  | false => simp only [hi, Bool.not_false, Bool.toNat_true] at h2; omega

/-- All but `u` are idle. -/
theorem idle_of_others (h : s.idlers = n - 1) (hu : (s.pc u).idle = false) (ht : t ≠ u) :
    (s.pc t).idle = true := by
  have h1 := idlers_add_busy (s := s)
  cases hi : (s.pc t).idle with
  | true => rfl
  | false =>
    have := Lib.two_le_sum (g := fun p : Pc => (!p.idle).toNat) (f := s.pc) ht (by simp [hi])
      (by simp [hu])
    omega

theorem Inv.odd (hi : Inv s) (h : (s.pc t).holds = true) : s.word % 2 = 1 := by
  have h1 := Lib.le_sum (fun p : Pc => p.holds.toNat) s.pc t
  have h2 : s.holders = ∑ i, (s.pc i).holds.toNat := rfl
  have h3 := hi.lock
  simp only [h, Bool.toNat_true] at h1
  omega

/-- At most one thread is between taking and releasing the lock. -/
theorem Inv.one (hi : Inv s) (ht : (s.pc t).holds = true) (hu : (s.pc u).holds = true) : t = u := by
  by_contra hne
  have h1 := Lib.two_le_sum (g := fun p : Pc => p.holds.toNat) (f := s.pc) hne (by simp [ht])
    (by simp [hu])
  have h2 : s.holders = ∑ i, (s.pc i).holds.toNat := rfl
  have h3 := hi.lock
  omega

theorem Inv.idle_pos (hi : Inv s) (hs : s.stopping = false) (h : (s.pc t).idle = true) :
    1 ≤ s.word / 4 := by
  have h1 := Lib.le_sum (fun p : Pc => p.idle.toNat) s.pc t
  have h2 : s.idlers = ∑ i, (s.pc i).idle.toNat := rfl
  have h3 := hi.idle hs
  simp only [h, Bool.toNat_true] at h1
  omega

/-- The word stays far below `2 ^ 32`. -/
theorem Inv.bound (hi : Inv s) (hn : n ≤ maxThreads) : s.word < 2 ^ 15 := by
  cases hs : s.stopping with
  | true => rw [(hi.stop hs).1]; decide
  | false =>
    have h1 := hi.idle hs
    have h2 := idlers_le (s := s)
    unfold maxThreads at hn
    omega

end Counts

end Qblaze.Futex
