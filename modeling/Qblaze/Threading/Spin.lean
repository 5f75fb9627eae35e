import Qblaze.Threading.Pool

/-!
# The thread pool over a spin lock (`src/threading/sync_impl.spin.rs`)

As for the futex, one 32-bit word has the state of the lock in its two low bits (`0` unlocked
without work, `1` locked, `2` unlocked with work) and the number of idle threads above them. A
thread that has to wait reads the word again and again. The model is the interleaving of the atomic
actions of `n` threads, with sequentially consistent memory:

* `Pc`: where a thread is, with the local variables that the code still reads; `act`: its atomic
  action. A `compare_exchange_weak` may fail for no reason.
* `Encodes`: what the word says of the abstract pool (`Qblaze/Threading/Pool.lean`). `Inv` adds what
  the threads know of the word.
* `spin_refines`: the pool over the spin lock refines the abstract pool.
* `spin_safe`: the word is right in every reachable state, no `debug_assert!` fails, and a scope
  ends when everything in it has run exactly once.
-/

namespace Qblaze.Spin

open Futex (Body Cont Task clearState takeIdle takeIdle_eq maxThreads)
open Pool (Ask Mode Store Work goto_self goto_of_ne perform perform_work)

/-! ## Threads -/

/-- Where a thread is. -/
inductive Pc where
  -- `src/threading.rs`
  | outside
  | body (b : Body)
  | held (k : Cont)
  -- `lock`
  | lockLoad (k : Cont)
  | lockCas (k : Cont) (v : Nat)
  -- `unlock`, which returns to `b`
  | unlockLoad (nonempty : Bool) (b : Body)
  | unlockStore (v2 : Nat) (b : Body)
  -- `start_work`
  | startLoad
  | startCas (v : Nat)
  -- `unlock_idle`
  | idleLoad
  | idleStore (v : Nat)
  -- `wait_work`
  | workLoad
  | workCas (v : Nat)
  -- `wait_main`
  | mainLoad
  | mainCas (v : Nat)
  | mainExit (v : Nat)
  -- behind `stop`, or `State::work`
  | stopped
  | exited
  deriving DecidableEq

/-- An atomic action, with the code after it. -/
inductive Act where
  | load (k : Nat → Pc)
  | cas (v v2 : Nat) (ok : Pc) (fail : Nat → Pc)
  | store (v : Nat) (k : Pc)
  /-- User code, a critical section, or ended. -/
  | none

/-- `unlock`: `v ^ STATE_LOCKED`, and `^ STATE_WORK` if the stack is not empty. -/
def unlockWord (v : Nat) (nonempty : Bool) : Nat :=
  if nonempty then v ^^^ 1 ^^^ 2 else v ^^^ 1

/-- `unlock_idle`: `v - STATE_LOCKED + IDLE_1`, in 32 bits. -/
@[irreducible] def idleWord (v : Nat) : Nat := (v + 2 ^ 32 - 1 + 4) % 2 ^ 32

/-- `lock`, after a read of the word. -/
def lockNext (k : Cont) (v : Nat) : Pc := if v % 2 = 0 then .lockCas k v else .lockLoad k

/-- `start_work`, after a read of the word. -/
def startNext (v : Nat) : Pc :=
  if v / 2 % 2 = 1 then .startCas v else if v = 0 then .exited else .startLoad

/-- `wait_work`, after a read of the word. -/
def workNext (v : Nat) : Pc :=
  if v / 2 % 2 = 1 then .workCas v else if v = 0 then .exited else .workLoad

/-- `wait_main`, at the head of its loop. -/
def mainHead (n v : Nat) : Pc := if v = n * 4 then .mainExit v else .mainLoad

/-- `wait_main`, after a read of the word. -/
def mainNext (n v : Nat) : Pc := if v / 2 % 2 = 1 then .mainCas v else mainHead n v

/-- The atomic action at a `Pc`. -/
def act (n : Nat) (main : Bool) : Pc → Act
  | .lockLoad k => .load (lockNext k)
  | .lockCas k v => .cas v (clearState v + 1) (.held k) (lockNext k)
  | .unlockLoad nonempty b => .load fun v => .unlockStore (unlockWord v nonempty) b
  | .unlockStore v2 b => .store v2 (.body b)
  | .startLoad => .load startNext
  | .startCas v => .cas v (takeIdle v) (.held .runAll) startNext
  | .idleLoad => .load fun v => .idleStore (idleWord v)
  | .idleStore v => .store v (if main then mainHead n v else .workLoad)
  | .workLoad => .load workNext
  | .workCas v => .cas v (takeIdle v) (.held .runAll) workNext
  | .mainLoad => .load (mainNext n)
  | .mainCas v => .cas v (takeIdle v) (.held .runAll) (mainNext n)
  | .mainExit v => .store (v - 4) .outside
  | .outside | .body _ | .held _ | .stopped | .exited => .none

/-! ## The pool -/

/-- What the thread does in the abstract pool. -/
def Pc.mode : Pc → Mode
  | .outside => .outside
  | .body b => .body b
  | .lockLoad k | .lockCas k _ => .want k
  | .held k => .held k
  | .unlockLoad _ b | .unlockStore _ b => .release b
  | .idleLoad | .idleStore _ => .resting
  | .startLoad | .startCas _ | .workLoad | .workCas _ | .mainLoad | .mainCas _ | .mainExit _ => .idle
  | .stopped | .exited => .ended

/-- `src/threading.rs` goes on with mode `m`: the call of a function of the lock. `Lock::submit`
calls `unlock` with `true`, and the stack has the task; the drop of a `Lock` looks at the stack. -/
def call (σ : Store) : Mode → Pc
  | .outside => .outside
  | .body b => .body b
  | .want k => .lockLoad k
  | .held k => .held k
  | .release b => .unlockLoad (!σ.stack.isEmpty) b
  | .resting => .idleLoad
  | .idle => .startLoad
  | .ended => .exited

/-- The pool of `n` threads; thread `0` is the main thread. -/
structure St (n : Nat) where
  word : Nat
  pc : Fin n → Pc
  store : Store

variable {n : Nat}

/-- `s` with thread `t` at `p`. -/
def St.goto (s : St n) (t : Fin n) (p : Pc) : St n := { s with pc := Function.update s.pc t p }

/-- The atomic steps of thread `t`. -/
inductive Step : Fin n → St n → St n → Prop
  | load {s : St n} {t k} : act n (t.val == 0) (s.pc t) = .load k → Step t s (s.goto t (k s.word))
  | casOk {s : St n} {t v v2 ok fail} : act n (t.val == 0) (s.pc t) = .cas v v2 ok fail →
      s.word = v → Step t s ({ s with word := v2 }.goto t ok)
  | casFail {s : St n} {t v v2 ok fail} : act n (t.val == 0) (s.pc t) = .cas v v2 ok fail →
      Step t s (s.goto t (fail s.word))
  | store {s : St n} {t v k} : act n (t.val == 0) (s.pc t) = .store v k →
      Step t s ({ s with word := v }.goto t k)
  /-- The main thread drops the pool: `stop`. -/
  | stop {s : St n} {t} : s.pc t = .outside → Step t s ({ s with word := 0 }.goto t .stopped)
  /-- `src/threading.rs`: user code and critical sections. -/
  | work {s : St n} {t m σ} : Work (s.pc t).mode s.store m σ →
      Step t s ({ s with store := σ }.goto t (call σ m))

/-- `Pool::new` -/
def St.Init (s : St n) : Prop :=
  s.word = (n - 1) * 4 ∧ (∀ t : Fin n, s.pc t = if t.val = 0 then .outside else .startLoad) ∧
    s.store = Store.new

/-- The pool as a system. -/
def pool (n : Nat) : Lib.System (St n) (Fin n) := ⟨St.Init, Step⟩

/-- The abstract pool that a state stands for. -/
def St.abs (s : St n) : Pool.St n := ⟨fun t => (s.pc t).mode, s.store⟩

/-! ## What the word says -/

/-- The word of the abstract pool `a`. -/
structure Encodes (a : Pool.St n) (w : Nat) : Prop where
  idle : a.Open → w / 4 = a.idlers
  lock : ∀ u, (a.mode u).holds = true → w % 4 = 1
  free : a.Open → a.Free → w % 4 = if a.store.stack = [] then 0 else 2
  closed : ¬ a.Open → w = 0

/-- What the code relies on of its local variables, of the word `w` and of the stack. -/
def Pc.Local (n : Nat) (main : Bool) (w : Nat) (stk : List Task) : Pc → Prop
  | .lockCas _ v => v % 2 = 0
  | .startLoad | .workLoad | .exited => main = false
  | .startCas v | .workCas v => main = false ∧ v / 2 % 2 = 1
  | .unlockLoad nonempty _ => nonempty = !stk.isEmpty
  | .unlockStore v2 _ => v2 = w - 1 + if stk = [] then 0 else 2
  | .idleStore v => v = w - 1 + 4
  | .mainLoad => main = true
  | .mainCas v => main = true ∧ v / 2 % 2 = 1
  | .mainExit v => main = true ∧ v = n * 4 ∧ w = n * 4
  | .stopped => main = true
  | _ => True

/-- The invariant. -/
structure Inv (s : St n) : Prop where
  word : Encodes s.abs s.word
  loc : ∀ t, (s.pc t).Local n (t.val == 0) s.word s.store.stack

/-! ## What one action does to a thread -/

section Act

variable {main : Bool} {p ok k' : Pc} {k fail : Nat → Pc} {v v2 w : Nat} {stk : List Task}

/-- A read of the word: the thread does what it did before, or it is idle, read `STOPPING` and
exits. -/
def ReadTo (w : Nat) (p p' : Pc) : Prop :=
  p'.mode = p.mode ∨ w = 0 ∧ p.mode = .idle ∧ p' = .exited

theorem xor_low {v k : Nat} (hk : k < 2 ^ 2) : v ^^^ k = v / 4 * 4 + (v % 4 ^^^ k) := by
  have h := Nat.div_add_mod' (v ^^^ k) (2 ^ 2)
  rw [Nat.xor_mod_two_pow, Nat.xor_div_two_pow, Nat.mod_eq_of_lt hk, Nat.div_eq_of_lt hk,
    Nat.xor_zero] at h
  exact h.symm

theorem unlockWord_eq (h : v % 4 = 1) (nonempty : Bool) :
    unlockWord v nonempty = v - 1 + if nonempty then 2 else 0 := by
  have h1 : v ^^^ 1 = v - 1 := by
    rw [xor_low (by decide), h]
    show v / 4 * 4 + 0 = v - 1
    omega
  unfold unlockWord
  split
  · rw [h1, xor_low (by decide), show (v - 1) % 4 = 0 by omega]
    show (v - 1) / 4 * 4 + 2 = v - 1 + 2
    omega
  · exact h1

theorem lockNext_spec {c : Cont} (hp : p.mode = .want c) :
    ReadTo w p (lockNext c w) ∧ (lockNext c w).Local n main w stk := by
  unfold lockNext
  split
  · exact ⟨.inl hp.symm, ‹_›⟩
  · exact ⟨.inl hp.symm, trivial⟩

theorem startNext_spec (hp : p.mode = .idle) (hm : main = false) :
    ReadTo w p (startNext w) ∧ (startNext w).Local n main w stk := by
  unfold startNext
  split
  · exact ⟨.inl hp.symm, hm, ‹_›⟩
  · split
    · exact ⟨.inr ⟨‹_›, hp, rfl⟩, hm⟩
    · exact ⟨.inl hp.symm, hm⟩

theorem workNext_spec (hp : p.mode = .idle) (hm : main = false) :
    ReadTo w p (workNext w) ∧ (workNext w).Local n main w stk := by
  unfold workNext
  split
  · exact ⟨.inl hp.symm, hm, ‹_›⟩
  · split
    · exact ⟨.inr ⟨‹_›, hp, rfl⟩, hm⟩
    · exact ⟨.inl hp.symm, hm⟩

theorem mainHead_mode (n w : Nat) : (mainHead n w).mode = .idle := by
  unfold mainHead
  split <;> rfl

theorem mainHead_local (hm : main = true) : (mainHead n w).Local n main w stk := by
  unfold mainHead
  split
  · exact ⟨hm, ‹_›, ‹_›⟩
  · exact hm

theorem mainNext_spec (hp : p.mode = .idle) (hm : main = true) :
    ReadTo w p (mainNext n w) ∧ (mainNext n w).Local n main w stk := by
  unfold mainNext
  split
  · exact ⟨.inl hp.symm, hm, ‹_›⟩
  · exact ⟨.inl ((mainHead_mode n w).trans hp.symm), mainHead_local hm⟩

/-- A load. The holder of the lock reads a locked word. -/
theorem load_spec (h : act n main p = .load k) (hl : p.Local n main w stk)
    (hw : p.mode.holds = true → w % 4 = 1) (hb : w < 2 ^ 15) :
    ReadTo w p (k w) ∧ (k w).Local n main w stk := by
  cases p <;> simp only [act, Act.load.injEq, reduceCtorEq] at h <;> subst h
  case lockLoad c => exact lockNext_spec rfl
  case unlockLoad nonempty b =>
    refine ⟨.inl rfl, ?_⟩
    show unlockWord w nonempty = _
    rw [unlockWord_eq (hw rfl), show nonempty = !stk.isEmpty from hl]
    cases stk <;> rfl
  case startLoad => exact startNext_spec rfl hl
  case idleLoad =>
    refine ⟨.inl rfl, ?_⟩
    have h1 := hw rfl
    show idleWord w = w - 1 + 4
    unfold idleWord
    omega
  case workLoad => exact workNext_spec rfl hl
  case mainLoad => exact mainNext_spec rfl hl

theorem casFail_spec (h : act n main p = .cas v v2 ok fail) (hl : p.Local n main w stk) :
    ReadTo w p (fail w) ∧ (fail w).Local n main w stk := by
  cases p <;> simp only [act, Act.cas.injEq, reduceCtorEq] at h <;> obtain ⟨-, -, -, rfl⟩ := h
  case lockCas c v => exact lockNext_spec rfl
  case startCas v => exact startNext_spec rfl hl.1
  case workCas v => exact workNext_spec rfl hl.1
  case mainCas v => exact mainNext_spec rfl hl.1

/-- A compare-exchange takes the lock: in `lock`, or as an idle thread. -/
theorem casOk_spec (h : act n main p = .cas v v2 ok fail) (hl : p.Local n main w stk) :
    (∃ c, p.mode = .want c ∧ ok = .held c ∧ v % 2 = 0 ∧ v2 = clearState v + 1) ∨
    p.mode = .idle ∧ ok = .held .runAll ∧ v / 2 % 2 = 1 ∧ v2 = takeIdle v := by
  cases p <;> simp only [act, Act.cas.injEq, reduceCtorEq] at h <;> obtain ⟨rfl, rfl, rfl, -⟩ := h
  case lockCas c v => exact .inl ⟨c, rfl, rfl, hl, rfl⟩
  case startCas v => exact .inr ⟨rfl, rfl, hl.2, rfl⟩
  case workCas v => exact .inr ⟨rfl, rfl, hl.2, rfl⟩
  case mainCas v => exact .inr ⟨rfl, rfl, hl.2, rfl⟩

/-- A store gives the lock away, or leaves the scope. -/
theorem store_spec (h : act n main p = .store v k') :
    (∃ b, p = .unlockStore v b ∧ k' = .body b) ∨
    (p = .idleStore v ∧ k' = if main then mainHead n v else .workLoad) ∨
    ∃ v', p = .mainExit v' ∧ v = v' - 4 ∧ k' = .outside := by
  cases p <;> simp only [act, Act.store.injEq, reduceCtorEq] at h <;> obtain ⟨rfl, rfl⟩ := h
  case unlockStore b => exact .inl ⟨b, rfl, rfl⟩
  case idleStore => exact .inr (.inl ⟨rfl, rfl⟩)
  case mainExit v => exact .inr (.inr ⟨v, rfl, rfl, rfl⟩)

end Act

/-! ## The word of the abstract pool -/

section Encodes

variable {a : Pool.St n} {t : Fin n} {w v : Nat} {m : Mode} {σ : Store}

theorem Encodes.free_of (h : Encodes a w) (hw : w % 4 ≠ 1) : a.Free := by
  intro u
  by_contra hc
  exact hw (h.lock u (by simpa using hc))

theorem Encodes.bound (h : Encodes a w) (hn : n ≤ maxThreads) : w < 2 ^ 15 := by
  by_cases ho : a.Open
  · have h1 := h.idle ho
    have h2 := Pool.idlers_le a
    unfold maxThreads at hn
    omega
  · rw [h.closed ho]
    decide

/-- The lock is taken: a thread goes to a mode with the lock, and the word is locked. -/
theorem Encodes.locked (ho : a.Open) (ht : a.mode t ≠ .ended) (hm : m.holds = true) (hw : w % 4 = 1)
    (hidle : w / 4 = (a.goto t m).idlers) : Encodes (a.goto t m) w := by
  have hne : m ≠ .ended := by
    rintro rfl
    cases hm
  exact ⟨fun _ => hidle, fun _ _ => hw, fun _ hf => absurd hf (Pool.not_free_goto hm),
    fun h => absurd ((Pool.open_goto ht hne).mpr ho) h⟩

/-- The lock is not taken any more, or was not: nobody has it. -/
theorem Encodes.unlocked (ho : a.Open) (hf : a.Free)
    (hw : w % 4 = if a.store.stack = [] then 0 else 2) (hidle : w / 4 = a.idlers) : Encodes a w :=
  ⟨fun _ => hidle, fun u hu => absurd ((hf u).symm.trans hu) nofun, fun _ _ => hw,
    fun h => absurd ho h⟩

theorem Encodes.work (h : Encodes a w) (hi : Pool.Inv a) (hw : Work (a.mode t) a.store m σ) :
    Encodes ({ a with store := σ }.goto t m) w := by
  obtain ⟨h1, h2, h3, h4, -, hh, hs, -⟩ := hw.shape
  have ho : a.Open := hi.open_of h1 h2
  have hhold := Pool.holds_goto (s := a) hh
  refine ⟨fun _ => (h.idle ho).trans (Pool.idlers_goto_of_ne h1 h3).symm,
    fun u hu => h.lock u ((hhold u).symm.trans hu), fun _ hf => ?_,
    fun hn => absurd ((Pool.open_goto (s := a) h2 h4).mpr ho) hn⟩
  have hfree : a.Free := (Pool.free_congr hhold).mp hf
  obtain hs | ht := hs
  · show w % 4 = if σ.stack = [] then 0 else 2
    rw [hs]
    exact h.free ho hfree
  · exact absurd ((hfree t).symm.trans ht) nofun

theorem Encodes.acquire (h : Encodes a w) (hi : Pool.Inv a) {k : Cont} (hm : a.mode t = .want k) :
    Encodes (a.goto t (.held k)) (clearState w + 1) := by
  have hne : a.mode t ≠ .idle ∧ a.mode t ≠ .ended := by rw [hm]; exact ⟨nofun, nofun⟩
  have ho := hi.open_of hne.1 hne.2
  have hidle := h.idle ho
  refine .locked ho hne.2 rfl ?_ ?_
  · unfold clearState
    omega
  · rw [Pool.idlers_goto_of_ne (m := .held k) hne.1 nofun]
    unfold clearState
    omega

theorem Encodes.take (h : Encodes a w) (hn : n ≤ maxThreads) (hm : a.mode t = .idle)
    (hw : w / 2 % 2 = 1) : Encodes (a.goto t (.held .runAll)) (takeIdle w) := by
  have ho : a.Open := by
    by_contra hc
    rw [h.closed hc] at hw
    cases hw
  have hfree := h.free ho (h.free_of (by omega))
  have h2 : w % 4 = 2 := by split at hfree <;> omega
  have hidle := h.idle ho
  have hpos := Pool.idlers_pos hm
  have hgo := Pool.idlers_goto a t (.held .runAll)
  rw [hm, Pool.idles_of_ne (m := .held .runAll) nofun, show Mode.idle.idles = 1 from rfl] at hgo
  rw [takeIdle_eq h2 (by omega) (h.bound hn)]
  exact .locked ho (by rw [hm]; nofun) rfl (by omega) (by omega)

theorem Encodes.release (h : Encodes a w) (hi : Pool.Inv a) {b : Body} (hm : a.mode t = .release b)
    (hv : v = w - 1 + if a.store.stack = [] then 0 else 2) : Encodes (a.goto t (.body b)) v := by
  have hne : a.mode t ≠ .idle ∧ a.mode t ≠ .ended := by rw [hm]; exact ⟨nofun, nofun⟩
  have hh : (a.mode t).holds = true := by rw [hm]; rfl
  have ho := hi.open_of hne.1 hne.2
  have hw := h.lock t hh
  have hidle := h.idle ho
  refine .unlocked ((Pool.open_goto (m := .body b) hne.2 nofun).mpr ho)
    (Pool.free_of_holds hh rfl hi.one) ?_ ?_
  · show v % 4 = if a.store.stack = [] then 0 else 2
    split at hv
    · rw [if_pos ‹_›]
      omega
    · rw [if_neg ‹_›]
      omega
  · rw [Pool.idlers_goto_of_ne (m := .body b) hne.1 nofun]
    split at hv <;> omega

theorem Encodes.rest (h : Encodes a w) (hi : Pool.Inv a) (hm : a.mode t = .resting)
    (hv : v = w - 1 + 4) : Encodes (a.goto t .idle) v := by
  have hne : a.mode t ≠ .idle ∧ a.mode t ≠ .ended := by rw [hm]; exact ⟨nofun, nofun⟩
  have hh : (a.mode t).holds = true := by rw [hm]; rfl
  have ho := hi.open_of hne.1 hne.2
  have hw := h.lock t hh
  have hidle := h.idle ho
  have hgo := Pool.idlers_goto a t .idle
  rw [Pool.idles_of_ne hne.1, show Mode.idle.idles = 1 from rfl] at hgo
  refine .unlocked ((Pool.open_goto (m := .idle) hne.2 nofun).mpr ho)
    (Pool.free_of_holds hh rfl hi.one) ?_ (by omega)
  show v % 4 = if a.store.stack = [] then 0 else 2
  rw [if_pos (hi.rest t hm)]
  omega

/-- The word `n << IDLE_SHIFT`: all threads are idle. -/
theorem Encodes.all_idle (h : Encodes a w) (t : Fin n) (hw : w = n * 4) :
    ∀ u, a.mode u = .idle := by
  have hn : 0 < n := Fin.pos t
  have ho : a.Open := by
    by_contra hc
    have := h.closed hc
    omega
  rw [← Pool.idlers_eq_iff]
  have := h.idle ho
  omega

theorem Encodes.leave (h : Encodes a w) (hi : Pool.Inv a) (hm : a.mode t = .idle) (hw : w = n * 4) :
    Encodes (a.goto t .outside) (n * 4 - 4) := by
  have hall := h.all_idle t hw
  have ho : a.Open := fun u _ => by rw [hall u]; nofun
  have hgo := Pool.idlers_goto a t .outside
  rw [hm, Pool.idles_of_ne (m := .outside) nofun, show Mode.idle.idles = 1 from rfl,
    (Pool.idlers_eq_iff a).mpr hall] at hgo
  refine .unlocked ((Pool.open_goto (m := .outside) (by rw [hm]; nofun) nofun).mpr ho) ?_ ?_ (by omega)
  · exact Pool.goto_cases (P := fun _ m => m.holds = false) rfl fun u _ => by rw [hall u]; rfl
  · show (n * 4 - 4) % 4 = if a.store.stack = [] then 0 else 2
    rw [if_pos (hi.done_of_idle hall).1]
    omega

theorem Encodes.stop (hi : Pool.Inv a) (hm : a.mode t = .outside) : Encodes (a.goto t .ended) 0 := by
  have h0 := hi.main t hm
  have hno : ¬ (a.goto t .ended).Open := fun h => h t h0 (goto_self ..)
  refine ⟨fun h => absurd h hno, ?_, fun h => absurd h hno, fun _ => rfl⟩
  refine Pool.goto_cases (P := fun _ m => m.holds = true → 0 % 4 = 1) nofun fun u hu hh => ?_
  obtain h | ⟨h, -⟩ := (hi.quiet t h0 (.inl hm)).2 u hu
  · rw [h] at hh
    cases hh
  · rw [hm] at h
    cases h

theorem Encodes.exit (h : Encodes a w) (hm : a.mode t = .idle) (hw : w = 0) :
    ¬ a.Open ∧ Encodes (a.goto t .ended) w := by
  have hno : ¬ a.Open := by
    intro ho
    have h1 := h.idle ho
    have h2 := Pool.idlers_pos hm
    omega
  have hno' : ¬ (a.goto t .ended).Open := by
    intro h
    refine hno fun u hu => ?_
    by_cases hut : u = t
    · rw [hut, hm]
      nofun
    · rw [← goto_of_ne a .ended hut]
      exact h u hu
  refine ⟨hno, fun h => absurd h hno', ?_, fun h => absurd h hno', fun _ => hw⟩
  exact Pool.goto_cases (P := fun _ m => m.holds = true → w % 4 = 1) nofun fun u _ => h.lock u

end Encodes

/-! ## What a step changes -/

variable {s s' : St n} {t u : Fin n}

/-- A step of thread `t`, with what it means for the abstract pool. -/
inductive Move (s : St n) (t : Fin n) : St n → Prop
  /-- A read of the word, or a failed compare-exchange. -/
  | quiet {p : Pc} : p.mode = (s.pc t).mode → Move s t (s.goto t p)
  /-- An idle thread read `STOPPING`. -/
  | exit : s.word = 0 → (s.pc t).mode = .idle → Move s t (s.goto t .exited)
  | acquire {k : Cont} : (s.pc t).mode = .want k → s.word % 2 = 0 →
      Move s t ({ s with word := clearState s.word + 1 }.goto t (.held k))
  | take : (s.pc t).mode = .idle → s.word / 2 % 2 = 1 →
      Move s t ({ s with word := takeIdle s.word }.goto t (.held .runAll))
  | release {v : Nat} {b : Body} : s.pc t = .unlockStore v b →
      Move s t ({ s with word := v }.goto t (.body b))
  | rest {v : Nat} {p : Pc} : s.pc t = .idleStore v → p.mode = .idle →
      Move s t ({ s with word := v }.goto t p)
  | leave {v : Nat} : s.pc t = .mainExit v → Move s t ({ s with word := v - 4 }.goto t .outside)
  | stop : s.pc t = .outside → Move s t ({ s with word := 0 }.goto t .stopped)
  | work {m : Mode} {σ : Store} : Work (s.pc t).mode s.store m σ →
      Move s t ({ s with store := σ }.goto t (call σ m))

theorem abs_goto (s : St n) (t : Fin n) (p : Pc) : (s.goto t p).abs = s.abs.goto t p.mode :=
  Pool.goto_of_place Pc.mode s.pc s.store t p

/-- The abstract pool does not see the word. -/
theorem abs_word (s : St n) (w : Nat) : ({ s with word := w } : St n).abs = s.abs := rfl

theorem call_mode (σ : Store) (m : Mode) : (call σ m).mode = m := by
  cases m <;> rfl

/-- The word as thread `t` sees it: locked, if the thread has the lock. -/
theorem Inv.locked (hi : Inv s) (h : (s.pc t).mode.holds = true) : s.word % 4 = 1 :=
  hi.word.lock t h

theorem Step.move (hn : n ≤ maxThreads) (hi : Inv s) (h : Step t s s') : Move s t s' := by
  have hread : ∀ p, ReadTo s.word (s.pc t) p → Move s t (s.goto t p) := by
    rintro p (hp | ⟨hw, hp, rfl⟩)
    · exact .quiet hp
    · exact .exit hw hp
  cases h with
  | load ha => exact hread _ (load_spec ha (hi.loc t) hi.locked (hi.word.bound hn)).1
  | casFail ha => exact hread _ (casFail_spec ha (hi.loc t)).1
  | casOk ha hw =>
    subst hw
    obtain ⟨k, hp, rfl, hv, rfl⟩ | ⟨hp, rfl, hv, rfl⟩ := casOk_spec ha (hi.loc t)
    · exact .acquire hp hv
    · exact .take hp hv
  | store ha =>
    obtain ⟨b, hp, rfl⟩ | ⟨hp, rfl⟩ | ⟨v', hp, rfl, rfl⟩ := store_spec ha
    · exact .release hp
    · refine .rest hp ?_
      split
      · exact mainHead_mode n _
      · rfl
    · exact .leave hp
  | stop hp => exact .stop hp
  | work hw => exact .work hw

/-- A step is a step of the abstract pool, or none of its business. -/
theorem Move.matches (hi : Inv s) (h : Move s t s') :
    s'.abs = s.abs ∨ Pool.Step t s.abs s'.abs := by
  cases h with
  | quiet hp =>
    rw [abs_goto, hp]
    exact .inl (Pool.goto_mode_self s.abs t)
  | exit hw hp =>
    rw [abs_goto]
    obtain ⟨hno, -⟩ := hi.word.exit hp hw
    unfold Pool.St.Open at hno
    push Not at hno
    obtain ⟨u, hu, he⟩ := hno
    exact .inr (.exit hp hu he)
  | acquire hp hw =>
    rw [abs_goto, abs_word]
    exact .inr (.acquire hp (hi.word.free_of (by omega)))
  | take hp hw =>
    rw [abs_goto, abs_word]
    have hfree := hi.word.free_of (by omega)
    have ho : s.abs.Open := by
      by_contra hc
      rw [hi.word.closed hc] at hw
      cases hw
    refine .inr (.take hp hfree fun hs => ?_)
    have := hi.word.free ho hfree
    rw [if_pos hs] at this
    omega
  | @release v b hp =>
    rw [abs_goto, abs_word]
    exact .inr (.release (show (s.pc t).mode = .release b by rw [hp]; rfl))
  | rest hp hm =>
    rw [abs_goto, abs_word, hm]
    exact .inr (.rest (show (s.pc t).mode = .resting by rw [hp]; rfl))
  | @leave v hp =>
    rw [abs_goto, abs_word]
    have hl := hi.loc t
    rw [hp] at hl
    exact .inr (.leave (hi.word.all_idle t hl.2.2) (by simpa using hl.1))
  | stop hp =>
    rw [abs_goto, abs_word]
    exact .inr (.stop (show (s.pc t).mode = .outside by rw [hp]; rfl))
  | work hw =>
    rw [abs_goto, call_mode]
    exact .inr (.work hw)

/-- The word stays right. -/
theorem Move.encodes (hn : n ≤ maxThreads) (hi : Inv s) (ha : Pool.Inv s.abs) (h : Move s t s') :
    Encodes s'.abs s'.word := by
  have hl := hi.loc t
  cases h with
  | quiet hp =>
    rw [abs_goto, hp, show s.abs.goto t (s.pc t).mode = s.abs from Pool.goto_mode_self s.abs t]
    exact hi.word
  | exit hw hp =>
    rw [abs_goto]
    exact (hi.word.exit hp hw).2
  | acquire hp _ =>
    rw [abs_goto, abs_word]
    exact hi.word.acquire ha hp
  | take hp hw =>
    rw [abs_goto, abs_word]
    exact hi.word.take hn hp hw
  | @release v b hp =>
    rw [hp] at hl
    rw [abs_goto, abs_word]
    exact hi.word.release ha (show (s.pc t).mode = .release b by rw [hp]; rfl) hl
  | rest hp hm =>
    rw [hp] at hl
    rw [abs_goto, abs_word, hm]
    exact hi.word.rest ha (show (s.pc t).mode = .resting by rw [hp]; rfl) hl
  | @leave v hp =>
    rw [hp] at hl
    obtain ⟨-, rfl, hw⟩ := hl
    rw [abs_goto, abs_word]
    exact hi.word.leave ha (show (s.pc t).mode = .idle by rw [hp]; rfl) hw
  | stop hp =>
    rw [abs_goto, abs_word]
    exact Encodes.stop ha (show (s.pc t).mode = .outside by rw [hp]; rfl)
  | work hw =>
    rw [abs_goto, call_mode]
    exact hi.word.work ha hw

/-! ## What the threads know -/

/-- The holder of the lock knows the word and the stack: no other thread changes them. -/
theorem Move.other_holds (hi : Inv s) (ha : Pool.Inv s.abs) (h : Move s t s') (hu : u ≠ t)
    (hh : (s.pc u).mode.holds = true) : s'.word = s.word ∧ s'.store.stack = s.store.stack := by
  have hw := hi.locked hh
  have hfree : (s.pc t).mode.holds ≠ true := fun hc => hu (ha.one u t hh hc)
  cases h with
  | quiet _ | exit _ _ => exact ⟨rfl, rfl⟩
  | acquire _ _ => omega
  | take _ _ => omega
  | release hp | rest hp _ =>
    rw [hp] at hfree
    exact absurd rfl hfree
  | leave hp =>
    have hl := hi.loc t
    rw [hp] at hl
    obtain ⟨-, -, hw'⟩ := hl
    omega
  | stop hp =>
    have hm : s.abs.mode t = .outside := by
      show (s.pc t).mode = _
      rw [hp]
      rfl
    obtain hx | ⟨hx, -⟩ := (ha.quiet t (ha.main t hm) (.inl hm)).2 u hu
    · rw [show (s.pc u).mode = .idle from hx] at hh
      cases hh
    · rw [hm] at hx
      cases hx
  | work hw =>
    obtain ⟨-, -, -, -, -, -, hs | hc, -⟩ := hw.shape
    · exact ⟨rfl, hs⟩
    · exact absurd hc hfree

/-- The main thread has seen that all threads are idle: no other thread changes the word. -/
theorem Move.other_idle (hi : Inv s) (h : Move s t s') (hu : u ≠ t) (h0 : u.val = 0)
    (hw : s.word = n * 4) : s'.word = s.word := by
  have hm : (s.pc t).mode = .idle := hi.word.all_idle t hw t
  cases h with
  | quiet _ | exit _ _ | work _ => rfl
  | acquire hp _ =>
    rw [hm] at hp
    cases hp
  | take _ _ => omega
  | release hp | rest hp _ | stop hp =>
    rw [hp] at hm
    cases hm
  | leave hp =>
    have hl := hi.loc t
    rw [hp] at hl
    exact absurd (Fin.ext (h0.trans (beq_iff_eq.mp hl.1).symm)) hu

/-- What another thread knows stays true. -/
theorem Move.other_local (hi : Inv s) (ha : Pool.Inv s.abs) (h : Move s t s') (hu : u ≠ t) :
    (s.pc u).Local n (u.val == 0) s'.word s'.store.stack := by
  have hl := hi.loc u
  have hhold := h.other_holds hi ha hu
  have hidle := h.other_idle hi hu
  cases hp : s.pc u <;> rw [hp] at hl hhold <;> try exact hl
  case unlockLoad nonempty b =>
    obtain ⟨-, hs⟩ := hhold rfl
    show nonempty = _
    rw [hs]
    exact hl
  case unlockStore v b =>
    obtain ⟨hw, hs⟩ := hhold rfl
    show v = _
    rw [hw, hs]
    exact hl
  case idleStore v =>
    obtain ⟨hw, -⟩ := hhold rfl
    show v = _
    rw [hw]
    exact hl
  case mainExit v =>
    obtain ⟨h0, hv, hw⟩ := hl
    exact ⟨h0, hv, (hidle (by simpa using h0) hw).trans hw⟩

/-- What the thread knows after its own step. -/
theorem self_local (hn : n ≤ maxThreads) (hi : Inv s) (ha : Pool.Inv s.abs) (h : Step t s s') :
    (s'.pc t).Local n (t.val == 0) s'.word s'.store.stack := by
  have hgo : ∀ (r : St n) p, p.Local n (t.val == 0) r.word r.store.stack →
      ((r.goto t p).pc t).Local n (t.val == 0) (r.goto t p).word (r.goto t p).store.stack := by
    intro r p hp
    unfold St.goto
    simp only [Function.update_self]
    exact hp
  cases h with
  | load hk => exact hgo _ _ (load_spec hk (hi.loc t) hi.locked (hi.word.bound hn)).2
  | casFail hk => exact hgo _ _ (casFail_spec hk (hi.loc t)).2
  | casOk hk _ =>
    obtain ⟨k, -, rfl, -, -⟩ | ⟨-, rfl, -, -⟩ := casOk_spec hk (hi.loc t) <;>
      exact hgo _ _ trivial
  | store hk =>
    obtain ⟨b, -, rfl⟩ | ⟨-, rfl⟩ | ⟨v', -, -, rfl⟩ := store_spec hk
    · exact hgo _ _ trivial
    · refine hgo _ _ ?_
      split
      · exact mainHead_local ‹_›
      · exact Bool.eq_false_iff.mpr ‹_›
    · exact hgo _ _ trivial
  | stop hp =>
    refine hgo _ _ (beq_iff_eq.mpr (ha.main t ?_))
    show (s.pc t).mode = .outside
    rw [hp]
    rfl
  | @work _ _ m σ hw =>
    obtain ⟨-, -, h3, h4, -⟩ := hw.shape
    refine hgo _ _ ?_
    cases m <;> first | exact trivial | exact rfl | contradiction

/-! ## The invariant of the spin lock -/

theorem Inv.init (hn2 : 2 ≤ n) (h : s.Init) : Inv s ∧ (Pool.pool n).init s.abs := by
  obtain ⟨hw, hpc, hs⟩ := h
  have hinit : s.abs.Init := by
    refine ⟨fun t => ?_, hs⟩
    show (s.pc t).mode = _
    rw [hpc t]
    split <;> rfl
  have hne : ∀ t, s.abs.mode t ≠ .ended ∧ (s.abs.mode t).holds = false := by
    intro t
    rw [hinit.1 t]
    split <;> exact ⟨nofun, rfl⟩
  have hout : s.abs.mode ⟨0, by omega⟩ = .outside := by
    rw [hinit.1, if_pos rfl]
  have hidle := (Pool.Inv.init hinit).idlers_outside hout
  have hnil : s.abs.store.stack = [] := by
    rw [show s.abs.store = Store.new from hs]
    rfl
  refine ⟨⟨.unlocked (fun u _ => (hne u).1) (fun u => (hne u).2) ?_ ?_, fun t => ?_⟩, hinit⟩
  · rw [hw, if_pos hnil]
    omega
  · rw [hw, hidle]
    omega
  · rw [hpc t]
    split
    · trivial
    · exact beq_eq_false_iff_ne.mpr ‹_›

theorem Step.other_pc (h : Step t s s') (hu : u ≠ t) : s'.pc u = s.pc u := by
  cases h <;> exact Function.update_of_ne hu ..

theorem Inv.step (hn : n ≤ maxThreads) (hi : Inv s) (ha : Pool.Inv s.abs) (h : Step t s s') :
    Inv s' := by
  refine ⟨(h.move hn hi).encodes hn hi ha, fun u => ?_⟩
  by_cases hu : u = t
  · subst hu
    exact self_local hn hi ha h
  · rw [h.other_pc hu]
    exact (h.move hn hi).other_local hi ha hu

theorem Inv.reach (hn2 : 2 ≤ n) (hn : n ≤ maxThreads) (h : (pool n).Reach s) :
    Inv s ∧ (Pool.pool n).Reach s.abs :=
  h.refines (A := Pool.pool n) (fun _ => Inv.init hn2)
    (fun _ _ _ hi _ hst => (hst.move hn hi).matches hi)
    fun _ _ _ hi ha _ hst => hi.step hn (Pool.Inv.reach ha) hst

/-- The pool over the spin lock refines the abstract pool: it reaches only states of the abstract
pool, and each step is a step of the same thread there, or changes nothing. -/
theorem spin_refines (hn2 : 2 ≤ n) (hn : n ≤ maxThreads) (h : (pool n).Reach s) :
    (Pool.pool n).Reach s.abs ∧
      ∀ t s', Step t s s' → s'.abs = s.abs ∨ (Pool.pool n).step t s.abs s'.abs := by
  obtain ⟨hi, ha⟩ := Inv.reach hn2 hn h
  exact ⟨ha, fun t s' hst => (hst.move hn hi).matches hi⟩

/-! ## Schedules -/

/-- The next step of thread `c.1`, on choice `c.2` of its user code: an exchange that can succeed
does. -/
def advance (c : Fin n × Ask) (s : St n) : Option (St n) :=
  match act n (c.1.val == 0) (s.pc c.1) with
  | .load k => some (s.goto c.1 (k s.word))
  | .cas v v2 ok fail =>
    if s.word = v then some ({ s with word := v2 }.goto c.1 ok) else some (s.goto c.1 (fail s.word))
  | .store v k => some ({ s with word := v }.goto c.1 k)
  | .none =>
    if c.2 = .stop then
      if s.pc c.1 = .outside then some ({ s with word := 0 }.goto c.1 .stopped) else none
    else (perform c.2 s.store (s.pc c.1).mode).map fun r =>
      { s with store := r.2 }.goto c.1 (call r.2 r.1)

theorem advance_step {c : Fin n × Ask} (h : advance c s = some s') : Step c.1 s s' := by
  unfold advance at h
  split at h
  case h_1 k ha =>
    cases h
    exact .load ha
  case h_2 v v2 ok fail ha =>
    split at h <;> cases h
    · exact .casOk ha ‹_›
    · exact .casFail ha
  case h_3 v k ha =>
    cases h
    exact .store ha
  case h_4 ha =>
    split at h
    · split at h <;> cases h
      exact .stop ‹_›
    · obtain ⟨r, hr, rfl⟩ := Option.map_eq_some_iff.mp h
      exact .work (perform_work hr)

/-- The pool of two threads as `Pool::new` makes it. -/
def fresh : St 2 :=
  { word := 4, pc := fun t => if t.val = 0 then .outside else .startLoad, store := Store.new }

theorem fresh_reach : (pool 2).Reach fresh := .init ⟨rfl, fun _ => rfl, rfl⟩

/-- The main thread enters a scope and submits a task. The worker runs it and is idle again, and the
main thread ends the scope. -/
def oneTask (main worker : Fin n) : List (Fin n × Ask) :=
  [(main, .enter), (main, .submitOne)] ++ .replicate 5 (main, .go) ++
    .replicate 5 (worker, .go) ++ [(worker, .finish)] ++ .replicate 5 (worker, .go) ++
    [(main, .finish)] ++ .replicate 6 (main, .go)

/-- What a schedule reaches from the fresh pool. -/
theorem exists_of_schedule (ks : List (Fin 2 × Ask)) (P : St 2 → Prop) [DecidablePred P]
    (hp : (Lib.System.follow advance ks fresh).any (fun s => decide (P s)) = true) :
    ∃ s, (pool 2).Reach s ∧ P s :=
  Lib.System.exists_of_follow (fun c _ _ h => ⟨c.1, advance_step h⟩) fresh_reach ks P hp

/-- The worker takes the lock to run the task of a scope, which is a step of the pool; and the scope
is over. -/
theorem spin_refines_oneTask :
    (∃ s s' : St 2, s.store.jobs = 1 ∧ s.pc 1 = .startCas 6 ∧ s'.pc 1 = .held .runAll ∧
      s'.abs ≠ s.abs ∧ (Pool.pool 2).step 1 s.abs s'.abs) ∧
    ∃ s : St 2, s.pc 0 = .outside ∧ s.store.ended 0 = 1 ∧ (Pool.pool 2).Reach s.abs := by
  refine ⟨?_, ?_⟩
  · obtain ⟨s, hr, hj, hp, hw⟩ := exists_of_schedule ((oneTask 0 1).take 8)
      (fun s => s.store.jobs = 1 ∧ s.pc 1 = .startCas 6 ∧ s.word = 6) (by decide +kernel)
    have hst : Step 1 s ({ s with word := takeIdle 6 }.goto 1 (.held .runAll)) :=
      .casOk (by rw [hp]; rfl) hw
    have hne : ({ s with word := takeIdle 6 }.goto 1 (.held .runAll)).abs ≠ s.abs := by
      intro h
      have h1 : Mode.held .runAll = (s.pc 1).mode := congrArg (fun a => a.mode 1) h
      rw [hp] at h1
      cases h1
    exact ⟨s, { s with word := takeIdle 6 }.goto 1 (.held .runAll), hj, hp, rfl, hne,
      ((spin_refines (by decide) (by decide) hr).2 1 _ hst).resolve_left hne⟩
  · obtain ⟨s, hr, h0, hend⟩ := exists_of_schedule (oneTask 0 1)
      (fun s => s.pc 0 = .outside ∧ s.store.ended 0 = 1) (by decide +kernel)
    exact ⟨s, h0, hend, (spin_refines (by decide) (by decide) hr).1⟩

/-! ## Safety -/

/-- What the `debug_assert!`s behind the next action of a thread check, if it reads `w`. -/
def Pc.Asserts (n : Nat) (main : Bool) (w : Nat) : Pc → Prop
  | .unlockLoad _ _ | .idleLoad => w % 4 = 1
  -- in `stop`
  | .outside => w % 4 = 0 ∧ w / 4 = n - 1
  | .startLoad | .startCas _ => w / 2 % 2 = 1 ∨ w = 0 ∨ 1 ≤ w / 4
  | .idleStore v => v % 4 = 0 ∧ 1 ≤ v / 4 ∧ (main = true → v = n * 4 ∨ v / 4 < n)
  | .workLoad | .workCas _ => w / 2 % 2 = 1 ∨ w = 0 ∨ w % 4 ≠ 2 ∧ 1 ≤ w / 4
  | .mainLoad | .mainCas _ =>
    w / 2 % 2 = 1 ∨ w = n * 4 ∨ w % 4 ≠ 2 ∧ w / 4 < n ∧ 1 ≤ w / 4
  | _ => True

/-- The worker has exited, or its next step makes it exit. -/
def Exits (s : St n) (u : Fin n) : Prop :=
  s.pc u = .exited ∨ (∃ s', Step u s s') ∧ ∀ s', Step u s s' → s'.pc u = .exited

/-- The main thread is outside a scope, or `wait_main` is about to return `None`. -/
def Pc.scopeOver : Pc → Bool
  | .outside | .mainExit _ | .stopped => true
  | _ => false

section Safe

variable (hi : Inv s) (ha : Pool.Inv s.abs)
include hi ha

/-- No `debug_assert!` fails. -/
theorem Inv.asserts (t : Fin n) : (s.pc t).Asserts n (t.val == 0) s.word := by
  have hl := hi.loc t
  have hidle : (s.pc t).mode = .idle → s.word = 0 ∨ s.abs.Open ∧ 1 ≤ s.word / 4 := by
    intro hm
    by_cases ho : s.abs.Open
    · rw [hi.word.idle ho]
      exact .inr ⟨ho, Pool.idlers_pos hm⟩
    · exact .inl (hi.word.closed ho)
  -- what `wait_main` checks: not all threads are idle, or the word says so
  have hmain : (s.pc t).mode = .idle → (t.val == 0) = true →
      s.word / 2 % 2 = 1 ∨ s.word = n * 4 ∨ s.word % 4 ≠ 2 ∧ s.word / 4 < n ∧ 1 ≤ s.word / 4 := by
    intro hm h0
    have ho : s.abs.Open := by
      intro u hu
      have hut : u = t := Fin.ext (hu.trans (beq_iff_eq.mp h0).symm)
      rw [hut, show s.abs.mode t = .idle from hm]
      nofun
    have hw := hi.word.idle ho
    have h1 := Pool.idlers_pos (s := s.abs) hm
    have h2 := Pool.idlers_le s.abs
    by_cases hall : s.abs.idlers = n
    · have hmodes := (Pool.idlers_eq_iff _).mp hall
      have hfree := hi.word.free ho fun u => by rw [hmodes u]; rfl
      rw [if_pos (ha.done_of_idle hmodes).1] at hfree
      omega
    · omega
  cases hp : s.pc t <;> rw [hp] at hl hidle hmain <;> try trivial
  case outside =>
    have hm : s.abs.mode t = .outside := by
      show (s.pc t).mode = _
      rw [hp]
      rfl
    have hall := (ha.quiet t (ha.main t hm) (.inl hm))
    have hf : s.abs.Free := by
      intro u
      by_cases hu : u = t
      · rw [hu, hm]
        rfl
      · obtain h | ⟨h, -⟩ := hall.2 u hu
        · rw [h]
          rfl
        · rw [hm] at h
          cases h
    have ho := ha.open_of (t := t) (by rw [hm]; nofun) (by rw [hm]; nofun)
    refine ⟨?_, (hi.word.idle ho).trans (ha.idlers_outside hm)⟩
    rw [hi.word.free ho hf, if_pos hall.1]
  case unlockLoad nonempty b => exact hi.locked (t := t) (by rw [hp]; rfl)
  case idleLoad => exact hi.locked (t := t) (by rw [hp]; rfl)
  case idleStore v =>
    have hm : s.abs.mode t = .resting := by
      show (s.pc t).mode = _
      rw [hp]
      rfl
    have hw := hi.word.lock t (by rw [hm]; rfl)
    have hidle := hi.word.idle (ha.open_of (t := t) (by rw [hm]; nofun) (by rw [hm]; nofun))
    have h1 := Pool.idlers_goto s.abs t .idle
    have h2 := Pool.idlers_le (s.abs.goto t .idle)
    rw [hm, Pool.idles_of_ne (m := .resting) nofun, show Mode.idle.idles = 1 from rfl] at h1
    have hv : v = s.word - 1 + 4 := hl
    refine ⟨by omega, by omega, fun _ => by omega⟩
  case startLoad => exact .inr ((hidle rfl).imp_right And.right)
  case startCas v => exact .inr ((hidle rfl).imp_right And.right)
  case workLoad =>
    obtain h | ⟨-, h⟩ := hidle rfl
    · exact .inr (.inl h)
    · show s.word / 2 % 2 = 1 ∨ s.word = 0 ∨ s.word % 4 ≠ 2 ∧ 1 ≤ s.word / 4
      omega
  case workCas v =>
    obtain h | ⟨-, h⟩ := hidle rfl
    · exact .inr (.inl h)
    · show s.word / 2 % 2 = 1 ∨ s.word = 0 ∨ s.word % 4 ≠ 2 ∧ 1 ≤ s.word / 4
      omega
  case mainLoad => exact hmain rfl hl
  case mainCas v => exact hmain rfl hl.1

/-- When a scope is over, everything that was submitted has run exactly once. -/
theorem Inv.done (hp : (s.pc t).scopeOver = true) : s.store.Done := by
  have hl := hi.loc t
  cases hq : s.pc t <;> rw [hq] at hp hl <;> simp only [Pc.scopeOver, Bool.false_eq_true] at hp
  case outside =>
    have hm : s.abs.mode t = .outside := by
      show (s.pc t).mode = _
      rw [hq]
      rfl
    exact ha.done_of_over (ha.main t hm) (.inl hm)
  case mainExit v => exact ha.done_of_idle (hi.word.all_idle t hl.2.2)
  case stopped =>
    refine ha.done_of_over (t := t) (beq_iff_eq.mp hl) (.inr ?_)
    show (s.pc t).mode = _
    rw [hq]
    rfl

end Safe

/-! ## After `stop` -/

theorem exits_of_load {k : Nat → Pc} (h : act n (u.val == 0) (s.pc u) = .load k)
    (hk : k s.word = .exited) (hm : (s.pc u).mode = .idle) : Exits s u := by
  have hself : ∀ r : St n, (r.goto u .exited).pc u = .exited := fun r => by
    unfold St.goto
    exact Function.update_self ..
  refine .inr ⟨⟨_, .load h⟩, fun s' hst => ?_⟩
  cases hst with
  | load ha =>
    obtain rfl := Act.load.inj (h.symm.trans ha)
    rw [hk]
    exact hself s
  | casOk ha _ | casFail ha | store ha => cases h.symm.trans ha
  | stop hp =>
    rw [hp] at hm
    cases hm
  | work hw => exact absurd hm hw.shape.1

theorem exits_of_cas {v v2 : Nat} {ok : Pc} {fail : Nat → Pc}
    (h : act n (u.val == 0) (s.pc u) = .cas v v2 ok fail) (hv : s.word ≠ v)
    (hk : fail s.word = .exited) (hm : (s.pc u).mode = .idle) : Exits s u := by
  have hself : ∀ r : St n, (r.goto u .exited).pc u = .exited := fun r => by
    unfold St.goto
    exact Function.update_self ..
  refine .inr ⟨⟨_, .casFail h⟩, fun s' hst => ?_⟩
  cases hst with
  | casFail ha =>
    obtain ⟨-, -, -, rfl⟩ := Act.cas.inj (h.symm.trans ha)
    rw [hk]
    exact hself s
  | casOk ha hw =>
    obtain ⟨rfl, -, -, -⟩ := Act.cas.inj (h.symm.trans ha)
    exact absurd hw hv
  | load ha | store ha => cases h.symm.trans ha
  | stop hp =>
    rw [hp] at hm
    cases hm
  | work hw => exact absurd hm hw.shape.1

/-- After `stop` every worker exits at its next step. -/
theorem Inv.exits (hi : Inv s) (ha : Pool.Inv s.abs) (hp : s.pc t = .stopped) (hu : u ≠ t) :
    Exits s u := by
  have hl := hi.loc t
  rw [hp] at hl
  have h0 : t.val = 0 := beq_iff_eq.mp hl
  have hm : s.abs.mode t = .ended := by
    show (s.pc t).mode = _
    rw [hp]
    rfl
  have hw : s.word = 0 := hi.word.closed fun ho => ho t h0 hm
  have hmain : (u.val == 0) ≠ true := fun h => hu (Fin.ext ((beq_iff_eq.mp h).trans h0.symm))
  have hmode := (ha.quiet t h0 (.inr hm)).2 u hu
  have hlu := hi.loc u
  cases hq : s.pc u <;> rw [hq] at hlu
  case startLoad => exact exits_of_load (by rw [hq]; rfl) (by rw [hw]; rfl) (by rw [hq]; rfl)
  case workLoad => exact exits_of_load (by rw [hq]; rfl) (by rw [hw]; rfl) (by rw [hq]; rfl)
  case startCas v =>
    have hv := hlu.2
    exact exits_of_cas (by rw [hq]; rfl) (by omega) (by rw [hw]; rfl) (by rw [hq]; rfl)
  case workCas v =>
    have hv := hlu.2
    exact exits_of_cas (by rw [hq]; rfl) (by omega) (by rw [hw]; rfl) (by rw [hq]; rfl)
  case mainLoad => exact absurd hlu hmain
  case mainCas v => exact absurd hlu.1 hmain
  case mainExit v => exact absurd hlu.1 hmain
  case stopped => exact absurd hlu hmain
  case exited => exact .inl hq
  all_goals
    obtain h | ⟨-, h⟩ := hmode <;> have h : (s.pc u).mode = _ := h <;> rw [hq] at h <;> cases h

/-- The pool over the spin lock is safe under every interleaving: at most one thread holds the lock;
until `stop` the idle field counts the idle threads; no `debug_assert!` fails; when a scope is over,
everything has run exactly once; and after `stop` every worker exits at its next step. -/
theorem spin_safe (hn2 : 2 ≤ n) (hn : n ≤ maxThreads) (h : (pool n).Reach s) :
    (∀ t u, (s.pc t).mode.holds = true → (s.pc u).mode.holds = true → t = u) ∧
    ((∀ t, s.pc t ≠ .stopped) → s.word / 4 = s.abs.idlers) ∧
    (∀ t : Fin n, (s.pc t).Asserts n (t.val == 0) s.word) ∧
    (∀ t, (s.pc t).scopeOver = true → s.store.Done) ∧
    ∀ t u, s.pc t = .stopped → u ≠ t → Exits s u := by
  obtain ⟨hi, hr⟩ := Inv.reach hn2 hn h
  have ha := Pool.Inv.reach hr
  refine ⟨ha.one, fun hs => hi.word.idle fun t h0 he => ?_, hi.asserts ha, fun t => hi.done ha,
    fun t u hp => hi.exits ha hp⟩
  have hl := hi.loc t
  have he : (s.pc t).mode = .ended := he
  cases hp : s.pc t <;> rw [hp] at he hl <;> try cases he
  case stopped => exact hs t hp
  case exited =>
    rw [beq_iff_eq.mpr h0] at hl
    cases hl

/-- The worker has taken the lock to run the task of a scope; the scope is over; `stop` after it. -/
theorem spin_safe_oneTask :
    (∃ s : St 2, s.pc 1 = .held .runAll ∧ s.store.jobs = 1 ∧
      ∀ u, (s.pc u).mode.holds = true → u = 1) ∧
    (∃ s : St 2, s.pc 0 = .outside ∧ s.store.jobs = 1 ∧ s.word / 4 = s.abs.idlers ∧
      (s.pc 0).Asserts 2 true s.word ∧ s.store.Done) ∧
    ∃ s : St 2, s.pc 0 = .stopped ∧ s.store.jobs = 1 ∧ Exits s 1 := by
  refine ⟨?_, ?_, ?_⟩
  · obtain ⟨s, hr, h1, hj⟩ := exists_of_schedule ((oneTask 0 1).take 9)
      (fun s => s.pc 1 = .held .runAll ∧ s.store.jobs = 1) (by decide +kernel)
    have h := spin_safe (by decide) (by decide) hr
    exact ⟨s, h1, hj, fun u hu => h.1 u 1 hu (by rw [h1]; rfl)⟩
  · obtain ⟨s, hr, h0, hj, hs⟩ := exists_of_schedule (oneTask 0 1)
      (fun s => s.pc 0 = .outside ∧ s.store.jobs = 1 ∧ ∀ t, s.pc t ≠ .stopped) (by decide +kernel)
    have h := spin_safe (by decide) (by decide) hr
    exact ⟨s, h0, hj, h.2.1 hs, h.2.2.1 0, h.2.2.2.1 0 (by rw [h0]; rfl)⟩
  · obtain ⟨s, hr, h0, hj⟩ := exists_of_schedule (oneTask 0 1 ++ [(0, .stop)])
      (fun s => s.pc 0 = .stopped ∧ s.store.jobs = 1) (by decide +kernel)
    exact ⟨s, h0, hj, (spin_safe (by decide) (by decide) hr).2.2.2.2 0 1 h0 (by decide)⟩

end Qblaze.Spin
