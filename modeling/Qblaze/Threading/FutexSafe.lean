import Mathlib.Algebra.BigOperators.Fin
import Qblaze.Threading.FutexInv

/-!
# Every step of the pool keeps the invariant

`Inv.step` is the induction step for `Inv`, one lemma for each part of it.
-/

namespace Qblaze.Futex

variable {n : Nat} {s s' : St n} {t u : Fin n}

/-! ## The counts -/

theorem holders_congr (h : ∀ u, (s'.pc u).holds = (s.pc u).holds) : s'.holders = s.holders :=
  Finset.sum_congr rfl fun u _ => by rw [h u]

theorem idlers_congr (h : ∀ u, (s'.pc u).idle = (s.pc u).idle) : s'.idlers = s.idlers :=
  Finset.sum_congr rfl fun u _ => by rw [h u]

/-- The main thread outside a scope, or about to leave one, sees an unlocked word without work. -/
theorem Inv.exit_word (hi : Inv s) {v : Nat} (hp : s.pc t = .mainExit v) :
    v = n * 4 ∧ s.word = n * 4 ∧ s.stack = [] := by
  have := hi.view t
  rw [hp] at this
  exact this

theorem Inv.outside_word (hi : Inv s) (hp : s.pc t = .outside) :
    s.word = (n - 1) * 4 ∧ s.stack = [] := by
  have := hi.view t
  rw [hp] at this
  exact this

theorem Inv.swap_word (hi : Inv s) {v : Nat} {wake : Bool} {b : Body}
    (hp : s.pc t = .unlockSwap v wake b) :
    v = clearState s.word + if s.stack.isEmpty then 0 else 2 := by
  have := hi.view t
  rw [hp] at this
  exact this

theorem Inv.idleSwap_word (hi : Inv s) {v : Nat} (hp : s.pc t = .idleSwap v) :
    s.stack = [] ∧ v = clearState s.word + 4 := by
  have := hi.view t
  rw [hp] at this
  exact this

/-- No thread takes the lock after `stop`. -/
theorem Inv.running (hi : Inv s) (ht : (s.pc t).idle = false) (ho : (s.pc t).past = false) :
    s.stopping = false := by
  cases hs : s.stopping with
  | false => rfl
  | true =>
    rcases (hi.stop hs).2.2 t with h | ⟨h, -⟩
    · rw [ho] at h; cases h
    · rw [ht] at h; cases h

theorem lock_change (hn : n ≤ maxThreads) (hi : Inv s) (hc : Change s t s') :
    s'.holders = s'.word % 2 := by
  have hl := hi.lock
  cases hc with
  | quiet hw _ _ hk => rw [holders_congr fun u => (hk u).1, hw, hl]
  | exit hw hid =>
    have := holders_goto (s := s) (t := t) (p := .exited)
    rw [holds_of_idle hid] at this
    exact (Nat.add_right_cancel this).trans hl
  | @take w p h0 hw hk hk' =>
    have h1 : (s.goto t p).holders + (s.pc t).holds.toNat = s.holders + p.holds.toNat := holders_goto
    rw [show (s.pc t).holds = false from congrArg Kind.holds hk,
      show p.holds = true from congrArg Kind.holds hk'] at h1
    show (s.goto t p).holders = w % 2
    simp only [Bool.toNat_false, Bool.toNat_true] at h1
    unfold clearState at hw
    omega
  | @mark p h1 hk hh =>
    have h2 : (s.goto t p).holders + (s.pc t).holds.toNat = s.holders + p.holds.toNat := holders_goto
    rw [show p.holds = (s.pc t).holds from congrArg Kind.holds hk] at h2
    show (s.goto t p).holders = (s.word + 2) % 2
    omega
  | @takeIdle w h2 hw hk =>
    have hs : s.stopping = false := by
      cases hs : s.stopping with
      | false => rfl
      | true => rw [(hi.stop hs).1] at h2; omega
    have h1 := holders_goto (s := s) (t := t) (p := .held .runAll)
    rw [show (s.pc t).holds = false from congrArg Kind.holds hk] at h1
    have h3 := hi.idle_pos hs (congrArg Kind.idle hk)
    rw [takeIdle_eq h2 h3 (hi.bound hn)] at hw
    show (s.goto t (.held .runAll)).holders = w % 2
    simp only [Pc.holds, Bool.toNat_false, Bool.toNat_true] at h1
    omega
  | @crit s' p hh hw _ hp hh' =>
    have h1 : (s.goto t p).holders + (s.pc t).holds.toNat = s.holders + p.holds.toNat := holders_goto
    have h2 : s'.holders = (s.goto t p).holders := by
      unfold St.holders St.goto; rw [hp]
    rw [hh, hh'] at h1
    omega
  | @release v wake b p hp hk =>
    have h1 : (s.goto t p).holders + (s.pc t).holds.toNat = s.holders + p.holds.toNat := holders_goto
    have h3 := hi.odd (t := t) (by rw [hp]; rfl)
    rw [show p.holds = false from congrArg Kind.holds hk, hp] at h1
    have h2 := hi.swap_word hp
    show (s.goto t p).holders = v % 2
    simp only [Pc.holds, Bool.toNat_false, Bool.toNat_true] at h1
    unfold clearState at h2
    split at h2 <;> omega
  | @releaseIdle v p hp hk =>
    have h1 : (s.goto t p).holders + (s.pc t).holds.toNat = s.holders + p.holds.toNat := holders_goto
    have h3 := hi.odd (t := t) (by rw [hp]; rfl)
    rw [show p.holds = false from congrArg Kind.holds hk, hp] at h1
    have h2 := (hi.idleSwap_word hp).2
    show (s.goto t p).holders = v % 2
    simp only [Pc.holds, Bool.toNat_false, Bool.toNat_true] at h1
    unfold clearState at h2
    omega
  | @leave v hp =>
    have h1 := holders_goto (s := s) (t := t) (p := .outside)
    rw [hp] at h1
    have h2 := hi.exit_word hp
    show (s.goto t .outside).holders = (v - 4) % 2
    simp only [Pc.holds, Bool.toNat_false] at h1
    omega
  | stop hp =>
    have h1 := holders_goto (s := s) (t := t) (p := .stopWake)
    rw [hp] at h1
    have h2 := hi.outside_word hp
    show (s.goto t .stopWake).holders = 0 % 2
    simp only [Pc.holds, Bool.toNat_false] at h1
    omega

theorem idle_change (hn : n ≤ maxThreads) (hn2 : 2 ≤ n) (hi : Inv s) (hc : Change s t s')
    (hs' : s'.stopping = false) : s'.idlers = s'.word / 4 := by
  cases hc with
  | quiet hw _ hs hk => rw [idlers_congr fun u => (hk u).2.1, hw, hi.idle (hs ▸ hs')]
  | exit hw hid =>
    have := hi.idle_pos hs' hid
    rw [hw] at this
    omega
  | @take w p h0 hw hk hk' =>
    have h1 : (s.goto t p).idlers + (s.pc t).idle.toNat = s.idlers + p.idle.toNat := idlers_goto
    rw [show (s.pc t).idle = false from congrArg Kind.idle hk,
      show p.idle = false from congrArg Kind.idle hk'] at h1
    have h2 := hi.idle hs'
    show (s.goto t p).idlers = w / 4
    unfold clearState at hw
    omega
  | @mark p h1 hk hh =>
    have h2 : (s.goto t p).idlers + (s.pc t).idle.toNat = s.idlers + p.idle.toNat := idlers_goto
    rw [show p.idle = (s.pc t).idle from congrArg Kind.idle hk] at h2
    have h3 := hi.idle hs'
    show (s.goto t p).idlers = (s.word + 2) / 4
    omega
  | @takeIdle w h2 hw hk =>
    have h1 := idlers_goto (s := s) (t := t) (p := .held .runAll)
    have hid : (s.pc t).idle = true := congrArg Kind.idle hk
    rw [hid] at h1
    have h3 := hi.idle hs'
    have h4 := hi.idle_pos hs' hid
    rw [takeIdle_eq h2 h4 (hi.bound hn)] at hw
    show (s.goto t (.held .runAll)).idlers = w / 4
    simp only [Pc.idle, Bool.toNat_false, Bool.toNat_true] at h1
    omega
  | @crit s' p hh hw hs hp hh' =>
    have h1 : (s.goto t p).idlers + (s.pc t).idle.toNat = s.idlers + p.idle.toNat := idlers_goto
    have h2 : s'.idlers = (s.goto t p).idlers := by
      unfold St.idlers St.goto; rw [hp]
    have h3 := hi.idle (hs ▸ hs')
    rw [idle_of_holds hh, idle_of_holds hh'] at h1
    rw [hw]
    omega
  | @release v wake b p hp hk =>
    have h1 : (s.goto t p).idlers + (s.pc t).idle.toNat = s.idlers + p.idle.toNat := idlers_goto
    rw [show p.idle = false from congrArg Kind.idle hk, hp] at h1
    have h2 := hi.swap_word hp
    have h3 := hi.idle hs'
    show (s.goto t p).idlers = v / 4
    simp only [Pc.idle, Bool.toNat_false] at h1
    unfold clearState at h2
    split at h2 <;> omega
  | @releaseIdle v p hp hk =>
    have h1 : (s.goto t p).idlers + (s.pc t).idle.toNat = s.idlers + p.idle.toNat := idlers_goto
    rw [show p.idle = true from congrArg Kind.idle hk, hp] at h1
    have h2 := (hi.idleSwap_word hp).2
    have h3 := hi.idle hs'
    show (s.goto t p).idlers = v / 4
    simp only [Pc.idle, Bool.toNat_false, Bool.toNat_true] at h1
    unfold clearState at h2
    omega
  | @leave v hp =>
    have h1 := idlers_goto (s := s) (t := t) (p := .outside)
    rw [hp] at h1
    have h2 := hi.exit_word hp
    have h3 := hi.idle hs'
    show (s.goto t .outside).idlers = (v - 4) / 4
    simp only [Pc.idle, Bool.toNat_false, Bool.toNat_true] at h1
    omega
  | stop hp => cases hs'

theorem work_change (hi : Inv s) (hc : Change s t s')
    (he : s'.word % 2 = 0) : s'.word % 4 = 2 ↔ s'.stack ≠ [] := by
  cases hc with
  | quiet hw hs _ _ => rw [hw] at he ⊢; rw [hs]; exact hi.work he
  | exit _ _ => exact hi.work he
  | @take w p h0 hw _ _ =>
    have he : w % 2 = 0 := he
    unfold clearState at hw
    omega
  | mark h1 _ _ =>
    have he : (s.word + 2) % 2 = 0 := he
    omega
  | @takeIdle w h2 hw hk =>
    have he : w % 2 = 0 := he
    unfold takeIdle at hw
    omega
  | crit hh hw _ _ _ =>
    have := hi.odd hh
    rw [hw] at he
    omega
  | @release v wake b p hp hk =>
    have h2 := hi.swap_word hp
    show v % 4 = 2 ↔ s.stack ≠ []
    unfold clearState at h2
    cases hst : s.stack with
    | nil => rw [hst] at h2; simp only [List.isEmpty_nil, if_true] at h2; simp; omega
    | cons x l => rw [hst] at h2; simp at h2; simp; omega
  | @releaseIdle v p hp hk =>
    obtain ⟨h1, h2⟩ := hi.idleSwap_word hp
    show v % 4 = 2 ↔ s.stack ≠ []
    unfold clearState at h2
    simp only [h1, ne_eq, not_true, iff_false]
    omega
  | @leave v hp =>
    obtain ⟨h1, -, h2⟩ := hi.exit_word hp
    show (v - 4) % 4 = 2 ↔ s.stack ≠ []
    simp only [h2, ne_eq, not_true, iff_false]
    omega
  | stop hp =>
    have h2 := (hi.outside_word hp).2
    show 0 % 4 = 2 ↔ s.stack ≠ []
    simp [h2]

/-! ## The other threads' views -/

/-- The main thread relies on a word that no other thread can change. -/
def Pc.pinned (n : Nat) (main : Bool) : Pc → Bool
  | .outside | .mainExit _ => true
  | .idleWakeLock v => main && v == n * 4
  | _ => false

/-- While the main thread is pinned, the word is unlocked without work and all others idle. -/
theorem Inv.pinned (hi : Inv s) (hp : (s.pc u).pinned n (u.val == 0) = true) (ht : t ≠ u)
    (hn2 : 2 ≤ n) : u.val = 0 ∧ s.word % 4 = 0 ∧ (s.pc t).idle = true := by
  have hw := hi.view u
  cases hu : s.pc u <;> rw [hu] at hp hw <;> try cases hp
  case outside =>
    have h0 := hi.main u (by rw [hu]; rfl)
    have hs : s.stopping = false :=
      hi.running (t := u) (by rw [hu]; rfl) (by rw [hu]; rfl)
    have h4 : s.word = (n - 1) * 4 := hw.1
    have := hi.idle hs
    exact ⟨h0, by omega, idle_of_others (by omega) (by rw [hu]; rfl) ht⟩
  case mainExit v =>
    have h0 := hi.main u (by rw [hu]; rfl)
    have h4 : s.word = n * 4 := hw.2.1
    have hs : s.stopping = false := by
      cases hs : s.stopping with
      | false => rfl
      | true => have := (hi.stop hs).1; omega
    have := hi.idle hs
    exact ⟨h0, by omega, idle_of_all (by omega) t⟩
  case idleWakeLock v =>
    simp only [Pc.pinned, Bool.and_eq_true, beq_iff_eq] at hp
    have h4 : s.word = n * 4 := (hw (by simp [hp.1]) hp.2).1
    have hs : s.stopping = false := by
      cases hs : s.stopping with
      | false => rfl
      | true => have := (hi.stop hs).1; omega
    have := hi.idle hs
    exact ⟨hp.1, by omega, idle_of_all (by omega) t⟩

theorem pinned_change (hn2 : 2 ≤ n) (hi : Inv s) (hc : Change s t s') (hu : u ≠ t)
    (hp : (s.pc u).pinned n (u.val == 0) = true) : s'.word = s.word ∧ s'.stack = s.stack := by
  obtain ⟨hu0, hw4, hid⟩ := hi.pinned hp hu.symm hn2
  have hnm : (s.pc t).mainOnly = true → False := fun h =>
    hu (Fin.ext (hu0.trans (hi.main t h).symm))
  cases hc with
  | quiet hw hs _ _ => exact ⟨hw, hs⟩
  | exit _ _ => exact ⟨rfl, rfl⟩
  | take _ _ hk _ =>
    have : (s.pc t).idle = false := congrArg Kind.idle hk
    rw [this] at hid; cases hid
  | mark h1 _ _ => omega
  | takeIdle h2 _ _ => omega
  | crit hh _ _ _ _ => rw [idle_of_holds hh] at hid; cases hid
  | release hp' _ => rw [hp'] at hid; cases hid
  | releaseIdle hp' _ => rw [hp'] at hid; cases hid
  | leave hp' => exact (hnm (by rw [hp']; rfl)).elim
  | stop hp' => exact (hnm (by rw [hp']; rfl)).elim

/-- While `u` holds the lock, the others change at most the contention flag. -/
theorem holder_change (hi : Inv s) (hc : Change s t s') (hu : u ≠ t)
    (hh : (s.pc u).holds = true) :
    clearState s'.word = clearState s.word ∧ s'.stack = s.stack := by
  have hodd := hi.odd hh
  cases hc with
  | quiet hw hs _ _ => exact ⟨by rw [hw], hs⟩
  | exit _ _ => exact ⟨rfl, rfl⟩
  | take h0 _ _ _ => omega
  | mark h1 _ _ =>
    refine ⟨?_, rfl⟩
    show clearState (s.word + 2) = clearState s.word
    unfold clearState
    omega
  | takeIdle h2 _ _ => omega
  | crit hh' _ _ _ _ => exact absurd (hi.one hh hh') hu
  | release hp _ => exact absurd (hi.one hh (by rw [hp]; rfl)) hu
  | releaseIdle hp _ => exact absurd (hi.one hh (by rw [hp]; rfl)) hu
  | leave hp => have := (hi.exit_word hp).2.1; omega
  | stop hp => have := (hi.outside_word hp).1; omega

/-- The view of a thread that neither holds the lock nor is pinned does not matter. -/
theorem view_congr {p : Pc} {main : Bool} {w w' : Nat} {stk stk' : List Task}
    (h : p.View n main w stk)
    (hh : p.holds = true → clearState w' = clearState w ∧ stk' = stk)
    (hp : p.pinned n main = true → w' = w ∧ stk' = stk) : p.View n main w' stk' := by
  cases p <;> try trivial
  case outside => obtain ⟨rfl, rfl⟩ := hp rfl; exact h
  case mainExit => obtain ⟨rfl, rfl⟩ := hp rfl; exact h
  case idleWakeLock v =>
    intro hm hv
    obtain ⟨rfl, rfl⟩ := hp (by simp [Pc.pinned, hm, hv])
    exact h hm hv
  case unlockLoad => obtain ⟨-, rfl⟩ := hh rfl; exact h
  case idleLoad => obtain ⟨-, rfl⟩ := hh rfl; exact h
  case unlockSwap v wake b =>
    obtain ⟨hc, rfl⟩ := hh rfl
    show v = _
    rw [hc]; exact h
  case idleSwap v =>
    obtain ⟨hc, rfl⟩ := hh rfl
    exact ⟨h.1, by rw [hc]; exact h.2⟩

/-! ## The thread that steps -/

theorem Inv.stack_of_all (hi : Inv s) (hw : s.word = n * 4) : s.stack = [] := by
  have h := hi.work (by omega)
  by_contra hne
  have := h.mpr hne
  omega

theorem self_local (hi : Inv s) (h : Step t s s') : (s'.pc t).Local n := by
  have hself : ∀ (f : Fin n → Pc) (p : Pc), p.Local n → (Function.update f t p t).Local n :=
    fun f p hp => by rw [Function.update_self]; exact hp
  have hl := hi.loc t
  cases h with
  | load ha => exact hself _ _ (load_local ha _)
  | casFail ha => exact hself _ _ (casFail_local ha _)
  | @casOk _ _ v v2 ok fail ha hw =>
    refine hself _ _ ?_
    obtain ⟨-, ⟨-, -, ⟨c, rfl⟩, -⟩ | ⟨-, -, ⟨c, rfl⟩, h1, hv⟩ | ⟨-, rfl, -⟩⟩ := cas_kind ha hl
    · trivial
    · show v2 % 4 = 3
      rw [hv, clearState_locked h1]
      omega
    · trivial
  | @swap _ _ v k ha =>
    refine hself _ _ ?_
    obtain ⟨wake, b, hp, -⟩ | ⟨hp, -⟩ := swap_kind ha
    · rw [hp] at ha
      simp only [act, Act.swap.injEq, true_and] at ha
      rw [← ha]
      simp only
      split
      · trivial
      · exact unlockNext_local _ _
    · have hv := (hi.idleSwap_word hp).2
      unfold clearState at hv
      rw [hp] at ha
      simp only [act, Act.swap.injEq, true_and] at ha
      rw [← ha]
      simp only
      split
      · exact ⟨by omega, by omega⟩
      · exact idleNext_local (by omega) (by omega)
  | store ha =>
    obtain ⟨v', -, -, rfl⟩ := store_eq ha
    exact hself _ _ trivial
  | sleep ha _ => exact hself _ _ (wait_local ha hl).1
  | noSleep ha => exact hself _ _ (wakened_local (wait_local ha hl).1)
  | spurious hp => rw [hp] at hl; exact hself _ _ (wakened_local hl)
  | wakeSome ha _ => exact hself _ _ (wakeOne_local ha hl true)
  | wakeNone ha _ => exact hself _ _ (wakeOne_local ha hl false)
  | wakeAll ha =>
    obtain ⟨-, -, rfl⟩ := wakeAll_eq ha
    exact hself _ _ trivial
  | _ => exact hself _ _ trivial

theorem self_view (hn : n ≤ maxThreads) (hi : Inv s) (h : Step t s s') :
    (s'.pc t).View n (t.val == 0) s'.word s'.stack := by
  have hself : ∀ (f : Fin n → Pc) (p : Pc) (w : Nat) (stk : List Task),
      p.View n (t.val == 0) w stk → (Function.update f t p t).View n (t.val == 0) w stk :=
    fun f p w stk hp => by rw [Function.update_self]; exact hp
  have hv := hi.view t
  have hb : s.word + 4 < 2 ^ 32 := by have := hi.bound hn; omega
  have hall : s.word = n * 4 → s.stack = [] := hi.stack_of_all
  cases h with
  | load ha => exact hself _ _ _ _ (load_view ha hv hb hall)
  | casFail ha => exact hself _ _ _ _ (casFail_view ha hall)
  | casOk ha _ =>
    refine hself _ _ _ _ ?_
    obtain ⟨-, ⟨-, -, ⟨c, rfl⟩, -⟩ | ⟨-, -, ⟨c, rfl⟩, -⟩ | ⟨-, rfl, -⟩⟩ := cas_kind ha (hi.loc t) <;>
      trivial
  | swap ha => exact hself _ _ _ _ (swap_view ha (fun hp => (hi.idleSwap_word hp).1) _)
  | store ha =>
    obtain ⟨v', hp, rfl, rfl⟩ := store_eq ha
    obtain ⟨h1, -, h2⟩ := hi.exit_word hp
    refine hself _ _ _ _ ⟨?_, h2⟩
    show v' - 4 = (n - 1) * 4
    omega
  | sleep ha _ => exact hself _ _ _ _ (wait_view ha).2
  | noSleep ha => exact hself _ _ _ _ (wait_view ha).1
  | spurious hp =>
    have hl := hi.loc t
    rw [hp] at hl hv
    exact hself _ _ _ _ (wakened_view hl hv)
  | wakeSome ha _ => exact hself _ _ _ _ (wakeOne_view ha hv true)
  | wakeNone ha _ => exact hself _ _ _ _ (wakeOne_view ha hv false)
  | wakeAll ha =>
    obtain ⟨-, -, rfl⟩ := wakeAll_eq ha
    exact hself _ _ _ _ trivial
  | idle _ hst => exact hself _ _ _ _ hst
  | runMulti hp hst =>
    refine hself _ _ _ _ ?_
    show true = !s.stack.isEmpty
    rw [hst]; rfl
  | pushOne _ | pushMulti _ | runSimple _ _ => exact hself _ _ _ _ rfl
  | _ => exact hself _ _ _ _ trivial

/-! ## Roles -/

section Roles

variable {main : Bool} {p ok k' : Pc} {k fail : Nat → Pc} {v v2 m w : Nat}

/-- From `p`, the thread goes on to `p'`: only the main thread reaches the places of `wait_main`,
and only a worker those of `wait_work`. -/
def Follows (main : Bool) (p p' : Pc) : Prop :=
  (p'.mainOnly = true → p.mainOnly = true ∨ main = true) ∧
  (p'.workerOnly = true → p.workerOnly = true ∨ main = false)

theorem follows_free {p' : Pc} (h1 : p'.mainOnly = false) (h2 : p'.workerOnly = false) :
    Follows main p p' :=
  ⟨fun h => (Bool.false_ne_true (h1.symm.trans h)).elim,
    fun h => (Bool.false_ne_true (h2.symm.trans h)).elim⟩

theorem follows_main {p' : Pc} (hm : p.mainOnly = true ∨ main = true)
    (h2 : p'.workerOnly = false) : Follows main p p' :=
  ⟨fun _ => hm, fun h => (Bool.false_ne_true (h2.symm.trans h)).elim⟩

theorem follows_worker {p' : Pc} (hm : p.workerOnly = true ∨ main = false)
    (h1 : p'.mainOnly = false) : Follows main p p' :=
  ⟨fun h => (Bool.false_ne_true (h1.symm.trans h)).elim, fun _ => hm⟩

theorem follows_mainHead (hm : p.mainOnly = true ∨ main = true) (spin : Nat) :
    Follows main p (mainHead n spin v) := by
  unfold mainHead
  split
  · exact follows_main hm rfl
  · split <;> exact follows_main hm rfl

theorem follows_mainNext (hm : p.mainOnly = true) (spin : Nat) :
    Follows main p (mainNext n spin v) := by
  unfold mainNext
  split
  · exact follows_main (.inl hm) rfl
  · exact follows_mainHead (.inl hm) _

theorem follows_workHead (hm : p.workerOnly = true ∨ main = false) (spin : Nat) :
    Follows main p (workHead spin v) := by
  unfold workHead; split <;> exact follows_worker hm rfl

theorem follows_workNext (hm : p.workerOnly = true) (spin : Nat) :
    Follows main p (workNext spin v) := by
  unfold workNext
  split
  · exact follows_worker (.inl hm) rfl
  · split
    · exact follows_workHead (.inl hm) _
    · split
      · exact follows_worker (.inl hm) rfl
      · exact follows_workHead (.inl hm) _

theorem follows_startNext (hm : p.workerOnly = true) : Follows main p (startNext v) := by
  unfold startNext
  split
  · exact follows_worker (.inl hm) rfl
  · split <;> exact follows_worker (.inl hm) rfl

theorem follows_idleNext : Follows main p (idleNext n main v) := by
  unfold idleNext
  split
  · exact follows_mainHead (.inr (by assumption)) _
  · rename_i h
    split
    · exact follows_worker (.inr (by simpa using h)) rfl
    · exact follows_workHead (.inr (by simpa using h)) _

theorem follows_slowNext (c : Cont) : Follows main p (slowNext c v) := by
  unfold slowNext; split <;> exact follows_free rfl rfl

theorem follows_lockNext (c : Cont) (spin : Nat) : Follows main p (lockNext c spin v) := by
  unfold lockNext
  split
  · exact follows_free rfl rfl
  · split
    · exact follows_slowNext c
    · exact follows_free rfl rfl

theorem follows_unlockNext (wake : Bool) (b : Body) : Follows main p (unlockNext wake b) := by
  unfold unlockNext; split <;> exact follows_free rfl rfl

theorem load_follows (h : act n main p = .load k) : Follows main p (k w) := by
  cases p <;> simp only [act, Act.load.injEq, reduceCtorEq] at h <;> subst h
  case lockLoad => exact follows_lockNext _ _
  case lockReload => exact follows_slowNext _
  case startLoad => exact follows_startNext rfl
  case workLoad => exact follows_workNext rfl _
  case mainLoad => exact follows_mainNext rfl _
  all_goals exact follows_free rfl rfl

theorem cas_follows (h : act n main p = .cas v v2 ok fail) :
    Follows main p ok ∧ Follows main p (fail w) := by
  cases p <;> simp only [act, Act.cas.injEq, reduceCtorEq] at h <;> obtain ⟨rfl, rfl, rfl, rfl⟩ := h
  case lockCas =>
    exact ⟨follows_free rfl rfl, follows_lockNext _ _⟩
  case lockSlow =>
    refine ⟨?_, follows_slowNext _⟩
    split <;> exact follows_free rfl rfl
  case startCas =>
    exact ⟨follows_free rfl rfl, follows_startNext rfl⟩
  case workCas =>
    exact ⟨follows_free rfl rfl, follows_workNext rfl _⟩
  case mainCas =>
    exact ⟨follows_free rfl rfl, follows_mainNext rfl _⟩

theorem swap_follows (h : act n main p = .swap v k) : Follows main p (k w) := by
  cases p <;> simp only [act, Act.swap.injEq, reduceCtorEq] at h <;> obtain ⟨rfl, rfl⟩ := h
  case unlockSwap =>
    simp only
    split
    · exact follows_free rfl rfl
    · exact follows_unlockNext _ _
  case idleSwap =>
    simp only
    split
    · exact follows_free rfl rfl
    · exact follows_idleNext

theorem wait_follows (h : act n main p = .wait v m k') :
    Follows main p k' ∧ Follows main p (.asleep m k') := by
  cases p <;> simp only [act, Act.wait.injEq, reduceCtorEq] at h <;> obtain ⟨rfl, rfl, rfl⟩ := h
  case lockWait => exact ⟨follows_free rfl rfl, follows_free rfl rfl⟩
  case mainWait => exact ⟨follows_main (.inl rfl) rfl, follows_main (.inl rfl) rfl⟩
  all_goals exact ⟨follows_worker (.inl rfl) rfl, follows_worker (.inl rfl) rfl⟩

theorem wakeOne_follows {kb : Bool → Pc} (h : act n main p = .wakeOne m kb) (r : Bool) :
    Follows main p (kb r) := by
  cases p <;> simp only [act, Act.wakeOne.injEq, reduceCtorEq] at h <;> rw [← h.2]
  case unlockWakeLock wake b =>
    simp only
    split
    · exact follows_free rfl rfl
    · exact follows_unlockNext _ _
  case unlockWakeWork => exact follows_free rfl rfl
  case idleWakeLock => exact follows_idleNext
  case workWakeMain => exact follows_workHead (.inl rfl) _

end Roles

theorem self_follows (h : Step t s s') : Follows (t.val == 0) (s.pc t) (s'.pc t) := by
  have hself : ∀ (f : Fin n → Pc) (p : Pc), Follows (t.val == 0) (s.pc t) p →
      Follows (t.val == 0) (s.pc t) (Function.update f t p t) :=
    fun f p hp => by rw [Function.update_self]; exact hp
  cases h with
  | load ha => exact hself _ _ (load_follows ha)
  | casFail ha => exact hself _ _ (cas_follows ha).2
  | casOk ha _ => exact hself _ _ (cas_follows (w := 0) ha).1
  | swap ha => exact hself _ _ (swap_follows ha)
  | store ha =>
    obtain ⟨v', hp, -, rfl⟩ := store_eq ha
    exact hself _ _ (follows_main (.inl (by rw [hp]; rfl)) rfl)
  | sleep ha _ => exact hself _ _ (wait_follows ha).2
  | noSleep ha => exact hself _ _ (wait_follows ha).1
  | spurious hp =>
    refine hself _ _ ?_
    rw [hp]
    exact ⟨fun h => .inl h, fun h => .inl h⟩
  | wakeSome ha _ => exact hself _ _ (wakeOne_follows ha true)
  | wakeNone ha _ => exact hself _ _ (wakeOne_follows ha false)
  | wakeAll ha =>
    obtain ⟨hp, -, rfl⟩ := wakeAll_eq ha
    exact hself _ _ (follows_main (.inl (by rw [hp]; rfl)) rfl)
  | stop hp => exact hself _ _ (follows_main (.inl (by rw [hp]; rfl)) rfl)
  | _ => exact hself _ _ (follows_free rfl rfl)

theorem wakened_roles (p : Pc) : p.wakened.mainOnly = p.mainOnly ∧
    p.wakened.workerOnly = p.workerOnly := by
  cases p <;> exact ⟨rfl, rfl⟩

/-! ## Before and after `stop` -/

/-- Thread `u` after a move of `t` to `p`. -/
theorem update_cases {f : Fin n → Pc} {p : Pc} {P : Fin n → Pc → Prop} (hp : P t p)
    (hf : ∀ u, u ≠ t → P u (f u)) (u : Fin n) : P u (Function.update f t p u) := by
  by_cases hu : u = t
  · subst hu; rw [Function.update_self]; exact hp
  · rw [Function.update_of_ne hu]; exact hf u hu

theorem live_change (hi : Inv s) (hc : Change s t s') (hs' : s'.stopping = false) (u : Fin n) :
    (s'.pc u).past = false := by
  have hmove : ∀ p : Pc, s.stopping = false → p.past = false →
      (Function.update s.pc t p u).past = false := fun p hs hp =>
    update_cases (P := fun _ q => q.past = false) hp (fun u _ => hi.live hs u) u
  cases hc with
  | quiet _ _ hs hk => rw [(hk u).2.2, hi.live (hs ▸ hs') u]
  | exit hw hid =>
    have := hi.idle_pos hs' hid
    omega
  | take _ _ _ hk => exact hmove _ hs' (congrArg Kind.past hk)
  | mark _ hk _ =>
    exact hmove _ hs' ((congrArg Kind.past hk).trans (hi.live hs' t))
  | takeIdle _ _ _ => exact hmove _ hs' rfl
  | crit _ _ hs hp hh => rw [hp]; exact hmove _ (hs ▸ hs') (past_of_holds hh)
  | release _ hk => exact hmove _ hs' (congrArg Kind.past hk)
  | releaseIdle _ hk => exact hmove _ hs' (congrArg Kind.past hk)
  | leave _ => exact hmove _ hs' rfl
  | stop _ => cases hs'

theorem stop_change (hn2 : 2 ≤ n) (hi : Inv s) (hc : Change s t s') (hs' : s'.stopping = true) :
    s'.word = 0 ∧ s'.stack = [] ∧
      ∀ u, (s'.pc u).past = true ∨ (s'.pc u).idle = true ∧ u.val ≠ 0 := by
  -- most steps are not possible any more
  have hno : s.stopping = true → (s.pc t).idle = false → (s.pc t).past = false → False := by
    intro hs hid ho
    rw [hi.running hid ho] at hs
    cases hs
  cases hc with
  | quiet hw hst hs hk =>
    obtain ⟨h1, h2, h3⟩ := hi.stop (hs ▸ hs')
    refine ⟨hw.trans h1, hst.trans h2, fun u => ?_⟩
    rw [(hk u).2.1, (hk u).2.2]
    exact h3 u
  | exit _ _ =>
    obtain ⟨h1, h2, h3⟩ := hi.stop hs'
    exact ⟨h1, h2, update_cases (P := fun u q => q.past = true ∨ q.idle = true ∧ u.val ≠ 0)
      (.inl rfl) fun u _ => h3 u⟩
  | take _ _ hk _ => exact (hno hs' (congrArg Kind.idle hk) (congrArg Kind.past hk)).elim
  | mark h1 _ _ => have := (hi.stop hs').1; omega
  | takeIdle h2 _ _ => have := (hi.stop hs').1; omega
  | crit hh _ hs _ _ => exact (hno (hs ▸ hs') (idle_of_holds hh) (past_of_holds hh)).elim
  | release hp _ => exact (hno hs' (by rw [hp]; rfl) (by rw [hp]; rfl)).elim
  | releaseIdle hp _ => exact (hno hs' (by rw [hp]; rfl) (by rw [hp]; rfl)).elim
  | leave hp =>
    have h1 := (hi.exit_word hp).2.1
    have h2 := (hi.stop hs').1
    omega
  | stop hp =>
    have hpin : (s.pc t).pinned n (t.val == 0) = true := by rw [hp]; rfl
    refine ⟨rfl, (hi.outside_word hp).2,
      update_cases (P := fun u q => q.past = true ∨ q.idle = true ∧ u.val ≠ 0) (.inl rfl) ?_⟩
    intro u hu
    obtain ⟨h0, -, hid⟩ := hi.pinned hpin hu hn2
    exact .inr ⟨hid, fun h => hu (Fin.ext (h.trans h0.symm))⟩

/-! ## The invariant -/

theorem Inv.init (hs : s.Init) : Inv s := by
  obtain ⟨hw, hst, hpc, -, -, -, -, -, hstop⟩ := hs
  have hpc' : ∀ t, s.pc t = .outside ∧ t.val = 0 ∨ s.pc t = .startLoad ∧ t.val ≠ 0 := by
    intro t
    rw [hpc t]
    split
    · exact .inl ⟨rfl, by assumption⟩
    · exact .inr ⟨rfl, by assumption⟩
  have hh : s.holders = 0 := by
    refine Finset.sum_eq_zero fun t _ => ?_
    obtain ⟨h, -⟩ | ⟨h, -⟩ := hpc' t <;> rw [h] <;> rfl
  have hid : s.idlers = n - 1 := by
    have h1 := idlers_add_busy (s := s)
    cases n with
    | zero => rfl
    | succ m =>
      rw [Fin.sum_univ_succ] at h1
      have h2 : ∀ i : Fin m, (!(s.pc i.succ).idle).toNat = 0 := fun i => by
        rw [hpc i.succ]; rfl
      have h3 : (!(s.pc 0).idle).toNat = 1 := by rw [hpc 0]; rfl
      simp only [h2, h3, Finset.sum_const_zero] at h1
      omega
  refine ⟨fun t => ?_, fun t => ?_, fun t => ?_, fun t => ?_, ?_, ?_, ?_, fun _ t => ?_, ?_⟩
  · obtain ⟨h, -⟩ | ⟨h, -⟩ := hpc' t <;> rw [h] <;> trivial
  · obtain ⟨h, -⟩ | ⟨h, -⟩ := hpc' t <;> rw [h]
    · exact ⟨hw, hst⟩
    · trivial
  · obtain ⟨h, h0⟩ | ⟨h, -⟩ := hpc' t <;> rw [h]
    · exact fun _ => h0
    · exact fun h => (Bool.false_ne_true h).elim
  · obtain ⟨h, -⟩ | ⟨h, h0⟩ := hpc' t <;> rw [h]
    · exact fun h => (Bool.false_ne_true h).elim
    · exact fun _ => h0
  · omega
  · intro _; omega
  · intro _
    simp only [hst, ne_eq, not_true, iff_false]
    omega
  · obtain ⟨h, -⟩ | ⟨h, -⟩ := hpc' t <;> rw [h] <;> rfl
  · intro h; rw [hstop] at h; cases h

theorem Inv.step (hn2 : 2 ≤ n) (hn : n ≤ maxThreads) (hi : Inv s) (h : Step t s s') : Inv s' := by
  have hc := h.change (hi.loc t)
  refine ⟨fun u => ?_, fun u => ?_, fun u => ?_, fun u => ?_, lock_change hn hi hc,
    idle_change hn hn2 hi hc, work_change hi hc, live_change hi hc, stop_change hn2 hi hc⟩
  · by_cases hu : u = t
    · subst hu; exact self_local hi h
    · obtain h' | ⟨h', -, -⟩ := h.other hu <;> rw [h']
      · exact hi.loc u
      · exact wakened_local (hi.loc u)
  · by_cases hu : u = t
    · subst hu; exact self_view hn hi h
    · obtain h' | ⟨h', hw, hst⟩ := h.other hu <;> rw [h']
      · exact view_congr (hi.view u) (holder_change hi hc hu) (pinned_change hn2 hi hc hu)
      · rw [hw, hst]; exact wakened_view (hi.loc u) (hi.view u)
  · intro hm
    by_cases hu : u = t
    · subst hu
      rcases (self_follows h).1 hm with hm | hm
      · exact hi.main u hm
      · simpa using hm
    · obtain h' | ⟨h', -, -⟩ := h.other hu <;> rw [h'] at hm
      · exact hi.main u hm
      · exact hi.main u ((wakened_roles _).1 ▸ hm)
  · intro hm
    by_cases hu : u = t
    · subst hu
      rcases (self_follows h).2 hm with hm | hm
      · exact hi.worker u hm
      · simpa using hm
    · obtain h' | ⟨h', -, -⟩ := h.other hu <;> rw [h'] at hm
      · exact hi.worker u hm
      · exact hi.worker u ((wakened_roles _).2 ▸ hm)

/-- The invariant holds in every reachable state. -/
theorem Inv.reach (hn2 : 2 ≤ n) (hn : n ≤ maxThreads) (h : (pool n).Reach s) : Inv s :=
  h.invariant (fun _ => Inv.init) fun _ _ _ hi hst => hi.step hn2 hn hst

end Qblaze.Futex
