import Qblaze.Lib.System

/-!
# The parallel map of the pool (`src/threading.rs`)

`PoolRef::map` runs in rounds. In a round the threads take items under the lock, each with the next
slot of the output, and run the closure outside of it, in any order. A round ends when there is no
slot or no item left, and then the length of the output is set. The flag `more`, which says that
another round is needed, is set when the slots run out; it is never reset.

- **Safety** (`Inv`): in every interleaving a slot below the length has the result for its item, and
  no item is passed to the closure twice.
- **The rounds** (`Rounds`): where a round can start. It depends on the capacities, but not on the
  interleaving.
- **The end** (`halts_iff_ends`): exactly when the map ends, which for some iterators it does not,
  because `more` is left over from an earlier round.

The iterator is the list of its items; its size hint is a function of the number of items left. The
growth of a vector is a parameter, as it is not specified; `none` is the panic of `Vec::reserve`.
The slots are compared by their addresses, so that all slots of a type without a size are one.
-/

namespace Qblaze

open Lib

namespace PoolMap

variable {α β τ : Type}

/-- `iter_size`: how many items to expect, and whether that is an upper bound. -/
def iterSize (hint : Nat × Option Nat) : Nat × Bool :=
  match hint with
  | (_, some max) => (max, true)
  | (min, none) => (max min 1, false)

/-- At most one item is left, and the hint says so: the rest is done without the pool. -/
def Small (hint : Nat × Option Nat) : Prop := (iterSize hint).2 = true ∧ (iterSize hint).1 ≤ 1

instance (hint : Nat × Option Nat) : Decidable (Small hint) := inferInstanceAs (Decidable (_ ∧ _))

/-- What `map` is given: the items, the size hint by the number of items left, the closure, the size
of a result in bytes, and how vectors grow (from a capacity and a length, by a number of items). -/
structure Input (α β : Type) where
  items : List α
  hint : Nat → Nat × Option Nat
  f : α → β
  size : Nat
  reserve : Nat → Nat → Nat → Option Nat
  /-- `Iterator::size_hint` gives bounds. -/
  valid : ∀ n, n ≤ items.length → (hint n).1 ≤ n ∧ ∀ max, (hint n).2 = some max → n ≤ max
  /-- `Vec::reserve` makes room. -/
  room : ∀ cap len n cap', reserve cap len n = some cap' → len + n ≤ cap'

/-- Where `map` is: before a round, in a round (while the task is on the stack, or after), or at its
end. -/
inductive Phase where
  | start
  | round (live : Bool)
  | done
  deriving DecidableEq

/-- The variables of `map` and `MapState`, and what each thread runs: an item and its slot. `calls`
are the calls of the closure, with their slots. -/
structure State (α β τ : Type) where
  iter : List α
  slots : Nat → Option β
  len : Nat
  cap : Nat
  out : Nat
  more : Bool
  phase : Phase
  busy : τ → Option (α × Nat)
  calls : List (α × Nat)

/-- Before the loop of `map`. -/
def State.initial (items : List α) : State α β τ :=
  ⟨items, fun _ => none, 0, 0, 0, false, .start, fun _ => none, []⟩

/-- The slots up to the length. -/
def State.result (s : State α β τ) : List (Option β) := (List.range s.len).map s.slots

variable (inp : Input α β)

/-- One step, of the caller of `map` (`none`) or of a thread. -/
inductive Step [DecidableEq τ] : Option τ → State α β τ → State α β τ → Prop
  /-- `out.extend(state.iter.map(f))` -/
  | extend {s} (hp : s.phase = .start) (hs : Small (inp.hint s.iter.length)) :
    Step none s { s with
      iter := []
      slots := fun k =>
        if s.len ≤ k then (s.iter[k - s.len]?.map inp.f).or (s.slots k) else s.slots k
      len := s.len + s.iter.length
      out := s.len + s.iter.length
      phase := .done
      calls := s.calls ++ s.iter.zipIdx s.len }
  /-- `out.reserve(n)` and the submission of the task -/
  | submit {s cap} (hp : s.phase = .start) (hs : ¬ Small (inp.hint s.iter.length))
    (hc : inp.reserve s.cap s.len (iterSize (inp.hint s.iter.length)).1 = some cap) :
    Step none s { s with cap := cap, out := s.len, phase := .round true }
  /-- no slot is left: `p == state.end` -/
  | full {s} (i : τ) (hp : s.phase = .round true) (hi : s.busy i = none)
    (hc : s.out * inp.size = s.cap * inp.size) :
    Step (some i) s { s with
      more := decide ((inp.hint s.iter.length).2 ≠ some 0)
      phase := .round false }
  /-- no item is left -/
  | empty {s} (i : τ) (hp : s.phase = .round true) (hi : s.busy i = none)
    (hc : s.out * inp.size ≠ s.cap * inp.size) (hn : s.iter = []) :
    Step (some i) s { s with phase := .round false }
  /-- an item and the next slot -/
  | take {s x iter} (i : τ) (hp : s.phase = .round true) (hi : s.busy i = none)
    (hc : s.out * inp.size ≠ s.cap * inp.size) (hn : s.iter = x :: iter) :
    Step (some i) s { s with
      iter := iter, out := s.out + 1, busy := Function.update s.busy i (some (x, s.out)) }
  /-- `p.write(f(v))` -/
  | write {s x k} (i : τ) (hi : s.busy i = some (x, k)) :
    Step (some i) s { s with
      slots := Function.update s.slots k (some (inp.f x))
      busy := Function.update s.busy i none
      calls := s.calls ++ [(x, k)] }
  /-- the scope ends: `out.set_len(n)`, where `offset_from` panics for results without a size -/
  | close {s} (hp : s.phase = .round false) (hi : ∀ i, s.busy i = none) (hz : inp.size ≠ 0) :
    Step none s { s with len := s.out, phase := if s.more then .start else .done }

/-- `PoolRef::map` with the threads `τ`. -/
def system (τ : Type) [DecidableEq τ] (inp : Input α β) : System (State α β τ) (Option τ) where
  init s := s = .initial inp.items
  step := Step inp

/-! ## Safety -/

/-- The invariant of every interleaving. -/
structure Inv (s : State α β τ) : Prop where
  iter : inp.items.drop s.out = s.iter
  out_le : s.out ≤ inp.items.length
  len_le : s.len ≤ s.out
  start : s.phase = .start → s.len = s.out ∧ ∀ i, s.busy i = none
  round : ∀ b, s.phase = .round b → s.out ≤ s.cap ∧ s.len < s.cap
  ended : s.phase = .round false → s.more = false → s.iter = []
  done : s.phase = .done → s.iter = [] ∧ s.len = s.out ∧ ∀ i, s.busy i = none
  called : ∀ x k, (x, k) ∈ s.calls →
    k < s.out ∧ inp.items[k]? = some x ∧ s.slots k = some (inp.f x)
  nodup : (s.calls.map Prod.snd).Nodup
  busy : ∀ i x k, s.busy i = some (x, k) →
    k < s.out ∧ inp.items[k]? = some x ∧ k ∉ s.calls.map Prod.snd
  apart : ∀ i j x y k, s.busy i = some (x, k) → s.busy j = some (y, k) → i = j
  covered : ∀ k < s.out, k ∈ s.calls.map Prod.snd ∨ ∃ i x, s.busy i = some (x, k)
  written : ∀ k < s.len, k ∈ s.calls.map Prod.snd

variable {inp} {s s' : State α β τ}

theorem inv_initial : Inv inp (State.initial inp.items : State α β τ) where
  iter := rfl
  out_le := Nat.zero_le _
  len_le := Nat.le_refl _
  start _ := ⟨rfl, fun _ => rfl⟩
  round b h := by cases h
  ended h := by cases h
  done h := by cases h
  called x k h := absurd h List.not_mem_nil
  nodup := List.nodup_nil
  busy i x k h := by cases h
  apart i j x y k h := by cases h
  covered k h := absurd h (Nat.not_lt_zero k)
  written k h := absurd h (Nat.not_lt_zero k)

theorem length_iter (h : Inv inp s) : s.iter.length = inp.items.length - s.out := by
  rw [← h.iter, List.length_drop]

/-- A hint that is not small asks for room. -/
theorem iterSize_pos {hint : Nat × Option Nat} (h : ¬ Small hint) : 0 < (iterSize hint).1 := by
  obtain ⟨min, max⟩ := hint
  cases max with
  | none => exact Nat.lt_of_lt_of_le Nat.one_pos (Nat.le_max_right min 1)
  | some max =>
    by_contra h0
    exact h ⟨rfl, by omega⟩

/-- The hint is small exactly if its upper bound is at most one item. -/
theorem small_iff {hint : Nat × Option Nat} : Small hint ↔ ∃ max, hint.2 = some max ∧ max ≤ 1 := by
  obtain ⟨min, max⟩ := hint
  cases max <;> simp [Small, iterSize]

theorem mem_calls {s : State α β τ} {k : Nat} :
    k ∈ s.calls.map Prod.snd ↔ ∃ x, (x, k) ∈ s.calls := by
  simp

/-- Once all threads are idle, every slot that was handed out is written. -/
theorem Inv.all_called (h : Inv inp s) (hi : ∀ i, s.busy i = none) :
    ∀ k < s.out, k ∈ s.calls.map Prod.snd := by
  intro k hk
  rcases h.covered k hk with hm | ⟨i, x, hj⟩
  · exact hm
  · rw [hi i] at hj
    cases hj

/-- The caller finishes the last item itself. -/
theorem Inv.extend (h : Inv inp s) (hp : s.phase = .start) :
    Inv inp { s with
      iter := []
      slots := fun k =>
        if s.len ≤ k then (s.iter[k - s.len]?.map inp.f).or (s.slots k) else s.slots k
      len := s.len + s.iter.length
      out := s.len + s.iter.length
      phase := .done
      calls := s.calls ++ s.iter.zipIdx s.len } := by
  obtain ⟨hlen, hidle⟩ := h.start hp
  have hout := h.out_le
  have hil := length_iter h
  have hmem : ∀ x k, (x, k) ∈ s.iter.zipIdx s.len → s.len ≤ k ∧ k < s.len + s.iter.length ∧
      s.iter[k - s.len]? = some x := by
    intro x k hm
    have h1 := List.mem_zipIdx hm
    refine ⟨h1.1, h1.2.1, ?_⟩
    rw [h1.2.2, List.getElem?_eq_getElem]
  have hold : ∀ k, k ∈ s.calls.map Prod.snd → k < s.len := by
    intro k hk
    obtain ⟨x, hx⟩ := mem_calls.mp hk
    rw [hlen]
    exact (h.called x k hx).1
  have hmap : (s.calls ++ s.iter.zipIdx s.len).map Prod.snd =
      s.calls.map Prod.snd ++ List.range' s.len s.iter.length := by
    rw [List.map_append, List.zipIdx_map_snd]
  have hall : ∀ k < s.len + s.iter.length,
      k ∈ (s.calls ++ s.iter.zipIdx s.len).map Prod.snd := by
    intro k hk
    rw [hmap, List.mem_append, List.mem_range'_1]
    by_cases hlt : k < s.len
    · exact .inl (h.all_called hidle k (hlen ▸ hlt))
    · exact .inr ⟨by omega, hk⟩
  constructor
  case iter =>
    show inp.items.drop (s.len + s.iter.length) = []
    exact List.drop_of_length_le (by omega)
  case out_le =>
    show s.len + s.iter.length ≤ _
    omega
  case len_le => exact Nat.le_refl _
  case start => exact fun hs => by cases hs
  case round => exact fun b hs => by cases hs
  case ended => exact fun hs => by cases hs
  case done => exact fun _ => ⟨rfl, rfl, hidle⟩
  case called =>
    intro x k hm
    rcases List.mem_append.mp hm with hm | hm
    · obtain ⟨h1, h2, h3⟩ := h.called x k hm
      have hlt : ¬ s.len ≤ k := Nat.not_le.mpr (hlen ▸ h1)
      exact ⟨by show k < s.len + s.iter.length; omega, h2, (if_neg hlt).trans h3⟩
    · obtain ⟨h1, h2, h3⟩ := hmem x k hm
      refine ⟨h2, ?_, ?_⟩
      · rw [← h3, ← h.iter, List.getElem?_drop, ← hlen]
        congr 1
        omega
      · show (if s.len ≤ k then _ else _) = _
        rw [if_pos h1, h3]
        rfl
  case nodup =>
    simp only [hmap]
    refine List.nodup_append.mpr ⟨h.nodup, List.nodup_range', fun a ha b hb => ?_⟩
    have h1 := hold a ha
    have h2 := (List.mem_range'_1.mp hb).1
    omega
  case busy =>
    intro i x k hi
    rw [hidle i] at hi
    cases hi
  case apart =>
    intro i j x y k hi
    rw [hidle i] at hi
    cases hi
  case covered => exact fun k hk => .inl (hall k hk)
  case written => exact hall

/-- A round starts. -/
theorem Inv.submit (h : Inv inp s) {cap : Nat} (hp : s.phase = .start)
    (hs : ¬ Small (inp.hint s.iter.length))
    (hc : inp.reserve s.cap s.len (iterSize (inp.hint s.iter.length)).1 = some cap) :
    Inv inp { s with cap := cap, out := s.len, phase := .round true } := by
  obtain ⟨hlen, hidle⟩ := h.start hp
  have hroom := inp.room _ _ _ _ hc
  have hpos := iterSize_pos hs
  constructor
  case iter => exact hlen ▸ h.iter
  case out_le => exact hlen ▸ h.out_le
  case len_le => exact Nat.le_refl _
  case start => exact fun hs => by cases hs
  case round => exact fun _ _ => ⟨by show s.len ≤ cap; omega, by show s.len < cap; omega⟩
  case ended => exact fun hs => by cases hs
  case done => exact fun hs => by cases hs
  case called => exact hlen ▸ h.called
  case nodup => exact h.nodup
  case busy => exact hlen ▸ h.busy
  case apart => exact h.apart
  case covered => exact hlen ▸ h.covered
  case written => exact h.written

/-- The task leaves the stack, for want of a slot or of an item. -/
theorem Inv.stop (h : Inv inp s) (more : Bool) (hp : s.phase = .round true)
    (hm : more = false → s.iter = []) :
    Inv inp { s with more := more, phase := .round false } where
  iter := h.iter
  out_le := h.out_le
  len_le := h.len_le
  start hs := by cases hs
  round _ _ := h.round true hp
  ended _ := hm
  done hs := by cases hs
  called := h.called
  nodup := h.nodup
  busy := h.busy
  apart := h.apart
  covered := h.covered
  written := h.written

/-- The length is set once all threads are idle. -/
theorem Inv.close (h : Inv inp s) (hp : s.phase = .round false) (hi : ∀ i, s.busy i = none) :
    Inv inp { s with len := s.out, phase := if s.more then .start else .done } where
  iter := h.iter
  out_le := h.out_le
  len_le := Nat.le_refl _
  start _ := ⟨rfl, hi⟩
  round b hs := by
    cases hm : s.more <;> simp only [hm] at hs <;> cases hs
  ended hs := by
    cases hm : s.more <;> simp only [hm] at hs <;> cases hs
  done hs := by
    cases hm : s.more with
    | false => exact ⟨h.ended hp hm, rfl, hi⟩
    | true =>
      simp only [hm] at hs
      cases hs
  called := h.called
  nodup := h.nodup
  busy := h.busy
  apart := h.apart
  covered := h.covered
  written := h.all_called hi

/-- A hint of no item is kept to. -/
theorem iter_eq_nil_of_hint (h : Inv inp s) (hm : (inp.hint s.iter.length).2 = some 0) :
    s.iter = [] := by
  have hle : s.iter.length ≤ inp.items.length := by
    rw [length_iter h]
    exact Nat.sub_le ..
  exact List.eq_nil_of_length_eq_zero (Nat.le_zero.mp ((inp.valid _ hle).2 0 hm))

section Interleaving

variable [DecidableEq τ]

/-- A thread takes an item and the next slot. -/
theorem Inv.take (h : Inv inp s) {x : α} {iter : List α} {i : τ} (hp : s.phase = .round true)
    (hi : s.busy i = none) (hc : s.out ≠ s.cap) (hn : s.iter = x :: iter) :
    Inv inp { s with
      iter := iter, out := s.out + 1, busy := Function.update s.busy i (some (x, s.out)) } := by
  have hiter := h.iter
  rw [hn] at hiter
  have hlt : s.out < inp.items.length := by
    have := congrArg List.length hiter
    rw [List.length_drop, List.length_cons] at this
    omega
  rw [List.drop_eq_getElem_cons hlt, List.cons.injEq] at hiter
  obtain ⟨hx, hiter⟩ := hiter
  have hget : inp.items[s.out]? = some x := by rw [List.getElem?_eq_getElem hlt, hx]
  have hnot : s.out ∉ s.calls.map Prod.snd := fun hm => by
    obtain ⟨y, hy⟩ := mem_calls.mp hm
    exact absurd (h.called y _ hy).1 (Nat.lt_irrefl _)
  have hcases : ∀ j y k, Function.update s.busy i (some (x, s.out)) j = some (y, k) →
      (j = i ∧ y = x ∧ k = s.out) ∨ (j ≠ i ∧ s.busy j = some (y, k)) := by
    intro j y k hj
    by_cases hji : j = i
    · subst hji
      rw [Function.update_self] at hj
      cases hj
      exact .inl ⟨rfl, rfl, rfl⟩
    · rw [Function.update_of_ne hji] at hj
      exact .inr ⟨hji, hj⟩
  have hr := h.round true hp
  constructor
  case iter => exact hiter
  case out_le => exact hlt
  case len_le => exact Nat.le_succ_of_le h.len_le
  case start => exact fun hs => by simp only [hp] at hs; cases hs
  case round => exact fun _ _ => ⟨Nat.lt_of_le_of_ne hr.1 hc, hr.2⟩
  case ended => exact fun hs => by simp only [hp] at hs; cases hs
  case done => exact fun hs => by simp only [hp] at hs; cases hs
  case called =>
    intro y k hm
    obtain ⟨h1, h2⟩ := h.called y k hm
    exact ⟨Nat.lt_succ_of_lt h1, h2⟩
  case nodup => exact h.nodup
  case busy =>
    intro j y k hj
    obtain ⟨-, rfl, rfl⟩ | ⟨-, hj⟩ := hcases j y k hj
    · exact ⟨Nat.lt_succ_self _, hget, hnot⟩
    · obtain ⟨h1, h2⟩ := h.busy j y k hj
      exact ⟨Nat.lt_succ_of_lt h1, h2⟩
  case apart =>
    intro j j' y y' k hj hj'
    obtain ⟨e, -, hk⟩ | ⟨-, hb⟩ := hcases j y k hj <;>
      obtain ⟨e', -, hk'⟩ | ⟨-, hb'⟩ := hcases j' y' k hj'
    · rw [e, e']
    · exact absurd (h.busy j' y' k hb').1 (by omega)
    · exact absurd (h.busy j y k hb).1 (by omega)
    · exact h.apart j j' y y' k hb hb'
  case covered =>
    intro k hk
    rcases Nat.lt_succ_iff_lt_or_eq.mp hk with hk | rfl
    · rcases h.covered k hk with hm | ⟨j, y, hj⟩
      · exact .inl hm
      · have hji : j ≠ i := fun e => by rw [e, hi] at hj; cases hj
        exact .inr ⟨j, y, (Function.update_of_ne hji _ _).trans hj⟩
    · exact .inr ⟨i, x, Function.update_self ..⟩
  case written => exact h.written

/-- A thread writes the result of its item. -/
theorem Inv.write (h : Inv inp s) {x : α} {k : Nat} {i : τ} (hi : s.busy i = some (x, k)) :
    Inv inp { s with
      slots := Function.update s.slots k (some (inp.f x))
      busy := Function.update s.busy i none
      calls := s.calls ++ [(x, k)] } := by
  obtain ⟨hk, hx, hnot⟩ := h.busy i x k hi
  have hcases : ∀ j y m, Function.update s.busy i none j = some (y, m) →
      j ≠ i ∧ s.busy j = some (y, m) := by
    intro j y m hj
    by_cases hji : j = i
    · subst hji
      rw [Function.update_self] at hj
      cases hj
    · rw [Function.update_of_ne hji] at hj
      exact ⟨hji, hj⟩
  have hnone : ∀ j, s.busy j = none → Function.update s.busy i none j = none := by
    intro j hj
    by_cases hji : j = i
    · subst hji
      exact Function.update_self ..
    · rw [Function.update_of_ne hji, hj]
  have hmap : (s.calls ++ [(x, k)]).map Prod.snd = s.calls.map Prod.snd ++ [k] := by simp
  constructor
  case iter => exact h.iter
  case out_le => exact h.out_le
  case len_le => exact h.len_le
  case start => exact fun hs => ⟨(h.start hs).1, fun j => hnone j ((h.start hs).2 j)⟩
  case round => exact h.round
  case ended => exact h.ended
  case done => exact fun hs =>
    ⟨(h.done hs).1, (h.done hs).2.1, fun j => hnone j ((h.done hs).2.2 j)⟩
  case called =>
    intro y m hm
    rcases List.mem_append.mp hm with hm | hm
    · obtain ⟨h1, h2, h3⟩ := h.called y m hm
      have hne : m ≠ k := fun e => hnot (mem_calls.mpr ⟨y, e ▸ hm⟩)
      exact ⟨h1, h2, (Function.update_of_ne hne _ _).trans h3⟩
    · cases List.mem_singleton.mp hm
      exact ⟨hk, hx, Function.update_self ..⟩
  case nodup =>
    simp only [hmap]
    exact List.nodup_append.mpr ⟨h.nodup, List.nodup_singleton k, fun a ha b hb => by
      rw [List.mem_singleton.mp hb]
      exact fun e => hnot (e ▸ ha)⟩
  case busy =>
    intro j y m hj
    obtain ⟨hji, hb⟩ := hcases j y m hj
    obtain ⟨h1, h2, h3⟩ := h.busy j y m hb
    refine ⟨h1, h2, ?_⟩
    simp only [hmap, List.mem_append, List.mem_singleton, not_or]
    exact ⟨h3, fun e => hji (h.apart j i y x k (e ▸ hb) hi)⟩
  case apart =>
    intro j j' y y' m hj hj'
    exact h.apart j j' y y' m (hcases j y m hj).2 (hcases j' y' m hj').2
  case covered =>
    intro m hm
    simp only [hmap, List.mem_append, List.mem_singleton]
    rcases h.covered m hm with hm | ⟨j, y, hj⟩
    · exact .inl (.inl hm)
    · by_cases hji : j = i
      · rw [hji, hi] at hj
        cases hj
        exact .inl (.inr rfl)
      · exact .inr ⟨j, y, (Function.update_of_ne hji _ _).trans hj⟩
  case written =>
    intro m hm
    simp only [hmap, List.mem_append]
    exact .inl (h.written m hm)

/-- Every step keeps the invariant. -/
theorem Inv.step (h : Inv inp s) {i : Option τ} (hst : Step inp i s s') : Inv inp s' := by
  cases hst with
  | extend hp _ => exact h.extend hp
  | submit hp hs hc => exact h.submit hp hs hc
  | full i hp _ _ =>
    refine h.stop _ hp fun hm => iter_eq_nil_of_hint h ?_
    simpa using hm
  | empty i hp _ _ hn => exact h.stop s.more hp fun _ => hn
  | take i hp hi hc hn => exact h.take hp hi (fun e => hc (by rw [e])) hn
  | write i hi => exact h.write hi
  | close hp hi _ => exact h.close hp hi

theorem inv_of_reach (h : (system τ inp).Reach s) : Inv inp s :=
  h.invariant (fun _ hs => hs ▸ inv_initial) fun _ _ _ hi hst => hi.step hst

end Interleaving

/-! ## The rounds -/

variable (inp) in
/-- The capacity when round `k` starts, if every round before it filled the slots. -/
def caps : Nat → Option Nat
  | 0 => some 0
  | k + 1 => (caps k).bind fun c =>
    inp.reserve c c (iterSize (inp.hint (inp.items.length - c))).1

variable (inp) in
/-- Where round `k` would start, the hint says that at most one item is left. -/
def SmallAt (k : Nat) : Prop :=
  ∃ c, caps inp k = some c ∧ Small (inp.hint (inp.items.length - c))

variable (inp) in
/-- The condition under which the loop of `map` ends: the first hint allows at most one item, or a
later one does so, that of the exhausted iterator included, or the first round has a slot too many. -/
def Ends : Prop :=
  SmallAt inp 0 ∨
    inp.size ≠ 0 ∧ ((∃ k, SmallAt inp k) ∨ ∃ c, caps inp 1 = some c ∧ inp.items.length < c)

theorem caps_succ {k c' : Nat} (h : caps inp (k + 1) = some c') : ∃ c, caps inp k = some c ∧
    inp.reserve c c (iterSize (inp.hint (inp.items.length - c))).1 = some c' := by
  rw [caps] at h
  exact Option.bind_eq_some_iff.mp h

/-- The capacities do not shrink. -/
theorem caps_le {j k : Nat} (hjk : j ≤ k) {c' : Nat} (h : caps inp k = some c') :
    ∃ c, caps inp j = some c ∧ c ≤ c' := by
  induction hjk generalizing c' with
  | refl => exact ⟨c', h, Nat.le_refl _⟩
  | step _ ih =>
    obtain ⟨d, hd, hc⟩ := caps_succ h
    obtain ⟨c, hj, hle⟩ := ih hd
    have := inp.room _ _ _ _ hc
    exact ⟨c, hj, by omega⟩

variable (inp) in
/-- The state is in the regular rounds, which fill all slots: it started at round `j`. -/
structure Regular (j : Nat) (s : State α β τ) : Prop where
  len : caps inp j = some s.len
  sized : j = 0 ∨ inp.size ≠ 0
  large : ∀ i < j, ¬ SmallAt inp i

variable (inp) in
/-- The state is after a round that took all items and set `more`, or kept it. -/
structure Late (s : State α β τ) : Prop where
  sized : inp.size ≠ 0
  iter : s.iter = []
  more : s.more = true
  first : ∃ c, caps inp 1 = some c ∧ c ≤ inp.items.length
  last : ∃ k c, caps inp k = some c ∧ inp.items.length ≤ c ∧ ∀ i < k, ¬ SmallAt inp i

variable (inp) in
/-- The invariant of the rounds. -/
def Rounds (s : State α β τ) : Prop :=
  match s.phase with
  | .start => (∃ j, Regular inp j s ∧ s.cap = s.len ∧ (s.more = false ↔ j = 0)) ∨ Late inp s
  | .round live =>
    (∃ j, Regular inp j s ∧ ¬ SmallAt inp j ∧ caps inp (j + 1) = some s.cap ∧
      (live = true → (s.more = false ↔ j = 0)) ∧
      (live = false → inp.size ≠ 0 →
        s.out = s.cap ∧ (s.more = false → SmallAt inp (j + 1)) ∨
        s.out < s.cap ∧ s.iter = [] ∧ (s.more = false ↔ j = 0))) ∨
    Late inp s ∧ ¬ Small (inp.hint 0)
  | .done => Ends inp

theorem rounds_initial : Rounds inp (State.initial inp.items : State α β τ) :=
  .inl ⟨0, ⟨rfl, .inl rfl, fun i hi => absurd hi (Nat.not_lt_zero i)⟩, rfl,
    fun _ => rfl, fun _ => rfl⟩

/-- In the regular rounds, the hint that a round reads is that of its number. -/
theorem Regular.smallAt {j : Nat} (hr : Regular inp j s) (h : Inv inp s) (hp : s.len = s.out) :
    SmallAt inp j ↔ Small (inp.hint s.iter.length) := by
  have hlen := length_iter h
  rw [← hp] at hlen
  constructor
  · rintro ⟨c, hc, hs⟩
    rw [hr.len, Option.some.injEq] at hc
    rwa [hlen, hc]
  · intro hs
    exact ⟨_, hr.len, hlen ▸ hs⟩

/-- After the items are gone, one hint decides. -/
theorem Late.smallAt (hl : Late inp s) (hs : Small (inp.hint 0)) : Ends inp := by
  obtain ⟨k, c, hc, hle, -⟩ := hl.last
  refine .inr ⟨hl.sized, .inl ⟨k, c, hc, ?_⟩⟩
  rwa [Nat.sub_eq_zero_of_le hle]

section Interleaving

variable [DecidableEq τ]

/-- Every step keeps the rounds. -/
theorem Rounds.step (hr : Rounds inp s) (h : Inv inp s) {i : Option τ} (hst : Step inp i s s') :
    Rounds inp s' := by
  cases hst with
  | extend hp hs =>
    simp only [Rounds, hp] at hr
    obtain ⟨j, hr, -⟩ | hl := hr
    · have hj := (hr.smallAt h (h.start hp).1).mpr hs
      rcases hr.sized with rfl | hz
      · exact .inl hj
      · exact .inr ⟨hz, .inl ⟨j, hj⟩⟩
    · rw [hl.iter] at hs
      exact hl.smallAt hs
  | submit hp hs hc =>
    simp only [Rounds, hp] at hr
    obtain ⟨j, hr, hcap, hm⟩ | hl := hr
    · have hj := mt (hr.smallAt h (h.start hp).1).mp hs
      refine .inl ⟨j, ⟨hr.len, hr.sized, hr.large⟩, hj, ?_, fun _ => hm, fun e => by cases e⟩
      rw [caps, hr.len, Option.bind_some, (h.start hp).1, ← length_iter h, ← (h.start hp).1]
      rwa [hcap] at hc
    · refine .inr ⟨⟨hl.sized, hl.iter, hl.more, hl.first, hl.last⟩, ?_⟩
      rwa [hl.iter] at hs
  | full i hp _ hc =>
    simp only [Rounds, hp] at hr
    obtain ⟨j, hr, hj, hcap, hm, -⟩ | ⟨hl, hs⟩ := hr
    · refine .inl ⟨j, ⟨hr.len, hr.sized, hr.large⟩, hj, hcap, (fun e => by cases e), fun _ hz => ?_⟩
      have hout := Nat.eq_of_mul_eq_mul_right (Nat.pos_of_ne_zero hz) hc
      refine .inl ⟨hout, fun hmore => ⟨_, hcap, ?_⟩⟩
      have hhint : (inp.hint s.iter.length).2 = some 0 := by simpa using hmore
      rw [length_iter h, hout] at hhint
      exact small_iff.mpr ⟨0, hhint, Nat.zero_le 1⟩
    · refine .inr ⟨⟨hl.sized, hl.iter, ?_, hl.first, hl.last⟩, hs⟩
      rw [hl.iter]
      exact decide_eq_true fun h0 => hs (small_iff.mpr ⟨0, h0, Nat.zero_le 1⟩)
  | empty i hp _ hc hn =>
    simp only [Rounds, hp] at hr
    obtain ⟨j, hr, hj, hcap, hm, -⟩ | ⟨hl, hs⟩ := hr
    · refine .inl ⟨j, ⟨hr.len, hr.sized, hr.large⟩, hj, hcap, (fun e => by cases e), fun _ hz => ?_⟩
      have hne : s.out ≠ s.cap := fun e => hc (by rw [e])
      exact .inr ⟨Nat.lt_of_le_of_ne (h.round true hp).1 hne, hn, hm trivial⟩
    · exact .inr ⟨⟨hl.sized, hl.iter, hl.more, hl.first, hl.last⟩, hs⟩
  | take i hp _ _ hn =>
    simp only [Rounds, hp] at hr ⊢
    obtain ⟨j, hr, hj, hcap, hm, -⟩ | ⟨hl, hs⟩ := hr
    · exact .inl ⟨j, ⟨hr.len, hr.sized, hr.large⟩, hj, hcap, hm, fun e => by cases e⟩
    · rw [hl.iter] at hn
      cases hn
  | write i hi =>
    cases hp : s.phase with
    | start =>
      simp only [Rounds, hp] at hr ⊢
      obtain ⟨j, hr, hrest⟩ | hl := hr
      · exact .inl ⟨j, ⟨hr.len, hr.sized, hr.large⟩, hrest⟩
      · exact .inr ⟨hl.sized, hl.iter, hl.more, hl.first, hl.last⟩
    | round live =>
      simp only [Rounds, hp] at hr ⊢
      obtain ⟨j, hr, hrest⟩ | ⟨hl, hs⟩ := hr
      · exact .inl ⟨j, ⟨hr.len, hr.sized, hr.large⟩, hrest⟩
      · exact .inr ⟨⟨hl.sized, hl.iter, hl.more, hl.first, hl.last⟩, hs⟩
    | done =>
      simp only [Rounds, hp] at hr ⊢
      exact hr
  | close hp hi hz =>
    simp only [Rounds, hp] at hr
    have hle := h.out_le
    have hiter := length_iter h
    obtain ⟨j, hr, hj, hcap, -, hstop⟩ | ⟨hl, hs⟩ := hr
    · have hlarge : ∀ i < j + 1, ¬ SmallAt inp i := by
        intro i hi
        rcases Nat.lt_succ_iff_lt_or_eq.mp hi with hi | rfl
        · exact hr.large i hi
        · exact hj
      cases hm : s.more with
      | true =>
        obtain ⟨hout, -⟩ | ⟨hout, hn, hmore⟩ := hstop trivial hz
        · exact .inl ⟨j + 1, ⟨hout ▸ hcap, .inr hz, hlarge⟩, hout.symm, by simp⟩
        · have hj0 : j ≠ 0 := fun e => by simp [hm, e] at hmore
          obtain ⟨c, hc, hcle⟩ := caps_le (Nat.one_le_iff_ne_zero.mpr hj0) hr.len
          rw [hn, List.length_nil] at hiter
          have hlen := h.len_le
          exact .inr ⟨hz, hn, rfl, ⟨c, hc, by omega⟩, j + 1, s.cap, hcap, by omega, hlarge⟩
      | false =>
        obtain ⟨-, hsmall⟩ | ⟨hout, hn, hmore⟩ := hstop trivial hz
        · exact .inr ⟨hz, .inl ⟨j + 1, hsmall hm⟩⟩
        · rw [hn, List.length_nil] at hiter
          rw [hmore.mp hm] at hcap
          exact .inr ⟨hz, .inr ⟨s.cap, hcap, by omega⟩⟩
    · rw [hl.more]
      exact .inr ⟨hl.sized, hl.iter, rfl, hl.first, hl.last⟩

theorem rounds_of_reach (h : (system τ inp).Reach s) : Rounds inp s :=
  h.invariant_of (fun _ => inv_of_reach) (fun _ hs => hs ▸ rounds_initial)
    fun _ _ _ hi _ hr hst => hr.step hi hst

end Interleaving

/-! ## The end -/

/-- A round after the items are gone is followed by another one. -/
theorem Late.not_ends (hl : Late inp s) (hs : ¬ Small (inp.hint 0)) : ¬ Ends inp := by
  obtain ⟨k, c, hc, hle, hlarge⟩ := hl.last
  have hnot : ∀ i, ¬ SmallAt inp i := by
    rintro i hi
    by_cases hik : i < k
    · exact hlarge i hik hi
    · obtain ⟨d, hd, hsmall⟩ := hi
      obtain ⟨c', hc', hcd⟩ := caps_le (Nat.le_of_not_lt hik) hd
      cases hc.symm.trans hc'
      rw [Nat.sub_eq_zero_of_le (Nat.le_trans hle hcd)] at hsmall
      exact hs hsmall
  obtain ⟨d, hd, hdle⟩ := hl.first
  rintro (h0 | ⟨-, ⟨i, hi⟩ | ⟨c', hc', hlt⟩⟩)
  · exact hnot 0 h0
  · exact hnot i hi
  · cases hd.symm.trans hc'
    omega

/-- Under the condition, a regular round gets its slots and, but for the first one, has an item. -/
theorem Regular.next {j : Nat} (hr : Regular inp j s) (hle : s.len ≤ inp.items.length)
    (hj : ¬ SmallAt inp j) (he : Ends inp) :
    inp.size ≠ 0 ∧ (∃ c, caps inp (j + 1) = some c) ∧ (j = 0 ∨ s.len < inp.items.length) := by
  have hnot : ∀ i, SmallAt inp i → j < i := by
    intro i hi
    by_contra hij
    rcases Nat.lt_or_eq_of_le (Nat.le_of_not_lt hij) with hij | rfl
    · exact hr.large i hij hi
    · exact hj hi
  rcases he with h0 | ⟨hz, ⟨k, hk⟩ | ⟨c, hc, hlt⟩⟩
  · exact absurd (hnot 0 h0) (Nat.not_lt_zero j)
  · have hjk := hnot k hk
    obtain ⟨d, hd, hsmall⟩ := hk
    obtain ⟨c, hc, -⟩ := caps_le (Nat.succ_le_of_lt hjk) hd
    obtain ⟨c', hc', hcd⟩ := caps_le (Nat.le_of_lt hjk) hd
    cases hr.len.symm.trans hc'
    refine ⟨hz, ⟨c, hc⟩, .inr (Nat.lt_of_not_le fun hl => hj ⟨_, hr.len, ?_⟩)⟩
    -- without an item both hints are that of the exhausted iterator
    rw [Nat.sub_eq_zero_of_le hl]
    rwa [Nat.sub_eq_zero_of_le (Nat.le_trans hl hcd)] at hsmall
  · rcases Nat.eq_zero_or_pos j with rfl | hpos
    · exact ⟨hz, ⟨c, hc⟩, .inl rfl⟩
    · obtain ⟨c', hc', hcl⟩ := caps_le hpos hr.len
      cases hc.symm.trans hc'
      omega

section Interleaving

variable [DecidableEq τ]

/-- Under the condition no step waits for ever. -/
theorem progress [Nonempty τ] (he : Ends inp) (h : Inv inp s) (hr : Rounds inp s) :
    s.phase = .done ∨ ∃ i s', Step inp i s s' := by
  cases hp : s.phase with
  | start =>
    refine .inr ?_
    by_cases hs : Small (inp.hint s.iter.length)
    · exact ⟨none, _, .extend hp hs⟩
    · simp only [Rounds, hp] at hr
      obtain ⟨j, hr, hcap, -⟩ | hl := hr
      · have hlen := (h.start hp).1
        obtain ⟨-, ⟨c, hc⟩, -⟩ := hr.next (hlen ▸ h.out_le) (mt (hr.smallAt h hlen).mp hs) he
        rw [caps, hr.len, Option.bind_some, hlen, ← length_iter h, ← hlen] at hc
        exact ⟨none, _, .submit hp hs (by rw [hcap]; exact hc)⟩
      · rw [hl.iter] at hs
        exact absurd he (hl.not_ends hs)
  | round live =>
    refine .inr ?_
    by_cases hi : ∀ i, s.busy i = none
    · cases live with
      | true =>
        obtain ⟨i⟩ := ‹Nonempty τ›
        by_cases hc : s.out * inp.size = s.cap * inp.size
        · exact ⟨some i, _, .full i hp (hi i) hc⟩
        · cases hn : s.iter with
          | nil => exact ⟨some i, _, .empty i hp (hi i) hc hn⟩
          | cons x iter => exact ⟨some i, _, .take i hp (hi i) hc hn⟩
      | false =>
        simp only [Rounds, hp] at hr
        obtain ⟨j, hr, hj, -⟩ | ⟨hl, hs⟩ := hr
        · exact ⟨none, _, .close hp hi (hr.next (Nat.le_trans h.len_le h.out_le) hj he).1⟩
        · exact absurd he (hl.not_ends hs)
    · push Not at hi
      obtain ⟨i, hi⟩ := hi
      obtain ⟨⟨x, k⟩, hi⟩ := Option.ne_none_iff_exists'.mp hi
      exact ⟨some i, _, .write i hi⟩
  | done => exact .inl rfl

/-- How far a phase is from the end of its round. -/
def Phase.weight : Phase → Nat
  | .start => 3
  | .round true => 2
  | .round false => 1
  | .done => 0

/-- `1` for a thread with an item. -/
def load (job : Option (α × Nat)) : Nat := if job.isSome then 1 else 0

variable [Fintype τ]

variable (inp) in
/-- The work left: items without a slot below the length, items to take, items at threads. -/
def work (s : State α β τ) : Nat :=
  3 * (inp.items.length - s.len) + 2 * s.iter.length + ∑ i, load (s.busy i) + s.phase.weight

/-- Under the condition every step leaves less work. -/
theorem work_lt (he : Ends inp) (h : Inv inp s) (hr : Rounds inp s) {i : Option τ}
    (hst : Step inp i s s') : work inp s' < work inp s := by
  have hlen := h.len_le
  have hout := h.out_le
  cases hst with
  | extend hp hs =>
    simp only [work, hp, Phase.weight, List.length_nil]
    omega
  | submit hp hs hc =>
    simp only [work, hp, Phase.weight]
    omega
  | full i hp _ _ =>
    simp only [work, hp, Phase.weight]
    omega
  | empty i hp _ _ _ =>
    simp only [work, hp, Phase.weight]
    omega
  | @take _ x iter i hp hi _ hn =>
    have hsum := sum_update load s.busy i (some (x, s.out))
    rw [hi] at hsum
    simp only [load, Option.isSome_none, Option.isSome_some] at hsum
    simp only [work, hn, List.length_cons, load]
    simp at hsum ⊢
    omega
  | @write _ x k i hi =>
    have hsum := sum_update load s.busy i none
    rw [hi] at hsum
    simp only [load, Option.isSome_none, Option.isSome_some] at hsum
    simp only [work, load]
    simp at hsum ⊢
    omega
  | close hp hi hz =>
    cases hm : s.more with
    | false =>
      simp only [work, hp, Phase.weight]
      simp
      omega
    | true =>
      -- another round follows only one that gave out a slot
      have hlt : s.len < s.out := by
        simp only [Rounds, hp] at hr
        obtain ⟨j, hr, hj, hcap, -, hstop⟩ | ⟨hl, hs⟩ := hr
        · obtain ⟨ho, -⟩ | ⟨-, hn, hmore⟩ := hstop trivial hz
          · rw [ho]
            exact (h.round _ hp).2
          · have hj0 : j ≠ 0 := fun e => by simp [hm, e] at hmore
            have hiter := length_iter h
            rw [hn, List.length_nil] at hiter
            rcases (hr.next (by omega) hj he).2.2 with e | hlt
            · exact absurd e hj0
            · omega
        · exact absurd he (hl.not_ends hs)
      simp only [work, hp, Phase.weight]
      simp
      omega

/-- Every run of `map` ends, under the condition and only then. -/
theorem halts_iff_ends [Nonempty τ] :
    (system τ inp).Halts (fun s => s.phase = .done) ↔ Ends inp := by
  constructor
  · intro hh
    obtain ⟨s, hs, hp⟩ := hh.reaches ⟨_, rfl⟩
    have hr := rounds_of_reach hs
    simpa only [Rounds, hp] using hr
  · intro he
    refine Lib.System.halts_of_measure (work inp) (fun s hs => Nat.le_of_eq (congrArg _ hs)) ?_ ?_
    · exact fun i s s' hs hst => work_lt he (inv_of_reach hs) (rounds_of_reach hs) hst
    · exact fun s hs => progress he (inv_of_reach hs) (rounds_of_reach hs)

end Interleaving

/-- Below the length, every slot has the result for its item. -/
theorem Inv.slots (h : Inv inp s) {k : Nat} (hk : k < s.len) :
    s.slots k = inp.items[k]?.map inp.f ∧ s.slots k ≠ none := by
  obtain ⟨x, hx⟩ := mem_calls.mp (h.written k hk)
  obtain ⟨-, hget, hslot⟩ := h.called x k hx
  rw [hget, hslot]
  exact ⟨rfl, nofun⟩

/-- At its end `map` returns the results in order. -/
theorem Inv.result (h : Inv inp s) (hp : s.phase = .done) :
    s.result = inp.items.map fun x => some (inp.f x) := by
  obtain ⟨hnil, hlen, -⟩ := h.done hp
  have hiter := length_iter h
  have hout := h.out_le
  rw [hnil, List.length_nil] at hiter
  have hL : s.len = inp.items.length := by omega
  refine List.ext_getElem? fun k => ?_
  rw [State.result, List.getElem?_map, List.getElem?_map]
  by_cases hk : k < s.len
  · rw [List.getElem?_range hk, Option.map_some, (h.slots hk).1,
      List.getElem?_eq_getElem (hL ▸ hk)]
    rfl
  · rw [List.getElem?_eq_none (by simp; omega), List.getElem?_eq_none (by omega)]
    rfl

/-- At its end the closure has been called once for each item. -/
theorem Inv.calls_perm (h : Inv inp s) (hp : s.phase = .done) : s.calls.Perm inp.items.zipIdx := by
  obtain ⟨hnil, hlen, -⟩ := h.done hp
  have hiter := length_iter h
  rw [hnil, List.length_nil] at hiter
  have hz : (inp.items.zipIdx.map Prod.snd).Nodup := by
    rw [List.zipIdx_map_snd]
    exact List.nodup_range'
  refine (List.perm_ext_iff_of_nodup h.nodup.of_map hz.of_map).mpr ?_
  rintro ⟨x, k⟩
  rw [List.mem_zipIdx_iff_getElem?]
  constructor
  · exact fun hx => (h.called x k hx).2.1
  · intro hget
    have hk := (List.getElem?_eq_some_iff.mp hget).1
    obtain ⟨y, hy⟩ := mem_calls.mp (h.written k (by omega))
    have := (h.called y k hy).2.1
    cases hget.symm.trans this
    exact hy

section Interleaving

variable [DecidableEq τ]

variable (τ inp) in
/-- `map` is an ordered map with the threads `τ`: every run of it ends, a slot is written before the
length includes it, and the end has the results in order, from one call for each item. -/
def Ordered : Prop :=
  (system τ inp).Halts (fun s => s.phase = .done) ∧
  ∀ s, (system τ inp).Reach s →
    (∀ k < s.len, s.slots k = inp.items[k]?.map inp.f ∧ s.slots k ≠ none) ∧
    (s.phase = .done → s.result = (inp.items.map fun x => some (inp.f x)) ∧
      s.calls.Perm inp.items.zipIdx)

/-- `PoolRef::map` is an ordered map exactly if its rounds end. -/
theorem map_ordered_iff [Fintype τ] [Nonempty τ] : Ordered τ inp ↔ Ends inp := by
  refine ⟨fun h => halts_iff_ends.mp h.1, fun he => ⟨halts_iff_ends.mpr he, fun s hs => ?_⟩⟩
  have h := inv_of_reach hs
  exact ⟨fun k hk => h.slots hk, fun hp => ⟨h.result hp, h.calls_perm hp⟩⟩

end Interleaving

/-- The least capacity of the standard library's vectors, by the size of an item. -/
def leastCap (size : Nat) : Nat := if size = 1 then 8 else if size ≤ 1024 then 4 else 1

/-- How the vectors of the standard library grow: to twice the capacity, to the length asked for or
to the least capacity, within the address space. -/
def vecReserve (size cap len n : Nat) : Option Nat :=
  if len + n ≤ cap then some cap
  else if max (max (cap * 2) (len + n)) (leastCap size) * size < 2 ^ 63 then
    some (max (max (cap * 2) (len + n)) (leastCap size))
  else none

theorem vecReserve_room {size : Nat} (cap len n cap' : Nat)
    (h : vecReserve size cap len n = some cap') : len + n ≤ cap' := by
  unfold vecReserve at h
  split at h
  · cases h
    assumption
  · split at h
    · cases h
      exact Nat.le_trans (Nat.le_max_right _ _) (Nat.le_max_left _ _)
    · cases h

/-- Five items, with results of eight bytes, and what the iterator knows of their number. -/
def five (hint : Nat → Nat × Option Nat)
    (valid : ∀ n ≤ 5, (hint n).1 ≤ n ∧ ∀ max, (hint n).2 = some max → n ≤ max) : Input Nat Nat :=
  ⟨[0, 1, 2, 3, 4], hint, (· + 1), 8, vecReserve 8, valid, vecReserve_room⟩

theorem map_ordered_five : Ordered (Fin 2) (five (fun n => (n, some n))
    fun n _ => ⟨Nat.le_refl n, fun _ h => Nat.le_of_eq (Option.some.inj h)⟩) :=
  map_ordered_iff.mpr (.inr ⟨by decide, .inl ⟨1, 5, by decide, by decide⟩⟩)

/-- Five items of which the iterator knows nothing (`iter::from_fn`): the first round fills its four
slots and sets `more`, and the second one, which takes the last item, leaves it set. -/
theorem map_not_ordered : ¬ Ordered (Fin 2) (five (fun _ => (0, none))
    fun n _ => ⟨Nat.zero_le n, fun _ h => by cases h⟩) := by
  rintro ⟨hh, -⟩
  have hnot : ¬ Small (0, none) := by decide
  rcases halts_iff_ends.mp hh with ⟨_, -, hs⟩ | ⟨-, ⟨_, _, -, hs⟩ | ⟨c, hc, hlt⟩⟩
  · exact hnot hs
  · exact hnot hs
  · cases hc
    exact absurd hlt (by decide)

end PoolMap

end Qblaze
