import Mathlib.Algebra.Order.BigOperators.Group.Finset
import Mathlib.Data.Fintype.BigOperators

/-!
# Interleaved systems and their invariants

A system has initial states and atomic steps, each taken by one of the parties `ι`. Parties step
in any order. A property of every reachable state is proved by an invariant that the initial
states have and every step keeps.

* `System.Reach`: the states that a run reaches.
* `Reach.invariant`: an invariant holds of every reachable state; `Reach.invariant_of` proves a
  second one with the help of the first.
* `Reach.refines`: a system that refines another one. What a step of the first changes is nothing
  of the second, or is a step of it.
* `System.follow`, `reach_of_follow`: an executable step function, and the state that a schedule of
  choices reaches with it.
* `halts_of_measure`, `Halts.reaches`: every run ends, by a measure that every step lowers.
* `sum_update`, `sum_le_of_others`: how a sum over the parties changes when one of them moves.
  An invariant that counts parties (holders of a lock, sleepers) is kept with these.
-/

namespace Lib

/-- States, initial states and the atomic steps of the parties. -/
structure System (σ ι : Type) where
  init : σ → Prop
  step : ι → σ → σ → Prop

namespace System

variable {σ ι : Type} {S : System σ ι}

/-- The states that a run of `S` reaches. -/
inductive Reach (S : System σ ι) : σ → Prop
  | init {s : σ} : S.init s → Reach S s
  | next {s s' : σ} (i : ι) : Reach S s → S.step i s s' → Reach S s'

/-- An invariant: the initial states have it and every step keeps it. -/
theorem Reach.invariant {I : σ → Prop} (h0 : ∀ s, S.init s → I s)
    (hs : ∀ i s s', I s → S.step i s s' → I s') {s : σ} (h : S.Reach s) : I s := by
  induction h with
  | init hi => exact h0 _ hi
  | next i _ hst ih => exact hs i _ _ ih hst

/-- An invariant whose steps may use that `J` holds of every reachable state. -/
theorem Reach.invariant_of {I J : σ → Prop} (hJ : ∀ s, S.Reach s → J s)
    (h0 : ∀ s, S.init s → I s) (hs : ∀ i s s', J s → J s' → I s → S.step i s s' → I s') {s : σ}
    (h : S.Reach s) : I s := by
  induction h with
  | init hi => exact h0 _ hi
  | next i hr hst ih => exact hs i _ _ (hJ _ hr) (hJ _ (hr.next i hst)) ih hst

/-! ## Refinement -/

/-- `S` refines `A` through `f`: a step of `S` from a state with `I` changes nothing in `A`, or is a
step of the same party there. The steps may use that the states of `A` are reachable. -/
theorem Reach.refines {τ : Type} {A : System τ ι} {f : σ → τ} {I : σ → Prop}
    (h0 : ∀ s, S.init s → I s ∧ A.init (f s))
    (hm : ∀ i s s', I s → A.Reach (f s) → S.step i s s' → f s' = f s ∨ A.step i (f s) (f s'))
    (hi : ∀ i s s', I s → A.Reach (f s) → A.Reach (f s') → S.step i s s' → I s') {s : σ}
    (h : S.Reach s) : I s ∧ A.Reach (f s) := by
  induction h with
  | init hi => exact ⟨(h0 _ hi).1, .init (h0 _ hi).2⟩
  | @next s s' i _ hst ih =>
    obtain ⟨hI, hA⟩ := ih
    have hA' : A.Reach (f s') := by
      obtain hsame | hstep := hm i _ _ hI hA hst
      · exact hsame.symm ▸ hA
      · exact hA.next i hstep
    exact ⟨hi i _ _ hI hA hA' hst, hA'⟩

/-! ## Schedules -/

/-- The state that a schedule reaches, where `next` takes the step for each choice. -/
def follow {κ : Type} (next : κ → σ → Option σ) (ks : List κ) (s : σ) : Option σ :=
  ks.foldlM (fun s k => next k s) s

/-- A schedule reaches only states of `S`, if `next` takes only steps of `S`. -/
theorem reach_of_follow {κ : Type} {next : κ → σ → Option σ}
    (hn : ∀ k s s', next k s = some s' → ∃ i, S.step i s s') (ks : List κ) {s s' : σ}
    (h : S.Reach s) (hs : follow next ks s = some s') : S.Reach s' := by
  induction ks generalizing s with
  | nil =>
    cases hs
    exact h
  | cons k ks ih =>
    obtain ⟨s1, h1, hs⟩ := Option.bind_eq_some_iff.mp hs
    obtain ⟨i, hst⟩ := hn k s s1 h1
    exact ih (h.next i hst) hs

/-- A reachable state with a property that can be checked by running a schedule. -/
theorem exists_of_follow {κ : Type} {next : κ → σ → Option σ}
    (hn : ∀ k s s', next k s = some s' → ∃ i, S.step i s s') {s : σ} (h : S.Reach s) (ks : List κ)
    (P : σ → Prop) [DecidablePred P] (hp : (follow next ks s).any (fun s => decide (P s)) = true) :
    ∃ s', S.Reach s' ∧ P s' := by
  obtain ⟨s', hs, hd⟩ := (Option.any_eq_true _ _).mp hp
  exact ⟨s', reach_of_follow hn ks h hs, of_decide_eq_true hd⟩

/-! ## Runs that end -/

/-- The states that a run of `n` steps reaches. -/
inductive Steps (S : System σ ι) : Nat → σ → Prop
  | init {s : σ} : S.init s → Steps S 0 s
  | next {n : Nat} {s s' : σ} (i : ι) : Steps S n s → S.step i s s' → Steps S (n + 1) s'

theorem Steps.reach {n : Nat} {s : σ} (h : S.Steps n s) : S.Reach s := by
  induction h with
  | init hi => exact .init hi
  | next i _ hst ih => exact ih.next i hst

/-- Every run ends in a final state: no run is longer than some bound, and where a run cannot go on,
the state is final. -/
structure Halts (S : System σ ι) (final : σ → Prop) : Prop where
  bound : ∃ b, ∀ n s, S.Steps n s → n ≤ b
  progress : ∀ s, S.Reach s → final s ∨ ∃ i s', S.step i s s'

/-- A measure that every step lowers bounds the runs. -/
theorem halts_of_measure {final : σ → Prop} (measure : σ → Nat) {b : Nat}
    (h0 : ∀ s, S.init s → measure s ≤ b)
    (hs : ∀ i s s', S.Reach s → S.step i s s' → measure s' < measure s)
    (hp : ∀ s, S.Reach s → final s ∨ ∃ i s', S.step i s s') : S.Halts final where
  bound := by
    have hle : ∀ n s, S.Steps n s → n + measure s ≤ b := by
      intro n s h
      induction h with
      | init hi =>
        have := h0 _ hi
        omega
      | next i hr hst ih =>
        have := hs i _ _ hr.reach hst
        omega
    exact ⟨b, fun n s h => Nat.le_trans (Nat.le_add_right _ _) (hle n s h)⟩
  progress := hp

/-- A system that halts reaches a final state. -/
theorem Halts.reaches {final : σ → Prop} (h : S.Halts final) (h0 : ∃ s, S.init s) :
    ∃ s, S.Reach s ∧ final s := by
  by_contra hn
  obtain ⟨b, hb⟩ := h.bound
  -- then every run can be made longer
  have hlong : ∀ n, ∃ s, S.Steps n s := by
    intro n
    induction n with
    | zero =>
      obtain ⟨s, hs⟩ := h0
      exact ⟨s, .init hs⟩
    | succ n ih =>
      obtain ⟨s, hs⟩ := ih
      obtain hf | ⟨i, s', hst⟩ := h.progress s hs.reach
      · exact absurd ⟨s, hs.reach, hf⟩ hn
      · exact ⟨s', hs.next i hst⟩
  obtain ⟨s, hs⟩ := hlong (b + 1)
  have := hb _ _ hs
  omega

end System

/-! ## Sums over the parties -/

variable {ι β : Type} [Fintype ι]

/-- Every term of a sum is at most the sum. -/
theorem le_sum (g : β → Nat) (f : ι → β) (a : ι) : g (f a) ≤ ∑ i, g (f i) :=
  Finset.single_le_sum (f := fun i => g (f i)) (fun _ _ => Nat.zero_le _) (Finset.mem_univ a)

variable [DecidableEq ι]

/-- The sum of `g` over the parties, after party `a` moved from `f a` to `c`. -/
theorem sum_update (g : β → Nat) (f : ι → β) (a : ι) (c : β) :
    ∑ i, g (Function.update f a c i) + g (f a) = ∑ i, g (f i) + g c := by
  have h1 := Finset.add_sum_erase Finset.univ (fun i => g (Function.update f a c i))
    (Finset.mem_univ a)
  have h2 := Finset.add_sum_erase Finset.univ (fun i => g (f i)) (Finset.mem_univ a)
  have h3 : ∑ i ∈ Finset.univ.erase a, g (Function.update f a c i) =
      ∑ i ∈ Finset.univ.erase a, g (f i) := by
    refine Finset.sum_congr rfl fun i hi => ?_
    rw [Function.update_of_ne (Finset.ne_of_mem_erase hi)]
  simp only [Function.update_self] at h1
  omega

/-- A bound for a sum by another one: its other terms are no larger, and party `a` may differ. -/
theorem sum_le_of_others (f g : ι → Nat) (a : ι) (h : ∀ i ≠ a, f i ≤ g i) :
    ∑ i, f i + g a ≤ ∑ i, g i + f a := by
  have h1 := Finset.add_sum_erase Finset.univ f (Finset.mem_univ a)
  have h2 := Finset.add_sum_erase Finset.univ g (Finset.mem_univ a)
  have h3 : ∑ i ∈ Finset.univ.erase a, f i ≤ ∑ i ∈ Finset.univ.erase a, g i :=
    Finset.sum_le_sum fun i hi => h i (Finset.ne_of_mem_erase hi)
  omega

/-- Two parties with a positive term make the sum at least `2`. -/
theorem two_le_sum {g : β → Nat} {f : ι → β} {a b : ι} (hab : a ≠ b) (ha : 0 < g (f a))
    (hb : 0 < g (f b)) : 2 ≤ ∑ i, g (f i) := by
  have h1 := Finset.add_sum_erase Finset.univ (fun i => g (f i)) (Finset.mem_univ a)
  have h2 : g (f b) ≤ ∑ i ∈ Finset.univ.erase a, g (f i) :=
    Finset.single_le_sum (f := fun i => g (f i)) (fun _ _ => Nat.zero_le _)
      (Finset.mem_erase.mpr ⟨hab.symm, Finset.mem_univ b⟩)
  omega

end Lib
