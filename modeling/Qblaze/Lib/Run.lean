/-!
# Programs that change a state

A program starts at a state and ends with a result and a new state, or fails. The states that it goes
through are kept, also those of a program that fails, so that a property of every moment can be told
from a property of the end.

* `Wp I E m s Q`: started at `s`, the program `m` goes only through states with `I`, fails only with
  `E`, and ends with `Q`.
* `Wp.bind`, `Wp.change`, `Wp.each` and the other rules prove it along the program.
-/

namespace Lib

/-- A program on a state of type `σ`: the states it goes through, and how it ends. -/
def Run (σ ε α : Type) := σ → List σ × Except ε (α × σ)

namespace Run

variable {σ ε α β : Type}

instance : Monad (Run σ ε) where
  pure a s := ([], .ok (a, s))
  bind m f s :=
    match (m s).2 with
    | .ok (a, t) => ((m s).1 ++ (f a t).1, (f a t).2)
    | .error e => ((m s).1, .error e)

/-- The state. -/
def read : Run σ ε σ := fun s => ([], .ok (s, s))

/-- Change the state. -/
def change (f : σ → σ) : Run σ ε Unit := fun s => ([f s], .ok ((), f s))

def fail (e : ε) : Run σ ε α := fun _ => ([], .error e)

/-- A computation that does not change the state. -/
def ofExcept : Except ε α → Run σ ε α
  | .ok a => pure a
  | .error e => fail e

def when (c : Bool) (m : Run σ ε Unit) : Run σ ε Unit := if c then m else pure ()

/-- One program for each item of a list. -/
def each (f : α → Run σ ε Unit) : List α → Run σ ε Unit
  | [] => pure ()
  | a :: l => do
    f a
    each f l

/-- How a program ends. -/
def result (m : Run σ ε α) (s : σ) : Except ε (α × σ) := (m s).2

/-- The states that a program goes through. -/
def states (m : Run σ ε α) (s : σ) : List σ := (m s).1

@[simp] theorem result_pure (a : α) (s : σ) : (pure a : Run σ ε α).result s = .ok (a, s) := rfl

@[simp] theorem result_read (s : σ) : (read : Run σ ε σ).result s = .ok (s, s) := rfl

@[simp] theorem result_change (f : σ → σ) (s : σ) :
    (change f : Run σ ε Unit).result s = .ok ((), f s) := rfl

theorem result_ofExcept {r : Except ε α} {a : α} (h : r = .ok a) (s : σ) :
    (ofExcept r).result s = .ok (a, s) := by
  rw [h]
  rfl

/-- How a program ends after another one. -/
theorem result_bind {m : Run σ ε α} {f : α → Run σ ε β} {a : α} {s t : σ}
    (h : m.result s = .ok (a, t)) : (m >>= f).result s = (f a).result t := by
  show (match (m s).2 with
    | .ok (a, t) => ((m s).1 ++ (f a t).1, (f a t).2)
    | .error e => ((m s).1, .error e)).2 = _
  rw [show (m s).2 = .ok (a, t) from h]
  rfl

/-- The end of the first of two programs, if the second one ends. -/
theorem result_bind_ok {m : Run σ ε α} {f : α → Run σ ε β} {b : β} {s u : σ}
    (h : (m >>= f).result s = .ok (b, u)) :
    ∃ a t, m.result s = .ok (a, t) ∧ (f a).result t = .ok (b, u) := by
  cases hm : m.result s with
  | ok r =>
    obtain ⟨a, t⟩ := r
    exact ⟨a, t, rfl, by rwa [result_bind hm] at h⟩
  | error e =>
    have hb : (m >>= f).result s = .error e := by
      show (match (m s).2 with
        | .ok (a, t) => ((m s).1 ++ (f a t).1, (f a t).2)
        | .error e => ((m s).1, .error e)).2 = _
      rw [show (m s).2 = .error e from hm]
    rw [hb] at h
    cases h

theorem result_bind_read (f : σ → Run σ ε β) (s : σ) :
    (read >>= f).result s = (f s).result s := result_bind rfl

/-- Started at `s`, the program goes only through states with `I`, fails only with `E` and ends with
`Q`. -/
structure Wp (I : σ → Prop) (E : ε → Prop) (m : Run σ ε α) (s : σ) (Q : α → σ → Prop) : Prop where
  always : ∀ t ∈ m.states s, I t
  fails : ∀ e, m.result s = .error e → E e
  ends : ∀ a t, m.result s = .ok (a, t) → Q a t

namespace Wp

variable {I I' : σ → Prop} {E E' : ε → Prop} {m : Run σ ε α} {f : α → Run σ ε β} {s : σ}
  {Q Q' : α → σ → Prop} {R : β → σ → Prop}

theorem pure {a : α} (h : Q a s) : Wp I E (Pure.pure a) s Q where
  always _ ht := absurd ht List.not_mem_nil
  fails _ he := nomatch he
  ends _ _ h' := by
    cases h'
    exact h

theorem read {Q : σ → σ → Prop} (h : Q s s) : Wp I E Run.read s Q where
  always _ ht := absurd ht List.not_mem_nil
  fails _ he := nomatch he
  ends _ _ h' := by
    cases h'
    exact h

theorem change {g : σ → σ} {Q : Unit → σ → Prop} (hI : I (g s)) (h : Q () (g s)) :
    Wp I E (Run.change g) s Q where
  always t ht := by
    rw [List.mem_singleton.mp ht]
    exact hI
  fails _ he := nomatch he
  ends _ _ h' := by
    cases h'
    exact h

theorem fail {e : ε} (h : E e) : Wp I E (Run.fail e) s Q where
  always _ ht := absurd ht List.not_mem_nil
  fails _ he := by
    cases he
    exact h
  ends _ _ h' := nomatch h'

theorem ofExcept {r : Except ε α} (he : ∀ e, r = .error e → E e) (h : ∀ a, r = .ok a → Q a s) :
    Wp I E (Run.ofExcept r) s Q := by
  cases r with
  | ok a => exact pure (h a rfl)
  | error e => exact fail (he e rfl)

/-- One program after the other. -/
theorem bind (hm : Wp I E m s Q) (hf : ∀ a t, Q a t → Wp I E (f a) t R) : Wp I E (m >>= f) s R := by
  cases hr : m.result s with
  | error e =>
    have hb : (m >>= f) s = (m.states s, .error e) := by
      show (match (m s).2 with
        | .ok (a, t) => ((m s).1 ++ (f a t).1, (f a t).2)
        | .error e => ((m s).1, .error e)) = _
      rw [show (m s).2 = .error e from hr]
      rfl
    refine ⟨fun t ht => hm.always t ?_, fun e' he => ?_, fun b t ht => ?_⟩
    · rwa [states, hb] at ht
    · rw [result, hb] at he
      cases he
      exact hm.fails e hr
    · rw [result, hb] at ht
      cases ht
  | ok r =>
    obtain ⟨a, t⟩ := r
    have hb : (m >>= f) s = (m.states s ++ (f a).states t, (f a).result t) := by
      show (match (m s).2 with
        | .ok (a, t) => ((m s).1 ++ (f a t).1, (f a t).2)
        | .error e => ((m s).1, .error e)) = _
      rw [show (m s).2 = .ok (a, t) from hr]
      rfl
    have hft := hf a t (hm.ends a t hr)
    refine ⟨fun u hu => ?_, fun e he => hft.fails e ?_, fun b u hu => hft.ends b u ?_⟩
    · rw [states, hb, List.mem_append] at hu
      exact hu.elim (hm.always u) (hft.always u)
    · rwa [result, hb] at he
    · rwa [result, hb] at hu

theorem bind_read {f : σ → Run σ ε β} (h : Wp I E (f s) s R) : Wp I E (Run.read >>= f) s R :=
  bind (read (Q := fun a t => a = s ∧ t = s) ⟨rfl, rfl⟩) fun _ _ ⟨ha, ht⟩ => ha ▸ ht ▸ h

theorem bind_change {g : σ → σ} {f : Unit → Run σ ε β} (hI : I (g s)) (h : Wp I E (f ()) (g s) R) :
    Wp I E (Run.change g >>= f) s R :=
  bind (change (Q := fun _ t => t = g s) hI rfl) fun _ _ ht => ht ▸ h

theorem bind_ofExcept {r : Except ε α} (he : ∀ e, r = .error e → E e)
    (h : ∀ a, r = .ok a → Wp I E (f a) s R) : Wp I E (Run.ofExcept r >>= f) s R :=
  bind (ofExcept (Q := fun a t => r = .ok a ∧ t = s) he fun _ ha => ⟨ha, rfl⟩)
    fun a _ ⟨ha, ht⟩ => ht ▸ h a ha

/-- Nothing is claimed. -/
theorem any : Wp (fun _ => True) (fun _ => True) m s fun _ _ => True :=
  ⟨fun _ _ => trivial, fun _ _ => trivial, fun _ _ _ => trivial⟩

theorem imp (h : Wp I E m s Q) (hI : ∀ t, I t → I' t) (hE : ∀ e, E e → E' e)
    (hQ : ∀ a t, Q a t → Q' a t) : Wp I' E' m s Q' where
  always t ht := hI t (h.always t ht)
  fails e he := hE e (h.fails e he)
  ends a t ht := hQ a t (h.ends a t ht)

/-- A weaker end. -/
theorem mono (h : Wp I E m s Q) (hQ : ∀ a t, Q a t → Q' a t) : Wp I E m s Q' :=
  h.imp (fun _ h => h) (fun _ h => h) hQ

/-- The end is what the program returns. -/
theorem known (h : Wp I E m s Q) : Wp I E m s fun a t => Q a t ∧ m.result s = .ok (a, t) :=
  ⟨h.always, h.fails, fun a t hr => ⟨h.ends a t hr, hr⟩⟩

theorem and (h : Wp I E m s Q) (h' : Wp I' E' m s Q') :
    Wp (fun t => I t ∧ I' t) (fun e => E e ∧ E' e) m s fun a t => Q a t ∧ Q' a t where
  always t ht := ⟨h.always t ht, h'.always t ht⟩
  fails e he := ⟨h.fails e he, h'.fails e he⟩
  ends a t ht := ⟨h.ends a t ht, h'.ends a t ht⟩

theorem when {c : Bool} {m : Run σ ε Unit} {Q : Unit → σ → Prop} (h : c = true → Wp I E m s Q)
    (h' : c = false → Q () s) : Wp I E (Run.when c m) s Q := by
  cases c with
  | true => exact h rfl
  | false => exact pure (h' rfl)

/-- A loop over a list, with an invariant that may depend on the items that are left. -/
theorem each {f : α → Run σ ε Unit} (J : List α → σ → Prop)
    (hf : ∀ a l t, J (a :: l) t → Wp I E (f a) t fun _ u => J l u) {l : List α} (h : J l s) :
    Wp I E (Run.each f l) s fun _ t => J [] t := by
  induction l generalizing s with
  | nil => exact pure h
  | cons a l ih => exact bind (hf a l s h) fun _ t ht => ih ht

end Wp

end Run

end Lib
