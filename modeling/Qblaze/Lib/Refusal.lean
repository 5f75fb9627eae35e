import Qblaze.Lib.Run

/-!
# Programs that may be refused something

A program asks for something, such as memory, and goes on in another way where it is refused. It is compared
with the program that is refused nothing: it does the same, or its last state shows that it was refused.

* `KeepsUp D m m' s`: started at `s`, `m` ends as `m'` does, or with `D`; started with `D`, it ends with `D`.
* `KeepsUp.bind` and the other rules prove it along the two programs.
-/

namespace Lib

namespace Run

variable {σ ε α β : Type}

/-- Started at `s`, the program `m` ends as `m'` does, or with `D`. The program leaves no state with `D`. -/
structure KeepsUp (D : σ → Prop) (m m' : Run σ ε α) (s : σ) : Prop where
  same : ∀ a t, m.result s = .ok (a, t) → m'.result s = .ok (a, t) ∨ D t
  stays : D s → ∀ a t, m.result s = .ok (a, t) → D t

namespace KeepsUp

variable {D : σ → Prop} {m m' : Run σ ε α} {f f' : α → Run σ ε β} {I : σ → Prop} {E : ε → Prop} {s : σ}
  {Q : α → σ → Prop}

/-- A program that asks for nothing. -/
theorem of_wp (h : D s → Wp I E m s fun _ t => D t) : KeepsUp D m m s where
  same _ _ hr := .inl hr
  stays hs := (h hs).ends

theorem pure {a : α} : KeepsUp D (Pure.pure a) (Pure.pure a : Run σ ε α) s :=
  of_wp fun hs => Wp.pure (I := fun _ => True) (E := fun _ => True) hs

theorem fail {e : ε} : KeepsUp D (Run.fail e) (Run.fail e : Run σ ε α) s :=
  of_wp fun _ => Wp.fail (I := fun _ => True) (E := fun _ => True) trivial

theorem change {g : σ → σ} (h : D s → D (g s)) :
    KeepsUp D (Run.change g) (Run.change g : Run σ ε Unit) s :=
  of_wp fun hs => Wp.change (I := fun _ => True) (E := fun _ => True) trivial (h hs)

/-- One program after the other. -/
theorem bind (hm : KeepsUp D m m' s) (hw : Wp I E m s Q) (hf : ∀ a t, Q a t → KeepsUp D (f a) (f' a) t) :
    KeepsUp D (m >>= f) (m' >>= f') s where
  same b u hr := by
    obtain ⟨a, t, ha, hb⟩ := result_bind_ok hr
    have hat := hf a t (hw.ends a t ha)
    rcases hm.same a t ha with ha' | hd
    · rw [result_bind ha']
      exact hat.same b u hb
    · exact .inr (hat.stays hd b u hb)
  stays hs b u hr := by
    obtain ⟨a, t, ha, hb⟩ := result_bind_ok hr
    exact (hf a t (hw.ends a t ha)).stays (hm.stays hs a t ha) b u hb

theorem bind_read {f f' : σ → Run σ ε β} (h : KeepsUp D (f s) (f' s) s) :
    KeepsUp D (Run.read >>= f) (Run.read >>= f') s where
  same b u hr := by
    rw [result_bind_read] at hr ⊢
    exact h.same b u hr
  stays hs b u hr := by
    rw [result_bind_read] at hr
    exact h.stays hs b u hr

theorem bind_change {g : σ → σ} {f f' : Unit → Run σ ε β} (hg : D s → D (g s))
    (h : KeepsUp D (f ()) (f' ()) (g s)) : KeepsUp D (Run.change g >>= f) (Run.change g >>= f') s :=
  bind (change hg) (Wp.change (I := fun _ => True) (E := fun _ => True) (Q := fun _ t => t = g s) trivial rfl)
    fun _ _ ht => ht ▸ h

/-- A computation that asks for something. -/
theorem bind_ofExcept {r r' : Except ε α} (hs : ∀ a, r = .ok a → D s → ∀ b u, (f a).result s = .ok (b, u) → D u)
    (h : ∀ a, r = .ok a → (r' = .ok a ∧ KeepsUp D (f a) (f' a) s) ∨
      ∀ b u, (f a).result s = .ok (b, u) → D u) :
    KeepsUp D (Run.ofExcept r >>= f) (Run.ofExcept r' >>= f') s := by
  have hends : ∀ b u, (Run.ofExcept r >>= f).result s = .ok (b, u) →
      ∃ a, r = .ok a ∧ (f a).result s = .ok (b, u) := by
    intro b u hr
    obtain ⟨a, t, ha, hb⟩ := result_bind_ok hr
    cases r with
    | error e => cases ha
    | ok a' =>
      cases ha
      exact ⟨_, rfl, hb⟩
  refine ⟨fun b u hr => ?_, fun hd b u hr => ?_⟩
  · obtain ⟨a, ha, hb⟩ := hends b u hr
    rcases h a ha with ⟨hr', hk⟩ | hd
    · rw [result_bind (result_ofExcept hr' s)]
      exact hk.same b u hb
    · exact .inr (hd b u hb)
  · obtain ⟨a, ha, hb⟩ := hends b u hr
    exact hs a ha hd b u hb

/-- A computation that asks for nothing. -/
theorem bind_known {r : Except ε α} (h : ∀ a, r = .ok a → KeepsUp D (f a) (f' a) s) :
    KeepsUp D (Run.ofExcept r >>= f) (Run.ofExcept r >>= f') s :=
  bind_ofExcept (fun a ha hd => (h a ha).stays hd) fun a ha => .inl ⟨ha, h a ha⟩

theorem when {c : Bool} {m m' : Run σ ε Unit} (h : c = true → KeepsUp D m m' s) :
    KeepsUp D (Run.when c m) (Run.when c m') s := by
  cases c with
  | true => exact h rfl
  | false => exact pure

/-- A loop over a list, with an invariant. -/
theorem each {f f' : α → Run σ ε Unit} {J : σ → Prop} (hw : ∀ a t, J t → Wp I E (f a) t fun _ u => J u)
    (hf : ∀ a t, J t → KeepsUp D (f a) (f' a) t) {l : List α} (hs : J s) :
    KeepsUp D (Run.each f l) (Run.each f' l) s := by
  induction l generalizing s with
  | nil => exact pure
  | cons a l ih => exact bind (hf a s hs) (hw a s hs) fun _ t ht => ih ht

end KeepsUp

end Run

end Lib
