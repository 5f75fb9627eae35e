import Mathlib.Data.List.Forall2

/-!
# Sessions

A client sends requests to a system, one after the other, and the system answers each of them. What the
system should do is a function: the answer to a request and the next state. The system may do more than
one thing, as long as it answers like the function.

* `Runs`: the runs of a system, with the requests and the answers.
* `Runs.refines`: if each step answers as the specification does and keeps a relation to its state, so does
  each run.
* `Runs.unique`: then two runs with requests that mean the same give the same answers.
* `Runs.simulates`: the specification may be a system as well, with more than one answer to a request.
-/

namespace Lib

variable {σ τ γ α : Type}

/-- A run of a system, from one state to another, with the requests and the answers. -/
inductive Runs (step : σ → γ → α → σ → Prop) : σ → List γ → List α → σ → Prop
  | nil (s : σ) : Runs step s [] [] s
  | cons {s t u : σ} {c : γ} {a : α} {cs : List γ} {as : List α} (h : step s c a t) (hr : Runs step t cs as u) :
    Runs step s (c :: cs) (a :: as) u

/-- The answers to a list of requests, and the last state. -/
def specRun (spec : τ → γ → α × τ) : τ → List γ → List α × τ
  | t, [] => ([], t)
  | t, c :: cs => ((spec t c).1 :: (specRun spec (spec t c).2 cs).1, (specRun spec (spec t c).2 cs).2)

variable {step : σ → γ → α → σ → Prop} {spec : τ → γ → α × τ} {R : τ → σ → Prop} {ok : γ → Prop}
  {s t u : σ} {x : τ} {cs cs' : List γ} {as as' : List α}

theorem Runs.single {c : γ} {a : α} (h : step s c a t) : Runs step s [c] [a] t := .cons h (.nil t)

/-- Each step answers as the specification does, and keeps the relation to its state. -/
def Refines (step : σ → γ → α → σ → Prop) (spec : τ → γ → α × τ) (R : τ → σ → Prop) (ok : γ → Prop) : Prop :=
  ∀ x s c a t, R x s → ok c → step s c a t → (spec x c).1 = a ∧ R (spec x c).2 t

/-- So does each run. -/
theorem Runs.refines (hR : Refines step spec R ok) (h : Runs step s cs as t) (hok : ∀ c ∈ cs, ok c)
    (hx : R x s) : (specRun spec x cs).1 = as ∧ R (specRun spec x cs).2 t := by
  induction h generalizing x with
  | nil => exact ⟨rfl, hx⟩
  | cons hst _ ih =>
    obtain ⟨ha, hnext⟩ := hR _ _ _ _ _ hx (hok _ (List.mem_cons_self ..)) hst
    obtain ⟨has, hlast⟩ := ih (fun c hc => hok c (List.mem_cons_of_mem _ hc)) hnext
    exact ⟨by rw [specRun, ha, has], hlast⟩

/-- What the specification keeps of its state. -/
theorem specRun_invariant {I : τ → Prop} (h : ∀ x c, ok c → I x → I (spec x c).2) (hok : ∀ c ∈ cs, ok c)
    (hx : I x) : I (specRun spec x cs).2 := by
  induction cs generalizing x with
  | nil => exact hx
  | cons c cs ih =>
    exact ih (fun d hd => hok d (List.mem_cons_of_mem _ hd)) (h x c (hok c (List.mem_cons_self ..)) hx)

/-- Requests that mean the same to the specification give the same answers and the same state. -/
theorem specRun_congr {same : γ → γ → Prop} (hsame : ∀ x c c', same c c' → spec x c = spec x c')
    (h : List.Forall₂ same cs cs') : specRun spec x cs = specRun spec x cs' := by
  induction h generalizing x with
  | nil => rfl
  | cons hc _ ih => rw [specRun, specRun, hsame _ _ _ hc, ih]

/-- Two runs with requests that mean the same give the same answers, and end in states that are related to
one state of the specification. -/
theorem Runs.unique {same : γ → γ → Prop} (hsame : ∀ x c c', same c c' → spec x c = spec x c')
    (hR : Refines step spec R ok) (h : Runs step s cs as t) (hok : ∀ c ∈ cs, ok c) (hx : R x s) {s' t' : σ}
    (h' : Runs step s' cs' as' t') (hok' : ∀ c ∈ cs', ok c) (hx' : R x s') (hcs : List.Forall₂ same cs cs') :
    as = as' ∧ ∃ y, R y t ∧ R y t' := by
  obtain ⟨ha, ht⟩ := h.refines hR hok hx
  obtain ⟨ha', ht'⟩ := h'.refines hR hok' hx'
  rw [specRun_congr hsame hcs] at ha ht
  exact ⟨ha.symm.trans ha', _, ht, ht'⟩

/-! ## Systems as specifications -/

/-- Each step with an answer that is accepted is one of the specification, and keeps the relation to its
state. -/
def Simulates (step : σ → γ → α → σ → Prop) (spec : τ → γ → α → τ → Prop) (R : τ → σ → Prop) (ok : γ → Prop)
    (good : α → Prop) : Prop :=
  ∀ x s c a t, R x s → ok c → good a → step s c a t → ∃ y, spec x c a y ∧ R y t

/-- So is each run. -/
theorem Runs.simulates {spec : τ → γ → α → τ → Prop} {good : α → Prop} (hR : Simulates step spec R ok good)
    (h : Runs step s cs as t) (hok : ∀ c ∈ cs, ok c) (hgood : ∀ a ∈ as, good a) (hx : R x s) :
    ∃ y, Runs spec x cs as y ∧ R y t := by
  induction h generalizing x with
  | nil => exact ⟨x, .nil x, hx⟩
  | cons hst _ ih =>
    obtain ⟨y, hy, hnext⟩ :=
      hR _ _ _ _ _ hx (hok _ (List.mem_cons_self ..)) (hgood _ (List.mem_cons_self ..)) hst
    obtain ⟨z, hz, hlast⟩ := ih (fun c hc => hok c (List.mem_cons_of_mem _ hc))
      (fun a ha => hgood a (List.mem_cons_of_mem _ ha)) hnext
    exact ⟨z, .cons hy hz, hlast⟩

/-- The runs of a specification that is a function to the next state and to the answers that it accepts. -/
theorem Runs.accepts {spec : τ → γ → (α → Prop) × τ} {y : τ}
    (h : Runs (fun x c a y => (spec x c).1 a ∧ (spec x c).2 = y) x cs as y) :
    List.Forall₂ (fun accepted a => accepted a) (specRun spec x cs).1 as ∧ (specRun spec x cs).2 = y := by
  induction h with
  | nil => exact ⟨.nil, rfl⟩
  | cons hst _ ih =>
    obtain ⟨ha, rfl⟩ := hst
    exact ⟨.cons ha ih.1, ih.2⟩

/-! ## Several parties -/

section

variable {β δ : Type} {Q : β → δ → Prop} {l : List β} {l' : List δ} {i : Nat} {b : β} {d : δ}

theorem forall₂_getElem (h : List.Forall₂ Q l l') (hd : l'[i]? = some d) : ∃ b, l[i]? = some b ∧ Q b d := by
  obtain ⟨hi, rfl⟩ := List.getElem?_eq_some_iff.mp hd
  have hl := h.length_eq
  exact ⟨l[i], List.getElem?_eq_getElem (by omega), h.get (by omega) hi⟩

theorem forall₂_set (h : List.Forall₂ Q l l') (hq : Q b d) (i : Nat) :
    List.Forall₂ Q (l.set i b) (l'.set i d) := by
  refine List.forall₂_iff_get.mpr ⟨by simpa using h.length_eq, fun j hj hj' => ?_⟩
  rw [List.get_eq_getElem, List.get_eq_getElem, List.getElem_set, List.getElem_set]
  split
  · exact hq
  · exact h.get (by simpa using hj) (by simpa using hj')

/-- One party moves to a state that is related to the same. -/
theorem forall₂_set_right (h : List.Forall₂ Q l l') (hb : l[i]? = some b) (hq : Q b d) :
    List.Forall₂ Q l (l'.set i d) := by
  have hset := forall₂_set h hq i
  obtain ⟨hi, rfl⟩ := List.getElem?_eq_some_iff.mp hb
  rwa [List.set_getElem_self] at hset

/-- Two lists that are related to one. -/
theorem forall₂_join {ε : Type} {Q' : β → ε → Prop} {l'' : List ε} (h : List.Forall₂ Q l l')
    (h' : List.Forall₂ Q' l l'') : List.Forall₂ (fun d e => ∃ b, Q b d ∧ Q' b e) l' l'' := by
  induction h generalizing l'' with
  | nil =>
    cases h'
    exact .nil
  | cons hq _ ih =>
    cases h' with
    | cons hq' hr => exact .cons ⟨_, hq, hq'⟩ (ih hr)

theorem forall₂_concat (h : List.Forall₂ Q l l') (hq : Q b d) : List.Forall₂ Q (l ++ [b]) (l' ++ [d]) :=
  List.rel_append h (.cons hq .nil)

end

end Lib
