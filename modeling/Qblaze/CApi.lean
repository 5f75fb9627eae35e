import Qblaze.Exact
import Qblaze.Simulator.Controls

/-!
# The gates of the C interface (`src/capi.rs`)

A C function checks its arguments and passes them on to the simulator. What it rejects does not change
the simulator. A number that is infinite or no number is `none` here.

* `parseControls_ok`, `parseControls_isOk`: controls are accepted if and only if their indices are in
  range and different.
* `gates_safe_iff`: a call is safe, except for a swap of a qubit with itself.
-/

namespace Qblaze

open Lib.Run

def QBLAZE_ERR_MEMORY : Int := -1
def QBLAZE_ERR_DOMAIN : Int := -2
def QBLAZE_ERR_QUBIT_INDEX : Int := -3
def QBLAZE_ERR_QUBIT_USAGE : Int := -4

/-- `QBlazeControl` -/
structure QBlazeControl where
  qubit : Nat
  value : Bool
  deriving DecidableEq

/-! ## Arguments -/

/-- `parse_qubit` -/
def parseQubit (qubit : Nat) : Except Int Qubit :=
  match Qubit.tryFromIndex qubit with
  | some q => .ok q
  | none => .error QBLAZE_ERR_QUBIT_INDEX

/-- One item of `parse_controls`. -/
def parseControl (ci : QBlazeControl) : Except Int ControlItem := do
  let q ← parseQubit ci.qubit
  return ⟨q, ci.value⟩

/-- `parse_controls` -/
def parseControls (controls : List QBlazeControl) : Except Int Control :=
  if controls.length = 0 then .ok Control.always
  else do
    let r ← Control.tryFromIter (controls.map parseControl)
    match r with
    | some ctl => return ctl
    | none => .error QBLAZE_ERR_QUBIT_USAGE

variable {l : List QBlazeControl} {ctl : Control} {q : Qubit} {i : Nat} {e : Int}

theorem parseQubit_ok : parseQubit i = .ok q ↔ q.val = i := by
  unfold parseQubit Qubit.tryFromIndex
  constructor
  · intro h
    split at h
    · rename_i hs
      split at hs
      · cases hs
        cases h
        rfl
      · cases hs
    · cases h
  · rintro rfl
    rw [dif_pos q.isLt]

theorem parseQubit_error (h : parseQubit i = .error e) : e = QBLAZE_ERR_QUBIT_INDEX ∧ 62 * 64 ≤ i := by
  unfold parseQubit Qubit.tryFromIndex at h
  split at h
  · cases h
  · rename_i hs
    split at hs
    · cases hs
    · cases h
      exact ⟨rfl, by omega⟩

/-- The items are parsed, or one of them is out of range. -/
theorem mapM_parseControl (l : List QBlazeControl) :
    (∃ items, (l.map parseControl).mapM id = .ok items ∧
      items.map (·.qubit.val) = l.map (·.qubit)) ∨
    (l.map parseControl).mapM id = .error QBLAZE_ERR_QUBIT_INDEX ∧ ∃ c ∈ l, 62 * 64 ≤ c.qubit := by
  induction l with
  | nil => exact .inl ⟨[], rfl, rfl⟩
  | cons c l ih =>
    rw [List.map_cons, List.mapM_cons]
    cases hq : parseQubit c.qubit with
    | error e =>
      obtain ⟨rfl, hc⟩ := parseQubit_error hq
      refine .inr ⟨?_, c, List.mem_cons_self .., hc⟩
      simp only [parseControl, hq]
      rfl
    | ok q =>
      have hp : id (parseControl c) = .ok ⟨q, c.value⟩ := by
        simp only [id, parseControl, hq]
        rfl
      rw [hp]
      rcases ih with ⟨items, hi, hm⟩ | ⟨hi, d, hd, hlt⟩
      · refine .inl ⟨⟨q, c.value⟩ :: items, by rw [hi]; rfl, ?_⟩
        rw [List.map_cons, List.map_cons, hm, parseQubit_ok.mp hq]
      · exact .inr ⟨by rw [hi]; rfl, d, List.mem_cons_of_mem _ hd, hlt⟩

/-- `parse_controls` collects the parsed items. -/
theorem parseControls_eq (l : List QBlazeControl) : parseControls l = (do
    let items ← (l.map parseControl).mapM id
    match Control.fromIter items with
    | some ctl => return ctl
    | none => .error QBLAZE_ERR_QUBIT_USAGE) := by
  unfold parseControls
  split
  · rename_i hl
    rw [List.length_eq_zero_iff.mp hl]
    rfl
  · rw [Control.tryFromIter_eq]
    cases (l.map parseControl).mapM id <;> rfl

/-- Accepted controls are in range and different, and the control uses their qubits. -/
theorem parseControls_ok (h : parseControls l = .ok ctl) :
    (∀ c ∈ l, c.qubit < 62 * 64) ∧ (l.map (·.qubit)).Nodup ∧
      ∀ q : Qubit, ctl.uses q = true ↔ ∃ c ∈ l, c.qubit = q.val := by
  rw [parseControls_eq] at h
  rcases mapM_parseControl l with ⟨items, hi, hm⟩ | ⟨hi, -⟩
  · rw [hi] at h
    cases hf : Control.fromIter items with
    | none =>
      simp only [hf, bind, Except.bind] at h
      cases h
    | some c =>
      simp only [hf, bind, Except.bind, pure, Except.pure] at h
      cases h
      have hperm := Control.fromIter_perm hf
      refine ⟨fun d hd => ?_, ?_, fun q => ?_⟩
      · have hmem : d.qubit ∈ items.map (·.qubit.val) := by
          rw [hm]
          exact List.mem_map.mpr ⟨d, hd, rfl⟩
        obtain ⟨a, -, ha⟩ := List.mem_map.mp hmem
        rw [← ha]
        exact a.qubit.isLt
      · rw [← hm, ← (hperm.map _).nodup_iff]
        exact List.pairwise_map.mpr (ctl.ordered.imp fun hab => (Fin.lt_def.mp hab).ne)
      · rw [Control.uses_iff]
        have hmem : (∃ a ∈ ctl.items, a.qubit = q) ↔ q.val ∈ items.map (·.qubit.val) := by
          rw [List.mem_map]
          constructor
          · rintro ⟨a, ha, rfl⟩
            exact ⟨a, hperm.mem_iff.mp ha, rfl⟩
          · rintro ⟨a, ha, haq⟩
            exact ⟨a, hperm.mem_iff.mpr ha, Fin.ext haq⟩
        rw [hmem, hm, List.mem_map]
  · rw [hi] at h
    cases h

/-- Controls in range, on different qubits, are accepted. -/
theorem parseControls_isOk (hr : ∀ c ∈ l, c.qubit < 62 * 64) (hd : (l.map (·.qubit)).Nodup) :
    ∃ ctl, parseControls l = .ok ctl := by
  rw [parseControls_eq]
  rcases mapM_parseControl l with ⟨items, hi, hm⟩ | ⟨-, c, hc, hlt⟩
  · have hnd : (items.map (·.qubit)).Nodup := by
      rw [← hm] at hd
      exact List.Nodup.of_map _ (by rwa [List.map_map])
    obtain ⟨ctl, hctl⟩ := Control.fromIter_isSome hnd
    refine ⟨ctl, ?_⟩
    rw [hi]
    simp only [hctl, bind, Except.bind]
    rfl
  · exact absurd (hr c hc) (by omega)

theorem parseControls_error (h : parseControls l = .error e) :
    e = QBLAZE_ERR_QUBIT_INDEX ∨ e = QBLAZE_ERR_QUBIT_USAGE := by
  rw [parseControls_eq] at h
  rcases mapM_parseControl l with ⟨items, hi, -⟩ | ⟨hi, -⟩
  · rw [hi] at h
    simp only [bind, Except.bind] at h
    split at h
    · cases h
    · cases h
      exact .inr rfl
  · rw [hi] at h
    cases h
    exact .inl rfl

/-! ## Calls -/

variable {F : Type} [Field F] [LinearOrder F] [Eps F] [Scalar F]

/-- The C functions that apply a gate. -/
inductive CCall (F : Type) where
  | applyU3 (target : Nat) (theta phi lam : Option F)
  | applyMcx (controls : List QBlazeControl) (target : Nat)
  | applyMcswap (controls : List QBlazeControl) (target0 target1 : Nat)
  | applyMcphase (controls : List QBlazeControl) (phase : Option F)

namespace CCall

/-- The body of `qblaze_apply_u3`, up to the call of the simulator. -/
def qblazeApplyU3 (target : Nat) : Option F → Option F → Option F → Except Int (Sim F Unit)
  | some theta, some phi, some lam => do
    let target ← parseQubit target
    let gate := U3.new (Angle.fromRadians theta) (Angle.fromRadians phi) (Angle.fromRadians lam)
    return Simulator.u3 target gate
  | _, _, _ => .error QBLAZE_ERR_DOMAIN

/-- `qblaze_apply_mcx` -/
def qblazeApplyMcx (env : Env) (controls : List QBlazeControl) (target : Nat) :
    Except Int (Sim F Unit) := do
  let target ← parseQubit target
  let ctl ← parseControls controls
  if ctl.uses target then .error QBLAZE_ERR_QUBIT_USAGE else return Simulator.ctlX env ctl target

/-- `qblaze_apply_mcswap` -/
def qblazeApplyMcswap (env : Env) (controls : List QBlazeControl) (target0 target1 : Nat) :
    Except Int (Sim F Unit) := do
  let target0 ← parseQubit target0
  let target1 ← parseQubit target1
  let ctl ← parseControls controls
  if ctl.uses target0 then .error QBLAZE_ERR_QUBIT_USAGE
  else if ctl.uses target1 then .error QBLAZE_ERR_QUBIT_USAGE
  else return Simulator.ctlSwap env ctl target0 target1

/-- `qblaze_apply_mcphase` -/
def qblazeApplyMcphase (env : Env) (controls : List QBlazeControl) :
    Option F → Except Int (Sim F Unit)
  | some phase => do
    let ctl ← parseControls controls
    return Simulator.ctlPhase env ctl (Angle.fromRadians phase)
  | none => .error QBLAZE_ERR_DOMAIN

/-- The checks of a call: an error, or what is passed on to the simulator. -/
def parse (env : Env) : CCall F → Except Int (Sim F Unit)
  | applyU3 target theta phi lam => qblazeApplyU3 target theta phi lam
  | applyMcx controls target => qblazeApplyMcx env controls target
  | applyMcswap controls target0 target1 => qblazeApplyMcswap env controls target0 target1
  | applyMcphase controls phase => qblazeApplyMcphase env controls phase

/-- `wrap_err!`: what a call returns. -/
def run (env : Env) (call : CCall F) : Sim F Int :=
  match call.parse env with
  | .ok gate => do
    gate
    let sim ← read
    return if sim.isError then QBLAZE_ERR_MEMORY else 0
  | .error e => return e

end CCall

/-! ## Safety -/

namespace CCall

/-- The call returns an error for its arguments and does not change the simulator, or what is passed
on to the simulator meets its assertions. -/
def Safe (env : Env) (call : CCall F) (sim : Simulator F) : Prop :=
  (∃ e ∈ [QBLAZE_ERR_DOMAIN, QBLAZE_ERR_QUBIT_INDEX, QBLAZE_ERR_QUBIT_USAGE],
    (call.run env).result sim = .ok (e, sim) ∧ (call.run env).states sim = []) ∨
  ∃ gate, call.parse env = .ok gate ∧ gate.result sim ≠ .error .assertion ∧
    (call.run env).result sim ≠ .error .assertion

/-- A swap of a qubit with itself that passes all checks. -/
def SwapsOne : CCall F → Prop
  | applyMcswap controls target0 target1 => target0 = target1 ∧ target0 < 62 * 64 ∧
      (∀ c ∈ controls, c.qubit < 62 * 64 ∧ c.qubit ≠ target0) ∧ (controls.map (·.qubit)).Nodup
  | _ => False

variable {env : Env} {call : CCall F} {sim : Simulator F}

theorem safe_of_error (h : call.parse env = .error e)
    (he : e ∈ [QBLAZE_ERR_DOMAIN, QBLAZE_ERR_QUBIT_INDEX, QBLAZE_ERR_QUBIT_USAGE]) :
    call.Safe env sim := by
  have hrun : call.run env = return e := by
    unfold run
    rw [h]
  refine .inl ⟨e, he, ?_, ?_⟩
  · rw [hrun]
    rfl
  · rw [hrun]
    rfl

theorem safe_of_wp {gate : Sim F Unit} (h : call.parse env = .ok gate)
    (hw : Wp (fun _ => True) Simulator.NotAssertion gate sim fun _ _ => True) :
    call.Safe env sim := by
  have hrun : Wp (fun _ => True) Simulator.NotAssertion (call.run env) sim fun _ _ => True := by
    unfold run
    rw [h]
    exact .bind hw fun _ _ _ => .bind_read (.pure trivial)
  exact .inr ⟨gate, h, fun he => hw.fails _ he rfl, fun he => hrun.fails _ he rfl⟩

theorem safe_applyU3 {target : Nat} {theta phi lam : Option F} :
    (applyU3 target theta phi lam).Safe env sim := by
  cases theta with
  | none => exact safe_of_error rfl (by simp)
  | some theta =>
    cases phi with
    | none => exact safe_of_error rfl (by simp)
    | some phi =>
      cases lam with
      | none => exact safe_of_error rfl (by simp)
      | some lam =>
        cases hq : parseQubit target with
        | error e =>
          refine safe_of_error (e := e) ?_ (by simp [(parseQubit_error hq).1])
          simp only [parse, qblazeApplyU3, hq]
          rfl
        | ok q =>
          have hparse : (applyU3 target (some theta) (some phi) (some lam)).parse env = .ok
              (Simulator.u3 q (U3.new (Angle.fromRadians theta) (Angle.fromRadians phi)
                (Angle.fromRadians lam))) := by
            simp only [parse, qblazeApplyU3, hq]
            rfl
          exact safe_of_wp hparse Simulator.wp_u3_asserts

theorem safe_applyMcx {controls : List QBlazeControl} {target : Nat} :
    (applyMcx controls target : CCall F).Safe env sim := by
  cases hq : parseQubit target with
  | error e =>
    refine safe_of_error (e := e) ?_ (by simp [(parseQubit_error hq).1])
    simp only [parse, qblazeApplyMcx, hq]
    rfl
  | ok q =>
    cases hc : parseControls controls with
    | error e =>
      refine safe_of_error (e := e) ?_ (by rcases parseControls_error hc with h | h <;> simp [h])
      simp only [parse, qblazeApplyMcx, hq, hc]
      rfl
    | ok ctl =>
      cases hu : ctl.uses q with
      | true =>
        refine safe_of_error (e := QBLAZE_ERR_QUBIT_USAGE) ?_ (by simp)
        simp only [parse, qblazeApplyMcx, hq, hc, bind, Except.bind, hu, if_true]
      | false =>
        have hparse : (applyMcx controls target).parse env = .ok (Simulator.ctlX (F := F) env ctl q) := by
          simp only [parse, qblazeApplyMcx, hq, hc, bind, Except.bind, hu, Bool.false_eq_true, if_false]
          rfl
        exact safe_of_wp hparse (Simulator.wp_ctlX_asserts hu)

theorem safe_applyMcphase {controls : List QBlazeControl} {phase : Option F} :
    (applyMcphase controls phase).Safe env sim := by
  cases phase with
  | none => exact safe_of_error rfl (by simp)
  | some phase =>
    cases hc : parseControls controls with
    | error e =>
      refine safe_of_error (e := e) ?_ (by rcases parseControls_error hc with h | h <;> simp [h])
      simp only [parse, qblazeApplyMcphase, hc]
      rfl
    | ok ctl =>
      have hparse : (applyMcphase controls (some phase)).parse env = .ok
          (Simulator.ctlPhase env ctl (Angle.fromRadians phase)) := by
        simp only [parse, qblazeApplyMcphase, hc]
        rfl
      exact safe_of_wp hparse Simulator.wp_ctlPhase_asserts

/-- A swap is safe, unless the targets are one qubit. -/
theorem safe_applyMcswap {controls : List QBlazeControl} {target0 target1 : Nat}
    (h : ¬ (applyMcswap controls target0 target1 : CCall F).SwapsOne) :
    (applyMcswap controls target0 target1 : CCall F).Safe env sim := by
  cases h0 : parseQubit target0 with
  | error e =>
    refine safe_of_error (e := e) ?_ (by simp [(parseQubit_error h0).1])
    simp only [parse, qblazeApplyMcswap, h0]
    rfl
  | ok q0 =>
    cases h1 : parseQubit target1 with
    | error e =>
      refine safe_of_error (e := e) ?_ (by simp [(parseQubit_error h1).1])
      simp only [parse, qblazeApplyMcswap, h0, h1]
      rfl
    | ok q1 =>
      cases hc : parseControls controls with
      | error e =>
        refine safe_of_error (e := e) ?_ (by rcases parseControls_error hc with h | h <;> simp [h])
        simp only [parse, qblazeApplyMcswap, h0, h1, hc]
        rfl
      | ok ctl =>
        cases hu0 : ctl.uses q0 with
        | true =>
          refine safe_of_error (e := QBLAZE_ERR_QUBIT_USAGE) ?_ (by simp)
          simp only [parse, qblazeApplyMcswap, h0, h1, hc, bind, Except.bind, hu0, if_true]
        | false =>
          cases hu1 : ctl.uses q1 with
          | true =>
            refine safe_of_error (e := QBLAZE_ERR_QUBIT_USAGE) ?_ (by simp)
            simp only [parse, qblazeApplyMcswap, h0, h1, hc, bind, Except.bind, hu0, hu1, if_true,
              Bool.false_eq_true, if_false]
          | false =>
            have hparse : (applyMcswap controls target0 target1).parse env = .ok
                (Simulator.ctlSwap (F := F) env ctl q0 q1) := by
              simp only [parse, qblazeApplyMcswap, h0, h1, hc, bind, Except.bind, hu0, hu1,
                Bool.false_eq_true, if_false]
              rfl
            refine safe_of_wp hparse (Simulator.wp_ctlSwap_asserts hu0 hu1 fun hq => h ?_)
            obtain ⟨hr, hd, huse⟩ := parseControls_ok hc
            rw [parseQubit_ok] at h0 h1
            refine ⟨by rw [← h0, ← h1, hq], by rw [← h0]; exact q0.isLt, fun c hcm => ⟨hr c hcm, ?_⟩,
              hd⟩
            intro hct
            have hused := (huse q0).mpr ⟨c, hcm, hct.trans h0.symm⟩
            rw [hu0] at hused
            cases hused

/-- A swap of a qubit with itself passes the checks, and the simulator panics. -/
theorem swapsOne_panics (h : call.SwapsOne) :
    (call.run env).result sim = .error .assertion ∧ ¬ call.Safe env sim := by
  cases call with
  | applyU3 => cases h
  | applyMcx => cases h
  | applyMcphase => cases h
  | applyMcswap controls target0 target1 =>
    obtain ⟨rfl, hlt, hctl, hd⟩ := h
    have h0 : parseQubit target0 = .ok ⟨target0, hlt⟩ := parseQubit_ok.mpr rfl
    obtain ⟨ctl, hc⟩ := parseControls_isOk (fun c hcm => (hctl c hcm).1) hd
    have hu : ctl.uses ⟨target0, hlt⟩ = false := by
      rw [Bool.eq_false_iff]
      intro hu
      obtain ⟨c, hcm, hct⟩ := ((parseControls_ok hc).2.2 _).mp hu
      exact (hctl c hcm).2 hct
    have hparse : (applyMcswap controls target0 target0 : CCall F).parse env =
        .ok (Simulator.ctlSwap env ctl ⟨target0, hlt⟩ ⟨target0, hlt⟩) := by
      simp only [parse, qblazeApplyMcswap, h0, hc, bind, Except.bind, hu, Bool.false_eq_true, if_false]
      rfl
    have hpanic : Simulator.ctlSwap env ctl ⟨target0, hlt⟩ ⟨target0, hlt⟩ =
        (fail .assertion : Sim F Unit) := if_pos (.inr (.inr rfl))
    have hrun : ((applyMcswap controls target0 target0 : CCall F).run env).result sim =
        .error .assertion := by
      unfold run
      rw [hparse, hpanic]
      rfl
    refine ⟨hrun, ?_⟩
    rintro (⟨e, -, he, -⟩ | ⟨gate, -, -, hne⟩)
    · rw [hrun] at he
      cases he
    · exact hne hrun

/-- For every simulator, a call of a C function for gates is safe if and only if it is no swap of a
qubit with itself that passes the checks of the other arguments. -/
theorem gates_safe_iff (env : Env) (call : CCall F) (sim : Simulator F) :
    call.Safe env sim ↔ ¬ call.SwapsOne := by
  refine ⟨fun hs hsw => (swapsOne_panics hsw).2 hs, fun h => ?_⟩
  cases call with
  | applyU3 target theta phi lam => exact safe_applyU3
  | applyMcx controls target => exact safe_applyMcx
  | applyMcphase controls phase => exact safe_applyMcphase
  | applyMcswap controls target0 target1 => exact safe_applyMcswap h

/-- A swap of qubit `0` with itself, right after the simulator is made. -/
theorem mcswap_one_qubit_panics : ∃ sim : Simulator ℝ, Simulator.new Context.default true = .ok sim ∧
    ((applyMcswap [] 0 0 : CCall ℝ).run Env.default).result sim = .error .assertion ∧
    ¬ (applyMcswap [] 0 0 : CCall ℝ).Safe Env.default sim := by
  have hnew : Simulator.new Context.default true = .ok (Simulator.newWithState Context.default
      ⟨1, some 0, [⟨BitSet.empty, ⟨1, 0⟩⟩], []⟩ : Simulator ℝ) := rfl
  have hone : (applyMcswap [] 0 0 : CCall ℝ).SwapsOne :=
    ⟨rfl, by decide, fun c hc => absurd hc List.not_mem_nil, List.nodup_nil⟩
  exact ⟨_, hnew, swapsOne_panics hone⟩

end CCall

end Qblaze
