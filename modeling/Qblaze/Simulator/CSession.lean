import Mathlib.Analysis.Real.Pi.Bounds
import Qblaze.CApi
import Qblaze.Simulator.Readout
import Qblaze.Simulator.Refusal

/-!
# Sessions of the C interface (`src/capi.rs`)

A C client makes simulators and calls C functions with any arguments, and memory may be refused at any time.
The client of the ideal registers (`Promise`) is told what the arguments lack, or gets the answer of the
register, or is told that memory is missing; then the register is lost until it is reset or imported. A simulator
that is deleted (`qblaze_del`) is one that no later call is for.

* `CCall.parse_eq`: the C functions for gates ask for what their arguments say.
* `c_session_promise`: every C session is one that the ideal client may see.
* `c_session_exact`: if nothing is reported to be missing, every answer is the ideal one.
-/

namespace Qblaze

open Lib Lib.Run Angle Mat

/-! ## Options -/

def QBLAZE_OPT_END : Int := 0
def QBLAZE_OPT_QUBIT_COUNT : Int := 2
def QBLAZE_OPT_THREAD_COUNT : Int := 3
def QBLAZE_OPT_CHUNK_SIZE : Int := 4
def QBLAZE_OPT_MULTITHREADING_THRESHOLD : Int := 6
def QBLAZE_OPT_WORK_ITEM_MIN_SIZE : Int := 7
def QBLAZE_OPT_WORK_ITEM_MAX_SIZE : Int := 8

def Qubit.MAX : Qubit := ⟨62 * 64 - 1, by decide⟩

/-- `QBlazeConfig`, whose value is a size. -/
structure QBlazeConfig where
  option : Int
  value : Nat

/-- One option of `qblaze_new`. Those for output and for performance data change nothing here. -/
def QBlazeConfig.apply (config : Context) (cfg : QBlazeConfig) : Context :=
  if cfg.option = QBLAZE_OPT_QUBIT_COUNT then
    { config with initMaxQubit := (Qubit.tryFromIndex (max 1 cfg.value - 1)).getD Qubit.MAX }
  else if cfg.option = QBLAZE_OPT_THREAD_COUNT then { config with numThreads := cfg.value }
  else if cfg.option = QBLAZE_OPT_CHUNK_SIZE then { config with chunkSize := cfg.value }
  else if cfg.option = QBLAZE_OPT_MULTITHREADING_THRESHOLD then
    { config with multithreadingThreshold := cfg.value }
  else if cfg.option = QBLAZE_OPT_WORK_ITEM_MIN_SIZE then { config with workItemMinSize := cfg.value }
  else if cfg.option = QBLAZE_OPT_WORK_ITEM_MAX_SIZE then { config with workItemMaxSize := cfg.value }
  else config

/-- The loop of `qblaze_new`. An array of options ends with `QBLAZE_OPT_END`. -/
def parseOptions (config : Context) : List QBlazeConfig → Option Context
  | [] => none
  | cfg :: cfgs => if cfg.option = QBLAZE_OPT_END then some config else parseOptions (cfg.apply config) cfgs

/-- `qblaze_new`, where `config` is `Config::default()`. A null pointer stands for no options. -/
def qblazeNew {F : Type} [Field F] (config : Context) (cfgs : Option (List QBlazeConfig)) (alloc : Bool) :
    Option (Except Panic (Simulator F)) :=
  match cfgs with
  | none => some (Simulator.new config alloc)
  | some cfgs => (parseOptions config cfgs).map fun config => Simulator.new config alloc

/-! ## Functions -/

/-- What a C function leaves: the value that it returns, unless it returns nothing, and what it writes to
`p0` and `p1`, unless they are null pointers. -/
structure CReply (F : Type) where
  code : Option Int
  p0 : Option (Option F)
  p1 : Option (Option F)

/-- Write to a pointer, unless it is null. -/
def writeTo {α : Type} (notNull : Bool) (a : α) : Option α := if notNull then some a else none

section

variable {F : Type} [Field F] [LinearOrder F] [Eps F] [Scalar F]

/-- `qblaze_measure` -/
def qblazeMeasure (env : Env) (target : Nat) (bias : BitVec 64) (p0 p1 : Bool) : Sim F (CReply F) :=
  match parseQubit target with
  | .error e => return ⟨some e, none, none⟩
  | .ok target => do
    let r ← Simulator.measure env target bias
    let sim ← read
    return ⟨some (if sim.isError then QBLAZE_ERR_MEMORY else if r.1 then 1 else 0),
      writeTo p0 (r.2.map (·.1)), writeTo p1 (r.2.map (·.2))⟩

/-- `qblaze_qubit_probs` -/
def qblazeQubitProbs (env : Env) (target : Nat) (p0 p1 : Bool) : Sim F (CReply F) :=
  match parseQubit target with
  | .error e => return ⟨some e, none, none⟩
  | .ok target => do
    let r ← Simulator.qubitProbs env target
    let sim ← read
    return ⟨some (if sim.isError then QBLAZE_ERR_MEMORY else 0),
      writeTo p0 (r.map (·.1)), writeTo p1 (r.map (·.2))⟩

/-- `qblaze_flush` -/
def qblazeFlush (env : Env) : Sim F Int := do
  Simulator.flush env
  let sim ← read
  return if sim.isError then QBLAZE_ERR_MEMORY else 0

/-- The C functions on one simulator. -/
inductive CRequest (F : Type) where
  | gate (call : CCall F)
  | measure (target : Nat) (bias : BitVec 64) (p0 p1 : Bool)
  | qubitProbs (target : Nat) (p0 p1 : Bool)
  | flush
  | resetState
  | importAmplitudes (buffer : List (Cplx F))

namespace CRequest

def run (env : Env) : CRequest F → Sim F (CReply F)
  | gate call => do
    let r ← call.run env
    return ⟨some r, none, none⟩
  | measure target bias p0 p1 => qblazeMeasure env target bias p0 p1
  | qubitProbs target p0 p1 => qblazeQubitProbs env target p0 p1
  | flush => do
    let r ← qblazeFlush env
    return ⟨some r, none, none⟩
  | resetState => do
    Simulator.resetState env
    return ⟨none, none, none⟩
  | importAmplitudes buffer => do
    let r ← qblazeImportAmplitudes env buffer
    return ⟨some r, none, none⟩

end CRequest

/-! ## What is asked for -/

/-- What the arguments of a gate ask for, or what they lack. -/
def CCall.decode : CCall F → Except Int (Call F)
  | applyU3 target (some theta) (some phi) (some lam) => do
    let target ← parseQubit target
    return .u3 target (U3.new (Angle.fromRadians theta) (Angle.fromRadians phi) (Angle.fromRadians lam))
  | applyU3 _ _ _ _ => .error QBLAZE_ERR_DOMAIN
  | applyMcx controls target => do
    let target ← parseQubit target
    let ctl ← parseControls controls
    if ctl.uses target then .error QBLAZE_ERR_QUBIT_USAGE else return .ctlX ctl target
  | applyMcswap controls target0 target1 => do
    let target0 ← parseQubit target0
    let target1 ← parseQubit target1
    let ctl ← parseControls controls
    if ctl.uses target0 || ctl.uses target1 then .error QBLAZE_ERR_QUBIT_USAGE
    else return .ctlSwap ctl target0 target1
  | applyMcphase controls (some phase) => do
    let ctl ← parseControls controls
    return .ctlPhase ctl (Angle.fromRadians phase)
  | applyMcphase _ none => .error QBLAZE_ERR_DOMAIN

namespace CRequest

def decode : CRequest F → Except Int (Call F)
  | gate call => call.decode
  | measure target bias _ _ => do
    let target ← parseQubit target
    return .measure target bias
  | qubitProbs target _ _ => do
    let target ← parseQubit target
    return .qubitProbs target
  | flush => .ok .flush
  | resetState => .ok .resetState
  | importAmplitudes buffer =>
    if buffer.length = 0 then .error QBLAZE_ERR_MEMORY else .ok (.importDense buffer)

/-- The reply for an answer of the simulator, which may be in the error state afterwards. -/
def report (failed : Bool) : CRequest F → Answer F → CReply F
  | measure _ _ p0 p1, .outcome b probs =>
    ⟨some (if failed then QBLAZE_ERR_MEMORY else if b then 1 else 0),
      writeTo p0 (probs.map (·.1)), writeTo p1 (probs.map (·.2))⟩
  | qubitProbs _ p0 p1, .probs probs =>
    ⟨some (if failed then QBLAZE_ERR_MEMORY else 0), writeTo p0 (probs.map (·.1)), writeTo p1 (probs.map (·.2))⟩
  | resetState, _ => ⟨none, none, none⟩
  | _, _ => ⟨some (if failed then QBLAZE_ERR_MEMORY else 0), none, none⟩

end CRequest

variable {env : Env} {s t : Simulator F}

/-- The checks of a gate are those of its arguments, whatever the order of the entries and the samples are. -/
theorem CCall.parse_eq (env : Env) (call : CCall F) : call.parse env = call.decode.map (·.run env) := by
  cases call with
  | applyU3 target theta phi lam =>
    cases theta with
    | none => rfl
    | some theta =>
      cases phi with
      | none => rfl
      | some phi =>
        cases lam with
        | none => rfl
        | some lam =>
          simp only [parse, qblazeApplyU3, decode]
          cases parseQubit target <;> rfl
  | applyMcx controls target =>
    simp only [parse, qblazeApplyMcx, decode]
    cases parseQubit target with
    | error e => rfl
    | ok q =>
      cases parseControls controls with
      | error e => rfl
      | ok ctl =>
        simp only [bind, Except.bind]
        split <;> rfl
  | applyMcswap controls target0 target1 =>
    simp only [parse, qblazeApplyMcswap, decode]
    cases parseQubit target0 with
    | error e => rfl
    | ok q0 =>
      cases parseQubit target1 with
      | error e => rfl
      | ok q1 =>
        cases parseControls controls with
        | error e => rfl
        | ok ctl =>
          simp only [bind, Except.bind]
          cases ctl.uses q0 <;> cases ctl.uses q1 <;> rfl
  | applyMcphase controls phase =>
    cases phase with
    | none => rfl
    | some phase =>
      simp only [parse, qblazeApplyMcphase, decode]
      cases parseControls controls <;> rfl

omit [Field F] [LinearOrder F] [Eps F] [Scalar F] in
/-- The parts of a computation that returns. -/
theorem bind_ok {ε α β : Type} {x : Except ε α} {f : α → Except ε β} {b : β} (h : (x >>= f) = .ok b) :
    ∃ a, x = .ok a ∧ f a = .ok b := by
  cases x with
  | error e => cases h
  | ok a => exact ⟨a, rfl, h⟩

omit [Eps F] in
/-- A C function for gates asks for a gate. -/
theorem CCall.decode_ok {call : CCall F} {c : Call F} (h : call.decode = .ok c) :
    (∃ q gate, c = .u3 q gate) ∨ (∃ ctl q, c = .ctlX ctl q) ∨ (∃ ctl q1 q2, c = .ctlSwap ctl q1 q2) ∨
      ∃ ctl a, c = .ctlPhase ctl a := by
  cases call with
  | applyU3 target theta phi lam =>
    refine .inl ?_
    cases theta with
    | none => cases h
    | some theta =>
      cases phi with
      | none => cases h
      | some phi =>
        cases lam with
        | none => cases h
        | some lam =>
          obtain ⟨q, -, hq⟩ := bind_ok h
          cases hq
          exact ⟨_, _, rfl⟩
  | applyMcx controls target =>
    obtain ⟨q, -, hq⟩ := bind_ok h
    obtain ⟨ctl, -, hc⟩ := bind_ok hq
    split at hc
    · cases hc
    · cases hc
      exact .inr (.inl ⟨_, _, rfl⟩)
  | applyMcswap controls target0 target1 =>
    obtain ⟨q0, -, h0⟩ := bind_ok h
    obtain ⟨q1, -, h1⟩ := bind_ok h0
    obtain ⟨ctl, -, hc⟩ := bind_ok h1
    split at hc
    · cases hc
    · cases hc
      exact .inr (.inr (.inl ⟨_, _, _, rfl⟩))
  | applyMcphase controls phase =>
    cases phase with
    | none => cases h
    | some phase =>
      obtain ⟨ctl, -, hc⟩ := bind_ok h
      cases hc
      exact .inr (.inr (.inr ⟨_, _, rfl⟩))

/-- A gate answers with nothing. -/
theorem CCall.eval_of_decode {call : CCall F} {c : Call F} (h : call.decode = .ok c) (env : Env) :
    c.eval env = (do c.run env; return .unit) := by
  rcases decode_ok h with ⟨q, gate, rfl⟩ | ⟨ctl, q, rfl⟩ | ⟨ctl, q1, q2, rfl⟩ | ⟨ctl, a, rfl⟩ <;> rfl

namespace CRequest

variable {req : CRequest F} {c : Call F} {r : CReply F} {e : Int}

/-- Arguments that lack something are reported, and the simulator is as before. -/
theorem run_error (h : req.decode = .error e) : (req.run env).result s = .ok (⟨some e, none, none⟩, s) := by
  cases req with
  | gate call =>
    have hrun : call.run env = return e := by
      unfold CCall.run
      rw [CCall.parse_eq, show call.decode = .error e from h]
      rfl
    rw [run, hrun]
    rfl
  | measure target bias p0 p1 =>
    rw [decode] at h
    rw [run, qblazeMeasure]
    cases hq : parseQubit target with
    | error e' =>
      rw [hq] at h
      cases h
      rfl
    | ok q =>
      rw [hq] at h
      cases h
  | qubitProbs target p0 p1 =>
    rw [decode] at h
    rw [run, qblazeQubitProbs]
    cases hq : parseQubit target with
    | error e' =>
      rw [hq] at h
      cases h
      rfl
    | ok q =>
      rw [hq] at h
      cases h
  | flush => cases h
  | resetState => cases h
  | importAmplitudes buffer =>
    rw [decode] at h
    split at h
    · rename_i hl
      cases h
      rw [run, qblazeImportAmplitudes, if_pos hl]
      rfl
    · cases h

omit [Field F] [LinearOrder F] [Eps F] [Scalar F] in
/-- A program, and a return code for the state after it. -/
theorem code_of_isError {m : Sim F Unit} {r : Int}
    (h : (do m; let sim ← read; return if sim.isError then QBLAZE_ERR_MEMORY else 0 : Sim F Int).result s =
      .ok (r, t)) :
    (m >>= fun _ => (return .unit : Sim F (Answer F))).result s = .ok (.unit, t) ∧
      r = if t.isError then QBLAZE_ERR_MEMORY else 0 := by
  obtain ⟨u, v, hu, hv⟩ := result_bind_ok h
  rw [result_bind_read] at hv
  cases hv
  exact ⟨result_bind hu, rfl⟩

/-- Otherwise a C function makes the call that it is asked for, and reports its answer. -/
theorem run_ok (h : req.decode = .ok c) (hr : (req.run env).result s = .ok (r, t)) :
    ∃ a, (c.eval env).result s = .ok (a, t) ∧ r = req.report t.isError a := by
  cases req with
  | gate call =>
    obtain ⟨code, u, hcode, hu⟩ := result_bind_ok hr
    cases hu
    unfold CCall.run at hcode
    rw [CCall.parse_eq, show call.decode = .ok c from h] at hcode
    obtain ⟨ha, rfl⟩ := code_of_isError hcode
    exact ⟨.unit, CCall.eval_of_decode h env ▸ ha, rfl⟩
  | measure target bias p0 p1 =>
    rw [decode] at h
    obtain ⟨q, hq, hc⟩ := bind_ok h
    cases hc
    rw [run, qblazeMeasure, hq] at hr
    obtain ⟨a, u, ha, hu⟩ := result_bind_ok hr
    rw [result_bind_read] at hu
    cases hu
    exact ⟨.outcome a.1 a.2, result_bind ha, rfl⟩
  | qubitProbs target p0 p1 =>
    rw [decode] at h
    obtain ⟨q, hq, hc⟩ := bind_ok h
    cases hc
    rw [run, qblazeQubitProbs, hq] at hr
    obtain ⟨a, u, ha, hu⟩ := result_bind_ok hr
    rw [result_bind_read] at hu
    cases hu
    exact ⟨.probs a, result_bind ha, rfl⟩
  | flush =>
    cases h
    obtain ⟨code, u, hcode, hu⟩ := result_bind_ok hr
    cases hu
    obtain ⟨ha, rfl⟩ := code_of_isError hcode
    refine ⟨.unit, ?_, rfl⟩
    simp only [Call.eval, Call.run]
    exact ha
  | resetState =>
    cases h
    obtain ⟨a, u, ha, hu⟩ := result_bind_ok hr
    cases hu
    exact ⟨.unit, result_bind ha, rfl⟩
  | importAmplitudes buffer =>
    rw [decode] at h
    split at h
    · cases h
    · rename_i hl
      cases h
      obtain ⟨code, u, hcode, hu⟩ := result_bind_ok hr
      cases hu
      unfold qblazeImportAmplitudes at hcode
      rw [if_neg hl] at hcode
      obtain ⟨ha, rfl⟩ := code_of_isError hcode
      exact ⟨.unit, ha, rfl⟩

end CRequest

end

/-! ## The client -/

/-- What a C client asks for. Simulators are numbered in the order in which they are made. -/
inductive CCommand where
  | new (cfgs : Option (List QBlazeConfig))
  | request (i : Nat) (req : CRequest ℝ)
  | clone (i : Nat)
  | copyAmplitudes (i : Nat) (buffer : List (Cplx ℝ))
  | iterate (i : Nat)
  | dump (i : Nat)

/-- What it sees: whether a pointer is null, a reply, a buffer, the entries of an iterator unless it is a null
pointer, or lines of text. -/
inductive CAnswer where
  | pointer (notNull : Bool)
  | reply (r : CReply ℝ)
  | amplitudes (code : Int) (buffer : List (Cplx ℝ))
  | entries (iter : Option (Nat × List (QBlazeIter ℝ)))
  | lines (code : Int) (lines : List (DumpLine ℝ))

/-- The client is told that memory is missing. -/
def CAnswer.Missing : CAnswer → Prop
  | pointer notNull => notNull = false
  | reply r => r.code = some QBLAZE_ERR_MEMORY
  | amplitudes code _ => code = QBLAZE_ERR_MEMORY
  | entries iter => iter = none
  | lines code _ => code = QBLAZE_ERR_MEMORY

namespace CCommand

/-- The C functions are run, with any reservations, orders of the entries and samples. While a simulator is not
in the error state, the arithmetic is exact. -/
inductive Step (config : Context) :
    List (Simulator ℝ) → CCommand → CAnswer → List (Simulator ℝ) → Prop
  | new {sims : List (Simulator ℝ)} {cfgs : Option (List QBlazeConfig)} {alloc : Bool} {s : Simulator ℝ}
    (h : qblazeNew config cfgs alloc = some (.ok s)) : Step config sims (new cfgs) (.pointer true) (sims ++ [s])
  | request {sims : List (Simulator ℝ)} {i : Nat} {s t : Simulator ℝ} {env : Env} {req : CRequest ℝ}
    {r : CReply ℝ} (hi : sims[i]? = some s)
    (he : s.isError = false → ∀ c, req.decode = .ok c → c.Exact s)
    (h : (req.run env).result s = .ok (r, t)) : Step config sims (request i req) (.reply r) (sims.set i t)
  | clone {sims : List (Simulator ℝ)} {i : Nat} {s t : Simulator ℝ} {env : Env} {alloc : Nat → Bool}
    {o : Option (Simulator ℝ)} (hi : sims[i]? = some s) (h : (qblazeClone env alloc).result s = .ok (o, t)) :
    Step config sims (clone i) (.pointer o.isSome) (sims.set i t ++ o.toList)
  /-- The length of a buffer is a `size_t`. -/
  | copyAmplitudes {sims : List (Simulator ℝ)} {i : Nat} {s t : Simulator ℝ} {env : Env} {m : Heap ℝ} {ptr : Nat}
    {buffer out : List (Cplx ℝ)} {code : Int} (hi : sims[i]? = some s) (hm : Simulator.InMemory env s m ptr)
    (hb : buffer.length < 2 ^ 64) (h : (qblazeCopyAmplitudes env m ptr buffer).result s = .ok ((code, out), t)) :
    Step config sims (copyAmplitudes i buffer) (.amplitudes code out) (sims.set i t)
  | iterate {sims : List (Simulator ℝ)} {i : Nat} {s t : Simulator ℝ} {env : Env} {m : Heap ℝ} {ptr : Nat}
    {iter : Option (Nat × List (QBlazeIter ℝ))} (hi : sims[i]? = some s) (hm : Simulator.InMemory env s m ptr)
    (h : (qblazeIter env m ptr).result s = .ok (iter, t)) :
    Step config sims (iterate i) (.entries iter) (sims.set i t)
  | dump {sims : List (Simulator ℝ)} {i : Nat} {s t : Simulator ℝ} {env : Env} {m : Heap ℝ} {ptr : Nat}
    {code : Int} {lines : List (DumpLine ℝ)} (hi : sims[i]? = some s) (hm : Simulator.InMemory env s m ptr)
    (h : (qblazeDump env m ptr).result s = .ok ((code, lines), t)) :
    Step config sims (dump i) (.lines code lines) (sims.set i t)

/-- What the client of the ideal registers may see. A register that is lost is `none`. -/
inductive Promise : List (Option (Ket Qubit)) → CCommand → CAnswer → List (Option (Ket Qubit)) → Prop
  | new {os : List (Option (Ket Qubit))} {cfgs : Option (List QBlazeConfig)} :
    Promise os (new cfgs) (.pointer true) (os ++ [some (ket fun _ => false)])
  | newLost {os : List (Option (Ket Qubit))} {cfgs : Option (List QBlazeConfig)} :
    Promise os (new cfgs) (.pointer true) (os ++ [none])
  /-- The arguments lack something. -/
  | rejected {os : List (Option (Ket Qubit))} {i : Nat} {req : CRequest ℝ} {e : Int} {o : Option (Ket Qubit)}
    (h : req.decode = .error e) (hi : os[i]? = some o) :
    Promise os (request i req) (.reply ⟨some e, none, none⟩) os
  /-- The register answers. What is lost comes back by a reset or an import. -/
  | answered {os : List (Option (Ket Qubit))} {i : Nat} {req : CRequest ℝ} {c : Call ℝ} {o : Option (Ket Qubit)}
    {ψ : Ket Qubit} (h : req.decode = .ok c) (hi : os[i]? = some o) (ho : o = some ψ ∨ c.Restarts) :
    Promise os (request i req) (.reply (req.report false (c.ideal ψ).1)) (os.set i (some (c.ideal ψ).2))
  /-- Memory is missing. -/
  | lost {os : List (Option (Ket Qubit))} {i : Nat} {req : CRequest ℝ} {c : Call ℝ} {o : Option (Ket Qubit)}
    {a : Answer ℝ} (h : req.decode = .ok c) (hi : os[i]? = some o) :
    Promise os (request i req) (.reply (req.report true a)) (os.set i none)
  | cloned {os : List (Option (Ket Qubit))} {i : Nat} {ψ : Ket Qubit} (hi : os[i]? = some (some ψ)) :
    Promise os (clone i) (.pointer true) (os ++ [some ψ])
  | notCloned {os : List (Option (Ket Qubit))} {i : Nat} {ψ : Ket Qubit} (hi : os[i]? = some (some ψ)) :
    Promise os (clone i) (.pointer false) os
  | cloneLost {os : List (Option (Ket Qubit))} {i : Nat} {o : Option (Ket Qubit)} (hi : os[i]? = some o) :
    Promise os (clone i) (.pointer false) (os.set i none)
  /-- The amplitudes are read, with one factor for all of them. -/
  | copied {os : List (Option (Ket Qubit))} {i : Nat} {ψ : Ket Qubit} {c : ℂ} {buffer out : List (Cplx ℝ)}
    (hi : os[i]? = some (some ψ)) (hc : c ≠ 0) (h : Copied c ψ buffer out) :
    Promise os (copyAmplitudes i buffer) (.amplitudes 0 out) os
  | copyLost {os : List (Option (Ket Qubit))} {i : Nat} {o : Option (Ket Qubit)} {buffer : List (Cplx ℝ)}
    (hi : os[i]? = some o) :
    Promise os (copyAmplitudes i buffer) (.amplitudes QBLAZE_ERR_MEMORY buffer) (os.set i none)
  | iterated {os : List (Option (Ket Qubit))} {i : Nat} {ψ : Ket Qubit} {c : ℂ} {n : Nat}
    {entries : List (QBlazeIter ℝ)} (hi : os[i]? = some (some ψ)) (hc : c ≠ 0) (h : Iterated c ψ n entries) :
    Promise os (iterate i) (.entries (some (n, entries))) os
  | iterLost {os : List (Option (Ket Qubit))} {i : Nat} {o : Option (Ket Qubit)} (hi : os[i]? = some o) :
    Promise os (iterate i) (.entries none) (os.set i none)
  | dumped {os : List (Option (Ket Qubit))} {i : Nat} {ψ : Ket Qubit} {c : ℂ} {lines : List (DumpLine ℝ)}
    (hi : os[i]? = some (some ψ)) (hc : c ≠ 0) (h : Dumped c ψ lines) : Promise os (dump i) (.lines 0 lines) os
  | dumpLost {os : List (Option (Ket Qubit))} {i : Nat} {o : Option (Ket Qubit)} (hi : os[i]? = some o) :
    Promise os (dump i) (.lines QBLAZE_ERR_MEMORY []) (os.set i none)

/-- What is read of a register: some factor, the same for all amplitudes. -/
def reads (ψs : List (Ket Qubit)) (i : Nat) (answer : ℂ → Ket Qubit → CAnswer → Prop) : CAnswer → Prop := fun a =>
  ∃ ψ c, ψs[i]? = some ψ ∧ c ≠ 0 ∧ answer c ψ a

/-- The client of registers that are never lost: the answers that it accepts, and the next states. -/
noncomputable def ideal (ψs : List (Ket Qubit)) : CCommand → (CAnswer → Prop) × List (Ket Qubit)
  | new _ => ((· = .pointer true), ψs ++ [ket fun _ => false])
  | request i req =>
    match ψs[i]? with
    | some ψ =>
      match req.decode with
      | .ok c => ((· = .reply (req.report false (c.ideal ψ).1)), ψs.set i (c.ideal ψ).2)
      | .error e => ((· = .reply ⟨some e, none, none⟩), ψs)
    | none => (fun _ => False, ψs)
  | clone i =>
    match ψs[i]? with
    | some ψ => ((· = .pointer true), ψs ++ [ψ])
    | none => (fun _ => False, ψs)
  | copyAmplitudes i buffer =>
    (reads ψs i fun c ψ a => ∃ out, a = .amplitudes 0 out ∧ Copied c ψ buffer out, ψs)
  | iterate i => (reads ψs i fun c ψ a => ∃ n entries, a = .entries (some (n, entries)) ∧ Iterated c ψ n entries, ψs)
  | dump i => (reads ψs i fun c ψ a => ∃ lines, a = .lines 0 lines ∧ Dumped c ψ lines, ψs)

/-- Imports are states of a register. -/
def Imports : CCommand → Prop
  | request _ req => ∀ c, req.decode = .ok c → c.Imports
  | _ => True

end CCommand

/-! ## Registers that may be lost -/

/-- The simulator holds the state of a register, or is in the error state if the register is lost. -/
def Stand (o : Option (Ket Qubit)) (s : Simulator ℝ) : Prop :=
  match o with
  | some ψ => ψ ≠ 0 ∧ Simulator.Holds ψ s
  | none => Simulator.Sane s ∧ Simulator.Lost s

namespace Stand

open Simulator

variable {o : Option (Ket Qubit)} {ψ : Ket Qubit} {s t : Simulator ℝ} {env : Env} {c : Call ℝ} {a : Answer ℝ}

theorem sane (h : Stand o s) : Sane s := by
  cases o with
  | none => exact h.1
  | some ψ => exact ⟨h.2.range, h.2.inv⟩

theorem isError (h : Stand o s) : s.isError = o.isNone := by
  cases o with
  | none => exact h.2
  | some ψ => exact (nonzero_of_logical (h.2.logical_ne_zero h.1)).isEmpty

theorem new {ctx : Context} {ok : Bool} (h : Simulator.new ctx ok = .ok s) :
    Stand (some (ket fun _ => false)) s ∨ Stand none s := by
  cases ok with
  | true => exact .inl ⟨ket_ne_zero _, holds_new h⟩
  | false =>
    have hs := sane_of_new h
    obtain ⟨v, hv, rfl, -⟩ := new_cases h
    unfold Statevector.new at hv
    obtain ⟨q, -, hv⟩ := Option.bind_eq_some_iff.mp hv
    cases hv
    exact .inr ⟨hs, rfl⟩

/-- A call is answered by the register, or the simulator is in the error state. -/
theorem eval (h : Stand o s) (he : s.isError = false → c.Exact s) (hi : c.Imports)
    (hr : (c.eval env).result s = .ok (a, t)) :
    (∃ ψ, (o = some ψ ∨ c.Restarts) ∧ (c.ideal ψ).1 = a ∧ Stand (some (c.ideal ψ).2) t) ∨ Stand none t := by
  have hindexed : c.Indexed := by
    cases c with
    | importDense values => exact hi.1
    | _ => trivial
  obtain ⟨hsane, hsame, hstays⟩ := Call.eval_refused h.sane hindexed hr
  rcases hsame with hg | hl
  · have hgrant := env.grant_granted
    have hv := valid_of_eval hg
    -- the register answers what the simulator answers
    have hanswer : ∀ φ, (o = some φ ∨ c.Restarts) → Answers φ c s a t → (c.ideal φ).2 ≠ 0 →
        (∃ ψ, (o = some ψ ∨ c.Restarts) ∧ (c.ideal ψ).1 = a ∧ Stand (some (c.ideal ψ).2) t) ∨ Stand none t :=
      fun φ ho ⟨χ, hid, ht, _⟩ hne => by
        rw [hid] at hne
        exact .inl ⟨φ, ho, by rw [hid], by rw [hid]; exact ⟨hne, ht⟩⟩
    cases o with
    | some ψ =>
      obtain ⟨hψ, hs⟩ := id h
      have hw := wp_eval hgrant hs hψ hv (he h.isError) hi
      exact hanswer ψ (.inl rfl) (hw.ends a t hg) (Call.ideal_ne_zero hψ hv hi)
    | none =>
      by_cases hr' : c.Restarts
      · cases c with
        | resetState =>
          refine hanswer 0 (.inr trivial) ((wp_eval_resetState hgrant h.1.range).ends a t hg) ?_
          simp only [Call.ideal]
          exact ket_ne_zero _
        | importDense values =>
          exact hanswer 0 (.inr trivial) ((wp_eval_importDense hgrant h.1.range hi.1).ends a t hg) hi.2
        | _ => exact hr'.elim
      · exact .inr ⟨hsane, hstays hr' h.2⟩
  · exact .inr ⟨hsane, hl⟩

/-- After a flush the register can be read, or it is lost. -/
theorem flush (h : Stand o s) {u : Simulator ℝ} (hu : (Simulator.flush env).result s = .ok ((), u)) :
    (∃ ψ, o = some ψ ∧ Stand (some ψ) u ∧ u.sfreeQueue.isEmpty = true ∧ ∀ q, u.qubits q = none) ∨
      Stand none u := by
  have hflush : ((Call.flush : Call ℝ).eval env).result s = .ok (.unit, u) := by
    simp only [Call.eval, Call.run]
    exact result_bind hu
  rcases h.eval (c := .flush) (fun _ => trivial) trivial hflush with ⟨ψ, ho, -, hstand⟩ | hlost
  · obtain rfl := ho.resolve_right id
    simp only [Call.ideal] at hstand
    rw [show (Call.flush).operator ψ = ψ from rfl] at hstand
    have hempty := Wp.ends (wp_flush_flags h.2.clean) () u hu
    exact .inl ⟨ψ, rfl, hstand, hempty.2, hempty.1⟩
  · exact .inr hlost

/-- A clone is a register in the same state, or there is none. -/
theorem clone (h : Stand o s) {alloc : Nat → Bool} {r : Option (Simulator ℝ)}
    (hr : (qblazeClone env alloc).result s = .ok (r, t)) :
    (∃ ψ, o = some ψ ∧ Stand (some ψ) t ∧ ∀ r', r = some r' → Stand (some ψ) r') ∨ r = none ∧ Stand none t := by
  obtain ⟨_, u, hu, hu'⟩ := result_bind_ok hr
  rw [result_bind_read] at hu'
  rcases h.flush hu with ⟨ψ, rfl, hstand, hk, hq⟩ | hlost
  · rw [hstand.isError] at hu'
    obtain ⟨_, v, hv, hv'⟩ := result_bind_ok hu'
    cases hv
    obtain ⟨c, w, hw, hw'⟩ := result_bind_ok hv'
    obtain ⟨hwu, hclone, -⟩ := (wp_cloneFlushed_holds hstand.2 hstand.1 hq hk).ends c w hw
    refine .inl ⟨ψ, rfl, ?_⟩
    cases he : c.isError with
    | true =>
      rw [he] at hw'
      cases hw'
      rw [hwu]
      refine ⟨hstand, fun _ hn => ?_⟩
      cases hn
    | false =>
      rw [he] at hw'
      cases hw'
      rw [hwu]
      refine ⟨hstand, fun _ hr' => ?_⟩
      cases hr'
      exact ⟨hstand.1, hclone he⟩
  · rw [show u.isError = true from hlost.2] at hu'
    cases hu'
    exact .inr ⟨rfl, hlost⟩

end Stand

/-! ## The angles of doubles -/

/-- The double that is nearest to `pi`. -/
noncomputable def piDouble : ℝ := 884279719003555 / 2 ^ 48

theorem piDouble_turns : |2 ^ 51 * (piDouble / Real.pi) - 2 ^ 51| < 1 / 4 := by
  have hlo := Real.pi_gt_d20
  have hhi := Real.pi_lt_d20
  have hpos := Real.pi_pos
  have hnear : |piDouble - Real.pi| < 2 ^ (-52 : ℤ) := by
    unfold piDouble
    rw [abs_lt]
    constructor <;> norm_num at * <;> linarith
  have heq : 2 ^ 51 * (piDouble / Real.pi) - 2 ^ 51 = 2 ^ 51 * (piDouble - Real.pi) / Real.pi := by
    field_simp
  rw [heq, abs_div, abs_mul, abs_of_pos hpos, abs_of_pos (by norm_num), div_lt_iff₀ hpos]
  norm_num at hnear ⊢
  linarith

/-- The doubles for `pi` and `pi / 2` give the exact angles. -/
theorem fromRadians_piDouble : Angle.fromRadians piDouble = Angle.PI := by
  have hturns : (2 : ℝ) ^ 52 * (piDouble / (2 * Real.pi)) = 2 ^ 51 * (piDouble / Real.pi) := by ring
  refine Angle.fromTurns_near (k := 2 ^ 51) (by decide) (by decide) ?_
  show |2 ^ 52 * (piDouble / (2 * Real.pi)) - _| < 1 / 4
  rw [hturns, Nat.cast_pow, Nat.cast_ofNat]
  exact piDouble_turns

theorem fromRadians_piDouble_half : Angle.fromRadians (piDouble / 2) = Angle.PI_1_2 := by
  have hturns : (2 : ℝ) ^ 52 * (piDouble / 2 / (2 * Real.pi)) - (2 ^ 50 : ℕ) =
      (2 ^ 51 * (piDouble / Real.pi) - 2 ^ 51) / 2 := by push_cast; ring
  refine Angle.fromTurns_near (k := 2 ^ 50) (by decide) (by decide) ?_
  show |2 ^ 52 * (piDouble / 2 / (2 * Real.pi)) - _| < 1 / 4
  rw [hturns, abs_div, abs_two]
  linarith [piDouble_turns]

theorem fromRadians_zero : Angle.fromRadians (0 : ℝ) = Angle.ZERO := by
  have hzero : Angle.roundTiesEven (0 : ℝ) = 0 := Angle.roundTiesEven_eq (by norm_num)
  unfold Angle.fromRadians Angle.fromTurns
  simp [Scalar.floor, hzero]
  rfl

/-! ## Sessions -/

namespace Simulator

/-- A function that flushes before it reads: the register can be read, or it is lost. -/
theorem reads_or_lost {os : List (Option (Ket Qubit))} {sims : List (Simulator ℝ)} {i : Nat} {s t : Simulator ℝ}
    {env : Env} {α : Type} {f : Unit → Sim ℝ α} {x : α} (hold : List.Forall₂ Stand os sims)
    (hget : sims[i]? = some s) (hr : (flush env >>= f).result s = .ok (x, t)) :
    ∃ u o, (flush env).result s = .ok ((), u) ∧ os[i]? = some o ∧
      ((∃ ψ c, o = some ψ ∧ c ≠ 0 ∧ Readable c ψ u ∧ u.isError = false ∧
          List.Forall₂ Stand os (sims.set i u)) ∨
        u.isError = true ∧ List.Forall₂ Stand (os.set i none) (sims.set i u)) := by
  obtain ⟨o, ho, hs⟩ := forall₂_getElem hold hget
  obtain ⟨_, u, hu, -⟩ := result_bind_ok hr
  refine ⟨u, o, hu, ho, (hs.flush hu).imp ?_ fun hlost => ⟨hlost.2, forall₂_set hold hlost i⟩⟩
  rintro ⟨ψ, rfl, hstand, hq, hp⟩
  obtain ⟨c, hc, hread⟩ := hstand.2.readable hq hp
  exact ⟨ψ, c, rfl, hc, hread, hstand.isError, forall₂_set_right hold ho hstand⟩

theorem step_promise (config : Context) :
    Simulates (CCommand.Step config) CCommand.Promise (List.Forall₂ Stand) CCommand.Imports fun _ => True := by
  rintro os sims c a sims' hold hi - hstep
  cases hstep with
  | @new cfgs alloc s hnew =>
    obtain ⟨ctx, hs⟩ : ∃ ctx, Simulator.new ctx alloc = .ok s := by
      unfold qblazeNew at hnew
      cases cfgs with
      | none => exact ⟨config, Option.some.inj hnew⟩
      | some cfgs =>
        obtain ⟨ctx, -, hs⟩ := Option.map_eq_some_iff.mp hnew
        exact ⟨ctx, hs⟩
    rcases Stand.new hs with h | h
    · exact ⟨_, .new, forall₂_concat hold h⟩
    · exact ⟨_, .newLost, forall₂_concat hold h⟩
  | @request i s t env req r hget he hr =>
    obtain ⟨o, ho, hs⟩ := forall₂_getElem hold hget
    cases hd : req.decode with
    | error e =>
      rw [CRequest.run_error hd] at hr
      cases hr
      obtain ⟨hlt, hget'⟩ := List.getElem?_eq_some_iff.mp hget
      rw [← hget', List.set_getElem_self]
      exact ⟨os, .rejected hd ho, hold⟩
    | ok c =>
      obtain ⟨a, ha, rfl⟩ := CRequest.run_ok hd hr
      rcases hs.eval (fun hl => he hl c hd) (hi c hd) ha with ⟨ψ, hψ, rfl, ht⟩ | ht
      · rw [ht.isError]
        exact ⟨_, .answered hd ho hψ, forall₂_set hold ht i⟩
      · rw [ht.isError]
        exact ⟨_, .lost hd ho, forall₂_set hold ht i⟩
  | @clone i s t env alloc r hget hr =>
    obtain ⟨o, ho, hs⟩ := forall₂_getElem hold hget
    rcases hs.clone hr with ⟨ψ, rfl, ht, hr'⟩ | ⟨rfl, ht⟩
    · have hset := forall₂_set_right hold ho ht
      cases r with
      | some r' => exact ⟨_, .cloned ho, forall₂_concat hset (hr' r' rfl)⟩
      | none =>
        rw [Option.toList_none, List.append_nil]
        exact ⟨_, .notCloned ho, hset⟩
    · rw [Option.toList_none, List.append_nil]
      exact ⟨_, .cloneLost ho, forall₂_set hold ht i⟩
  | @copyAmplitudes i s t env m ptr buffer out code hget hm hb hr =>
    obtain ⟨u, o, hu, ho, ⟨ψ, c, rfl, hc, hread, he, hnext⟩ | ⟨he, hnext⟩⟩ := reads_or_lost hold hget hr
    · obtain ⟨hptr, hstored⟩ := hm u hu
      obtain ⟨out', hout, hcopied⟩ := hread.copied hc hu he hptr hstored (Nat.le_of_lt hb)
      rw [hout] at hr
      cases hr
      exact ⟨os, .copied ho hc hcopied, hnext⟩
    · rw [qblazeCopyAmplitudes_lost hu he] at hr
      cases hr
      exact ⟨_, .copyLost ho, hnext⟩
  | @iterate i s t env m ptr iter hget hm hr =>
    obtain ⟨u, o, hu, ho, ⟨ψ, c, rfl, hc, hread, he, hnext⟩ | ⟨he, hnext⟩⟩ := reads_or_lost hold hget hr
    · obtain ⟨hptr, hstored⟩ := hm u hu
      obtain ⟨n, entries, hentries, hiterated⟩ := hread.iterated hc hu he hptr hstored
      rw [hentries] at hr
      cases hr
      exact ⟨os, .iterated ho hc hiterated, hnext⟩
    · rw [qblazeIter_lost hu he] at hr
      cases hr
      exact ⟨_, .iterLost ho, hnext⟩
  | @dump i s t env m ptr code lines hget hm hr =>
    obtain ⟨u, o, hu, ho, ⟨ψ, c, rfl, hc, hread, he, hnext⟩ | ⟨he, hnext⟩⟩ := reads_or_lost hold hget hr
    · obtain ⟨hptr, hstored⟩ := hm u hu
      obtain ⟨lines', hlines, hdumped⟩ := hread.dumped hc hu he hptr hstored
      rw [hlines] at hr
      cases hr
      exact ⟨os, .dumped ho hc hdumped, hnext⟩
    · rw [qblazeDump_lost hu he] at hr
      cases hr
      exact ⟨_, .dumpLost ho, hnext⟩

/-- A Hadamard gate, as a client writes it. -/
noncomputable def hadamard : CRequest ℝ := .gate (.applyU3 0 (some (piDouble / 2)) (some 0) (some piDouble))

theorem decode_hadamard : hadamard.decode = .ok (.u3 0 U3.H) := by
  show Except.ok (Call.u3 0 (U3.new (Angle.fromRadians (piDouble / 2)) (Angle.fromRadians 0)
    (Angle.fromRadians piDouble))) = _
  rw [fromRadians_piDouble_half, fromRadians_zero, fromRadians_piDouble]
  rfl

/-- A qubit in superposition, whose amplitudes are copied. -/
noncomputable def plusRequests : List CCommand :=
  [.new none, .request 0 hadamard, .copyAmplitudes 0 [Cplx.ZERO, Cplx.ZERO]]

theorem plus_requested : ∀ c ∈ plusRequests, c.Imports := by
  refine List.forall_mem_cons.mpr ⟨trivial, List.forall_mem_cons.mpr ⟨fun c hc => ?_,
    List.forall_mem_singleton.mpr trivial⟩⟩
  rw [decode_hadamard] at hc
  cases hc
  trivial

theorem plus_prepared : ∃ s t : Simulator ℝ, t.isError = false ∧ t.ctx.Positive ∧
    CCommand.Step Context.default [] (.new none) (.pointer true) [s] ∧
    CCommand.Step Context.default [s] (.request 0 hadamard) (.reply ⟨some 0, none, none⟩) [t] := by
  have hnew : qblazeNew Context.default none true = some (.ok (newWithState Context.default
      ⟨1, some 0, [⟨BitSet.empty, ⟨1, 0⟩⟩], []⟩ : Simulator ℝ)) := rfl
  have hgate : (hadamard.run Env.default).result (newWithState Context.default
      ⟨1, some 0, [⟨BitSet.empty, ⟨1, 0⟩⟩], []⟩ : Simulator ℝ) = .ok (⟨some 0, none, none⟩, _) := rfl
  refine ⟨_, _, rfl, Context.default_positive, .new hnew, .request (i := 0) rfl (fun _ c hc => ?_) hgate⟩
  rw [decode_hadamard] at hc
  cases hc
  exact ⟨by decide, by decide, by decide⟩

theorem plus_answered : ∃ out s, Runs (CCommand.Step Context.default) [] plusRequests
    [.pointer true, .reply ⟨some 0, none, none⟩, .amplitudes 0 out] [s] := by
  obtain ⟨s, t, ht, hpos, hnew, hgate⟩ := plus_prepared
  obtain ⟨os, -, hold⟩ := (Runs.cons hnew (.single hgate)).simulates (step_promise _)
    (fun c hc => plus_requested c (List.mem_append_left [CCommand.copyAmplitudes 0 [Cplx.ZERO, Cplx.ZERO]] hc))
    (fun _ _ => trivial) .nil
  obtain ⟨o, -, hs⟩ := forall₂_getElem hold (i := 0) rfl
  obtain ⟨ψ, rfl⟩ : ∃ ψ, o = some ψ := by
    cases o with
    | none => rw [hs.isError] at ht; cases ht
    | some ψ => exact ⟨ψ, rfl⟩
  -- the qubit is flushed, and its vector is stored somewhere
  have hflush := @wp_eval_gate ψ _ Env.default .flush default_granted hs.2 hs.1 (.inl trivial) trivial trivial
  obtain ⟨u, hu⟩ : ∃ u, (flush Env.default).result t = .ok ((), u) :=
    returns_unit (returns_of_wp hflush (fun _ hn => hn) hpos)
  obtain ⟨m, hm⟩ := exists_stored u.state.vec.elements 0
  have hmem : InMemory Env.default t m 0 := fun u' hu' => by
    rw [hu] at hu'
    cases hu'
    exact ⟨rfl, hm⟩
  obtain ⟨he, c, hc, hread⟩ := hs.2.flushed hs.1 default_granted hu
  have hb : [Cplx.ZERO, (Cplx.ZERO : Cplx ℝ)].length < 2 ^ 64 := by decide
  obtain ⟨out, hout, -⟩ := hread.copied hc hu he rfl hm hb.le
  exact ⟨out, u, .cons hnew (.cons hgate (.single (.copyAmplitudes (i := 0) rfl hmem hb hout)))⟩

/-- Every C session is one that the client of the ideal registers may see. A simulator is in the error state if
and only if its register is lost; otherwise it stands for the state of its register, up to a factor. -/
theorem c_session_promise {config : Context} {cmds : List CCommand} {as : List CAnswer}
    {sims : List (Simulator ℝ)} (h : Runs (CCommand.Step config) [] cmds as sims) (hi : ∀ c ∈ cmds, c.Imports) :
    ∃ os, Runs CCommand.Promise [] cmds as os ∧ List.Forall₂ (fun o s => s.isError = o.isNone ∧
      ∀ ψ, o = some ψ → ψ ≠ 0 ∧ UpToScale s.logical ψ) os sims := by
  obtain ⟨os, hos, hold⟩ := h.simulates (step_promise config) hi (fun _ _ => trivial) .nil
  refine ⟨os, hos, hold.imp fun o s hs => ⟨hs.isError, fun ψ ho => ?_⟩⟩
  subst ho
  exact ⟨hs.1, hs.2.scale⟩

/-- A superposition, whose amplitudes are copied. -/
theorem c_session_promise_plus : ∃ (out : List (Cplx ℝ)) (s : Simulator ℝ) (os : List (Option (Ket Qubit))),
    Runs CCommand.Promise [] plusRequests
      [.pointer true, .reply ⟨some 0, none, none⟩, .amplitudes 0 out] os ∧
    List.Forall₂ (fun o (s : Simulator ℝ) => s.isError = o.isNone ∧
      ∀ ψ, o = some ψ → ψ ≠ 0 ∧ UpToScale s.logical ψ) os [s] := by
  obtain ⟨out, s, h⟩ := plus_answered
  obtain ⟨os, hos⟩ := c_session_promise h plus_requested
  exact ⟨out, s, os, hos⟩

/-- A register and one that may be lost. -/
def Keeps (ψ : Ket Qubit) (o : Option (Ket Qubit)) : Prop := ∀ φ, o = some φ → φ = ψ

/-- A reset and an import do not depend on the state. -/
theorem ideal_of_restarts {c : Call ℝ} (h : c.Restarts) (ψ φ : Ket Qubit) : c.ideal ψ = c.ideal φ := by
  cases c with
  | resetState => simp only [Call.ideal]
  | importDense values => simp only [Call.ideal]
  | _ => exact h.elim

/-- Where nothing is reported to be missing, the client sees what the registers answer. -/
theorem promise_ideal : Simulates CCommand.Promise
    (fun ψs c a φs => (CCommand.ideal ψs c).1 a ∧ (CCommand.ideal ψs c).2 = φs)
    (List.Forall₂ Keeps) (fun _ => True) fun a => ¬ a.Missing := by
  rintro ψs os c a os' hold - ha hstep
  cases hstep with
  | new => exact ⟨_, ⟨rfl, rfl⟩, forall₂_concat hold fun _ h => (Option.some.inj h).symm⟩
  | newLost => exact ⟨_, ⟨rfl, rfl⟩, forall₂_concat hold fun _ h => nomatch h⟩
  | @rejected i req e o hd hget =>
    obtain ⟨ψ, hψ, -⟩ := forall₂_getElem hold hget
    exact ⟨ψs, by simp only [CCommand.ideal, hψ, hd, and_self], hold⟩
  | @answered i req c o φ hd hget ho =>
    obtain ⟨ψ, hψ, hk⟩ := forall₂_getElem hold hget
    have hid : c.ideal φ = c.ideal ψ := by
      rcases ho with ho | hr
      · rw [hk φ ho]
      · exact ideal_of_restarts hr φ ψ
    rw [hid]
    exact ⟨ψs.set i (c.ideal ψ).2, by simp only [CCommand.ideal, hψ, hd, and_self],
      forall₂_set hold (fun _ h => (Option.some.inj h).symm) i⟩
  | @lost i req c o a hd hget =>
    obtain ⟨ψ, hψ, -⟩ := forall₂_getElem hold hget
    have hnone : Keeps (c.ideal ψ).2 none := fun _ h => nomatch h
    -- only a reset does not tell
    cases req with
    | resetState =>
      exact ⟨ψs.set i (c.ideal ψ).2, by simp only [CCommand.ideal, hψ, hd]; exact ⟨rfl, trivial⟩,
        forall₂_set hold hnone i⟩
    | measure target bias p0 p1 => cases a <;> exact absurd rfl ha
    | qubitProbs target p0 p1 => cases a <;> exact absurd rfl ha
    | _ => exact absurd rfl ha
  | @cloned i φ hget =>
    obtain ⟨ψ, hψ, hk⟩ := forall₂_getElem hold hget
    exact ⟨ψs ++ [ψ], by simp only [CCommand.ideal, hψ, and_self], forall₂_concat hold fun χ h => by
      rw [← Option.some.inj h, hk φ rfl]⟩
  | @copied i φ c buffer out hget hc h =>
    obtain ⟨ψ, hψ, hk⟩ := forall₂_getElem hold hget
    exact ⟨ψs, ⟨⟨ψ, c, hψ, hc, out, rfl, hk φ rfl ▸ h⟩, rfl⟩, hold⟩
  | @iterated i φ c n entries hget hc h =>
    obtain ⟨ψ, hψ, hk⟩ := forall₂_getElem hold hget
    exact ⟨ψs, ⟨⟨ψ, c, hψ, hc, n, entries, rfl, hk φ rfl ▸ h⟩, rfl⟩, hold⟩
  | @dumped i φ c lines hget hc h =>
    obtain ⟨ψ, hψ, hk⟩ := forall₂_getElem hold hget
    exact ⟨ψs, ⟨⟨ψ, c, hψ, hc, lines, rfl, hk φ rfl ▸ h⟩, rfl⟩, hold⟩
  | notCloned => exact absurd rfl ha
  | cloneLost => exact absurd rfl ha
  | copyLost => exact absurd rfl ha
  | iterLost => exact absurd rfl ha
  | dumpLost => exact absurd rfl ha

/-- A C session in which nothing is reported to be missing is answered as the ideal registers answer, whatever
was refused: the return codes, the outcomes, the probabilities, and the amplitudes up to a factor. Each simulator
that is not in the error state stands for the state of its register, up to a factor. -/
theorem c_session_exact {config : Context} {cmds : List CCommand} {as : List CAnswer}
    {sims : List (Simulator ℝ)} (h : Runs (CCommand.Step config) [] cmds as sims) (hi : ∀ c ∈ cmds, c.Imports)
    (ha : ∀ a ∈ as, ¬ a.Missing) :
    List.Forall₂ (fun accepted a => accepted a) (specRun CCommand.ideal [] cmds).1 as ∧
      List.Forall₂ (fun ψ s => s.isError = false → ψ ≠ 0 ∧ UpToScale s.logical ψ)
        (specRun CCommand.ideal [] cmds).2 sims := by
  obtain ⟨os, hos, hold⟩ := h.simulates (step_promise config) hi (fun _ _ => trivial) .nil
  obtain ⟨ψs, hψs, hkeep⟩ := hos.simulates promise_ideal (fun _ _ => trivial) ha .nil
  obtain ⟨haccepts, rfl⟩ := hψs.accepts
  refine ⟨haccepts, (forall₂_join hkeep.flip hold).imp fun ψ s hs he => ?_⟩
  obtain ⟨o, hk, hs⟩ := hs
  rw [hs.isError] at he
  obtain ⟨φ, rfl⟩ := Option.isSome_iff_exists.mp (Option.isNone_eq_false_iff.mp he)
  rw [← hk φ rfl]
  exact ⟨hs.1, hs.2.scale⟩

theorem c_session_exact_plus : ∃ (out : List (Cplx ℝ)) (s : Simulator ℝ),
    List.Forall₂ (fun accepted a => accepted a) (specRun CCommand.ideal [] plusRequests).1
      [.pointer true, .reply ⟨some 0, none, none⟩, .amplitudes 0 out] ∧
    List.Forall₂ (fun ψ s => s.isError = false → ψ ≠ 0 ∧ UpToScale s.logical ψ)
      (specRun CCommand.ideal [] plusRequests).2 [s] := by
  obtain ⟨out, s, h⟩ := plus_answered
  have hreply : ¬ (CAnswer.reply ⟨some 0, none, none⟩).Missing :=
    fun hm => absurd (Option.some.inj hm) (by decide)
  have hcopied : ¬ (CAnswer.amplitudes 0 out).Missing :=
    fun hm => absurd (show (0 : Int) = QBLAZE_ERR_MEMORY from hm) (by decide)
  have hpointer : ¬ (CAnswer.pointer true).Missing := Bool.noConfusion
  exact ⟨out, s, c_session_exact h plus_requested (List.forall_mem_cons.mpr ⟨hpointer,
    List.forall_mem_cons.mpr ⟨hreply, List.forall_mem_singleton.mpr hcopied⟩⟩)⟩

end Simulator

end Qblaze
