import Mathlib.Logic.Equiv.Defs
import Mathlib.Data.List.FinRange
import Qblaze.Lib.Run
import Qblaze.Statevector.Ops

/-!
# The simulator (`src/simulator.rs`)

The simulator is lazy. The gates on single qubits wait in the map `qubits`, one for each qubit, and
the superposition-free gates wait in `sfreeQueue`; the state that it stands for is the stored vector,
then the queue, then the pending gates. A new gate is moved before the pending gates of its qubits
where that is possible (`preflush`), and what stands in its way is applied to the vector
(`innerFlush`).

A method is a program on the simulator (`Lib.Run`), which goes through the states that the source goes
through. `Env` has what a call does not decide by itself: the order in which the map is visited, the
hashes that choose samples, and whether the reservations succeed. Each qubit is visited at most once
at each `Site` of a call. The performance data and the trace output are left out.
-/

namespace Qblaze

open Angle

def PREC : Nat := 32
def N_SAMP : Nat := 32

/-- Why a call panics. -/
inductive Panic where
  /-- an `assert!` of the simulator or of `Control` -/
  | assertion
  /-- a `debug_assert!` of the simulator -/
  | debugAssertion
  /-- the assertion of `BitIndex::new_u32` -/
  | bitIndex
  /-- a division by zero, or a chunk size of zero -/
  | chunkSize
  deriving DecidableEq

/-- What an operation of a vector returns. The panic tells whether its qubits fit. -/
def checked {α : Type} (fits : Bool) : Option α → Except Panic α
  | some a => .ok a
  | none => .error (if fits then .chunkSize else .bitIndex)

/-! ## Vectors with any number of words -/

/-- `Box<dyn Statevector>` -/
structure AnyVector (F : Type) where
  words : Nat
  vec : Statevector words F

/-- The number of words that `statevector::new` takes. -/
def numWords (q : Qubit) : Nat :=
  let n := q.val
  if n < 1 * 64 then 1
  else if n < 2 * 64 then 2
  else if n < 6 * 64 then 6
  else if n < 14 * 64 then 14
  else if n < 22 * 64 then 22
  else if n < 30 * 64 then 30
  else if n < 46 * 64 then 46
  else 62

namespace AnyVector

variable {F : Type}

def isEmpty (v : AnyVector F) : Bool := v.vec.isEmpty

def len (v : AnyVector F) : Nat := v.vec.len

def maxQubit (v : AnyVector F) : Nat := v.vec.maxQubit

/-- `BitIndex::<N>::from(q)` does not panic. -/
def fits (v : AnyVector F) (q : Qubit) : Bool := decide (q.val < 64 * v.words)

/-- The qubits of the compiled queue fit. -/
def fitsQueue (v : AnyVector F) (opq : Queue) : Bool :=
  let r := opq.compile v.words Stat.default PREC
  r.1.all (fun op => decide (op.inRange v.words)) && r.2.modified.iter.all v.fits

/-- `import` -/
def importFrom (v : AnyVector F) (alloc : Bool) (data : AnyVector F) :
    Except Panic (AnyVector F) := do
  let vec ← checked (data.vec.partitionedBy.all v.fits) (v.vec.importFrom alloc data.vec)
  return ⟨v.words, vec⟩

variable [Field F]

/-- `statevector::new` -/
def new (alloc : Bool) (q : Qubit) : Except Panic (AnyVector F) := do
  let vec ← checked (decide (0 < numWords q)) (Statevector.new (numWords q) alloc)
  return ⟨numWords q, vec⟩

variable [LinearOrder F] [Eps F]

def performU4 (v : AnyVector F) (ctx : Context) (alloc : Nat → Bool) (q : Qubit) (gate : U4 F) :
    Except Panic (AnyVector F) := do
  let vec ← checked (v.fits q) (v.vec.performU4 ctx alloc q gate)
  return ⟨v.words, vec⟩

def collapseDelta (v : AnyVector F) (q : Qubit) (gate : U4 F) (i : Nat) : Except Panic Int :=
  checked (v.fits q) (v.vec.collapseDelta q gate i)

def premeasure (v : AnyVector F) (ctx : Context) (q : Qubit) : Except Panic (F × F) :=
  checked (v.fits q) (v.vec.premeasure ctx q)

def measure (v : AnyVector F) (ctx : Context) (alloc : Bool) (q : Qubit) (b : Bool) (scale : F) :
    Except Panic (AnyVector F) := do
  let vec ← checked (v.fits q) (v.vec.measure ctx alloc q b scale)
  return ⟨v.words, vec⟩

def importDense (v : AnyVector F) (alloc : Bool) (data : List (Cplx F)) :
    Except Panic (AnyVector F) := do
  let vec ← checked true (v.vec.importDense alloc data)
  return ⟨v.words, vec⟩

def trim (v : AnyVector F) : AnyVector F := ⟨v.words, v.vec.trim⟩

/-- `dyn_clone`: a new vector with as many words, and an import. -/
def dynClone (v : AnyVector F) (alloc : Nat → Bool) : Except Panic (AnyVector F) := do
  let vec ← checked (decide (0 < v.words)) (Statevector.new v.words (alloc 0))
  importFrom ⟨v.words, vec⟩ (alloc 1) v

variable [Scalar F]

def performSfree (v : AnyVector F) (ctx : Context) (alloc : Nat → Bool) (opq : Queue) :
    Except Panic (AnyVector F) := do
  let vec ← checked (v.fitsQueue opq) (v.vec.performSfree ctx alloc opq PREC)
  return ⟨v.words, vec⟩

end AnyVector

/-! ## The simulator -/

/-- `QubitState` -/
structure QubitState where
  /-- the queued gate -/
  pending : U3
  /-- the gate has to be checked for destructive interference -/
  maybeDestructive : Bool
  /-- the gate has to be applied in this call -/
  mustFlush : Bool
  /-- the new gate was moved past the pending one -/
  isReordered : Bool
  deriving DecidableEq

/-- `Simulator` -/
structure Simulator (F : Type) where
  ctx : Context
  state : AnyVector F
  sfreeQueue : Queue
  qubits : Qubit → Option QubitState

/-- The places of a call at which qubits are visited. -/
inductive Site where
  | keys
  | preflush
  | first
  | grow
  | sfree
  | second
  | third
  | measure
  deriving DecidableEq

/-- What a call does not decide by itself. -/
structure Env where
  /-- the order in which the map is visited -/
  order : Site → Equiv.Perm Qubit
  /-- `rng.hash_one(i)` -/
  hash : Site → Qubit → Nat → Nat
  /-- the reservations that succeed -/
  alloc : Site → Qubit → Nat → Bool

/-- All qubits, in the order in which they are visited. -/
def Env.keys (env : Env) (site : Site) : List Qubit := (List.finRange (62 * 64)).map (env.order site)

/-- The natural order, and no reservation fails. -/
def Env.default : Env := ⟨fun _ => Equiv.refl _, fun _ _ i => i, fun _ _ _ => true⟩

/-- No reservation fails. -/
def Env.Granted (env : Env) : Prop := ∀ site q i, env.alloc site q i = true

/-- `Preflush`: what the caller can do with a pending gate of the given form. -/
structure Preflush (R : Type) where
  fromId : R
  fromRx : Option R := none
  fromRz : Option R := none
  fromXRz : Option R := none
  fromHRz : Option R := none
  fromHRx : Option R := none
  fromXHRx : Option R := none

/-- `PreflushCtlH` -/
inductive CtlH where
  | normal
  | invert
  | hadamard
  deriving DecidableEq

namespace Preflush

/-- `PreflushCtl`, whose only field is `invert`. -/
def ctl : Preflush Bool where
  fromId := false
  fromRz := some false
  fromXRz := some true

def ctlH : Preflush CtlH where
  fromId := .normal
  fromRz := some .normal
  fromXRz := some .invert
  fromHRz := some .hadamard

/-- `PreflushI` -/
def i : Preflush Unit where
  fromId := ()

/-- `PreflushX`, whose only field is `is_h`. -/
def x : Preflush (Option Bool) where
  fromId := none
  fromRx := some none
  fromHRx := some (some false)
  fromXHRx := some (some true)

end Preflush

/-- A method of the simulator. -/
abbrev Sim (F α : Type) := Lib.Run (Simulator F) Panic α

namespace Simulator

open Lib.Run

section

variable {F : Type}

/-- Every entry of the map. The loops over them do not depend on the order. -/
def entries (sim : Simulator F) : List (Qubit × QubitState) :=
  (List.finRange (62 * 64)).filterMap fun q => (sim.qubits q).map (q, ·)

def isError (sim : Simulator F) : Bool := sim.state.isEmpty

def maxQubit (sim : Simulator F) : Nat := sim.state.maxQubit

def stateLen (sim : Simulator F) : Nat := sim.state.len

def setState (state : AnyVector F) : Sim F Unit := change fun sim => { sim with state }

def setQueue (f : Queue → Queue) : Sim F Unit :=
  change fun sim => { sim with sfreeQueue := f sim.sfreeQueue }

def setEntry (q : Qubit) (st : Option QubitState) : Sim F Unit :=
  change fun sim => { sim with qubits := Function.update sim.qubits q st }

/-- `sfree_queue.ctl_phase(Control::single(q, true), a)` -/
def pushRz (q : Qubit) (a : Angle) : Sim F Unit := setQueue fun s => s.ctlPhase (Control.single q true) a

/-- `HashMap::retain`: the entries are visited in the order of the list, and changed or removed. -/
def retain (visit : Qubit → QubitState → Sim F (Option QubitState)) : List Qubit → Sim F Unit
  | [] => return ()
  | q :: l => do
    let sim ← read
    match sim.qubits q with
    | none => retain visit l
    | some st =>
      let st ← visit q st
      setEntry q st
      retain visit l

/-- A panic for `none`. -/
def orPanic {α : Type} : Option α → Sim F α
  | some a => return a
  | none => fail .assertion

/-- The gates with a match for an X, or an rz, or for both one after the other. -/
def preflushSfree {R : Type} (p : Preflush R) (q : Qubit) (isX : Bool) (rz : Angle) : Sim F R :=
  match (if isX then p.fromXRz else none) with
  | some r => return r
  | none => do
    when isX (setQueue fun s => s.x q)
    if rz.round PREC ≠ ZERO then
      match p.fromRz with
      | some r => return r
      | none => do
        pushRz q rz
        setEntry q none
        return p.fromId
    else do
      setEntry q none
      return p.fromId

end

variable {F : Type} [Field F] [LinearOrder F] [Eps F] [Scalar F]

/-- `new_with_state` -/
def newWithState (ctx : Context) (state : AnyVector F) : Simulator F :=
  ⟨ctx, state, Queue.new, fun _ => none⟩

/-- `Simulator::new` -/
def new (ctx : Context) (alloc : Bool) : Except Panic (Simulator F) :=
  if ¬ 0 < ctx.numThreads ∨ ¬ 0 < ctx.chunkSize then .error .assertion
  else do
    let state ← AnyVector.new alloc ctx.initMaxQubit
    return newWithState ctx state

/-- `u3` -/
def u3 (q : Qubit) (gate : U3) : Sim F Unit := do
  let sim ← read
  match sim.qubits q with
  | some st =>
    setEntry q (some { st with pending := U3.compose F st.pending gate, maybeDestructive := true })
  | none => setEntry q (some ⟨gate, true, false, false⟩)

/-! ## Flushing -/

/-- The samples of `maybe_eager_flush`. -/
def sampleDelta (v : AnyVector F) (q : Qubit) (gate : U4 F) (hash : Nat → Nat) : Except Panic Int :=
  (List.range N_SAMP).foldlM (fun delta i => do
    let d ← v.collapseDelta q gate (hash i)
    return delta + d) 0

/-- `maybe_eager_flush` -/
def maybeEagerFlush (env : Env) (site : Site) (q : Qubit) (gate : U3) : Sim F Bool := do
  let sim ← read
  if gate.isSfree PREC then return false
  else if sim.state.maxQubit < q.val then return false
  else if sim.state.len ≤ 32 * N_SAMP then return false
  else do
    let delta ← ofExcept (sampleDelta sim.state q (U4.ofU3 gate) (env.hash site q))
    if -((N_SAMP : Int) / 4) < delta then return false
    else do
      let state ← ofExcept (sim.state.performU4 sim.ctx (env.alloc site q) q (U4.ofU3 gate))
      setState state
      return true

/-- The gates that are no superposition-free ones, after the eager flush. -/
def preflushMatch {R : Type} (p : Preflush R) (q : Qubit) (st : QubitState) : Sim F R :=
  match st.pending.toRzRx PREC, p.fromRx with
  | some (rz, rx), some r =>
    if rz.round PREC ≠ ZERO then do
      -- flush the rz part, commute past the rx part
      pushRz q rz
      setEntry q (some { st with isReordered := true })
      setEntry q (some { st with isReordered := true, pending := U3.rx rx })
      if (U3.rx rx).isSfree PREC then fail .debugAssertion else return r
    else return r
  | _, _ =>
    match st.pending.toRzHRz PREC with
    | none => do
      setEntry q (some { st with mustFlush := true })
      return p.fromId
    | some (rz1, rz2) =>
      match p.fromHRz with
      | some r => do
        setEntry q (some { st with isReordered := true })
        if rz1.round PREC ≠ ZERO then do
          pushRz q rz1
          setEntry q (some
            { st with isReordered := true, pending := U3.compose F U3.H (U3.rz rz2) })
          return r
        else return r
      | none =>
        match (if rz2.round PREC = ZERO then p.fromHRx else none) with
        | some r => do
          setEntry q (some { st with isReordered := true })
          return r
        | none =>
          match (if rz2.round PREC = PI then p.fromXHRx else none) with
          | some r => do
            setEntry q (some { st with isReordered := true })
            return r
          | none => do
            setEntry q (some { st with mustFlush := true })
            return p.fromId

/-- `_preflush` -/
def preflush {R : Type} (p : Preflush R) (env : Env) (q : Qubit) : Sim F R := do
  let sim ← read
  match sim.qubits q with
  | none => return p.fromId
  | some st =>
    match st.pending.toCxRz PREC with
    | some (isX, rz) => preflushSfree p q isX rz
    | none =>
      if st.pending.isSfree PREC then fail .debugAssertion
      else if st.maybeDestructive && !sim.sfreeQueue.blocks q st.pending PREC then do
        let flushed ← maybeEagerFlush env .preflush q st.pending
        if flushed then do
          setEntry q none
          return p.fromId
        else do
          setEntry q (some { st with maybeDestructive := false })
          preflushMatch p q { st with maybeDestructive := false }
      else preflushMatch p q st

/-- `ensure_qubit` -/
def ensureQubit (env : Env) (q : Qubit) : Sim F Unit := do
  let sim ← read
  if q.val ≤ sim.state.maxQubit then return ()
  else do
    let state ← ofExcept (AnyVector.new (env.alloc .grow q 0) q)
    let state ← ofExcept (state.importFrom (env.alloc .grow q 1) sim.state)
    setState state

/-- Try to flush an entry. `none` removes it. -/
def visitEager (env : Env) (site : Site) (q : Qubit) (st : QubitState) :
    Sim F (Option QubitState) := do
  let flushed ← maybeEagerFlush env site q st.pending
  return if flushed then none else some { st with maybeDestructive := false }

/-- The first pass over the entries. -/
def visitFirst (env : Env) (q : Qubit) (st : QubitState) : Sim F (Option QubitState) := do
  let sim ← read
  if st.mustFlush || st.isReordered then return some st
  else if sim.sfreeQueue.blocks q st.pending PREC then return some { st with maybeDestructive := true }
  else if !st.maybeDestructive then return some st
  else visitEager env .first q st

/-- The second pass, after the queue was applied. -/
def visitSecond (env : Env) (q : Qubit) (st : QubitState) : Sim F (Option QubitState) :=
  if st.isReordered || !st.maybeDestructive then return some st
  else visitEager env .second q st

/-- The third pass: the gates that have to be applied. -/
def visitThird (env : Env) (q : Qubit) (st : QubitState) : Sim F (Option QubitState) :=
  if !st.mustFlush then return some { st with isReordered := false }
  else if st.isReordered then fail .debugAssertion
  else do
    let sim ← read
    let state ← ofExcept (sim.state.performU4 sim.ctx (env.alloc .third q) q (U4.ofU3 st.pending))
    setState state
    return none

/-- Whether `_flush` applies the queue. -/
def needsSfree (sim : Simulator F) (alsoSfree : Bool) : Bool :=
  if sim.sfreeQueue.isEmpty then false
  else alsoSfree ||
    sim.entries.any fun p => p.2.mustFlush && sim.sfreeQueue.blocks p.1 p.2.pending PREC

/-- The largest qubit that `_flush` needs. -/
def flushMax (sim : Simulator F) (alsoSfree : Bool) : Qubit :=
  sim.entries.foldl (fun m p => if p.2.mustFlush && decide (m < p.1) then p.1 else m)
    (if alsoSfree then sim.sfreeQueue.maxQubit else Qubit.ZERO)

/-- Apply the queue, and try an eager flush of the entries that are left. -/
def flushSfree (env : Env) : Sim F Unit := do
  let sim ← read
  let state ← ofExcept (sim.state.performSfree sim.ctx (env.alloc .sfree Qubit.ZERO) sim.sfreeQueue)
  setState state
  setQueue Queue.clear
  retain (visitSecond env) (env.keys .second)

/-- `_flush` -/
def innerFlush (env : Env) (alsoSfree : Bool) : Sim F Unit := do
  let sim ← read
  let alsoSfree := sim.needsSfree alsoSfree
  retain (visitFirst env) (env.keys .first)
  let sim ← read
  ensureQubit env (sim.flushMax alsoSfree)
  when alsoSfree (flushSfree env)
  retain (visitThird env) (env.keys .third)

/-- `flush` -/
def flush (env : Env) : Sim F Unit := do
  let sim ← read
  each (preflush Preflush.i env) ((env.keys .keys).filter fun q => (sim.qubits q).isSome)
  innerFlush env true

/-! ## Gates -/

/-- The loop of `_preflush_ctl`. -/
def preflushItems (env : Env) : List ControlItem → Sim F (List ControlItem)
  | [] => return []
  | c :: l => do
    let invert ← preflush Preflush.ctl env c.qubit
    let l ← preflushItems env l
    return (if invert then c.invert else c) :: l

/-- `_preflush_ctl` -/
def preflushCtl (env : Env) (ctl : Control) : Sim F Control := do
  let items ← preflushItems env ctl.items
  orPanic (Control.fromIter items)

/-- The loop of `_preflush_ctl_h`. Only the first Hadamard gate is taken. -/
def preflushItemsH (env : Env) : List ControlItem → Sim F (List ControlItem × Option Qubit)
  | [] => return ([], none)
  | c :: l =>
    if !c.value then do
      -- inverted controls are not retargeted
      let invert ← preflush Preflush.ctl env c.qubit
      let r ← preflushItemsH env l
      return ((if invert then c.invert else c) :: r.1, r.2)
    else do
      let m ← preflush Preflush.ctlH env c.qubit
      match m with
      | .normal => do
        let r ← preflushItemsH env l
        return (c :: r.1, r.2)
      | .invert => do
        let r ← preflushItemsH env l
        return (c.invert :: r.1, r.2)
      | .hadamard => do
        let l ← preflushItems env l
        return (l, some c.qubit)

/-- `_preflush_ctl_h` -/
def preflushCtlH (env : Env) (ctl : Control) : Sim F (Control × Option Qubit) := do
  let r ← preflushItemsH env ctl.items
  let ctl ← orPanic (Control.fromIter r.1)
  return (ctl, r.2)

/-- `ctl_x` -/
def ctlX (env : Env) (ctl : Control) (q : Qubit) : Sim F Unit :=
  if ctl.isAlways then u3 q U3.X
  else if ctl.uses q then fail .assertion
  else do
    let isH ← preflush Preflush.x env q
    match isH with
    | some qInv => do
      let r ← preflushCtlH env ctl
      let ctl ← orPanic (r.1.withQubit q !qInv)
      innerFlush env false
      match r.2 with
      | some q2 => setQueue fun s => s.ctlX ctl q2
      | none => setQueue fun s => s.ctlPhase ctl PI
    | none => do
      let ctl ← preflushCtl env ctl
      innerFlush env false
      setQueue fun s => s.ctlX ctl q

/-- `ctl_swap` -/
def ctlSwap (env : Env) (ctl : Control) (q1 q2 : Qubit) : Sim F Unit :=
  if ctl.uses q1 ∨ ctl.uses q2 ∨ q1 = q2 then fail .assertion
  else do
    let ctl ← preflushCtl env ctl
    preflush Preflush.i env q1
    preflush Preflush.i env q2
    innerFlush env false
    setQueue fun s => s.ctlSwap ctl q1 q2

/-- `ctl_phase` -/
def ctlPhase (env : Env) (ctl : Control) (a : Angle) : Sim F Unit :=
  match ctl.items with
  | [] => return ()
  | [c] => u3 c.qubit (U3.rz (if c.value then a else -a))
  | _ =>
    if a.round PREC = PI then do
      let r ← preflushCtlH env ctl
      innerFlush env false
      match r.2 with
      | some q => setQueue fun s => s.ctlX r.1 q
      | none => setQueue fun s => s.ctlPhase r.1 a
    else do
      let ctl ← preflushCtl env ctl
      innerFlush env false
      setQueue fun s => s.ctlPhase ctl a

/-! ## Measurement -/

/-- `premeasure` -/
def premeasure (env : Env) (q : Qubit) : Sim F (Bool × F × F) := do
  let invert ← preflush Preflush.ctl env q
  let sim ← read
  innerFlush env (sim.sfreeQueue.writes q)
  let sim ← read
  if sim.state.maxQubit < q.val then return (invert, 1, 0)
  else do
    let r ← ofExcept (sim.state.premeasure sim.ctx q)
    return (invert, r.1, r.2)

/-- `as u64`, which saturates. -/
def asU64 (r : F) : BitVec 64 := BitVec.ofNat 64 (min (Scalar.floor r).toNat (2 ^ 64 - 1))

/-- The value of the qubit of the vector that `measure` chooses. -/
def selectOutcome (invert : Bool) (r0 r1 : F) (bias : BitVec 64) : Bool :=
  let bias := if invert then ~~~bias else bias
  if r0 ≤ r1 then decide (asU64 (r0 / (r0 + r1) * 2 ^ 64) ≤ bias)
  else decide (~~~bias < asU64 (r1 / (r0 + r1) * 2 ^ 64))

/-- What `measure` reports: the outcome, and the probabilities of 0 and of 1. -/
def reported (invert : Bool) (r0 r1 : F) (bias : BitVec 64) : Bool × F × F :=
  let v := selectOutcome invert r0 r1 bias
  if invert then (!v, r1 / (r0 + r1), r0 / (r0 + r1)) else (v, r0 / (r0 + r1), r1 / (r0 + r1))

/-- Collapse the vector, unless the other outcome has no weight. -/
def collapse (env : Env) (q : Qubit) (v : Bool) (r0 r1 : F) : Sim F Unit :=
  if (if v then r0 else r1) ≠ 0 then do
    let sim ← read
    let state ← ofExcept (sim.state.measure sim.ctx (env.alloc .measure q 0) q v
      (Scalar.sqrt (if v then r1 else r0)))
    setState state
  else return ()

/-- `measure`. `none` for a probability is `NaN`. -/
def measure (env : Env) (q : Qubit) (bias : BitVec 64) : Sim F (Bool × Option (F × F)) := do
  let r ← premeasure env q
  if r.2.1 + r.2.2 = 0 then return (false, none)
  else do
    collapse env q (selectOutcome r.1 r.2.1 r.2.2 bias) r.2.1 r.2.2
    let rep := reported r.1 r.2.1 r.2.2 bias
    return (rep.1, some rep.2)

/-- `qubit_probs`. For weights without a sum both probabilities are `NaN`. -/
def qubitProbs (env : Env) (q : Qubit) : Sim F (Option (F × F)) := do
  let r ← premeasure env q
  let sum := r.2.1 + r.2.2
  if sum = 0 then return none
  else return some (if r.1 then (r.2.2 / sum, r.2.1 / sum) else (r.2.1 / sum, r.2.2 / sum))

/-! ## The other methods -/

def trim : Sim F Unit := change fun sim => { sim with state := sim.state.trim }

/-- `reset_state` -/
def resetState (env : Env) : Sim F Unit := do
  let sim ← read
  let state ← ofExcept (AnyVector.new (env.alloc .grow sim.ctx.initMaxQubit 0) sim.ctx.initMaxQubit)
  setState state
  setQueue Queue.clear
  change fun sim => { sim with qubits := fun _ => none }

/-- `import_dense` -/
def importDense (env : Env) (values : List (Cplx F)) : Sim F Unit := do
  let sim ← read
  let q ← orPanic (if values.length < 2 then some Qubit.ZERO
    else Qubit.tryFromIndex (Nat.log2 (values.length - 1)))
  let q := max sim.ctx.initMaxQubit q
  let state ← ofExcept (AnyVector.new (env.alloc .grow q 0) q)
  setState state
  let state ← ofExcept (state.importDense (env.alloc .grow q 1) values)
  setState state
  setQueue Queue.clear
  change fun sim => { sim with qubits := fun _ => none }

/-- `clone_flushed` -/
def cloneFlushed (alloc : Nat → Bool) : Sim F (Simulator F) := do
  let sim ← read
  if ¬ sim.sfreeQueue.isEmpty ∨ sim.entries ≠ [] then fail .assertion
  else do
    let state ← ofExcept (sim.state.dynClone alloc)
    return newWithState { sim.ctx with initMaxQubit := Qubit.ZERO } state

end Simulator

/-! ## Calls -/

/-- The methods that change a simulator. -/
inductive Call (F : Type) where
  | u3 (q : Qubit) (gate : U3)
  | ctlX (ctl : Control) (q : Qubit)
  | ctlSwap (ctl : Control) (q1 q2 : Qubit)
  | ctlPhase (ctl : Control) (a : Angle)
  | measure (q : Qubit) (bias : BitVec 64)
  | qubitProbs (q : Qubit)
  | flush
  | trim
  | resetState
  | importDense (values : List (Cplx F))

variable {F : Type} [Field F] [LinearOrder F] [Eps F] [Scalar F]

/-- A call, without what it returns. -/
def Call.run (env : Env) : Call F → Sim F Unit
  | u3 q gate => Simulator.u3 q gate
  | ctlX ctl q => Simulator.ctlX env ctl q
  | ctlSwap ctl q1 q2 => Simulator.ctlSwap env ctl q1 q2
  | ctlPhase ctl a => Simulator.ctlPhase env ctl a
  | measure q bias => do
    let _ ← Simulator.measure env q bias
    return ()
  | qubitProbs q => do
    let _ ← Simulator.qubitProbs env q
    return ()
  | flush => Simulator.flush env
  | trim => Simulator.trim
  | resetState => Simulator.resetState env
  | importDense values => Simulator.importDense env values

/-- Calls one after the other. -/
def runCalls (calls : List (Env × Call F)) : Sim F Unit := Lib.Run.each (fun p => p.2.run p.1) calls

end Qblaze
