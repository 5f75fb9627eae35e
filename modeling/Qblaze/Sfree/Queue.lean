import Qblaze.Sfree.Compiler
import Qblaze.U3

/-!
# The queue of superposition-free operations and its compiler (`src/sfree/queue.rs`)

`Queue` collects operations, with the sets of the qubits they read and write. `compileSeq` turns a
list of operations into programs. It goes through the list and either translates the next operation
or, when many of the operations after it depend on one qubit of its control, takes a window of the
list and compiles it twice, for the two values of that qubit. Flips of qubits and global phases are
not emitted: they are kept as `toggled` and `gphase`.

The recursion does not shorten the list; what it lowers is the number of operations and of control
items together (`weight`).
-/

namespace Qblaze

/-- `Op` -/
inductive Op where
  | gphase (a : Angle)
  | x (q : Qubit)
  | swap (q1 q2 : Qubit)

/-- `Op::writes` -/
def Op.writes : Op → Qubit → Bool
  | gphase _, _ => false
  | x q, t => q == t
  | swap q1 q2, t => q1 == t || q2 == t

abbrev OpSeq := List (Control × Op)

/-- `Stat`: what the state vector has to know of a compiled program. -/
structure Stat where
  ops : Nat
  shuffle : Bool
  modified : QubitSet

namespace Stat

def default : Stat := ⟨0, false, QubitSet.new⟩

def write (st : Stat) (q : Qubit) : Stat := { st with modified := st.modified.insert q }

end Stat

/-! ## Choosing a window -/

def THRES_PART_FAIL : Int := -2
def THRES_PART_DO : Nat := 5

/-- The loop of `eval_control`, from index `i` on. -/
def evalLoop (q : Qubit) : OpSeq → Nat → Int → Int → Nat → Int × Nat
  | [], _, _, bestScore, bestLen => (bestScore, bestLen)
  | (ctl, op) :: ops, i, curScore, bestScore, bestLen =>
    if op.writes q then (bestScore, bestLen)
    else
      let curScore := if ctl.uses q then curScore + 2 else curScore - 1
      let (bestScore, bestLen) :=
        if bestScore < curScore then (curScore, i + 1) else (bestScore, bestLen)
      if curScore ≤ THRES_PART_FAIL then (bestScore, bestLen)
      else evalLoop q ops (i + 1) curScore bestScore bestLen

/-- `eval_control`: how much a split on `q` gains, and how long the window is. -/
def evalControl (q : Qubit) (ops : OpSeq) : Int × Nat := evalLoop q ops 0 2 0 0

/-- `select_control`: the qubit of `it` with the best score. -/
def selectControl (it : List Qubit) (ops : OpSeq) : Qubit × Nat :=
  (it.foldl (fun (best : Int × Qubit × Nat) q =>
    let (score, len) := evalControl q ops
    if best.1 < score then (score, q, len) else best) (0, Qubit.ZERO, 0)).2

theorem selectControl_mem {it : List Qubit} {ops : OpSeq} (h : 0 < (selectControl it ops).2) :
    (selectControl it ops).1 ∈ it := by
  have hfold : ∀ (it : List Qubit) (best : Int × Qubit × Nat) (l : List Qubit),
      (0 < best.2.2 → best.2.1 ∈ l) →
      0 < (it.foldl (fun (best : Int × Qubit × Nat) q =>
        let (score, len) := evalControl q ops
        if best.1 < score then (score, q, len) else best) best).2.2 →
      (it.foldl (fun (best : Int × Qubit × Nat) q =>
        let (score, len) := evalControl q ops
        if best.1 < score then (score, q, len) else best) best).2.1 ∈ l ++ it := by
    intro it
    induction it with
    | nil => intro best l hb h; rw [List.append_nil]; exact hb h
    | cons q it ih =>
      intro best l hb h
      rw [List.foldl_cons] at h ⊢
      rw [List.append_cons]
      refine ih _ (l ++ [q]) (fun hb' => ?_) h
      by_cases hs : best.1 < (evalControl q ops).1
      · simp only [hs, if_true]
        exact List.mem_append_right _ (List.mem_singleton.mpr rfl)
      · simp only [hs, if_false] at hb' ⊢
        exact List.mem_append_left _ (hb hb')
  exact hfold it (0, Qubit.ZERO, 0) [] (fun h => absurd h (Nat.lt_irrefl _)) h

/-- What one operation of the window adds to the branches for `ctlQ = 0` and `ctlQ = 1`. -/
def splitOp (ctlQ : Qubit) (ctl : Control) (op : Op) : OpSeq × OpSeq :=
  match ctl.withoutQubit ctlQ with
  | none => ([(ctl, op)], [(ctl, op)])
  | some (false, ctl) => ([(ctl, op)], [])
  | some (true, ctl) => ([], [(ctl, op)])

/-- The loop of `try_partition` over the window. -/
def splitWindow (ctlQ : Qubit) (ops : OpSeq) : OpSeq × OpSeq :=
  ops.foldr (fun (ctl, op) (if0, if1) =>
    ((splitOp ctlQ ctl op).1 ++ if0, (splitOp ctlQ ctl op).2 ++ if1)) ([], [])

/-- The first operation of the window. It depends on the selected qubit, so that the `panic!` of
the source is not reached. -/
def splitFirst (ctlQ : Qubit) (ctl0 : Control) (op0 : Op) (h : ctl0.uses ctlQ = true) :
    OpSeq × OpSeq :=
  match hw : ctl0.withoutQubit ctlQ with
  | none => absurd (Control.withoutQubit_eq_none.mp hw) (by rw [h]; decide)
  | some (false, ctl) => ([(ctl, op0)], [])
  | some (true, ctl) => ([], [(ctl, op0)])

theorem uses_selectControl {ctl0 : Control} {pending : OpSeq}
    (h : ¬ (selectControl ctl0.qubits pending).2 < THRES_PART_DO) :
    ctl0.uses (selectControl ctl0.qubits pending).1 = true := by
  have hpos : 0 < (selectControl ctl0.qubits pending).2 :=
    Nat.lt_of_lt_of_le (by decide) (Nat.le_of_not_lt h)
  obtain ⟨a, ha, hq⟩ := List.mem_map.mp (selectControl_mem hpos)
  exact Control.uses_iff.mpr ⟨a, ha, hq⟩

/-- `try_partition`: the qubit, the two branches and the operations after the window. -/
def tryPartition (ctl0 : Control) (op0 : Op) (pending : OpSeq) :
    Option (Qubit × OpSeq × OpSeq × OpSeq) :=
  if pending.isEmpty then none
  else
    let sel := selectControl ctl0.qubits pending
    if h : sel.2 < THRES_PART_DO then none
    else
      let first := splitFirst sel.1 ctl0 op0 (uses_selectControl h)
      let window := splitWindow sel.1 (pending.take sel.2)
      some (sel.1, first.1 ++ window.1, first.2 ++ window.2, pending.drop sel.2)

/-! ## The measure of the recursion -/

/-- The number of operations and of control items. -/
def weight (ops : OpSeq) : Nat := (ops.map fun p => 1 + p.1.items.length).sum

theorem weight_cons (ctl : Control) (op : Op) (ops : OpSeq) :
    weight ((ctl, op) :: ops) = 1 + ctl.items.length + weight ops := by
  simp [weight]

theorem weight_append (ops ops' : OpSeq) : weight (ops ++ ops') = weight ops + weight ops' := by
  simp [weight]

theorem splitOp_weight (q : Qubit) (ctl : Control) (op : Op) :
    weight (splitOp q ctl op).1 ≤ 1 + ctl.items.length ∧
      weight (splitOp q ctl op).2 ≤ 1 + ctl.items.length := by
  unfold splitOp
  split
  · simp [weight]
  all_goals
    rename_i h
    have := Control.length_withoutQubit h
    simp [weight]
    omega

theorem splitFirst_weight (q : Qubit) (ctl : Control) (op : Op) (h : ctl.uses q = true) :
    weight (splitFirst q ctl op h).1 < 1 + ctl.items.length ∧
      weight (splitFirst q ctl op h).2 < 1 + ctl.items.length := by
  unfold splitFirst
  split
  · rename_i hw
    rw [Control.withoutQubit_eq_none.mp hw] at h
    cases h
  all_goals
    rename_i hw
    have := Control.length_withoutQubit hw
    simp [weight]
    omega

theorem splitWindow_weight (q : Qubit) (ops : OpSeq) :
    weight (splitWindow q ops).1 ≤ weight ops ∧ weight (splitWindow q ops).2 ≤ weight ops := by
  induction ops with
  | nil => exact ⟨Nat.le_refl _, Nat.le_refl _⟩
  | cons p ops ih =>
    obtain ⟨ctl, op⟩ := p
    have h := splitOp_weight q ctl op
    rw [splitWindow, List.foldr_cons, ← splitWindow, weight_cons, weight_append, weight_append]
    omega

theorem tryPartition_eq {ctl : Control} {op : Op} {ops if0 if1 rest : OpSeq} {q : Qubit}
    (h : tryPartition ctl op ops = some (q, if0, if1, rest)) :
    ∃ (l : Nat) (hu : ctl.uses q = true), selectControl ctl.qubits ops = (q, l) ∧
      THRES_PART_DO ≤ l ∧
      if0 = (splitFirst q ctl op hu).1 ++ (splitWindow q (ops.take l)).1 ∧
      if1 = (splitFirst q ctl op hu).2 ++ (splitWindow q (ops.take l)).2 ∧ rest = ops.drop l := by
  unfold tryPartition at h
  split at h
  · cases h
  · simp only at h
    split at h
    · cases h
    · rename_i hl
      simp only [Option.some.injEq, Prod.mk.injEq] at h
      obtain ⟨rfl, rfl, rfl, rfl⟩ := h
      exact ⟨_, uses_selectControl hl, rfl, Nat.le_of_not_lt hl, rfl, rfl, rfl⟩

theorem tryPartition_weight {ctl : Control} {op : Op} {ops if0 if1 rest : OpSeq} {q : Qubit}
    (h : tryPartition ctl op ops = some (q, if0, if1, rest)) :
    weight if0 < weight ((ctl, op) :: ops) ∧ weight if1 < weight ((ctl, op) :: ops) ∧
      weight rest < weight ((ctl, op) :: ops) := by
  obtain ⟨l, hu, -, -, rfl, rfl, rfl⟩ := tryPartition_eq h
  have h1 := splitFirst_weight q ctl op hu
  have h2 := splitWindow_weight q (ops.take l)
  have h3 := weight_append (ops.take l) (ops.drop l)
  rw [List.take_append_drop] at h3
  rw [weight_cons, weight_append, weight_append]
  omega

/-! ## Emitting gates -/

/-- The programs emitted so far, and the statistics. -/
structure Code where
  r : List Compiled
  st : Stat

/-- `make_controlled` -/
def makeControlled (ctl : Control) (g : BaseGate) : Compiled :=
  match ctl.items with
  | [] => .gate (.plain g)
  | [c] => .gate (.singlyControlled c.value c.qubit g)
  | _ => .gate (.multiControlled ctl g)

/-- The gate for a phase, `none` for the phase zero. -/
def phaseGate (a : Angle) (prec : Nat) : Option BaseGate :=
  let b := a.round prec
  if b = Angle.ZERO then none
  else if b = Angle.PI_1_4 then some .pt
  else if b = Angle.PI_1_2 then some .ps
  else if b = Angle.PI_3_4 then some .pt3
  else if b = Angle.PI then some .pz
  else if b = Angle.PI_5_4 then some .pt5
  else if b = Angle.PI_3_2 then some .psdg
  else if b = Angle.PI_7_4 then some .ptdg
  else some (.p a)

/-- `push_phase` -/
def pushPhase (c : Code) (ctl : Control) (a : Angle) (prec : Nat) : Code :=
  match phaseGate a prec with
  | none => c
  | some g => ⟨c.r ++ [makeControlled ctl g], { c.st with ops := c.st.ops + 1 }⟩

/-- `push_toggle_one` -/
def pushToggleOne (c : Code) (ctl : Control) (q : Qubit) : Code :=
  ⟨c.r ++ [makeControlled ctl (.x q)], Stat.write { c.st with ops := c.st.ops + 1 } q⟩

/-- `push_toggle_many`, for bit sets of `N` words. -/
def pushToggleMany (N : Nat) (c : Code) (ctl : Control) (toToggle : QubitSet) : Code :=
  let n := toToggle.len
  if n = 0 then c
  else if N ≤ n then
    ⟨c.r ++ [makeControlled ctl (.multiX toToggle)],
      toToggle.iter.foldl Stat.write { c.st with ops := c.st.ops + 1 }⟩
  else toToggle.iter.foldl (fun c q => pushToggleOne c ctl q) c

/-- `push_swap` -/
def pushSwap (c : Code) (ctl : Control) (q1 q2 : Qubit) : Code :=
  ⟨c.r ++ [makeControlled ctl (.swap q1 q2)],
    Stat.write (Stat.write { c.st with ops := c.st.ops + 1 } q1) q2⟩

/-! ## The compiler -/

/-- The variables of the loop of `compile_seq`. -/
structure Out extends Code where
  toggled : QubitSet
  gphase : Angle

/-- The loop of `compile_seq`, for an operation that is not the first one of a window. -/
def compileOp (prec : Nat) (ctl : Control) (op : Op) (s : Out) : Out :=
  let has q := s.toggled.contains q
  if ctl.isAlways then
    match op with
    | .gphase a => { s with gphase := s.gphase + a }
    | .x q =>
      let (had, toggled) := s.toggled.remove q
      { s with toggled := if had then toggled else toggled.insert q }
    | .swap q1 q2 =>
      let toggled :=
        if has q1 && !has q2 then (s.toggled.remove q1).2.insert q2
        else if has q2 && !has q1 then (s.toggled.remove q2).2.insert q1
        else s.toggled
      { s with toCode := pushSwap s.toCode Control.always q1 q2, toggled }
  else
    let ctl := ctl.toggleIf has
    match op with
    | .gphase a => { s with toCode := pushPhase s.toCode ctl a prec }
    | .x q => { s with toCode := pushToggleOne s.toCode ctl q }
    | .swap q1 q2 =>
      if has q1 ≠ has q2 then
        let q := if has q1 then q1 else q2
        { s with
          toCode := pushSwap (pushToggleOne s.toCode Control.always q) ctl q1 q2
          toggled := (s.toggled.remove q).2 }
      else { s with toCode := pushSwap s.toCode ctl q1 q2 }

/-- Remove every member of `t` from `s`. -/
def removeAll (s t : QubitSet) : QubitSet := t.iter.foldl (fun s q => (s.remove q).2) s

/-- The loop of `compile_seq` after the two branches `o0` and `o1` of a window are compiled. -/
def mergeBranches (N prec : Nat) (ctlQ : Qubit) (s o0 o1 : Out) : Out :=
  let toggled := o0.toggled.intersection o1.toggled
  let c0 := pushToggleMany N ⟨o0.r, o1.st⟩ Control.always (removeAll o0.toggled toggled)
  let c1 := pushToggleMany N ⟨o1.r, c0.st⟩ Control.always (removeAll o1.toggled toggled)
  let empty := c0.r.isEmpty && c1.r.isEmpty
  let phaseDiff := o1.gphase - o0.gphase
  -- emit the two branches
  let pseq (if0 if1 : List Compiled) (st : Stat) (gphase : Angle) : Out :=
    ⟨⟨s.r ++ [.pseq ctlQ if0 if1], { st with shuffle := true }⟩, toggled, gphase⟩
  if phaseDiff.round prec = Angle.ZERO then
    let gphase := s.gphase + Angle.mid o0.gphase o1.gphase
    if empty then ⟨⟨s.r, c1.st⟩, toggled, gphase⟩ else pseq c0.r c1.r c1.st gphase
  else if (s.gphase + o1.gphase).round prec = Angle.ZERO then
    if empty then
      ⟨pushPhase ⟨s.r, c1.st⟩ (Control.single ctlQ false) (-phaseDiff) prec, toggled, Angle.ZERO⟩
    else
      let c0 := pushPhase ⟨c0.r, c1.st⟩ Control.always (-phaseDiff) prec
      pseq c0.r c1.r c0.st Angle.ZERO
  else
    let gphase := s.gphase + o0.gphase
    if empty then
      ⟨pushPhase ⟨s.r, c1.st⟩ (Control.single ctlQ true) phaseDiff prec, toggled, gphase⟩
    else
      let c1 := pushPhase c1 Control.always phaseDiff prec
      pseq c0.r c1.r c1.st gphase

/-- The loop of `compile_seq`. -/
def compileLoop (N prec : Nat) : OpSeq → Out → Out
  | [], s => s
  | (ctl, op) :: ops, s =>
    match _h : tryPartition ctl op ops with
    | some (ctlQ, if0, if1, rest) =>
      -- the branches change places if the value of the qubit is flipped
      let flip := s.toggled.contains ctlQ
      let o0 := compileLoop N prec (if flip then if1 else if0) ⟨⟨[], s.st⟩, s.toggled, Angle.ZERO⟩
      let o1 := compileLoop N prec (if flip then if0 else if1) ⟨⟨[], o0.st⟩, s.toggled, Angle.ZERO⟩
      compileLoop N prec rest (mergeBranches N prec ctlQ s o0 o1)
    | none => compileLoop N prec ops (compileOp prec ctl op s)
termination_by ops _ => weight ops
decreasing_by
  · obtain ⟨h0, h1, -⟩ := tryPartition_weight _h
    split
    · exact h1
    · exact h0
  · obtain ⟨h0, h1, -⟩ := tryPartition_weight _h
    split
    · exact h0
    · exact h1
  · exact (tryPartition_weight _h).2.2
  · rw [weight_cons]
    omega

/-- `compile_seq` -/
def compileSeq (N : Nat) (st : Stat) (ops : OpSeq) (toggled : QubitSet) (prec : Nat) : Out :=
  compileLoop N prec ops ⟨⟨[], st⟩, toggled, Angle.ZERO⟩

/-! ## The queue -/

/-- `Queue` -/
structure Queue where
  ops : OpSeq
  readSet : QubitSet
  writeSet : QubitSet

namespace Queue

def new : Queue := ⟨[], QubitSet.new, QubitSet.new⟩

def reads (s : Queue) (q : Qubit) : Bool := s.readSet.contains q

def writes (s : Queue) (q : Qubit) : Bool := s.writeSet.contains q

/-- `Queue::max_qubit` -/
def maxQubit (s : Queue) : Qubit :=
  let r := Qubit.ZERO
  let r := match s.readSet.iter.max? with
    | some q => max r q
    | none => r
  match s.writeSet.iter.max? with
  | some q => max r q
  | none => r

def isEmpty (s : Queue) : Bool := s.ops.isEmpty

def len (s : Queue) : Nat := s.ops.length

def x (s : Queue) (q : Qubit) : Queue :=
  { s with writeSet := s.writeSet.insert q, ops := s.ops ++ [(Control.always, .x q)] }

def ctlPhase (s : Queue) (ctl : Control) (a : Angle) : Queue :=
  { s with readSet := s.readSet.extend ctl.qubits, ops := s.ops ++ [(ctl, .gphase a)] }

def ctlX (s : Queue) (ctl : Control) (q : Qubit) : Queue :=
  { readSet := s.readSet.extend ctl.qubits
    writeSet := s.writeSet.insert q
    ops := s.ops ++ [(ctl, .x q)] }

def ctlSwap (s : Queue) (ctl : Control) (q1 q2 : Qubit) : Queue :=
  { readSet := ((s.readSet.extend ctl.qubits).insert q1).insert q2
    writeSet := (s.writeSet.insert q1).insert q2
    ops := s.ops ++ [(ctl, .swap q1 q2)] }

/-- `Queue::blocks`: a gate on `q` cannot be moved before the queue. -/
def blocks (s : Queue) (q : Qubit) (gate : U3) (prec : Nat) : Bool :=
  let (checkRead, checkWrite) := match gate.toRzRx prec with
    | none => (true, true)
    | some (rz, rx) => (decide (rx.round prec ≠ Angle.ZERO), decide (rz.round prec ≠ Angle.ZERO))
  checkRead && s.reads q || checkWrite && s.writes q

def clear (s : Queue) : Queue := ⟨[], s.readSet.clear, s.writeSet.clear⟩

/-- `Queue::compile`: the program, if there is anything to do, and the statistics. The queue is
cleared. -/
def compile (s : Queue) (N : Nat) (st : Stat) (prec : Nat) : Option Compiled × Stat :=
  let o := compileSeq N st s.ops QubitSet.new prec
  let c := pushToggleMany N o.toCode Control.always o.toggled
  (if c.r.isEmpty then none else some (Compiled.fromSeq c.r), c.st)

end Queue

end Qblaze
