import Mathlib.Algebra.Group.PUnit
import Mathlib.Algebra.Ring.BooleanRing
import Mathlib.Tactic.Abel
import Qblaze.Sfree.Queue

/-!
# What the compiler preserves

The meaning of operations and of programs on one basis state: the new basis state, and a phase
(`Conf`). `runOps` runs a list of operations and `evalSeq` a list of programs. Phases are valued in a
group `G`, by a homomorphism from the angles: the angles themselves, or nothing where only the basis
states matter. `Phases` is what the compiler needs of the angles that it rounds.

* `compileLoop_correct`: the compiled programs, the flips and the global phase together mean what
  the operations mean, and the statistics cover what the programs do (`Emits`).
* `Queue.compile_correct`: the same for the whole queue.
-/

namespace Qblaze

/-- A basis state and the phase of its amplitude. -/
abbrev Conf (G : Type) := (Qubit → Bool) × G

/-- Flip the qubits of `t`. -/
def flip (t x : Qubit → Bool) : Qubit → Bool := fun q => x q ^^ t q

/-- Exchange the values of two qubits. -/
def swapQubits (q1 q2 : Qubit) (x : Qubit → Bool) : Qubit → Bool := fun q => x (Equiv.swap q1 q2 q)

variable {G : Type} [AddCommGroup G] (φ : Angle →+ G)

namespace Op

def run : Op → Conf G → Conf G
  | gphase a, c => (c.1, c.2 + φ a)
  | x q, c => (flip (fun r => r == q) c.1, c.2)
  | swap q1 q2, c => (swapQubits q1 q2 c.1, c.2)

end Op

/-- One operation, under its control. -/
def runOp (p : Control × Op) (c : Conf G) : Conf G := if p.1.holds c.1 then p.2.run φ c else c

def runOps : OpSeq → Conf G → Conf G
  | [], c => c
  | p :: ops, c => runOps ops (runOp φ p c)

namespace BaseGate

/-- The phase of a gate. -/
def phase : BaseGate → Angle
  | p a => a
  | pz => Angle.PI
  | ps => Angle.PI_1_2
  | psdg => Angle.PI_3_2
  | pt => Angle.PI_1_4
  | pt3 => Angle.PI_3_4
  | pt5 => Angle.PI_5_4
  | ptdg => Angle.PI_7_4
  | _ => Angle.ZERO

def eval : BaseGate → Conf G → Conf G
  | x q, c => (flip (fun r => r == q) c.1, c.2)
  | swap q1 q2, c => (swapQubits q1 q2 c.1, c.2)
  | multiX set, c => (flip set.contains c.1, c.2)
  | g, c => (c.1, c.2 + φ g.phase)

end BaseGate

/-- The control of a gate, in a basis state. -/
def Gate.holds : Gate → (Qubit → Bool) → Bool
  | plain _, _ => true
  | singlyControlled v q _, x => x q == v
  | multiControlled ctl _, x => ctl.holds x

namespace Compiled

mutual

def eval : Compiled → Conf G → Conf G
  | gate g, c => if g.holds c.1 then g.inner.eval φ c else c
  | seq l, c => evalSeq l c
  | pseq ctl seq0 seq1, c => if c.1 ctl then evalSeq seq1 c else evalSeq seq0 c

def evalSeq : List Compiled → Conf G → Conf G
  | [], c => c
  | p :: l, c => evalSeq l (p.eval c)

end

theorem evalSeq_append (l l' : List Compiled) (c : Conf G) :
    evalSeq φ (l ++ l') c = evalSeq φ l' (evalSeq φ l c) := by
  induction l generalizing c with
  | nil => rw [List.nil_append, evalSeq]
  | cons p l ih => rw [List.cons_append, evalSeq, evalSeq, ih]

end Compiled

/-! ## Flips and swaps -/

theorem flip_flip (s t x : Qubit → Bool) : flip s (flip t x) = flip (flip s t) x := by
  funext q
  simp only [flip]
  cases x q <;> cases s q <;> cases t q <;> rfl

theorem flip_comm (s t x : Qubit → Bool) : flip s (flip t x) = flip t (flip s x) := by
  funext q
  simp only [flip]
  cases x q <;> cases s q <;> cases t q <;> rfl

theorem swapQubits_flip (q1 q2 : Qubit) (t x : Qubit → Bool) :
    swapQubits q1 q2 (flip t x) = flip (swapQubits q1 q2 t) (swapQubits q1 q2 x) := rfl

theorem flip_false (x : Qubit → Bool) : flip (fun _ => false) x = x := by
  funext q
  simp [flip]

/-! ## Operations keep what they do not write -/

/-- The angles that the compiler may round: they are closed under the arithmetic of the compiler,
and rounding does not change their phase. -/
structure Phases (prec : Nat) (φ : Angle →+ G) (Ok : Angle → Prop) : Prop where
  zero : Ok Angle.ZERO
  add : ∀ {a b}, Ok a → Ok b → Ok (a + b)
  neg : ∀ {a}, Ok a → Ok (-a)
  mid : ∀ {a b}, Ok a → Ok b → φ a = φ b → Ok (Angle.mid a b) ∧ φ (Angle.mid a b) = φ a
  round : ∀ {a}, Ok a → φ (a.round prec) = φ a

/-- Where only the basis states matter, every angle may be rounded. -/
theorem Phases.trivial (prec : Nat) : Phases prec (0 : Angle →+ PUnit) fun _ => True where
  zero := True.intro
  add _ _ := True.intro
  neg _ := True.intro
  mid _ _ _ := ⟨True.intro, rfl⟩
  round _ := rfl

/-- The phases are the angles, and only those are rounded that rounding does not change. -/
theorem Phases.fixed (prec : Nat) : Phases prec (AddMonoidHom.id Angle) (Angle.Fixed prec) where
  zero := Angle.fixed_zero prec
  add := Angle.Fixed.add
  neg := Angle.Fixed.neg
  mid := by
    rintro a b ha - rfl
    rw [AddMonoidHom.id_apply, Angle.mid_self]
    exact ⟨ha, rfl⟩
  round ha := ha

/-- What the callers of the queue guarantee of an operation: its control does not depend on a qubit
it writes, its phase may be rounded, and its qubits are in `P`. -/
structure Legal (P : Qubit → Prop) (Ok : Angle → Prop) (p : Control × Op) : Prop where
  disjoint : ∀ q, p.2.writes q = true → p.1.uses q = false
  fixed : ∀ a, p.2 = .gphase a → Ok a
  reads : ∀ q, p.1.uses q = true → P q
  writes : ∀ q, p.2.writes q = true → P q

variable {φ}

variable {ops ops' : OpSeq} {ctl : Control} {op : Op} {q r : Qubit} {c : Conf G}

theorem Op.run_keep (h : op.writes q = false) : (op.run φ c).1 q = c.1 q := by
  cases op with
  | gphase b => rfl
  | x q' =>
    have hne : (q == q') = false := by rw [Bool.beq_comm]; exact h
    simp [Op.run, flip, hne]
  | swap q1 q2 =>
    simp only [Op.writes, Bool.or_eq_false_iff, beq_eq_false_iff_ne] at h
    show c.1 (Equiv.swap q1 q2 q) = c.1 q
    rw [Equiv.swap_apply_of_ne_of_ne h.1.symm h.2.symm]

theorem runOp_keep {p : Control × Op} (h : p.2.writes q = false) : (runOp φ p c).1 q = c.1 q := by
  unfold runOp
  split
  · exact Op.run_keep h
  · rfl

theorem runOps_append (ops ops' : OpSeq) (c : Conf G) :
    runOps φ (ops ++ ops') c = runOps φ ops' (runOps φ ops c) := by
  induction ops generalizing c with
  | nil => rfl
  | cons p ops ih => exact ih _

/-! ## Programs and phases -/

/-- Add a phase. -/
def Conf.shift (g : G) (c : Conf G) : Conf G := (c.1, c.2 + g)

theorem Conf.shift_zero (c : Conf G) : c.shift 0 = c := by
  unfold Conf.shift
  rw [add_zero]

theorem BaseGate.eval_shift (b : BaseGate) (g : G) :
    b.eval φ (c.shift g) = (b.eval φ c).shift g := by
  have hphase : ∀ a : Angle, c.2 + g + φ a = c.2 + φ a + g := fun a => add_right_comm _ _ _
  cases b with
  | x q => rfl
  | swap q1 q2 => rfl
  | multiX set => rfl
  | _ => exact Prod.ext rfl (hphase _)

namespace Compiled

mutual

/-- A program does not depend on the phase. -/
theorem eval_shift (g : G) : ∀ (p : Compiled) (c : Conf G),
    p.eval φ (c.shift g) = (p.eval φ c).shift g
  | gate b, c => by
    simp only [eval, BaseGate.eval_shift]
    split <;> simp [Conf.shift] at * <;> simp [*]
  | seq l, c => by
    rw [eval, eval, evalSeq_shift g l c]
  | pseq ctl seq0 seq1, c => by
    simp only [eval, evalSeq_shift g seq0 c, evalSeq_shift g seq1 c]
    show (if c.1 ctl = true then _ else _) = _
    split <;> rfl

theorem evalSeq_shift (g : G) : ∀ (l : List Compiled) (c : Conf G),
    evalSeq φ l (c.shift g) = (evalSeq φ l c).shift g
  | [], c => by rw [evalSeq, evalSeq]
  | p :: l, c => by rw [evalSeq, evalSeq, eval_shift g p c, evalSeq_shift g l]

end

end Compiled

/-! ## Emitted gates -/

open Compiled

/-- The statistics that change from `st` to `st'` cover the programs `l`, which mention only qubits
of `P`. -/
structure Covers (P : Qubit → Prop) (st st' : Stat) (l : List Compiled) : Prop where
  kept : ∀ q, st.modified.contains q = true → st'.modified.contains q = true
  modified : ∀ q, writesSeq l q = true → st'.modified.contains q = true
  bounded : ∀ q, st'.modified.contains q = true → st.modified.contains q = true ∨ P q
  reads : ∀ q, readsSeq l q = true → P q
  writes : ∀ q, writesSeq l q = true → P q
  shuffle : st.shuffle = true → st'.shuffle = true
  shuffled : shufflesSeq l = true → st'.shuffle = true

/-- `l` is emitted on the way from `c` to `c'`. -/
structure Emits (P : Qubit → Prop) (c c' : Code) (l : List Compiled) : Prop extends
    Covers P c.st c'.st l where
  r : c'.r = c.r ++ l

variable {P : Qubit → Prop} {s s' s'' : Code} {st st' st'' : Stat} {l l' : List Compiled}
  {prec N : Nat} {Ok : Angle → Prop}

theorem Covers.trans (h : Covers P st st' l) (h' : Covers P st' st'' l') :
    Covers P st st'' (l ++ l') where
  kept q hq := h'.kept q (h.kept q hq)
  modified q hq := by
    rw [writesSeq_append, Bool.or_eq_true] at hq
    exact hq.elim (fun hq => h'.kept q (h.modified q hq)) (h'.modified q)
  bounded q hq := (h'.bounded q hq).elim (h.bounded q) .inr
  reads q hq := by
    rw [readsSeq_append, Bool.or_eq_true] at hq
    exact hq.elim (h.reads q) (h'.reads q)
  writes q hq := by
    rw [writesSeq_append, Bool.or_eq_true] at hq
    exact hq.elim (h.writes q) (h'.writes q)
  shuffle hs := h'.shuffle (h.shuffle hs)
  shuffled hs := by
    rw [shufflesSeq_append, Bool.or_eq_true] at hs
    exact hs.elim (fun hs => h'.shuffle (h.shuffled hs)) h'.shuffled

theorem Emits.refl (P : Qubit → Prop) (s : Code) : Emits P s s [] where
  r := (List.append_nil _).symm
  kept _ hq := hq
  modified _ hq := by simp [writesSeq] at hq
  bounded _ hq := .inl hq
  reads _ hq := by simp [readsSeq] at hq
  writes _ hq := by simp [writesSeq] at hq
  shuffle hs := hs
  shuffled hs := by simp [shufflesSeq] at hs

theorem Emits.trans (h : Emits P s s' l) (h' : Emits P s' s'' l') : Emits P s s'' (l ++ l') where
  toCovers := h.toCovers.trans h'.toCovers
  r := by rw [h'.r, h.r, List.append_assoc]

/-- Two sequences that are covered, as the branches of a partition. -/
theorem Covers.pseq {l0 l1 : List Compiled} (h : Covers P st st' l)
    (hw : ∀ q, writesSeq l q = (writesSeq l0 q || writesSeq l1 q))
    (hr : ∀ q, readsSeq l q = (readsSeq l0 q || readsSeq l1 q)) (hq : P q) :
    Covers P st { st' with shuffle := true } [.pseq q l0 l1] where
  kept := h.kept
  modified r hr := by
    rw [writesSeq, writesSeq, Bool.or_false, Compiled.writes, ← hw] at hr
    exact h.modified r hr
  bounded := h.bounded
  reads r hr' := by
    rw [readsSeq, readsSeq, Bool.or_false, Compiled.reads, ← hr, Bool.or_eq_true, beq_iff_eq] at hr'
    exact hr'.elim (fun e => e ▸ hq) (h.reads r)
  writes r hr := by
    rw [writesSeq, writesSeq, Bool.or_false, Compiled.writes, ← hw] at hr
    exact h.writes r hr
  shuffle _ := rfl
  shuffled _ := rfl

theorem makeControlled_gate (ctl : Control) (g : BaseGate) :
    ∃ b : Gate, makeControlled ctl g = .gate b ∧ b.inner = g ∧ (∀ q, b.reads q = ctl.uses q) ∧
      ∀ x, b.holds x = ctl.holds x := by
  unfold makeControlled
  split
  · rename_i h
    exact ⟨_, rfl, rfl, fun q => by simp [Gate.reads, Control.uses, h],
      fun x => by simp [Gate.holds, Control.holds, h]⟩
  · rename_i a h
    refine ⟨_, rfl, rfl, fun q => ?_, fun x => ?_⟩
    · simp [Gate.reads, Control.uses, h, Bool.beq_comm]
    · simp [Gate.holds, Control.holds, ControlItem.holds, h]
  · exact ⟨_, rfl, rfl, fun q => rfl, fun x => rfl⟩

theorem makeControlled_eval (ctl : Control) (g : BaseGate) (c : Conf G) :
    (makeControlled ctl g).eval φ c = if ctl.holds c.1 then g.eval φ c else c := by
  obtain ⟨b, h, hi, -, hh⟩ := makeControlled_gate ctl g
  rw [h, eval, hi, hh]

/-- A controlled gate whose written qubits are counted as modified. -/
theorem Emits.gate {ctl : Control} {g : BaseGate} {st : Stat}
    (hkept : ∀ q, st.modified.contains q = (s.st.modified.contains q || g.writes q))
    (hs : st.shuffle = s.st.shuffle) (hr : ∀ q, ctl.uses q = true → P q)
    (hw : ∀ q, g.writes q = true → P q) :
    Emits P s ⟨s.r ++ [makeControlled ctl g], st⟩ [makeControlled ctl g] := by
  obtain ⟨b, h, hi, hb, -⟩ := makeControlled_gate ctl g
  rw [h]
  refine ⟨⟨fun q hq => ?_, fun q hq => ?_, fun q hq => ?_, fun q hq => ?_, fun q hq => ?_,
    fun hq => hs ▸ hq, fun hq => ?_⟩, rfl⟩
  · rw [hkept, hq, Bool.true_or]
  · simp only [writesSeq, Compiled.writes, hi, Bool.or_false] at hq
    rw [hkept, hq, Bool.or_true]
  · rw [hkept, Bool.or_eq_true] at hq
    exact hq.imp_right (hw q)
  · simp only [readsSeq, Compiled.reads, hb, Bool.or_false] at hq
    exact hr q hq
  · simp only [writesSeq, Compiled.writes, hi, Bool.or_false] at hq
    exact hw q hq
  · simp only [shufflesSeq, shuffles, Bool.or_false] at hq
    cases hq

theorem Phases.of_round (hφ : Phases prec φ Ok) {a b : Angle} (ha : Ok a) (h : a.round prec = b) :
    φ b = φ a := by
  rw [← h, hφ.round ha]

theorem Phases.of_round_zero (hφ : Phases prec φ Ok) {a : Angle} (ha : Ok a)
    (h : a.round prec = Angle.ZERO) : φ a = 0 := by
  rw [← hφ.of_round ha h]
  exact map_zero φ

theorem Phases.sub (hφ : Phases prec φ Ok) {a b : Angle} (ha : Ok a) (hb : Ok b) : Ok (a - b) := by
  rw [sub_eq_add_neg]
  exact hφ.add ha (hφ.neg hb)

theorem phaseGate_none (hφ : Phases prec φ Ok) {a : Angle} (ha : Ok a)
    (h : phaseGate a prec = none) : φ a = 0 := by
  unfold phaseGate at h
  simp only at h
  repeat' split at h
  all_goals first | exact hφ.of_round_zero ha ‹_› | cases h

theorem phaseGate_some (hφ : Phases prec φ Ok) {a : Angle} {g : BaseGate} (ha : Ok a)
    (h : phaseGate a prec = some g) :
    (∀ q, g.writes q = false) ∧ ∀ c, g.eval φ c = c.shift (φ a) := by
  unfold phaseGate at h
  simp only at h
  repeat' split at h
  all_goals cases h
  all_goals refine ⟨fun _ => rfl, fun c => ?_⟩
  all_goals first
    | exact congrArg (fun b => Conf.shift b c) (hφ.of_round ha ‹a.round prec = _›)
    | rfl

/-- `push_phase`: the phase is added where the control holds. -/
theorem pushPhase_emits (hφ : Phases prec φ Ok) {a : Angle} (ha : Ok a)
    (hr : ∀ q, ctl.uses q = true → P q) :
    ∃ l, Emits P s (pushPhase s ctl a prec) l ∧
      ∀ c, evalSeq φ l c = if ctl.holds c.1 then c.shift (φ a) else c := by
  unfold pushPhase
  split
  · rename_i h
    refine ⟨[], Emits.refl P s, fun c => ?_⟩
    rw [evalSeq, phaseGate_none hφ ha h, Conf.shift_zero, ite_self]
  · rename_i g h
    obtain ⟨hw, he⟩ := phaseGate_some hφ ha h
    refine ⟨_, Emits.gate (fun q => by rw [hw, Bool.or_false]) rfl hr fun q hq => ?_, fun c => ?_⟩
    · rw [hw] at hq; cases hq
    · rw [evalSeq, evalSeq, makeControlled_eval, he]

theorem contains_write (st : Stat) (q r : Qubit) :
    (st.write q).modified.contains r = (st.modified.contains r || r == q) := by
  rw [Stat.write, QubitSet.contains_insert]
  rfl

/-- The writes that `push_toggle_many` counts for one gate. -/
theorem foldl_write (qs : List Qubit) (st : Stat) :
    (∀ q, (qs.foldl Stat.write st).modified.contains q =
      (st.modified.contains q || decide (q ∈ qs))) ∧
    (qs.foldl Stat.write st).shuffle = st.shuffle := by
  induction qs generalizing st with
  | nil => simp
  | cons r qs ih =>
    refine ⟨fun q => ?_, (ih _).2⟩
    rw [List.foldl_cons, (ih _).1, contains_write]
    simp only [List.mem_cons, Bool.decide_or, Bool.or_assoc]
    rfl

theorem pushToggleOne_emits (hr : ∀ q, ctl.uses q = true → P q) (hq : P q) :
    Emits P s (pushToggleOne s ctl q) [makeControlled ctl (.x q)] := by
  refine Emits.gate (fun r => ?_) rfl hr fun r h => ?_
  · rw [contains_write]
    rfl
  · rw [BaseGate.writes, beq_iff_eq] at h
    exact h ▸ hq

theorem pushSwap_emits {q1 q2 : Qubit} (hr : ∀ q, ctl.uses q = true → P q) (h1 : P q1)
    (h2 : P q2) : Emits P s (pushSwap s ctl q1 q2) [makeControlled ctl (.swap q1 q2)] := by
  refine Emits.gate (fun r => ?_) rfl hr fun r h => ?_
  · rw [contains_write, contains_write, Bool.or_assoc]
    rfl
  · rw [BaseGate.writes, Bool.or_eq_true, beq_iff_eq, beq_iff_eq] at h
    exact h.elim (fun h => h ▸ h1) fun h => h ▸ h2

/-- The gates of `push_toggle_many`, one for each qubit. -/
theorem pushToggles_emits {qs : List Qubit} (hqs : qs.Nodup) (hP : ∀ q ∈ qs, P q) (s : Code) :
    ∃ l, Emits P s (qs.foldl (fun c q => pushToggleOne c Control.always q) s) l ∧
      ∀ c : Conf G, evalSeq φ l c = (flip (fun r => decide (r ∈ qs)) c.1, c.2) := by
  induction qs generalizing s with
  | nil =>
    refine ⟨[], Emits.refl P s, fun c => ?_⟩
    rw [evalSeq]
    simp [flip_false]
  | cons q qs ih =>
    obtain ⟨hq, hqs⟩ := List.nodup_cons.mp hqs
    obtain ⟨l, hl, he⟩ := ih hqs (fun r hr => hP r (List.mem_cons_of_mem _ hr))
      (pushToggleOne s Control.always q)
    refine ⟨_, (pushToggleOne_emits (fun r hr => by simp at hr) (hP q (List.mem_cons_self ..))).trans hl,
      fun c => ?_⟩
    rw [evalSeq_append, he, evalSeq, evalSeq, makeControlled_eval]
    refine Prod.ext (funext fun r => ?_) rfl
    by_cases hr : r = q
    · subst hr
      simp [flip, BaseGate.eval, hq]
    · have hb : (r == q) = false := beq_eq_false_iff_ne.mpr hr
      simp [flip, BaseGate.eval, hr, hb]

/-- `push_toggle_many`: every qubit of the set is flipped. -/
theorem pushToggleMany_emits {t : QubitSet} (hP : ∀ q, t.contains q = true → P q) (s : Code) :
    ∃ l, Emits P s (pushToggleMany N s Control.always t) l ∧
      ∀ c : Conf G, evalSeq φ l c = (flip t.contains c.1, c.2) := by
  unfold pushToggleMany
  simp only
  split
  · rename_i h
    refine ⟨[], Emits.refl P s, fun c => ?_⟩
    have ht : t.contains = fun _ => false := funext (QubitSet.len_eq_zero.mp h)
    rw [evalSeq, ht, flip_false]
  · split
    · refine ⟨_, Emits.gate (fun q => ?_) ?_ (fun r hr => by simp at hr) hP, fun c => ?_⟩
      · rw [(foldl_write _ _).1]
        simp [QubitSet.mem_iter, BaseGate.writes]
      · exact (foldl_write _ _).2
      · rw [evalSeq, evalSeq, makeControlled_eval]
        simp [BaseGate.eval]
    · obtain ⟨l, hl, he⟩ := pushToggles_emits (φ := φ) (t.iter_sorted.imp fun h => h.ne)
        (fun q hq => hP q (QubitSet.mem_iter.mp hq)) s
      refine ⟨l, hl, fun c => ?_⟩
      rw [he]
      simp [QubitSet.mem_iter]

/-! ## One operation -/

/-- The configuration that the flips and the phase of the loop stand for. -/
def Out.decode (φ : Angle →+ G) (o : Out) (c : Conf G) : Conf G :=
  (flip o.toggled.contains c.1, c.2 + φ o.gphase)

/-- The flips are in `P`, and the phase may be rounded. -/
structure Out.Good (P : Qubit → Prop) (Ok : Angle → Prop) (o : Out) : Prop where
  toggled : ∀ q, o.toggled.contains q = true → P q
  gphase : Ok o.gphase

/-- `o'` is `o` after the operations `ops`, which `l` stands for. -/
structure Compiles (P : Qubit → Prop) (φ : Angle →+ G) (Ok : Angle → Prop) (ops : OpSeq)
    (o o' : Out) (l : List Compiled) : Prop where
  emits : Emits P o.toCode o'.toCode l
  good : o'.Good P Ok
  sound : ∀ c, runOps φ ops (o.decode φ c) = o'.decode φ (evalSeq φ l c)

variable {o o' : Out}

theorem runOps_singleton (p : Control × Op) (c : Conf G) : runOps φ [p] c = runOp φ p c := rfl

/-- `if !toggled.remove(q) { toggled.insert(q) }` -/
theorem contains_toggle (t : QubitSet) (q : Qubit) :
    (if (t.remove q).1 then (t.remove q).2 else (t.remove q).2.insert q).contains =
      flip (fun r => r == q) t.contains := by
  funext r
  have hrem : (t.remove q).1 = t.contains q := rfl
  rw [hrem]
  by_cases hr : r = q
  · subst hr
    cases h : t.contains r <;> simp [flip, h, QubitSet.contains_insert, QubitSet.contains_remove]
  · have hb : (r == q) = false := beq_eq_false_iff_ne.mpr hr
    split <;> simp [flip, hb, hr, QubitSet.contains_insert, QubitSet.contains_remove]

/-- The flips after a swap. -/
theorem contains_swap (t : QubitSet) (q1 q2 : Qubit) :
    (if t.contains q1 && !t.contains q2 then (t.remove q1).2.insert q2
      else if t.contains q2 && !t.contains q1 then (t.remove q2).2.insert q1
      else t).contains = swapQubits q1 q2 t.contains := by
  funext r
  unfold swapQubits
  by_cases h1 : r = q1
  · subst h1
    rw [Equiv.swap_apply_left]
    by_cases h2 : r = q2
    · subst h2
      cases h : t.contains r <;> simp [h]
    · cases h : t.contains r <;> cases t.contains q2 <;>
        simp [h, h2, QubitSet.contains_insert, QubitSet.contains_remove]
  · by_cases h2 : r = q2
    · subst h2
      rw [Equiv.swap_apply_right]
      cases h : t.contains r <;> cases t.contains q1 <;>
        simp [h, h1, QubitSet.contains_insert, QubitSet.contains_remove]
    · rw [Equiv.swap_apply_of_ne_of_ne h1 h2]
      split
      · simp [h1, h2, QubitSet.contains_insert, QubitSet.contains_remove]
      · split <;> simp [h1, h2, QubitSet.contains_insert, QubitSet.contains_remove]

theorem writes_swap (q1 q2 : Qubit) :
    (Op.swap q1 q2).writes q1 = true ∧ (Op.swap q1 q2).writes q2 = true := by
  simp [Op.writes]

theorem writes_x (q : Qubit) : (Op.x q).writes q = true := by
  simp [Op.writes]

theorem evalSeq_gate (ctl : Control) (g : BaseGate) (c : Conf G) :
    evalSeq φ [makeControlled ctl g] c = if ctl.holds c.1 then g.eval φ c else c := by
  rw [evalSeq, evalSeq, makeControlled_eval]

/-- An operation without control. -/
theorem compileOp_always (hφ : Phases prec φ Ok) (hg : o.Good P Ok) (hp : Legal P Ok (Control.always, op)) :
    ∃ l, Compiles P φ Ok [(Control.always, op)] o (compileOp prec Control.always op o) l := by
  have hno : ∀ q, Control.always.uses q = true → P q := fun q hq => by simp at hq
  cases op with
  | gphase a =>
    refine ⟨[], Emits.refl P _, ⟨hg.toggled, hφ.add hg.gphase (hp.fixed a rfl)⟩, fun c => ?_⟩
    rw [evalSeq]
    refine Prod.ext rfl ?_
    show c.2 + φ o.gphase + φ a = c.2 + φ (o.gphase + a)
    rw [map_add, add_assoc]
  | x q =>
    have ht : (compileOp prec Control.always (.x q) o).toggled.contains =
        flip (fun r => r == q) o.toggled.contains := contains_toggle o.toggled q
    refine ⟨[], Emits.refl P _, ⟨fun r hr => ?_, hg.gphase⟩, fun c => ?_⟩
    · rw [ht] at hr
      by_cases hrq : r = q
      · exact hrq ▸ hp.writes q (writes_x q)
      · have hb : (r == q) = false := beq_eq_false_iff_ne.mpr hrq
        simp only [flip, hb, Bool.xor_false] at hr
        exact hg.toggled r hr
    · rw [evalSeq]
      unfold Out.decode
      rw [ht, ← flip_flip]
      rfl
  | swap q1 q2 =>
    obtain ⟨hw1, hw2⟩ := writes_swap q1 q2
    have h1 : P q1 := hp.writes q1 hw1
    have h2 : P q2 := hp.writes q2 hw2
    have ht : (compileOp prec Control.always (.swap q1 q2) o).toggled.contains =
        swapQubits q1 q2 o.toggled.contains := contains_swap o.toggled q1 q2
    refine ⟨_, pushSwap_emits hno h1 h2, ⟨fun r hr => ?_, hg.gphase⟩, fun c => ?_⟩
    · rw [ht, swapQubits] at hr
      by_cases hr1 : r = q1
      · exact hr1 ▸ h1
      · by_cases hr2 : r = q2
        · exact hr2 ▸ h2
        · rw [Equiv.swap_apply_of_ne_of_ne hr1 hr2] at hr
          exact hg.toggled r hr
    · rw [evalSeq_gate]
      unfold Out.decode
      rw [ht]
      rfl

/-- A flip and a swap of qubits on which the flips agree. -/
theorem swapQubits_same {t : Qubit → Bool} {q1 q2 : Qubit} (h : t q1 = t q2) :
    swapQubits q1 q2 t = t := by
  funext r
  unfold swapQubits
  by_cases h1 : r = q1
  · rw [h1, Equiv.swap_apply_left, h]
  · by_cases h2 : r = q2
    · rw [h2, Equiv.swap_apply_right, h]
    · rw [Equiv.swap_apply_of_ne_of_ne h1 h2]

/-- A swap under a control, with flips that agree on the two qubits. -/
theorem runOp_swap {t : Qubit → Bool} {q1 q2 : Qubit} {ctl' : Control} (a g : G)
    (x : Qubit → Bool) (ht : t q1 = t q2) (hh : ctl'.holds x = ctl.holds (flip t x)) :
    runOp φ (ctl, .swap q1 q2) (flip t x, a + g) =
      (flip t (if ctl'.holds x then (BaseGate.swap q1 q2).eval φ (x, a) else (x, a)).1,
        (if ctl'.holds x then (BaseGate.swap q1 q2).eval φ (x, a) else (x, a)).2 + g) := by
  unfold runOp
  simp only [hh]
  split
  · show (swapQubits q1 q2 (flip t x), a + g) = _
    rw [swapQubits_flip, swapQubits_same ht]
    rfl
  · rfl

/-- An operation under a control: the control is read through the flips. -/
theorem compileOp_controlled (hφ : Phases prec φ Ok) (hg : o.Good P Ok) (hp : Legal P Ok (ctl, op))
    (hc : ctl.isAlways = false) :
    ∃ l, Compiles P φ Ok [(ctl, op)] o (compileOp prec ctl op o) l := by
  have huse : ∀ q, (ctl.toggleIf o.toggled.contains).uses q = true → P q := fun q hq => by
    rw [Control.uses_toggleIf] at hq
    exact hp.reads q hq
  have hholds : ∀ x, (ctl.toggleIf o.toggled.contains).holds x =
      ctl.holds (flip o.toggled.contains x) := fun x => Control.holds_toggleIf _
  cases op with
  | gphase a =>
    obtain ⟨l, hl, he⟩ := pushPhase_emits (s := o.toCode) hφ (hp.fixed a rfl) huse
    have ho : compileOp prec ctl (.gphase a) o =
        { o with toCode := pushPhase o.toCode (ctl.toggleIf o.toggled.contains) a prec } := by
      simp [compileOp, hc]
    rw [ho]
    refine ⟨l, hl, ⟨hg.toggled, hg.gphase⟩, fun c => ?_⟩
    rw [he, hholds, runOps_singleton, runOp]
    show (if ctl.holds (flip o.toggled.contains c.1) = true then _ else _) = _
    split
    · exact Prod.ext rfl (add_right_comm c.2 (φ o.gphase) (φ a))
    · rfl
  | x q =>
    have ho : compileOp prec ctl (.x q) o =
        { o with toCode := pushToggleOne o.toCode (ctl.toggleIf o.toggled.contains) q } := by
      simp [compileOp, hc]
    rw [ho]
    refine ⟨_, pushToggleOne_emits huse (hp.writes q (writes_x q)), ⟨hg.toggled, hg.gphase⟩,
      fun c => ?_⟩
    rw [evalSeq_gate, hholds, runOps_singleton, runOp]
    show (if ctl.holds (flip o.toggled.contains c.1) = true then _ else _) = _
    split
    · exact Prod.ext (flip_comm ..) rfl
    · rfl
  | swap q1 q2 =>
    obtain ⟨hw1, hw2⟩ := writes_swap q1 q2
    have h1 : P q1 := hp.writes q1 hw1
    have h2 : P q2 := hp.writes q2 hw2
    by_cases hne : o.toggled.contains q1 = o.toggled.contains q2
    · have ho : compileOp prec ctl (.swap q1 q2) o =
          { o with toCode := pushSwap o.toCode (ctl.toggleIf o.toggled.contains) q1 q2 } := by
        simp [compileOp, hc, hne]
      rw [ho]
      refine ⟨_, pushSwap_emits huse h1 h2, ⟨hg.toggled, hg.gphase⟩, fun c => ?_⟩
      rw [evalSeq_gate]
      exact runOp_swap c.2 (φ o.gphase) c.1 hne (hholds c.1)
    · -- the one flip of the two is emitted before the swap
      obtain ⟨q, hq, hqt, ho⟩ : ∃ q, (q = q1 ∨ q = q2) ∧
          (o.toggled.contains q = true ∧ (o.toggled.remove q).2.contains q1 = false ∧
            (o.toggled.remove q).2.contains q2 = false) ∧
          compileOp prec ctl (.swap q1 q2) o = { o with
            toCode := pushSwap (pushToggleOne o.toCode Control.always q)
              (ctl.toggleIf o.toggled.contains) q1 q2
            toggled := (o.toggled.remove q).2 } := by
        refine ⟨if o.toggled.contains q1 then q1 else q2, ?_, ?_, ?_⟩
        · split
          · exact .inl rfl
          · exact .inr rfl
        · have hq12 : q1 ≠ q2 := fun h => hne (h ▸ rfl)
          simp only [QubitSet.contains_remove]
          cases hb1 : o.toggled.contains q1 <;> cases hb2 : o.toggled.contains q2 <;>
            simp_all
        · simp [compileOp, hc, hne]
      have hPq : P q := hq.elim (fun h => h ▸ h1) fun h => h ▸ h2
      have huq : ctl.uses q = false := hp.disjoint q (hq.elim (fun h => h ▸ hw1) fun h => h ▸ hw2)
      have hrem : flip (fun r => r == q) (o.toggled.remove q).2.contains = o.toggled.contains := by
        funext r
        by_cases hr : r = q
        · subst hr
          simp [flip, QubitSet.contains_remove, hqt.1]
        · have hb : (r == q) = false := beq_eq_false_iff_ne.mpr hr
          simp [flip, QubitSet.contains_remove, hr, hb]
      rw [ho]
      refine ⟨_, (pushToggleOne_emits (fun r hr => by simp at hr) hPq).trans
        (pushSwap_emits huse h1 h2), ⟨fun r hr => ?_, hg.gphase⟩, fun c => ?_⟩
      · rw [QubitSet.contains_remove, Bool.and_eq_true] at hr
        exact hg.toggled r hr.1
      · rw [evalSeq_append, evalSeq_gate, evalSeq_gate]
        have hdec : flip o.toggled.contains c.1 =
            flip (o.toggled.remove q).2.contains (flip (fun r => r == q) c.1) := by
          rw [flip_comm, flip_flip, hrem]
        unfold Out.decode
        rw [hdec]
        refine runOp_swap c.2 (φ o.gphase) (flip (fun r => r == q) c.1) (hqt.2.1.trans hqt.2.2.symm) ?_
        rw [hholds, ← hdec]
        refine Control.holds_congr fun r hr => ?_
        have hb : (r == q) = false := beq_eq_false_iff_ne.mpr fun h => by
          rw [h, huq] at hr; cases hr
        simp [flip, hb]

/-- An operation that is not the first one of a window. -/
theorem compileOp_correct (hφ : Phases prec φ Ok) (hg : o.Good P Ok) (hp : Legal P Ok (ctl, op)) :
    ∃ l, Compiles P φ Ok [(ctl, op)] o (compileOp prec ctl op o) l := by
  by_cases hc : ctl.isAlways = true
  · rw [Control.isAlways_iff] at hc
    subst hc
    exact compileOp_always hφ hg hp
  · exact compileOp_controlled hφ hg hp (by simpa using hc)

/-! ## Windows -/

/-- No operation of the window that `eval_control` measures writes the qubit. -/
theorem evalLoop_keep (q : Qubit) (ops : OpSeq) (i : Nat) (cur best : Int) (len : Nat) :
    (evalLoop q ops i cur best len).2 = len ∨
      (i ≤ (evalLoop q ops i cur best len).2 ∧
        ∀ p ∈ ops.take ((evalLoop q ops i cur best len).2 - i), p.2.writes q = false) := by
  induction ops generalizing i cur best len with
  | nil => exact .inl rfl
  | cons p ops ih =>
    obtain ⟨ctl, op⟩ := p
    rw [evalLoop]
    split
    · exact .inl rfl
    · rename_i hw
      have hw : op.writes q = false := by simpa using hw
      have hhead : ∀ n, n = i + 1 → i ≤ n ∧
          ∀ p ∈ ((ctl, op) :: ops).take (n - i), p.2.writes q = false := by
        rintro n rfl
        refine ⟨Nat.le_succ i, fun p hp => ?_⟩
        rw [Nat.add_sub_cancel_left, List.take_succ_cons, List.take_zero,
          List.mem_singleton] at hp
        rw [hp]
        exact hw
      have hnext : ∀ n, i + 1 ≤ n → (∀ p ∈ ops.take (n - (i + 1)), p.2.writes q = false) →
          i ≤ n ∧ ∀ p ∈ ((ctl, op) :: ops).take (n - i), p.2.writes q = false := by
        intro n hn hk
        refine ⟨by omega, fun p hp => ?_⟩
        rw [show n - i = (n - (i + 1)) + 1 by omega, List.take_succ_cons, List.mem_cons] at hp
        rcases hp with rfl | hp
        · exact hw
        · exact hk p hp
      simp only
      generalize (if ctl.uses q = true then cur + 2 else cur - 1) = cur'
      by_cases hb : best < cur'
      · simp only [hb, if_true]
        split
        · exact .inr (hhead _ rfl)
        · rcases ih (i + 1) cur' cur' (i + 1) with h | ⟨h1, h2⟩
          · exact .inr (hhead _ h)
          · exact .inr (hnext _ h1 h2)
      · simp only [hb, if_false]
        split
        · exact .inl rfl
        · rcases ih (i + 1) cur' best len with h | ⟨h1, h2⟩
          · exact .inl h
          · exact .inr (hnext _ h1 h2)

theorem evalControl_keep (q : Qubit) (ops : OpSeq) :
    ∀ p ∈ ops.take (evalControl q ops).2, p.2.writes q = false := by
  rcases evalLoop_keep q ops 0 2 0 0 with h | ⟨-, h⟩
  · unfold evalControl
    rw [h]
    intro p hp
    simp at hp
  · exact h

theorem selectControl_keep {it : List Qubit} {l : Nat}
    (h : selectControl it ops = (q, l)) : ∀ p ∈ ops.take l, p.2.writes q = false := by
  unfold selectControl at h
  obtain ⟨best, hbest, hk⟩ : ∃ best : Int × Qubit × Nat, best.2 = (q, l) ∧
      ∀ p ∈ ops.take best.2.2, p.2.writes best.2.1 = false := by
    refine ⟨_, h, List.foldlRecOn (motive := fun best : Int × Qubit × Nat =>
      ∀ p ∈ ops.take best.2.2, p.2.writes best.2.1 = false) it _ ?_ fun best hb r _ => ?_⟩
    · exact fun p hp => absurd hp List.not_mem_nil
    · by_cases hs : best.1 < (evalControl r ops).1
      · simp only [hs, if_true]
        exact evalControl_keep r ops
      · simp only [hs, if_false]
        exact hb
  rwa [hbest] at hk

/-- The branch for the value `v` of the qubit. -/
def branch (v : Bool) (b : OpSeq × OpSeq) : OpSeq := if v then b.2 else b.1

theorem splitOp_run (q : Qubit) (ctl : Control) (op : Op) (c : Conf G) :
    runOps φ (branch (c.1 q) (splitOp q ctl op)) c = runOp φ (ctl, op) c := by
  unfold splitOp
  split
  · cases c.1 q <;> rfl
  all_goals
    rename_i h
    cases hq : c.1 q <;> simp [branch, runOps, runOp, Control.holds_withoutQubit h, hq]

theorem splitFirst_run (q : Qubit) (ctl : Control) (op : Op) (hu : ctl.uses q = true) (c : Conf G) :
    runOps φ (branch (c.1 q) (splitFirst q ctl op hu)) c = runOp φ (ctl, op) c := by
  unfold splitFirst
  split
  · rename_i hw
    rw [Control.withoutQubit_eq_none.mp hw] at hu
    cases hu
  all_goals
    rename_i h
    cases hq : c.1 q <;> simp [branch, runOps, runOp, Control.holds_withoutQubit h, hq]

theorem branch_append (v : Bool) (a b : OpSeq × OpSeq) :
    branch v (a.1 ++ b.1, a.2 ++ b.2) = branch v a ++ branch v b := by
  cases v <;> rfl

theorem splitWindow_run (h : ∀ p ∈ ops, p.2.writes q = false) (c : Conf G) :
    runOps φ (branch (c.1 q) (splitWindow q ops)) c = runOps φ ops c := by
  induction ops generalizing c with
  | nil => cases hq : c.1 q <;> rfl
  | cons p ops ih =>
    obtain ⟨ctl, op⟩ := p
    have hkeep := runOp_keep (φ := φ) (c := c) (h (ctl, op) (List.mem_cons_self ..))
    rw [splitWindow, List.foldr_cons, ← splitWindow, branch_append, runOps_append, splitOp_run,
      ← hkeep, ih fun p hp => h p (List.mem_cons_of_mem _ hp)]
    rfl

theorem Legal.withoutQubit {v : Bool} {ctl' : Control} (hp : Legal P Ok (ctl, op))
    (h : ctl.withoutQubit q = some (v, ctl')) : Legal P Ok (ctl', op) where
  disjoint r hr := by
    cases hu : ctl'.uses r with
    | false => rfl
    | true =>
      have := hp.disjoint r hr
      rw [(Control.uses_withoutQubit h hu).1] at this
      cases this
  fixed := hp.fixed
  reads r hr := hp.reads r (Control.uses_withoutQubit h hr).1
  writes := hp.writes

theorem splitOp_legal (hp : Legal P Ok (ctl, op)) (v : Bool) :
    ∀ p ∈ branch v (splitOp q ctl op), Legal P Ok p := by
  unfold splitOp
  split
  · intro p hm
    cases v <;> exact List.mem_singleton.mp hm ▸ hp
  all_goals
    rename_i h
    intro p hm
    cases v
    all_goals first
      | exact List.mem_singleton.mp hm ▸ hp.withoutQubit h
      | cases hm

theorem splitFirst_legal (hp : Legal P Ok (ctl, op)) (hu : ctl.uses q = true) (v : Bool) :
    ∀ p ∈ branch v (splitFirst q ctl op hu), Legal P Ok p := by
  unfold splitFirst
  split
  · rename_i hw
    rw [Control.withoutQubit_eq_none.mp hw] at hu
    cases hu
  all_goals
    rename_i h
    intro p hm
    cases v
    all_goals first
      | exact List.mem_singleton.mp hm ▸ hp.withoutQubit h
      | cases hm

theorem splitWindow_legal (h : ∀ p ∈ ops, Legal P Ok p) (v : Bool) :
    ∀ p ∈ branch v (splitWindow q ops), Legal P Ok p := by
  induction ops with
  | nil => cases v <;> exact fun p hp => absurd hp List.not_mem_nil
  | cons p ops ih =>
    obtain ⟨ctl, op⟩ := p
    rw [splitWindow, List.foldr_cons, ← splitWindow, branch_append]
    intro p hp
    rcases List.mem_append.mp hp with hp | hp
    · exact splitOp_legal (h _ (List.mem_cons_self ..)) v p hp
    · exact ih (fun p hp => h p (List.mem_cons_of_mem _ hp)) p hp

/-- What a partition does: each branch is legal and runs as the window on its half. -/
theorem tryPartition_correct {if0 if1 rest : OpSeq}
    (h : tryPartition ctl op ops = some (q, if0, if1, rest))
    (hp : ∀ p ∈ (ctl, op) :: ops, Legal P Ok p) :
    P q ∧ (∀ v, ∀ p ∈ branch v (if0, if1), Legal P Ok p) ∧ (∀ p ∈ rest, Legal P Ok p) ∧
      ∀ c : Conf G, runOps φ ((ctl, op) :: ops) c = runOps φ rest (runOps φ (branch (c.1 q) (if0, if1)) c) := by
  obtain ⟨l, hu, hs, -, rfl, rfl, rfl⟩ := tryPartition_eq h
  have hp0 := hp (ctl, op) (List.mem_cons_self ..)
  have hops : ∀ p ∈ ops, Legal P Ok p := fun p hm => hp p (List.mem_cons_of_mem _ hm)
  have hq0 : op.writes q = false := by
    cases hw : op.writes q with
    | false => rfl
    | true =>
      have := hp0.disjoint q hw
      rw [hu] at this
      cases this
  refine ⟨hp0.reads q hu, fun v p hm => ?_, fun p hm => hops p (List.mem_of_mem_drop hm), fun c => ?_⟩
  · rw [branch_append] at hm
    rcases List.mem_append.mp hm with hm | hm
    · exact splitFirst_legal hp0 hu v p hm
    · exact splitWindow_legal (fun p hm => hops p (List.mem_of_mem_take hm)) v p hm
  · have hkeep := runOp_keep (φ := φ) (c := c) (p := (ctl, op)) hq0
    rw [branch_append, runOps_append, splitFirst_run, ← hkeep,
      splitWindow_run (selectControl_keep hs), ← runOps_append, List.take_append_drop]
    rfl

/-! ## Merging the branches -/

theorem contains_removeAll (s t : QubitSet) (q : Qubit) :
    (removeAll s t).contains q = (s.contains q && !t.contains q) := by
  have hfold : ∀ (qs : List Qubit) (s : QubitSet),
      (qs.foldl (fun s q => (s.remove q).2) s).contains q = (s.contains q && !decide (q ∈ qs)) := by
    intro qs
    induction qs with
    | nil => intro s; simp
    | cons r qs ih =>
      intro s
      rw [List.foldl_cons, ih, QubitSet.contains_remove]
      simp [Bool.and_assoc]
  rw [removeAll, hfold]
  simp [QubitSet.mem_iter]

/-- The flips of a branch are those of both branches and the rest. -/
theorem flip_removeAll {t u : QubitSet} (h : ∀ q, u.contains q = true → t.contains q = true)
    (x : Qubit → Bool) :
    flip u.contains (flip (removeAll t u).contains x) = flip t.contains x := by
  funext q
  have := h q
  simp only [flip, contains_removeAll]
  cases hu : u.contains q <;> cases ht : t.contains q <;> cases x q <;> simp_all

/-- One branch, with the flips that the other branch does not have emitted. -/
theorem branch_correct {ops : OpSeq} {T u : QubitSet} {st : Stat} {o' : Out} {l t : List Compiled}
    (h : Compiles P φ Ok ops ⟨⟨[], st⟩, T, Angle.ZERO⟩ o' l)
    (hu : ∀ q, u.contains q = true → o'.toggled.contains q = true)
    (ht : ∀ c : Conf G, evalSeq φ t c = (flip (removeAll o'.toggled u).contains c.1, c.2)) (g : G)
    (c : Conf G) :
    runOps φ ops (flip T.contains c.1, c.2 + g) =
      (flip u.contains (evalSeq φ (l ++ t) c).1,
        (evalSeq φ (l ++ t) c).2 + (g + φ o'.gphase)) := by
  have hs := h.sound (c.shift g)
  have hstart : Out.decode φ ⟨⟨[], st⟩, T, Angle.ZERO⟩ (c.shift g) =
      (flip T.contains c.1, c.2 + g) := by
    refine Prod.ext rfl ?_
    show c.2 + g + φ 0 = c.2 + g
    rw [map_zero, add_zero]
  rw [hstart, evalSeq_shift] at hs
  rw [hs, evalSeq_append, ht, flip_removeAll hu]
  exact Prod.ext rfl (add_assoc ..)

/-- The code of two branches, as a partition. -/
theorem evalSeq_pseq (q : Qubit) (l0 l1 : List Compiled) (c : Conf G) :
    evalSeq φ [.pseq q l0 l1] c = evalSeq φ (if c.1 q then l1 else l0) c := by
  rw [evalSeq, evalSeq, eval]
  split <;> rfl

/-- The code `l` for a window: the branch that the qubit selects and the phase that is not in the
global phase `g'`. -/
theorem merge_sound {ops0 ops1 : OpSeq} {T u : QubitSet} {l0 l1 : List Compiled}
    {g g' p0 p1 d0 d1 : G}
    (h0 : ∀ c : Conf G, runOps φ ops0 (flip T.contains c.1, c.2 + g) =
      (flip u.contains (evalSeq φ l0 c).1, (evalSeq φ l0 c).2 + (g + p0)))
    (h1 : ∀ c : Conf G, runOps φ ops1 (flip T.contains c.1, c.2 + g) =
      (flip u.contains (evalSeq φ l1 c).1, (evalSeq φ l1 c).2 + (g + p1)))
    (hd0 : d0 + g' = g + p0) (hd1 : d1 + g' = g + p1) (c : Conf G)
    (hl : evalSeq φ l c = if c.1 q then (evalSeq φ l1 c).shift d1 else (evalSeq φ l0 c).shift d0) :
    runOps φ (branch (c.1 q) (ops0, ops1)) (flip T.contains c.1, c.2 + g) =
      (flip u.contains (evalSeq φ l c).1, (evalSeq φ l c).2 + g') := by
  rw [hl]
  unfold branch
  split
  · rw [h1, ← hd1, ← add_assoc]
    rfl
  · rw [h0, ← hd0, ← add_assoc]
    rfl

/-- `mergeBranches`: the two compiled branches, chosen by the value of the qubit. -/
theorem mergeBranches_correct (hφ : Phases prec φ Ok) {ops0 ops1 : OpSeq} {o o0 o1 : Out}
    {l0 l1 : List Compiled} (hg : o.Good P Ok) (hq : P q)
    (h0 : Compiles P φ Ok ops0 ⟨⟨[], o.st⟩, o.toggled, Angle.ZERO⟩ o0 l0)
    (h1 : Compiles P φ Ok ops1 ⟨⟨[], o0.st⟩, o.toggled, Angle.ZERO⟩ o1 l1) :
    ∃ l, Emits P o.toCode (mergeBranches N prec q o o0 o1).toCode l ∧
      (mergeBranches N prec q o o0 o1).Good P Ok ∧
      ∀ c : Conf G, runOps φ (branch (c.1 q) (ops0, ops1)) (o.decode φ c) =
        (mergeBranches N prec q o o0 o1).decode φ (evalSeq φ l c) := by
  have hr0 : o0.r = l0 := h0.emits.r
  have hr1 : o1.r = l1 := h1.emits.r
  set u := o0.toggled.intersection o1.toggled with hu
  have hu0 : ∀ q, u.contains q = true → o0.toggled.contains q = true := fun q h => by
    rw [hu, QubitSet.contains_intersection, Bool.and_eq_true] at h
    exact h.1
  have hu1 : ∀ q, u.contains q = true → o1.toggled.contains q = true := fun q h => by
    rw [hu, QubitSet.contains_intersection, Bool.and_eq_true] at h
    exact h.2
  have hP : ∀ {t : QubitSet}, (∀ q, t.contains q = true → P q) →
      ∀ q, (removeAll t u).contains q = true → P q := fun ht q h => by
    rw [contains_removeAll, Bool.and_eq_true] at h
    exact ht q h.1
  obtain ⟨t0, he0, ht0⟩ := pushToggleMany_emits (φ := φ) (N := N) (hP h0.good.toggled)
    ⟨o0.r, o1.st⟩
  obtain ⟨t1, he1, ht1⟩ := pushToggleMany_emits (φ := φ) (N := N) (hP h1.good.toggled)
    ⟨o1.r, (pushToggleMany N ⟨o0.r, o1.st⟩ Control.always (removeAll o0.toggled u)).st⟩
  have hb0 := branch_correct h0 hu0 ht0 (φ o.gphase)
  have hb1 := branch_correct h1 hu1 ht1 (φ o.gphase)
  -- the statistics of all that is compiled for the two branches
  have hcov := ((h0.emits.toCovers.trans h1.emits.toCovers).trans he0.toCovers).trans he1.toCovers
  unfold mergeBranches
  simp only [← hu]
  set c0 := pushToggleMany N ⟨o0.r, o1.st⟩ Control.always (removeAll o0.toggled u)
  set c1 := pushToggleMany N ⟨o1.r, c0.st⟩ Control.always (removeAll o1.toggled u)
  have hc0 : c0.r = l0 ++ t0 := by rw [he0.r, hr0]
  have hc1 : c1.r = l1 ++ t1 := by rw [he1.r, hr1]
  have hgood : ∀ q, u.contains q = true → P q := fun q h => h0.good.toggled q (hu0 q h)
  have hempty : (c0.r.isEmpty && c1.r.isEmpty) = true →
      l0 ++ t0 = [] ∧ l1 ++ t1 = [] ∧ Emits P o.toCode ⟨o.r, c1.st⟩ [] := fun h => by
    rw [Bool.and_eq_true, hc0, hc1, List.isEmpty_iff, List.isEmpty_iff] at h
    have hnil : l0 ++ l1 ++ t0 ++ t1 = [] := by simp_all
    rw [hnil] at hcov
    exact ⟨h.1, h.2, hcov, (List.append_nil _).symm⟩
  have hno : ∀ r, Control.always.uses r = true → P r := fun r hr => by simp at hr
  have hsingle : ∀ v r, (Control.single q v).uses r = true → P r := fun v r hr => by
    rw [Control.uses_single, beq_iff_eq] at hr
    exact hr ▸ hq
  have hdiff : Ok (o1.gphase - o0.gphase) := hφ.sub h1.good.gphase h0.good.gphase
  by_cases hA : (o1.gphase - o0.gphase).round prec = Angle.ZERO
  · -- the phases of the branches are equal
    have hpe : φ o0.gphase = φ o1.gphase := by
      have hz := hφ.of_round_zero hdiff hA
      rw [map_sub, sub_eq_zero] at hz
      exact hz.symm
    obtain ⟨hmok, hmid⟩ := hφ.mid h0.good.gphase h1.good.gphase hpe
    have hfix := hφ.add hg.gphase hmok
    have hz : 0 + φ (o.gphase + Angle.mid o0.gphase o1.gphase) = φ o.gphase + φ o0.gphase := by
      rw [zero_add, map_add, hmid]
    have hz1 : 0 + φ (o.gphase + Angle.mid o0.gphase o1.gphase) = φ o.gphase + φ o1.gphase :=
      hpe ▸ hz
    simp only [hA, if_true]
    split
    · rename_i he
      obtain ⟨hn0, hn1, hem⟩ := hempty he
      refine ⟨[], hem, ⟨hgood, hfix⟩, fun c => merge_sound hb0 hb1 hz hz1 c ?_⟩
      rw [hn0, hn1, Conf.shift_zero, ite_self]
    · refine ⟨_, ⟨hcov.pseq (fun r => ?_) (fun r => ?_) hq, rfl⟩, ⟨hgood, hfix⟩, fun c => ?_⟩
      · simp only [hc0, hc1, writesSeq_append]; ac_rfl
      · simp only [hc0, hc1, readsSeq_append]; ac_rfl
      · refine merge_sound hb0 hb1 hz hz1 c ?_
        rw [evalSeq_pseq, hc0, hc1, Conf.shift_zero, Conf.shift_zero]
        split <;> rfl
  · by_cases hB : (o.gphase + o1.gphase).round prec = Angle.ZERO
    · -- the second branch cancels the phase that is there
      have hcancel : φ o.gphase + φ o1.gphase = 0 := by
        rw [← map_add]
        exact hφ.of_round_zero (hφ.add hg.gphase h1.good.gphase) hB
      have hzero : φ Angle.ZERO = 0 := map_zero φ
      have hd1 : 0 + φ Angle.ZERO = φ o.gphase + φ o1.gphase := by
        rw [hzero, zero_add, hcancel]
      have hd0 : φ (-(o1.gphase - o0.gphase)) + φ Angle.ZERO = φ o.gphase + φ o0.gphase := by
        rw [hzero, map_neg, map_sub, eq_neg_of_add_eq_zero_left hcancel]
        abel
      simp only [hA, hB, if_true, if_false]
      split
      · rename_i he
        obtain ⟨hn0, hn1, hem⟩ := hempty he
        obtain ⟨lp, hlp, hep⟩ := pushPhase_emits (s := ⟨o.r, c1.st⟩) hφ (hφ.neg hdiff) (hsingle false)
        refine ⟨_, hem.trans hlp, ⟨hgood, hφ.zero⟩, fun c => merge_sound hb0 hb1 hd0 hd1 c ?_⟩
        rw [hn0, hn1, List.nil_append, hep, Control.holds_single, evalSeq, Conf.shift_zero]
        cases c.1 q <;> rfl
      · obtain ⟨lp, hlp, hep⟩ := pushPhase_emits (s := ⟨c0.r, c1.st⟩) hφ (hφ.neg hdiff) hno
        refine ⟨_, ⟨(hcov.trans hlp.toCovers).pseq (fun r => ?_) (fun r => ?_) hq, rfl⟩,
          ⟨hgood, hφ.zero⟩, fun c => ?_⟩
        · rw [hlp.r]; simp only [hc0, hc1, writesSeq_append]; ac_rfl
        · rw [hlp.r]; simp only [hc0, hc1, readsSeq_append]; ac_rfl
        · refine merge_sound hb0 hb1 hd0 hd1 c ?_
          rw [evalSeq_pseq, hlp.r, hc0, hc1, Conf.shift_zero]
          split
          · rfl
          · rw [evalSeq_append, hep, Control.holds_always, if_pos rfl]
    · have hd0 : 0 + φ (o.gphase + o0.gphase) = φ o.gphase + φ o0.gphase := by
        rw [zero_add, map_add]
      have hd1 : φ (o1.gphase - o0.gphase) + φ (o.gphase + o0.gphase) = φ o.gphase + φ o1.gphase := by
        rw [map_sub, map_add]
        abel
      have hfix := hφ.add hg.gphase h0.good.gphase
      simp only [hA, hB, if_false]
      split
      · rename_i he
        obtain ⟨hn0, hn1, hem⟩ := hempty he
        obtain ⟨lp, hlp, hep⟩ := pushPhase_emits (s := ⟨o.r, c1.st⟩) hφ hdiff (hsingle true)
        refine ⟨_, hem.trans hlp, ⟨hgood, hfix⟩, fun c => merge_sound hb0 hb1 hd0 hd1 c ?_⟩
        rw [hn0, hn1, List.nil_append, hep, Control.holds_single, evalSeq, Conf.shift_zero]
        cases c.1 q <;> rfl
      · obtain ⟨lp, hlp, hep⟩ := pushPhase_emits (s := c1) hφ hdiff hno
        refine ⟨_, ⟨(hcov.trans hlp.toCovers).pseq (fun r => ?_) (fun r => ?_) hq, rfl⟩,
          ⟨hgood, hfix⟩, fun c => ?_⟩
        · rw [hlp.r]; simp only [hc0, hc1, writesSeq_append]; ac_rfl
        · rw [hlp.r]; simp only [hc0, hc1, readsSeq_append]; ac_rfl
        · refine merge_sound hb0 hb1 hd0 hd1 c ?_
          rw [evalSeq_pseq, hlp.r, hc0, hc1, Conf.shift_zero]
          split
          · rw [evalSeq_append, hep, Control.holds_always, if_pos rfl]
          · rfl

/-! ## The whole list -/

theorem Compiles.trans {ops ops' : OpSeq} {o o' o'' : Out} {l l' : List Compiled}
    (h : Compiles P φ Ok ops o o' l) (h' : Compiles P φ Ok ops' o' o'' l') :
    Compiles P φ Ok (ops ++ ops') o o'' (l ++ l') where
  emits := h.emits.trans h'.emits
  good := h'.good
  sound c := by rw [runOps_append, h.sound, h'.sound, evalSeq_append]

theorem compileLoop_none (h : tryPartition ctl op ops = none) :
    compileLoop N prec ((ctl, op) :: ops) o = compileLoop N prec ops (compileOp prec ctl op o) := by
  rw [compileLoop, h]

theorem compileLoop_some {if0 if1 rest : OpSeq} {t : Bool} {o0 o1 : Out}
    (h : tryPartition ctl op ops = some (q, if0, if1, rest)) (ht : o.toggled.contains q = t)
    (h0 : compileLoop N prec (branch t (if0, if1)) ⟨⟨[], o.st⟩, o.toggled, Angle.ZERO⟩ = o0)
    (h1 : compileLoop N prec (branch (!t) (if0, if1)) ⟨⟨[], o0.st⟩, o.toggled, Angle.ZERO⟩ = o1) :
    compileLoop N prec ((ctl, op) :: ops) o =
      compileLoop N prec rest (mergeBranches N prec q o o0 o1) := by
  rw [compileLoop, h]
  subst h0 h1
  cases t <;> simp [branch, ht]

/-- The loop of `compile_seq` compiles its operations. -/
theorem compileLoop_correct (hφ : Phases prec φ Ok) (N : Nat) (ops : OpSeq) (o : Out) (hg : o.Good P Ok)
    (hp : ∀ p ∈ ops, Legal P Ok p) :
    ∃ l, Compiles P φ Ok ops o (compileLoop N prec ops o) l := by
  -- the recursion lowers the number of operations and control items
  induction hn : weight ops using Nat.strong_induction_on generalizing ops o with
  | _ n ih =>
    match ops with
    | [] =>
      rw [compileLoop]
      exact ⟨[], Emits.refl P _, hg, fun c => by rw [evalSeq]; rfl⟩
    | (ctl, op) :: ops =>
      cases h : tryPartition ctl op ops with
      | none =>
        obtain ⟨l, hl⟩ := compileOp_correct hφ hg (hp _ (List.mem_cons_self ..))
        have hlt : weight ops < n := by rw [← hn, weight_cons]; omega
        obtain ⟨l', hl'⟩ := ih _ hlt ops _ hl.good (fun p hm => hp p (List.mem_cons_of_mem _ hm)) rfl
        rw [compileLoop_none h]
        exact ⟨_, hl.trans hl'⟩
      | some r =>
        obtain ⟨q, if0, if1, rest⟩ := r
        obtain ⟨hq, hbr, hrest, hrun⟩ := tryPartition_correct (φ := φ) h hp
        obtain ⟨hw0, hw1, hwr⟩ := tryPartition_weight h
        rw [hn] at hw0 hw1 hwr
        have hbw : ∀ v, weight (branch v (if0, if1)) < n := fun v => by
          cases v
          · exact hw0
          · exact hw1
        have hstart : ∀ st, Out.Good P Ok ⟨⟨[], st⟩, o.toggled, Angle.ZERO⟩ :=
          fun st => ⟨hg.toggled, hφ.zero⟩
        obtain ⟨l0, h0⟩ := ih _ (hbw (o.toggled.contains q)) _ _ (hstart o.st) (hbr _) rfl
        obtain ⟨l1, h1⟩ := ih _ (hbw (!o.toggled.contains q)) _ _ (hstart _) (hbr _) rfl
        obtain ⟨l, hl, hgm, hm⟩ := mergeBranches_correct (N := N) hφ hg hq h0 h1
        obtain ⟨l', h'⟩ := ih _ hwr rest _ hgm hrest rfl
        rw [compileLoop_some h rfl rfl rfl]
        refine ⟨l ++ l', hl.trans h'.emits, h'.good, fun c => ?_⟩
        have hsel : branch ((o.decode φ c).1 q) (if0, if1) = branch (c.1 q)
            (branch (o.toggled.contains q) (if0, if1), branch (!o.toggled.contains q) (if0, if1)) := by
          show branch (c.1 q ^^ o.toggled.contains q) _ = _
          cases c.1 q <;> cases o.toggled.contains q <;> rfl
        rw [hrun, hsel, hm, h'.sound, evalSeq_append]

theorem compileSeq_correct (hφ : Phases prec φ Ok) (N : Nat) (st : Stat) {ops : OpSeq} {toggled : QubitSet}
    (ht : ∀ q, toggled.contains q = true → P q) (hp : ∀ p ∈ ops, Legal P Ok p) :
    Compiles P φ Ok ops ⟨⟨[], st⟩, toggled, Angle.ZERO⟩ (compileSeq N st ops toggled prec)
      (compileSeq N st ops toggled prec).r := by
  obtain ⟨l, h⟩ := compileLoop_correct hφ N ops ⟨⟨[], st⟩, toggled, Angle.ZERO⟩
    ⟨ht, hφ.zero⟩ hp
  have hr : (compileSeq N st ops toggled prec).r = l := h.emits.r
  rw [hr]
  exact h

/-- The compiled queue means what the queue means, up to a global phase, and the statistics cover
the program. -/
theorem Queue.compile_correct (hφ : Phases prec φ Ok) (s : Queue) (N : Nat) (st : Stat)
    (hp : ∀ p ∈ s.ops, Legal P Ok p) :
    ∃ l g, (s.compile N st prec).1 = (if l.isEmpty then none else some (fromSeq l)) ∧
      Covers P st (s.compile N st prec).2 l ∧ ∀ c : Conf G, runOps φ s.ops c = (evalSeq φ l c).shift g := by
  have h := compileSeq_correct hφ N st (fun q hq => by rw [QubitSet.contains_new] at hq; cases hq) hp
  obtain ⟨t, ht, he⟩ := pushToggleMany_emits (φ := φ) (N := N) h.good.toggled
    (compileSeq N st s.ops QubitSet.new prec).toCode
  refine ⟨_, φ (compileSeq N st s.ops QubitSet.new prec).gphase, ?_, h.emits.toCovers.trans ht.toCovers,
    fun c => ?_⟩
  · unfold Queue.compile
    simp only [ht.r]
  · have hs := h.sound c
    have hdec : Out.decode φ ⟨⟨[], st⟩, QubitSet.new, Angle.ZERO⟩ c = c := by
      unfold Out.decode
      rw [funext fun q => @QubitSet.contains_new q, flip_false]
      refine Prod.ext rfl ?_
      show c.2 + φ 0 = c.2
      rw [map_zero, add_zero]
    rw [hdec] at hs
    rw [hs, evalSeq_append, he]
    rfl

/-! ## Merged phases -/

/-- The merges of the loop of `compile_seq`: on the way through the operations from the first state,
the branches `o0` and `o1` of a window on a qubit are compiled and merged in the second state. -/
inductive Merges (N prec : Nat) : OpSeq → Out → Qubit → Out → Out → Out → Prop
  | window {ctl op ops q if0 if1 rest o o0 o1}
    (h : tryPartition ctl op ops = some (q, if0, if1, rest))
    (h0 : compileSeq N o.st (branch (o.toggled.contains q) (if0, if1)) o.toggled prec = o0)
    (h1 : compileSeq N o0.st (branch (!o.toggled.contains q) (if0, if1)) o.toggled prec = o1) :
    Merges N prec ((ctl, op) :: ops) o q o o0 o1
  | inner {ctl op ops q if0 if1 rest o q' t o0 o1} {st : Stat} {v : Bool}
    (h : tryPartition ctl op ops = some (q, if0, if1, rest))
    (hst : st = if v = o.toggled.contains q then o.st else
      (compileSeq N o.st (branch (o.toggled.contains q) (if0, if1)) o.toggled prec).st)
    (hm : Merges N prec (branch v (if0, if1)) ⟨⟨[], st⟩, o.toggled, Angle.ZERO⟩ q' t o0 o1) :
    Merges N prec ((ctl, op) :: ops) o q' t o0 o1
  | rest {ctl op ops q if0 if1 rest o c0 c1 q' t o0 o1}
    (h : tryPartition ctl op ops = some (q, if0, if1, rest))
    (h0 : compileSeq N o.st (branch (o.toggled.contains q) (if0, if1)) o.toggled prec = c0)
    (h1 : compileSeq N c0.st (branch (!o.toggled.contains q) (if0, if1)) o.toggled prec = c1)
    (hm : Merges N prec rest (mergeBranches N prec q o c0 c1) q' t o0 o1) :
    Merges N prec ((ctl, op) :: ops) o q' t o0 o1
  | step {ctl op ops o q' t o0 o1} (h : tryPartition ctl op ops = none)
    (hm : Merges N prec ops (compileOp prec ctl op o) q' t o0 o1) :
    Merges N prec ((ctl, op) :: ops) o q' t o0 o1

/-- The phases of the branches of every merge are sums of phases of the operations. -/
theorem Merges.fixed {t o0 o1 : Out} (h : Merges N prec ops o q t o0 o1)
    (hg : o.Good P (Angle.Fixed prec)) (hp : ∀ p ∈ ops, Legal P (Angle.Fixed prec) p) :
    Angle.Fixed prec o0.gphase ∧ Angle.Fixed prec o1.gphase := by
  have hφ := Phases.fixed prec
  induction h with
  | window h h0 h1 =>
    obtain ⟨-, hbr, -, -⟩ := tryPartition_correct (φ := AddMonoidHom.id Angle) h hp
    subst h0 h1
    exact ⟨(compileSeq_correct hφ N _ hg.toggled (hbr _)).good.gphase,
      (compileSeq_correct hφ N _ hg.toggled (hbr _)).good.gphase⟩
  | inner h _ _ ih =>
    obtain ⟨-, hbr, -, -⟩ := tryPartition_correct (φ := AddMonoidHom.id Angle) h hp
    exact ih ⟨hg.toggled, hφ.zero⟩ (hbr _)
  | rest h h0 h1 _ ih =>
    obtain ⟨hq, hbr, hrest, -⟩ := tryPartition_correct (φ := AddMonoidHom.id Angle) h hp
    subst h0 h1
    obtain ⟨_, -, hgm, -⟩ := mergeBranches_correct (N := N) hφ hg hq
      (compileSeq_correct hφ N _ hg.toggled (hbr _)) (compileSeq_correct hφ N _ hg.toggled (hbr _))
    exact ih hgm hrest
  | step _ _ ih =>
    obtain ⟨_, hl⟩ := compileOp_correct hφ hg (hp _ (List.mem_cons_self ..))
    exact ih hl.good fun p hm => hp p (List.mem_cons_of_mem _ hm)

/-- Where the phases of the branches differ by what rounds to zero, both get the phase `mid`. -/
theorem mergeBranches_gphase {o0 o1 : Out}
    (h : (o1.gphase - o0.gphase).round prec = Angle.ZERO) :
    (mergeBranches N prec q o o0 o1).gphase = o.gphase + Angle.mid o0.gphase o1.gphase := by
  unfold mergeBranches
  simp only [h, if_true]
  split <;> rfl

/-- A merge of two branches moves the phase of either by at most half of their difference exactly
where the two phases are next to each other or opposite. In particular it moves no phase where the
operations have only angles that rounding does not change. -/
theorem phase_merge_iff (a b : Angle) :
    (Angle.dist a b < 2 ^ 63 →
      (Angle.Between a b (Angle.mid a b) ↔ Angle.Adjacent a b)) ∧
    ∀ {N prec : Nat} {ops : OpSeq} {st : Stat} {toggled : QubitSet} {q : Qubit} {t o0 o1 : Out},
      Merges N prec ops ⟨⟨[], st⟩, toggled, Angle.ZERO⟩ q t o0 o1 →
      ((o1.gphase - o0.gphase).round prec = Angle.ZERO →
        (Angle.Between (t.gphase + o0.gphase) (t.gphase + o1.gphase)
            (mergeBranches N prec q t o0 o1).gphase ↔
          Angle.Adjacent o0.gphase o1.gphase ∨ o0.gphase - o1.gphase = Angle.PI)) ∧
      ((∀ p ∈ ops, Legal (fun _ => True) (Angle.Fixed prec) p) →
        (o1.gphase - o0.gphase).round prec = Angle.ZERO →
          (mergeBranches N prec q t o0 o1).gphase = t.gphase + o0.gphase ∧
          (mergeBranches N prec q t o0 o1).gphase = t.gphase + o1.gphase) := by
  refine ⟨fun h => Angle.mid_between_iff_of_lt h, ?_⟩
  intro N prec ops st toggled q t o0 o1 hm
  refine ⟨fun hr => ?_, fun hp hr => ?_⟩
  · rw [mergeBranches_gphase hr, Angle.between_add_left, Angle.mid_between_iff]
  · obtain ⟨h0, h1⟩ := hm.fixed ⟨fun _ _ => True.intro, Angle.fixed_zero prec⟩ hp
    have he : o1.gphase = o0.gphase := (Angle.Fixed.sub_round_eq_zero h1 h0).mp hr
    rw [mergeBranches_gphase hr, he, Angle.mid_self]
    exact ⟨rfl, rfl⟩

/-- Neighbours of which the first is odd: their middle is the first of them. -/
theorem phase_merge_neighbours : Angle.dist 1#64 2#64 < 2 ^ 63 ∧ Angle.Adjacent 1#64 2#64 ∧
    Angle.Between 1#64 2#64 (Angle.mid 1#64 2#64) :=
  ⟨by decide, by decide, ((phase_merge_iff 1#64 2#64).1 (by decide)).mpr (by decide)⟩

/-- Phases without a control are added up. -/
theorem compileLoop_gphases (a : Angle) (n : Nat) :
    compileLoop N prec (List.replicate n (Control.always, .gphase a)) o =
      { o with gphase := o.gphase + n • a } := by
  induction n generalizing o with
  | zero => simp [compileLoop]
  | succ n ih =>
    have h : tryPartition Control.always (.gphase a)
        (List.replicate n (Control.always, .gphase a)) = none := by
      unfold tryPartition
      split <;> rfl
    have hop : compileOp prec Control.always (.gphase a) o =
        { o with gphase := o.gphase + a } := rfl
    rw [List.replicate_succ, compileLoop_none h, hop, ih, succ_nsmul', add_assoc]

/-- Six times the smallest phase, controlled by the qubits 0 and 1. -/
def sixPhases : OpSeq :=
  List.replicate 6 (Control.two ⟨0, true⟩ ⟨1, true⟩ (by decide), .gphase 1#64)

/-- The middle of 0 and 2 is not between them, and the compiler makes such a merge. -/
theorem phase_merge_overshoots :
    (Angle.dist 0#64 2#64 < 2 ^ 63 ∧ ¬ Angle.Between 0#64 2#64 (Angle.mid 0#64 2#64)) ∧
    ∃ q t o0 o1, Merges 1 32 sixPhases ⟨⟨[], Stat.default⟩, QubitSet.new, Angle.ZERO⟩ q t o0 o1 ∧
      (o1.gphase - o0.gphase).round 32 = Angle.ZERO ∧
      ¬ Angle.Between (t.gphase + o0.gphase) (t.gphase + o1.gphase)
        (mergeBranches 1 32 q t o0 o1).gphase := by
  refine ⟨⟨by decide, by decide⟩, ?_⟩
  -- the window on qubit 0 has a window on qubit 1 in its second branch
  have hp0 : tryPartition (Control.two ⟨0, true⟩ ⟨1, true⟩ (by decide)) (.gphase 1#64)
      (List.replicate 5 (Control.two ⟨0, true⟩ ⟨1, true⟩ (by decide), .gphase 1#64)) =
      some (0, [], List.replicate 6 (Control.single 1 true, .gphase 1#64), []) := rfl
  have hp1 : tryPartition (Control.single 1 true) (.gphase 1#64)
      (List.replicate 5 (Control.single 1 true, .gphase 1#64)) =
      some (1, [], List.replicate 6 (Control.always, .gphase 1#64), []) := rfl
  have hg0 (st : Stat) : (compileSeq 1 st [] QubitSet.new 32).gphase = 0#64 := by
    rw [compileSeq, compileLoop]
    rfl
  have hg1 (st : Stat) : (compileSeq 1 st (List.replicate 6 (Control.always, .gphase 1#64))
      QubitSet.new 32).gphase = 6#64 := by
    rw [compileSeq, compileLoop_gphases]
    rfl
  obtain ⟨st, hst⟩ : ∃ st, st = (compileSeq 1 Stat.default [] QubitSet.new 32).st := ⟨_, rfl⟩
  obtain ⟨o0, h0⟩ : ∃ o0, compileSeq 1 st [] QubitSet.new 32 = o0 := ⟨_, rfl⟩
  obtain ⟨o1, h1⟩ : ∃ o1, compileSeq 1 o0.st (List.replicate 6 (Control.always, .gphase 1#64))
    QubitSet.new 32 = o1 := ⟨_, rfl⟩
  have hr : Angle.round (o1.gphase - o0.gphase) 32 = Angle.ZERO := by
    rw [← h0, hg0, ← h1, hg1]
    decide
  refine ⟨_, _, o0, o1, .inner (v := true) hp0 (hst.trans (if_neg (by decide)).symm)
    (.window hp1 h0 h1), hr, ?_⟩
  rw [mergeBranches_gphase hr, Angle.between_add_left, ← h0, hg0, ← h1, hg1]
  decide

end Qblaze
