import Qblaze.BitSet
import Qblaze.QubitSet
import Qblaze.Complex
import Qblaze.Sort

/-!
# Superposition-free programs (`src/sfree/mod.rs`, `src/sfree/gates.rs`, `src/sfree/compiler.rs`)

A compiled program works on a slice of elements: a gate goes through the slice, a sequence runs its
programs one after the other, and a partitioned sequence first moves the elements with bit `ctl = 0`
to the front and runs a sequence of its own on each part.

`Compiled.apply` is what a program does to one element.

* `Compiled.perform_perm`: up to the order, a program applies `apply` to every element of the slice.
* `Compiled.perform_eq_map`: a program without partitions keeps the order as well.
* `Compiled.apply_get`: a program changes only the qubits it writes.
-/

namespace Qblaze

/-- One stored amplitude. -/
@[ext] structure Element (N : Nat) (F : Type) where
  bits : BitSet N
  val : Cplx F

/-- The gates of `gates.rs` without control. -/
inductive BaseGate where
  | x (q : Qubit)
  | swap (q1 q2 : Qubit)
  | p (a : Angle)
  | pz
  | ps
  | psdg
  | pt
  | pt3
  | pt5
  | ptdg
  | multiX (set : QubitSet)

/-- A gate: plain, `SinglyControlled` or `MultiControlled`. -/
inductive Gate where
  | plain (g : BaseGate)
  | singlyControlled (v : Bool) (q : Qubit) (g : BaseGate)
  | multiControlled (ctl : Control) (g : BaseGate)

/-- A program: `from_gate`, `from_seq` or `from_pseq`. -/
inductive Compiled where
  | gate (g : Gate)
  | seq (l : List Compiled)
  | pseq (ctl : Qubit) (seq0 seq1 : List Compiled)

variable {N : Nat} {F : Type} [Field F] [Scalar F]

namespace BaseGate

/-- `f64::consts::FRAC_1_SQRT_2` -/
def fracSqrt2 : F := 1 / Scalar.sqrt 2

/-- `Gate::perform`, of the value that `prepare` returns. -/
def perform : BaseGate → Element N F → Element N F
  | x q, e => { e with bits := e.bits.toggle q }
  | swap q1 q2, e =>
    if e.bits.get q1 ≠ e.bits.get q2 then { e with bits := (e.bits.toggle q1).toggle q2 } else e
  | p a, e => { e with val := e.val * Cplx.fromArg a }
  | pz, e => { e with val := -e.val }
  | ps, e => { e with val := e.val.mulI }
  | psdg, e => { e with val := e.val.divI }
  | pt, e =>
    { e with val := ⟨(e.val.re - e.val.im) * fracSqrt2, (e.val.re + e.val.im) * fracSqrt2⟩ }
  | pt3, e =>
    { e with val := ⟨-(e.val.re + e.val.im) * fracSqrt2, (e.val.re - e.val.im) * fracSqrt2⟩ }
  | pt5, e =>
    { e with val := ⟨(e.val.im - e.val.re) * fracSqrt2, -(e.val.re + e.val.im) * fracSqrt2⟩ }
  | ptdg, e =>
    { e with val := ⟨(e.val.re + e.val.im) * fracSqrt2, (e.val.im - e.val.re) * fracSqrt2⟩ }
  | multiX set, e => { e with bits := e.bits.xor (BitSet.fromIter (set.iter.map Fin.val)) }

/-- The gate may change bit `q`. -/
def writes : BaseGate → Qubit → Bool
  | x q, r => r == q
  | swap q1 q2, r => r == q1 || r == q2
  | multiX set, r => set.contains r
  | _, _ => false

/-- A gate changes only the bits it writes. -/
theorem perform_get {e : Element N F} {i : Nat} (g : BaseGate)
    (hr : ∀ q : Qubit, g.writes q = true → q.val < 64 * N)
    (hi : ∀ q : Qubit, g.writes q = true → q.val ≠ i) :
    (g.perform e).bits.get i = e.bits.get i := by
  cases g with
  | x q =>
    have hq : writes (x q) q = true := by simp [writes]
    rw [perform, BitSet.get_toggle (hr q hq), decide_eq_false (hi q hq).symm, Bool.xor_false]
  | swap q1 q2 =>
    have h1 : writes (swap q1 q2) q1 = true := by simp [writes]
    have h2 : writes (swap q1 q2) q2 = true := by simp [writes]
    rw [perform]
    split
    · rw [BitSet.get_toggle (hr q2 h2), BitSet.get_toggle (hr q1 h1), decide_eq_false (hi q1 h1).symm,
        decide_eq_false (hi q2 h2).symm, Bool.xor_false, Bool.xor_false]
    · rfl
  | multiX set =>
    rw [perform, BitSet.get_xor, BitSet.get_fromIter]
    · rw [decide_eq_false, Bool.xor_false]
      intro h
      obtain ⟨q, hq, rfl⟩ := List.mem_map.mp h
      exact hi q (QubitSet.mem_iter.mp hq) rfl
    · intro k hk
      obtain ⟨q, hq, rfl⟩ := List.mem_map.mp hk
      exact hr q (QubitSet.mem_iter.mp hq)
  | _ => rfl

end BaseGate

namespace Gate

/-- The bits of the mask and of the wanted value of `MultiControlled::prepare`. -/
def maskWant (ctl : Control) : BitSet N × BitSet N :=
  (BitSet.fromIter (ctl.items.map (·.qubit.val)),
    BitSet.fromIter ((ctl.items.filter (·.value)).map (·.qubit.val)))

/-- The test that `perform` makes before the inner gate. -/
def enabled : Gate → BitSet N → Bool
  | plain _, _ => true
  | singlyControlled v q _, b => b.get q == v
  | multiControlled ctl _, b => decide (b.and (maskWant ctl).1 = (maskWant ctl).2)

def inner : Gate → BaseGate
  | plain g => g
  | singlyControlled _ _ g => g
  | multiControlled _ g => g

def perform (g : Gate) (e : Element N F) : Element N F :=
  if g.enabled e.bits then g.inner.perform e else e

/-- The gate reads bit `q` for its control. -/
def reads : Gate → Qubit → Bool
  | plain _, _ => false
  | singlyControlled _ q _, r => r == q
  | multiControlled ctl _, r => ctl.uses r

end Gate

namespace Compiled

mutual

/-- `Compiled::perform` -/
def perform : Compiled → List (Element N F) → List (Element N F)
  | gate g, elts => elts.map g.perform
  | seq l, elts => performSeq l elts
  | pseq ctl seq0 seq1, elts =>
    let (elts, i) := partitionBy (fun e => !e.bits.get ctl) elts
    let (elts0, elts1) := elts.splitAt i
    (if elts0.isEmpty then elts0 else performSeq seq0 elts0) ++
      (if elts1.isEmpty then elts1 else performSeq seq1 elts1)

/-- The loop over the programs of a sequence. -/
def performSeq : List Compiled → List (Element N F) → List (Element N F)
  | [], elts => elts
  | c :: l, elts => performSeq l (c.perform elts)

end

/-- `Compiled::from_seq` -/
def fromSeq : List Compiled → Compiled
  | [c] => c
  | l => seq l

mutual

/-- What a program does to one element. -/
def apply : Compiled → Element N F → Element N F
  | gate g, e => g.perform e
  | seq l, e => applySeq l e
  | pseq ctl seq0 seq1, e => if e.bits.get ctl then applySeq seq1 e else applySeq seq0 e

def applySeq : List Compiled → Element N F → Element N F
  | [], e => e
  | c :: l, e => applySeq l (c.apply e)

end

mutual

/-- Some gate of the program may change bit `q`. -/
def writes : Compiled → Qubit → Bool
  | gate g, q => g.inner.writes q
  | seq l, q => writesSeq l q
  | pseq _ seq0 seq1, q => writesSeq seq0 q || writesSeq seq1 q

def writesSeq : List Compiled → Qubit → Bool
  | [], _ => false
  | c :: l, q => c.writes q || writesSeq l q

end

mutual

/-- Some control of the program reads bit `q`. -/
def reads : Compiled → Qubit → Bool
  | gate g, q => g.reads q
  | seq l, q => readsSeq l q
  | pseq ctl seq0 seq1, q => q == ctl || (readsSeq seq0 q || readsSeq seq1 q)

def readsSeq : List Compiled → Qubit → Bool
  | [], _ => false
  | c :: l, q => c.reads q || readsSeq l q

end

mutual

/-- The program has a partition, which can change the order of the slice. -/
def shuffles : Compiled → Bool
  | gate _ => false
  | seq l => shufflesSeq l
  | pseq _ _ _ => true

def shufflesSeq : List Compiled → Bool
  | [] => false
  | c :: l => c.shuffles || shufflesSeq l

end

/-- Every qubit of the program fits in `N` words. Else `BitIndex::from` panics when the gate is
prepared. -/
def inRange (N : Nat) (c : Compiled) : Prop :=
  ∀ q : Qubit, c.reads q = true ∨ c.writes q = true → q.val < 64 * N

instance (N : Nat) (c : Compiled) : Decidable (c.inRange N) :=
  inferInstanceAs (Decidable (∀ _ : Qubit, _))

/-! ## Sequences -/

variable {c : Compiled} {l l' : List Compiled} {q : Qubit} {e : Element N F}

theorem writesSeq_append : writesSeq (l ++ l') q = (writesSeq l q || writesSeq l' q) := by
  induction l with
  | nil => simp [writesSeq]
  | cons c l ih => rw [List.cons_append, writesSeq, writesSeq, ih, Bool.or_assoc]

theorem readsSeq_append : readsSeq (l ++ l') q = (readsSeq l q || readsSeq l' q) := by
  induction l with
  | nil => simp [readsSeq]
  | cons c l ih => rw [List.cons_append, readsSeq, readsSeq, ih, Bool.or_assoc]

theorem shufflesSeq_append : shufflesSeq (l ++ l') = (shufflesSeq l || shufflesSeq l') := by
  induction l with
  | nil => simp [shufflesSeq]
  | cons c l ih => rw [List.cons_append, shufflesSeq, shufflesSeq, ih, Bool.or_assoc]

/-- `from_seq` leaves out the loop for one program, which changes nothing. -/
theorem fromSeq_perform (elts : List (Element N F)) :
    (fromSeq l).perform elts = performSeq l elts := by
  unfold fromSeq
  split
  · rw [performSeq, performSeq]
  · rw [perform]

theorem fromSeq_apply : (fromSeq l).apply e = applySeq l e := by
  unfold fromSeq
  split
  · rw [applySeq, applySeq]
  · rw [apply]

theorem fromSeq_writes : (fromSeq l).writes q = writesSeq l q := by
  unfold fromSeq
  split
  · rw [writesSeq, writesSeq, Bool.or_false]
  · rw [writes]

theorem fromSeq_reads : (fromSeq l).reads q = readsSeq l q := by
  unfold fromSeq
  split
  · rw [readsSeq, readsSeq, Bool.or_false]
  · rw [reads]

theorem fromSeq_shuffles : (fromSeq l).shuffles = shufflesSeq l := by
  unfold fromSeq
  split
  · rw [shufflesSeq, shufflesSeq, Bool.or_false]
  · rw [shuffles]

/-! ## Slices and elements -/

/-- The two parts of a partitioned slice, each with its own function. -/
theorem Partitioned.map_perm {α β : Type} {p : α → Bool} {v w : List α} {k : Nat} {f g : α → β}
    (h : Partitioned p v w k) :
    ((w.take k).map f ++ (w.drop k).map g).Perm (v.map fun a => if p a then f a else g a) := by
  obtain ⟨h0, h1⟩ := h.split
  have hl : (w.take k).map f = (w.take k).map fun a => if p a then f a else g a :=
    List.map_congr_left fun a ha => by rw [if_pos (h0 a ha)]
  have hr : (w.drop k).map g = (w.drop k).map fun a => if p a then f a else g a :=
    List.map_congr_left fun a ha => by rw [if_neg (by rw [h1 a ha]; decide)]
  rw [hl, hr, ← List.map_append, List.take_append_drop]
  exact h.1.map _

omit [Field F] [Scalar F] in
/-- An empty part is not worked on, which makes no difference. -/
theorem skip_perm {f : Element N F → Element N F} {elts elts' : List (Element N F)}
    (h : elts'.Perm (elts.map f)) : (if elts.isEmpty then elts else elts').Perm (elts.map f) := by
  split
  · rename_i he
    rw [List.isEmpty_iff.mp he]
    exact List.Perm.refl _
  · exact h

mutual

/-- Up to the order, a program treats every element of the slice by itself. -/
theorem perform_perm : ∀ (c : Compiled) (elts : List (Element N F)),
    (c.perform elts).Perm (elts.map c.apply)
  | gate g, elts => by
    rw [perform]
    exact List.Perm.of_eq (List.map_congr_left fun e _ => by rw [apply])
  | seq l, elts => by
    rw [perform]
    refine (performSeq_perm l elts).trans (List.Perm.of_eq ?_)
    exact List.map_congr_left fun e _ => by rw [apply]
  | pseq ctl seq0 seq1, elts => by
    have hp := partitionBy_spec (fun e : Element N F => !e.bits.get ctl) elts
    rw [perform]
    simp only [List.splitAt_eq]
    refine ((skip_perm (performSeq_perm seq0 _)).append (skip_perm (performSeq_perm seq1 _))).trans ?_
    refine (Partitioned.map_perm hp).trans (List.Perm.of_eq (List.map_congr_left fun e _ => ?_))
    rw [apply]
    cases e.bits.get ctl <;> rfl

theorem performSeq_perm : ∀ (l : List Compiled) (elts : List (Element N F)),
    (performSeq l elts).Perm (elts.map (applySeq l))
  | [], elts => by
    rw [performSeq]
    exact List.Perm.of_eq (by rw [show applySeq [] = fun e : Element N F => e from
      funext fun e => by rw [applySeq], List.map_id'])
  | c :: l, elts => by
    rw [performSeq]
    refine (performSeq_perm l _).trans (((perform_perm c elts).map _).trans (List.Perm.of_eq ?_))
    rw [List.map_map]
    exact List.map_congr_left fun e _ => by rw [Function.comp, applySeq]

end

/-- A program runs on a slice of one element as `apply`. -/
theorem perform_singleton (c : Compiled) (e : Element N F) : c.perform [e] = [c.apply e] :=
  List.perm_singleton.mp (perform_perm c [e])

mutual

/-- A program without partitions keeps the order. -/
theorem perform_eq_map : ∀ (c : Compiled) (elts : List (Element N F)), c.shuffles = false →
    c.perform elts = elts.map c.apply
  | gate g, elts, _ => by
    rw [perform]
    exact List.map_congr_left fun e _ => by rw [apply]
  | seq l, elts, h => by
    rw [shuffles] at h
    rw [perform, performSeq_eq_map l elts h]
    exact List.map_congr_left fun e _ => by rw [apply]
  | pseq _ _ _, _, h => by
    rw [shuffles] at h
    cases h

theorem performSeq_eq_map : ∀ (l : List Compiled) (elts : List (Element N F)),
    shufflesSeq l = false → performSeq l elts = elts.map (applySeq l)
  | [], elts, _ => by
    rw [performSeq, show applySeq [] = fun e : Element N F => e from
      funext fun e => by rw [applySeq], List.map_id']
  | c :: l, elts, h => by
    rw [shufflesSeq, Bool.or_eq_false_iff] at h
    rw [performSeq, perform_eq_map c elts h.1, performSeq_eq_map l _ h.2, List.map_map]
    exact List.map_congr_left fun e _ => by rw [Function.comp, applySeq]

end

/-! ## The bits that a program changes -/

variable {i : Nat}

mutual

/-- A program changes only the bits it writes. -/
theorem apply_get : ∀ (c : Compiled) (e : Element N F),
    (∀ q : Qubit, c.writes q = true → q.val < 64 * N) →
    (∀ q : Qubit, c.writes q = true → q.val ≠ i) → (c.apply e).bits.get i = e.bits.get i
  | gate g, e, hr, hi => by
    simp only [writes] at hr hi
    rw [apply, Gate.perform]
    split
    · exact BaseGate.perform_get _ hr hi
    · rfl
  | seq l, e, hr, hi => by
    simp only [writes] at hr hi
    rw [apply]
    exact applySeq_get l e hr hi
  | pseq ctl seq0 seq1, e, hr, hi => by
    simp only [writes, Bool.or_eq_true] at hr hi
    rw [apply]
    split
    · exact applySeq_get seq1 e (fun q h => hr q (.inr h)) fun q h => hi q (.inr h)
    · exact applySeq_get seq0 e (fun q h => hr q (.inl h)) fun q h => hi q (.inl h)

theorem applySeq_get : ∀ (l : List Compiled) (e : Element N F),
    (∀ q : Qubit, writesSeq l q = true → q.val < 64 * N) →
    (∀ q : Qubit, writesSeq l q = true → q.val ≠ i) → (applySeq l e).bits.get i = e.bits.get i
  | [], e, _, _ => by rw [applySeq]
  | c :: l, e, hr, hi => by
    simp only [writesSeq, Bool.or_eq_true] at hr hi
    rw [applySeq, applySeq_get l _ (fun q h => hr q (.inr h)) fun q h => hi q (.inr h)]
    exact apply_get c e (fun q h => hr q (.inl h)) fun q h => hi q (.inl h)

end

end Compiled

end Qblaze
