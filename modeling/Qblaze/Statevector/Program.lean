import Qblaze.Sfree.Elements
import Qblaze.Statevector.Repartition

/-!
# Applying a superposition-free queue to a state vector

The operations of a queue permute the basis states, and so does the program they are compiled to
(`compile_sound`). With that, each of the three ways in which `perform_sfree` runs a program applies
it to every element once and restores the invariant:

* no qubit is modified: each chunk keeps its bits, and sorting a chunk undoes what its partitions
  did to the order (`doSfreeApply_eq`);
* one qubit is modified: the same holds without that qubit (`doSfreeSingle_eq`), and the two parts are
  merged again by the other bits;
* else the parts are sorted as a whole.

`applyProgram_spec` gives the result, which does not depend on the context.
-/

namespace Qblaze

/-! ## Operations permute the basis states -/

/-- What an operation does to a basis state. -/
def Op.move : Op → (Qubit → Bool) → Qubit → Bool
  | gphase _, y => y
  | x q, y => flip (fun r => r == q) y
  | swap q1 q2, y => swapQubits q1 q2 y

def moveOp (p : Control × Op) (x : Qubit → Bool) : Qubit → Bool :=
  if p.1.holds x then p.2.move x else x

def moveOps (ops : OpSeq) (x : Qubit → Bool) : Qubit → Bool := ops.foldl (fun x p => moveOp p x) x

section

variable {G : Type} [AddCommGroup G] {φ : Angle →+ G} {p : Control × Op} {ops : OpSeq}

theorem runOp_fst (c : Conf G) : (runOp φ p c).1 = moveOp p c.1 := by
  obtain ⟨ctl, op⟩ := p
  unfold runOp moveOp
  split
  · cases op <;> rfl
  · rfl

theorem runOps_fst (ops : OpSeq) (c : Conf G) : (runOps φ ops c).1 = moveOps ops c.1 := by
  induction ops generalizing c with
  | nil => rfl
  | cons p ops ih =>
    rw [runOps, ih, runOp_fst]
    rfl

theorem Op.move_move (op : Op) (x : Qubit → Bool) : op.move (op.move x) = x := by
  cases op with
  | gphase a => rfl
  | x q =>
    funext r
    show ((x r ^^ (r == q)) ^^ (r == q)) = x r
    rw [Bool.xor_assoc, Bool.xor_self, Bool.xor_false]
  | swap q1 q2 =>
    funext r
    show x (Equiv.swap q1 q2 (Equiv.swap q1 q2 r)) = x r
    rw [Equiv.swap_apply_self]

theorem Op.move_keep {op : Op} {q : Qubit} (h : op.writes q = false) (x : Qubit → Bool) :
    op.move x q = x q := by
  have := @runOp_keep _ _ (0 : Angle →+ Angle) q (x, 0) (Control.always, op) h
  rw [runOp_fst] at this
  exact this

/-- An operation that does not depend on what it writes is its own inverse. -/
theorem moveOp_moveOp (hp : ∀ q, p.2.writes q = true → p.1.uses q = false) (x : Qubit → Bool) :
    moveOp p (moveOp p x) = x := by
  have hh : p.1.holds (p.2.move x) = p.1.holds x := Control.holds_congr fun q hq => by
    refine Op.move_keep (Bool.eq_false_iff.mpr fun hw => ?_) x
    rw [hp q hw] at hq
    cases hq
  unfold moveOp
  by_cases h : p.1.holds x = true
  · rw [if_pos h, if_pos (hh.trans h), Op.move_move]
  · rw [if_neg h, if_neg h]

theorem moveOps_injective (h : ∀ p ∈ ops, ∀ q, p.2.writes q = true → p.1.uses q = false) :
    Function.Injective (moveOps ops) := by
  induction ops with
  | nil => exact fun _ _ he => he
  | cons p ops ih =>
    intro x y he
    have hxy : moveOp p x = moveOp p y := ih (fun p hp => h p (List.mem_cons_of_mem _ hp)) he
    have hp := h p (List.mem_cons_self ..)
    rw [← moveOp_moveOp hp x, hxy, moveOp_moveOp hp]

end

/-! ## Sorting -/

namespace Statevector

section

variable {N : Nat} {F : Type} {s : Statevector N F} {l : List (Element N F)}

/-- A function applied to every element. -/
def mapElements (s : Statevector N F) (g : Element N F → Element N F) : Statevector N F :=
  { s with part0 := s.part0.map g, part1 := s.part1.map g }

theorem mapElements_elements (g : Element N F → Element N F) :
    (s.mapElements g).elements = s.elements.map g := List.map_append.symm

theorem increasing_map {K : Type} [LinearOrder K] {f : Element N F → K}
    {g : Element N F → Element N F} (hl : Increasing f l) (hf : ∀ e, f (g e) = f e) :
    Increasing f (l.map g) := by
  refine List.pairwise_map.mpr (hl.imp fun hab => ?_)
  rwa [hf, hf]

/-- No chunk is empty, if the chunks are found. -/
theorem eachChunk_pos {f : List (Element N F) → List (Element N F)} {c0 c1 : Nat}
    {t : Statevector N F} (h : s.eachChunk (c0, c1) f = some t) : 0 < c0 ∧ 0 < c1 := by
  unfold eachChunk at h
  simp only [Option.bind_eq_bind, Option.bind_eq_some_iff] at h
  obtain ⟨cs0, h0, cs1, h1, -⟩ := h
  refine ⟨Nat.pos_of_ne_zero ?_, Nat.pos_of_ne_zero ?_⟩
  · rintro rfl
    rw [chunks_zero] at h0
    cases h0
  · rintro rfl
    rw [chunks_zero] at h1
    cases h1

/-- Working on chunks, where each chunk is mapped. -/
theorem eachChunk_eq {f : List (Element N F) → List (Element N F)} {g : Element N F → Element N F}
    {c0 c1 : Nat} (h0 : 0 < c0) (h1 : 0 < c1)
    (hf : ∀ c, c.Sublist s.part0 ∨ c.Sublist s.part1 → f c = c.map g) :
    s.eachChunk (c0, c1) f = some (s.mapElements g) := by
  obtain ⟨cs0, cs1, hcs0, hcs1, he⟩ := eachChunk_some (s := s) h0 h1 f
  have hm0 : cs0.map f = cs0.map (List.map g) := List.map_congr_left fun c hc =>
    hf c (.inl (by rw [← hcs0]; exact List.sublist_flatten_of_mem hc))
  have hm1 : cs1.map f = cs1.map (List.map g) := List.map_congr_left fun c hc =>
    hf c (.inr (by rw [← hcs1]; exact List.sublist_flatten_of_mem hc))
  rw [he, hm0, hm1, flatten_map_map, flatten_map_map, hcs0, hcs1]
  rfl

theorem bits_strictWeak :
    StrictWeak fun a b : Element N F => decide (a.bits < b.bits) where
  asymm a b hab := by
    rw [decide_eq_true_iff] at hab
    exact decide_eq_false hab.not_gt
  trans a b c hba hcb := by
    rw [decide_eq_false_iff_not, not_lt] at hba hcb
    exact decide_eq_false (not_lt.mpr (hba.trans hcb))

theorem doSort_sorted (single : Bool) (l : List (Element N F)) :
    (doSort single l).Pairwise fun a b => a.bits ≤ b.bits :=
  (parQuicksort_sorted bits_strictWeak single (elementSize N) l).imp fun hab => by
    rw [decide_eq_false_iff_not, not_lt] at hab
    exact hab

theorem doSort_perm (single : Bool) (l : List (Element N F)) : (doSort single l).Perm l :=
  parQuicksort_perm single (elementSize N) l

/-- Sorting different bit patterns. -/
theorem doSort_increasing (single : Bool) (hd : Distinct l) :
    Increasing (fun e => e.bits) (doSort single l) :=
  ((hd.perm (doSort_perm single l)).and (doSort_sorted single l)).imp fun hab =>
    lt_of_le_of_ne hab.2 hab.1

end

end Statevector

variable {N : Nat} {F : Type} [Field F] [Scalar F] {q : Qubit}

/-! ## Compiled queues -/

/-- What `perform_sfree` relies on: the program fits in the words and permutes the bit patterns, and
the statistics tell which bits it changes and whether it partitions. -/
structure Sound (N : Nat) (F : Type) [Field F] [Scalar F] (op : Compiled) (stat : Stat) : Prop where
  inRange : op.inRange N
  injective : ∀ e e' : Element N F, (op.apply e).bits = (op.apply e').bits → e.bits = e'.bits
  modified : ∀ q, op.writes q = true → stat.modified.contains q = true
  fits : ∀ q, stat.modified.contains q = true → q.val < 64 * N
  shuffled : op.shuffles = true → stat.shuffle = true

/-- The operations of a queue whose controls do not depend on what they write. The angles do not
matter here. -/
def Allowed (N : Nat) (ops : OpSeq) : Prop := ∀ p ∈ ops, Legal (Fits N) (fun _ => True) p

theorem compile_sound {opq : Queue} {prec : Nat} {op : Compiled} {stat : Stat}
    (hp : Allowed N opq.ops) (h : opq.compile N Stat.default prec = (some op, stat)) :
    Sound N F op stat := by
  obtain ⟨l, g, hl, hcov, heval⟩ := Queue.compile_correct (Phases.trivial prec) opq N Stat.default hp
  rw [h] at hl hcov
  have hop : op = Compiled.fromSeq l := by
    cases l with
    | nil => cases hl
    | cons c l => exact (Option.some.injEq _ _).mp hl
  subst hop
  refine ⟨Compiled.inRange_fromSeq.mpr hcov.inRangeSeq, fun e e' he => ?_, fun q hq => ?_,
    fun q hq => ?_, fun hs => ?_⟩
  · rw [Compiled.fromSeq_apply, Compiled.fromSeq_apply] at he
    have hbits : ∀ e : Element N F,
        (Compiled.applySeq l e).bits.toState = moveOps opq.ops e.bits.toState := fun e => by
      rw [Compiled.applySeq_bits (φ := (0 : Angle →+ PUnit)) PUnit.unit l e hcov.inRangeSeq,
        ← runOps_fst (φ := (0 : Angle →+ PUnit)) opq.ops (e.bits.toState, PUnit.unit), heval]
      rfl
    have hstate : e.bits.toState = e'.bits.toState :=
      moveOps_injective (fun p hm => (hp p hm).disjoint) (by rw [← hbits e, ← hbits e', he])
    refine BitSet.ext_get fun i _ => ?_
    by_cases hq : ∃ q : Qubit, q.val = i
    · obtain ⟨q, rfl⟩ := hq
      exact congrFun hstate q
    · have hi : ∀ q : Qubit, q.val ≠ i := fun q hqi => hq ⟨q, hqi⟩
      rw [← hcov.applySeq_get hi e, he, hcov.applySeq_get hi e']
  · rw [Compiled.fromSeq_writes] at hq
    exact hcov.modified q hq
  · refine (hcov.bounded q hq).resolve_left fun hn => ?_
    rw [Stat.default, QubitSet.contains_new] at hn
    cases hn
  · rw [Compiled.fromSeq_shuffles] at hs
    exact hcov.shuffled hs

variable {op : Compiled} {stat : Stat}

/-- The bits that are not counted as modified stay. -/
theorem Sound.apply_get (h : Sound N F op stat) {i : Nat}
    (hi : ∀ q : Qubit, stat.modified.contains q = true → q.val ≠ i) (e : Element N F) :
    (op.apply e).bits.get i = e.bits.get i :=
  Compiled.apply_get op e (fun q hq => h.inRange q (.inr hq)) fun q hq => hi q (h.modified q hq)

namespace Statevector

variable {s : Statevector N F} {l : List (Element N F)}

/-- The image of different bit patterns. -/
theorem distinct_map (h : Sound N F op stat) (hd : Distinct l) : Distinct (l.map op.apply) :=
  List.pairwise_map.mpr (hd.imp fun hab he => hab (h.injective _ _ he))

/-! ## Chunks -/

/-- Sorting a chunk by keys that the program leaves increasing undoes what its partitions did. -/
theorem sort_perform {K : Type} [LinearOrder K] {f : Element N F → K} (h : Sound N F op stat)
    (hl : Increasing f (l.map op.apply)) {sort : List (Element N F) → List (Element N F)}
    (hperm : ∀ l, (sort l).Perm l) (hsort : ∀ l, (sort l).Pairwise fun a b => f a ≤ f b) :
    (if stat.shuffle then sort (op.perform l) else op.perform l) = l.map op.apply := by
  split
  · exact eq_of_perm_increasing hl (hsort _) ((hperm _).trans (Compiled.perform_perm op l))
  · rename_i hs
    exact Compiled.perform_eq_map op l (Bool.eq_false_iff.mpr fun hsh => hs (h.shuffled hsh))

/-- No qubit is modified: the chunk keeps its order. -/
theorem doSfreeApply_eq (h : Sound N F op stat) (hl : Increasing (fun e => e.bits) (l.map op.apply)) :
    doSfreeApply op stat.shuffle l = l.map op.apply :=
  sort_perform h hl (doSort_perm true) (doSort_sorted true)

/-- One qubit is modified: the chunk keeps its order without that qubit. -/
theorem doSfreeSingle_eq (h : Sound N F op stat)
    (hl : Increasing (fun e => e.bits.without q) (l.map op.apply)) :
    doSfreeSingle op q stat.shuffle l = l.map op.apply := by
  refine sort_perform (f := fun e => e.bits.without q) h hl (fun l => List.mergeSort_perm l _)
    fun l => (List.pairwise_mergeSort (fun a b c hab hbc => ?_) (fun a b => ?_) l).imp fun hab => ?_
  · rw [decide_eq_true_iff] at *
    exact hab.trans hbc
  · rw [Bool.or_eq_true, decide_eq_true_iff, decide_eq_true_iff]
    exact le_total _ _
  · rwa [decide_eq_true_iff] at hab

/-! ## The three paths -/

variable {ctx : Context} {alloc : Nat → Bool}

/-- A program that keeps a bit keeps the partition by it. -/
theorem partitioned_map {P : Option Qubit} (hs : s.Inv)
    (hP : ∀ q, P = some q → s.partitionedBy = some q ∧ ∀ e : Element N F,
      (op.apply e).bits.get q = e.bits.get q) {l0 l1 : List (Element N F)}
    (h0 : l0.Perm (s.part0.map op.apply)) (h1 : l1.Perm (s.part1.map op.apply)) :
    ∀ q, P = some q → q.val < 64 * N ∧ (∀ e ∈ l0, e.bits.get q = false) ∧
      ∀ e ∈ l1, e.bits.get q = true := by
  intro q hq
  obtain ⟨hsq, hkeep⟩ := hP q hq
  obtain ⟨hfit, hb0, hb1⟩ := hs.partitioned q hsq
  refine ⟨hfit, fun e he => ?_, fun e he => ?_⟩
  · obtain ⟨a, ha, rfl⟩ := List.mem_map.mp (h0.mem_iff.mp he)
    rw [hkeep, hb0 a ha]
  · obtain ⟨a, ha, rfl⟩ := List.mem_map.mp (h1.mem_iff.mp he)
    rw [hkeep, hb1 a ha]

/-- No modified qubit: the bits stay. -/
theorem Sound.apply_bits (h : Sound N F op stat) (hm : stat.modified.len = 0) (e : Element N F) :
    (op.apply e).bits = e.bits := by
  rw [QubitSet.len_eq_zero] at hm
  refine BitSet.ext_get fun i _ => h.apply_get (fun q hq => ?_) e
  rw [hm q] at hq
  cases hq

/-- One modified qubit: the other bits stay. -/
theorem Sound.apply_without (h : Sound N F op stat) (hm : stat.modified.iter = [q])
    (e : Element N F) : (op.apply e).bits.without q = e.bits.without q := by
  have hq : stat.modified.contains q = true := QubitSet.mem_iter.mp (by rw [hm]; exact List.mem_singleton.mpr rfl)
  refine BitSet.ext_get fun i _ => ?_
  rw [BitSet.get_without (h.fits q hq), BitSet.get_without (h.fits q hq)]
  by_cases hi : i = q.val
  · rw [decide_eq_false fun hne => hne hi, Bool.and_false, Bool.and_false]
  · rw [h.apply_get (fun r hr => ?_) e]
    rw [← QubitSet.mem_iter, hm, List.mem_singleton] at hr
    rw [hr]
    exact fun he => hi he.symm

/-- What one path of `perform_sfree` has to yield. -/
structure Applied (s : Statevector N F) (op : Compiled) (t : Statevector N F) : Prop where
  inv : t.Inv
  perm : t.elements.Perm (s.elements.map op.apply)

/-- The path without modified qubits. -/
theorem constPath (h : Sound N F op stat) (hs : s.Inv) (hm : stat.modified.len = 0) {c0 c1 : Nat}
    (h0 : 0 < c0) (h1 : 0 < c1) :
    ∃ t, s.eachChunk (c0, c1) (doSfreeApply op stat.shuffle) = some t ∧ Applied s op t := by
  have hb := Sound.apply_bits h hm
  have hsorted : ∀ l : List (Element N F), Increasing (fun e => e.bits) l →
      Increasing (fun e => e.bits) (l.map op.apply) := fun l hl => increasing_map hl hb
  refine ⟨_, eachChunk_eq h0 h1 fun c hc => doSfreeApply_eq h (hsorted c ?_), ?_, ?_⟩
  · exact hc.elim (fun hc => hs.sorted0.sublist hc) fun hc => hs.sorted1.sublist hc
  · refine ⟨hsorted _ hs.sorted0, hsorted _ hs.sorted1, ?_, partitioned_map hs (fun q hq =>
      ⟨hq, fun e => by rw [hb]⟩) (List.Perm.refl _) (List.Perm.refl _)⟩
    have hd := distinct_map h hs.distinct
    rw [elements, List.map_append] at hd
    exact hd.disjoint
  · exact List.Perm.of_eq (mapElements_elements _)

/-- The chunks of the path with one modified qubit. -/
theorem single_eachChunk (h : Sound N F op stat) (hs : s.Inv) (hm : stat.modified.iter = [q])
    (hq : s.partitionedBy = some q) {c0 c1 : Nat} (h0 : 0 < c0) (h1 : 0 < c1) :
    s.eachChunk (c0, c1) (doSfreeSingle op q stat.shuffle) = some (s.mapElements op.apply) := by
  obtain ⟨hfit, hb0, hb1⟩ := hs.partitioned q hq
  have hb := Sound.apply_without h hm
  refine eachChunk_eq h0 h1 fun c hc => doSfreeSingle_eq h (increasing_map ?_ hb)
  rcases hc with hc | hc
  · exact (increasing_without hfit hb0 hs.sorted0).sublist hc
  · exact (increasing_without hfit hb1 hs.sorted1).sublist hc

/-- The path with one modified qubit, after the vector is partitioned by it. -/
theorem singlePath (hf : ∃ b count, (s.mapElements op.apply).forMerge ctx = some (b, count))
    (h : Sound N F op stat) (hs : s.Inv) (hm : stat.modified.iter = [q])
    (hq : s.partitionedBy = some q) {c0 c1 : Nat} (h0 : 0 < c0) (h1 : 0 < c1) (ok : Bool) :
    ∃ t, (do
        let s ← s.eachChunk (c0, c1) (doSfreeSingle op q stat.shuffle)
        s.forceRepartition ctx ok q true) =
      some (if tryReserve ok s.len then t else { s with part0 := [], part1 := [] }) ∧
      Applied s op t := by
  obtain ⟨hfit, hb0, hb1⟩ := hs.partitioned q hq
  have hb := Sound.apply_without h hm
  have hkeys : ∀ l : List (Element N F), Increasing (fun e => e.bits.without q) l →
      Increasing (fun e => e.bits.without q) (l.map op.apply) := fun l hl => increasing_map hl hb
  have hs0 := hkeys _ (increasing_without hfit hb0 hs.sorted0)
  have hs1 := hkeys _ (increasing_without hfit hb1 hs.sorted1)
  refine ⟨(s.mapElements op.apply).repartition (fun e => e.bits.without q) q, ?_, ?_, ?_⟩
  · rw [single_eachChunk h hs hm hq h0 h1, Option.bind_eq_bind, Option.bind_some,
      forceRepartition_fixup hf hs0 hs1]
    have hlen : (s.mapElements op.apply).len = s.len := by simp [mapElements, len]
    rw [hlen]
    rfl
  · refine repartition_inv hfit hq ?_ hs0 hs1 fun a b hab hle =>
      (BitSet.without_le_without hfit hab).mp hle
    rw [mapElements_elements]
    exact distinct_map h hs.distinct
  · exact (repartition_perm _ q).trans (List.Perm.of_eq (mapElements_elements _))

/-- The path with more modified qubits. -/
theorem sortPath (h : Sound N F op stat) (hs : s.Inv) {c0 c1 : Nat} (h0 : 0 < c0) (h1 : 0 < c1) :
    ∃ t, s.eachChunk (c0, c1) (doSfreeApply op false) = some t ∧ t.partitionedBy = s.partitionedBy ∧
      ∀ single, Applied s op ⟨match t.partitionedBy with
        | some q => if stat.modified.contains q then none else some q
        | none => none, doSort single t.part0, doSort single t.part1⟩ := by
  obtain ⟨cs0, cs1, hcs0, hcs1, he⟩ := eachChunk_some (s := s) h0 h1 (doSfreeApply op false)
  have hperm : ∀ (cs : List (List (Element N F))) (l : List (Element N F)), cs.flatten = l →
      ((cs.map (doSfreeApply op false)).flatten).Perm (l.map op.apply) := by
    rintro cs l rfl
    induction cs with
    | nil => exact List.Perm.refl _
    | cons c cs ih =>
      rw [List.map_cons, List.flatten_cons, List.flatten_cons, List.map_append]
      exact (Compiled.perform_perm op c).append ih
  refine ⟨_, he, rfl, fun single => ?_⟩
  have hp0 := (doSort_perm single _).trans (hperm cs0 _ hcs0)
  have hp1 := (doSort_perm single _).trans (hperm cs1 _ hcs1)
  have hd := distinct_map h hs.distinct
  rw [elements, List.map_append] at hd
  obtain ⟨hd0, hd1, -⟩ := List.pairwise_append.mp hd
  refine ⟨⟨doSort_increasing single (Distinct.perm hd0 (hperm cs0 _ hcs0)),
    doSort_increasing single (Distinct.perm hd1 (hperm cs1 _ hcs1)),
    Distinct.disjoint (hd.perm (hp0.append hp1)), partitioned_map hs (fun q hq => ?_) hp0 hp1⟩, ?_⟩
  · simp only at hq
    split at hq
    · rename_i r hr
      split at hq
      · cases hq
      · rename_i hnot
        cases hq
        refine ⟨hr, fun e => h.apply_get (fun q hq he => hnot ?_) e⟩
        rwa [← Fin.ext he]
    · cases hq
  · rw [elements, elements, List.map_append]
    exact hp0.append hp1

/-- The first reservation of `perform_sfree`, which only the path with one modified qubit makes, and
only if the vector is not partitioned by that qubit. -/
def partitionGranted (s : Statevector N F) (alloc : Nat → Bool) (stat : Stat) : Prop :=
  ∀ q, stat.modified.iter = [q] → s.partitionedBy = some q ∨ tryReserve (alloc 0) s.len = true

/-- A program applied to a vector that is not empty. -/
theorem applyProgram_spec (hc : ctx.Positive) (h : Sound N F op stat) (hs : s.Inv)
    (hne : s.isEmpty = false) (hp : s.partitionGranted alloc stat) :
    ∃ t, s.applyProgram ctx alloc op stat = some t ∧
      if stat.modified.len = 1 ∧ alloc 1 = false then t.Inv ∧ t.isEmpty = true
      else Applied s op t := by
  unfold applyProgram
  rw [if_neg (not_not.mpr h.inRange)]
  obtain ⟨b, c0, c1, hchunks, h0, h1⟩ := forChunks_some hc hc.chunkSize hne
  by_cases hm0 : stat.modified.len = 0
  · obtain ⟨t, ht, ha⟩ := constPath h hs hm0 h0 h1
    rw [if_pos hm0, forSmallChunks, hchunks]
    refine ⟨t, ht, ?_⟩
    rw [if_neg fun hcon => by omega]
    exact ha
  rw [if_neg hm0]
  by_cases hm1 : stat.modified.len = 1
  · obtain ⟨q, hq⟩ := QubitSet.len_eq_one.mp hm1
    have hfit : q.val < 64 * N :=
      h.fits q (QubitSet.mem_iter.mp (by rw [hq]; exact List.mem_singleton.mpr rfl))
    have hperm := partitionOn_perm (hp q hq)
    have hi := partitionOn_inv hfit hs (alloc 0)
    have hlen : (s.partitionOn (alloc 0) q).len = s.len := by
      rw [len_eq, len_eq, hperm.length_eq]
    have hne' : (s.partitionOn (alloc 0) q).isEmpty = false := by rwa [isEmpty, hlen]
    obtain ⟨b, c0, c1, hchunks, h0, h1⟩ := forChunks_some hc hc.chunkSize hne'
    obtain ⟨t, ht, ha⟩ := singlePath (forMerge_some hc) h hi hq partitionOn_partitionedBy h0 h1 (alloc 1)
    rw [if_pos hm1, hq, List.head?_cons]
    simp only [Option.bind_eq_bind, Option.bind_some, bitIndex, if_pos hfit, setPartition_eq hc hs,
      forSmallChunks, hchunks]
    rw [Option.bind_eq_bind] at ht
    refine ⟨_, ht, ?_⟩
    have hpos : (s.len == 0) = false := hne
    rw [hlen, tryReserve, hpos, Bool.false_or]
    cases hal : alloc 1 with
    | true =>
      rw [if_neg fun hcon => by simp at hcon]
      exact ⟨ha.inv, ha.perm.trans (hperm.map _)⟩
    | false =>
      rw [if_pos ⟨hm1, rfl⟩]
      exact ⟨hi.clear, rfl⟩
  · obtain ⟨t, ht, htp, ha⟩ := sortPath h hs h0 h1
    rw [if_neg hm1, forSmallChunks, hchunks]
    simp only [Option.bind_eq_bind, Option.bind_some, ht]
    refine ⟨_, rfl, ?_⟩
    rw [if_neg fun hcon => hm1 hcon.1]
    exact ha _

/-- In any context, if a program returns and no reservation fails. -/
theorem applyProgram_of_some (ha : ∀ i, alloc i = true) (h : Sound N F op stat) (hs : s.Inv)
    {t : Statevector N F} (ht : s.applyProgram ctx alloc op stat = some t) : Applied s op t := by
  unfold applyProgram at ht
  rw [if_neg (not_not.mpr h.inRange)] at ht
  split at ht
  · rename_i hm0
    obtain ⟨⟨b, c0, c1⟩, -, ht⟩ := Option.bind_eq_some_iff.mp ht
    simp only at ht
    obtain ⟨h0, h1⟩ := eachChunk_pos ht
    obtain ⟨t', ht', hap⟩ := constPath h hs hm0 h0 h1
    rw [ht'] at ht
    cases ht
    exact hap
  split at ht
  · rename_i hm1
    obtain ⟨q, hq⟩ := QubitSet.len_eq_one.mp hm1
    have hfit : q.val < 64 * N :=
      h.fits q (QubitSet.mem_iter.mp (by rw [hq]; exact List.mem_singleton.mpr rfl))
    rw [hq, List.head?_cons] at ht
    simp only [Option.bind_eq_bind, Option.bind_some, bitIndex, if_pos hfit] at ht
    obtain ⟨s1, hs1, ht⟩ := Option.bind_eq_some_iff.mp ht
    obtain ⟨⟨b, c0, c1⟩, -, ht⟩ := Option.bind_eq_some_iff.mp ht
    obtain rfl := setPartition_of_some hs hs1
    have hi := partitionOn_inv hfit hs (alloc 0)
    have hperm : (s.partitionOn (alloc 0) q).elements.Perm s.elements :=
      partitionOn_perm (.inr (by simp [tryReserve, ha]))
    obtain ⟨s2, hs2, hf⟩ := Option.bind_eq_some_iff.mp ht
    obtain ⟨h0, h1⟩ := eachChunk_pos hs2
    have hmap := single_eachChunk h hi hq partitionOn_partitionedBy h0 h1
    rw [hmap] at hs2
    cases hs2
    obtain ⟨t', ht', hap⟩ := singlePath (forMerge_of_forceRepartition hf) h hi hq
      partitionOn_partitionedBy h0 h1 (alloc 1)
    rw [Option.bind_eq_bind] at ht'
    rw [ht', if_pos (by simp [tryReserve, ha])] at ht
    cases ht
    exact ⟨hap.inv, hap.perm.trans (hperm.map _)⟩
  · obtain ⟨⟨b, c0, c1⟩, -, ht⟩ := Option.bind_eq_some_iff.mp ht
    obtain ⟨s1, hs1, ht⟩ := Option.bind_eq_some_iff.mp ht
    obtain ⟨h0, h1⟩ := eachChunk_pos hs1
    obtain ⟨t', ht', -, hap⟩ := sortPath h hs h0 h1
    rw [ht'] at hs1
    cases hs1
    cases ht
    exact hap _

omit [Field F] [Scalar F] in
/-- An empty vector is cut into chunks of the size zero, which panics. -/
theorem bind_eachChunk_empty (ctx : Context) (hs : s.isEmpty = true) (k : Nat) {β : Type}
    (f : List (Element N F) → List (Element N F)) (g : Statevector N F → Option β) :
    (do let (_, csize) ← s.forChunks ctx k; let t ← s.eachChunk csize f; g t) = none := by
  cases hr : s.forChunks ctx k with
  | none => rfl
  | some r =>
    rw [forChunks_empty hs hr]
    rfl

omit [Field F] [Scalar F] in
theorem partitionOn_isEmpty {ok : Bool}
    (h : s.isEmpty = true ∨ ¬ (s.partitionedBy = some q ∨ tryReserve ok s.len = true)) :
    (s.partitionOn ok q).isEmpty = true := by
  rw [isEmpty_iff]
  by_cases hg : s.partitionedBy = some q ∨ tryReserve ok s.len = true
  · have he := isEmpty_iff.mp (h.resolve_right fun hn => hn hg)
    exact List.Perm.eq_nil (he ▸ partitionOn_perm hg)
  · obtain ⟨h0, h1⟩ := partitionOn_failed hg
    rw [elements, h0, h1]
    rfl

/-- A program panics on an empty vector, and after the first reservation fails. -/
theorem applyProgram_none (hc : ctx.Positive) (hs : s.Inv)
    (h : s.isEmpty = true ∨ ¬ s.partitionGranted alloc stat) :
    s.applyProgram ctx alloc op stat = none := by
  unfold applyProgram
  split
  · rfl
  by_cases hm1 : stat.modified.len = 1
  · obtain ⟨q, hq⟩ := QubitSet.len_eq_one.mp hm1
    rw [if_neg (by omega), if_pos hm1, hq, List.head?_cons, Option.bind_eq_bind, Option.bind_some]
    unfold bitIndex
    split
    · have hempty : (s.partitionOn (alloc 0) q).isEmpty = true := by
        refine partitionOn_isEmpty (h.imp_right fun hn hg => hn fun r hr => ?_)
        rw [hq] at hr
        cases hr
        exact hg
      rw [Option.bind_eq_bind, Option.bind_some, setPartition_eq hc hs]
      exact bind_eachChunk_empty _ hempty _ _ _
    · rfl
  · have he : s.isEmpty = true := h.resolve_right fun hn => hn fun q hq =>
      absurd (QubitSet.len_eq_one.mpr ⟨q, hq⟩) hm1
    split
    · rw [← bind_eachChunk_empty ctx he ctx.chunkSize (doSfreeApply op stat.shuffle) some]
      simp only [forSmallChunks, Option.bind_eq_bind, Option.bind_fun_some]
    · exact bind_eachChunk_empty _ he _ _ _

/-! ## `perform_sfree` -/

variable {opq : Queue} {prec : Nat}

/-- `perform_sfree` keeps the invariant. -/
theorem performSfree_inv (hc : ctx.Positive) (hs : s.Inv) (hp : Allowed N opq.ops)
    {t : Statevector N F} (ht : s.performSfree ctx alloc opq prec = some t) : t.Inv := by
  unfold performSfree at ht
  cases hop : opq.compile N Stat.default prec with
  | mk op stat =>
    rw [hop] at ht
    cases op with
    | none =>
      cases ht
      exact hs
    | some op =>
      simp only at ht
      by_cases h : s.isEmpty = true ∨ ¬ s.partitionGranted alloc stat
      · rw [applyProgram_none hc hs h] at ht
        cases ht
      · rw [not_or, not_not, Bool.not_eq_true] at h
        obtain ⟨t', ht', ha⟩ := applyProgram_spec hc (compile_sound hp hop) hs h.1 h.2
        rw [ht'] at ht
        cases ht
        split at ha
        · exact ha.1
        · exact ha.inv

/-- In any context, if `perform_sfree` returns and no reservation fails: every element is run
through a program. -/
theorem performSfree_of_some (ha : ∀ i, alloc i = true) (hs : s.Inv) (hp : Allowed N opq.ops)
    {t : Statevector N F} (ht : s.performSfree ctx alloc opq prec = some t) :
    t = s ∨ ∃ op stat, opq.compile N Stat.default prec = (some op, stat) ∧ op.inRange N ∧
      Applied s op t := by
  unfold performSfree at ht
  cases hop : opq.compile N Stat.default prec with
  | mk op stat =>
    rw [hop] at ht
    cases op with
    | none =>
      cases ht
      exact .inl rfl
    | some op =>
      have hsound := compile_sound (F := F) hp hop
      exact .inr ⟨op, stat, rfl, hsound.inRange, applyProgram_of_some ha hsound hs ht⟩

/-- `perform_sfree` returns on a vector that is not empty, if no reservation fails. -/
theorem performSfree_isSome (hc : ctx.Positive) (ha : ∀ i, alloc i = true) (hs : s.Inv)
    (hne : s.isEmpty = false) (hp : Allowed N opq.ops) :
    ∃ t, s.performSfree ctx alloc opq prec = some t := by
  unfold performSfree
  cases hop : opq.compile N Stat.default prec with
  | mk op stat =>
    cases op with
    | none => exact ⟨s, rfl⟩
    | some op =>
      obtain ⟨t, ht, -⟩ := @applyProgram_spec _ _ _ _ _ _ _ ctx alloc hc (compile_sound hp hop) hs hne
        fun q _ => .inr (by simp [tryReserve, ha])
      exact ⟨t, ht⟩

/-- `perform_sfree` applies the queue to every element, whichever path it takes. On a vector that is
not empty, in a context of positive sizes, and if the reservation for repartitioning by the one
modified qubit succeeds, it returns. Then the elements are the elements of before, each one run
through the program once; only if the other reservation of that path fails, the vector is empty.
The statistics tell every qubit whose bit the program can change, and whether it can reorder a
chunk. -/
theorem performSfree_applies (s : Statevector N F) (hs : s.Inv) (hne : s.isEmpty = false)
    (opq : Queue) (hp : Allowed N opq.ops) (prec : Nat) (ctx : Context) (hc : ctx.Positive)
    (alloc : Nat → Bool) :
    match opq.compile N Stat.default prec with
    | (none, _) => s.performSfree ctx alloc opq prec = some s
    | (some op, stat) =>
      (∀ e e' : Element N F, op.perform [e] = [e'] →
        ∀ q : Qubit, e'.bits.get q ≠ e.bits.get q → stat.modified.contains q = true) ∧
      (∀ chunk : List (Element N F), op.perform chunk ≠ chunk.flatMap (fun e => op.perform [e]) →
        stat.shuffle = true) ∧
      (s.partitionGranted alloc stat → ∃ t, s.performSfree ctx alloc opq prec = some t ∧
        if stat.modified.len = 1 ∧ alloc 1 = false then t.isEmpty = true
        else t.elements.Perm (s.elements.flatMap fun e => op.perform [e])) := by
  unfold performSfree
  split
  · rename_i hop
    rw [hop]
  · rename_i op stat hop
    have h : Sound N F op stat := compile_sound hp hop
    have himage : ∀ l : List (Element N F), (l.flatMap fun e => op.perform [e]) = l.map op.apply := by
      intro l
      simp only [Compiled.perform_singleton]
      exact List.map_eq_flatMap.symm
    refine ⟨fun e e' he q hq => ?_, fun chunk hch => ?_, fun hg => ?_⟩
    · rw [Compiled.perform_singleton, List.singleton_inj] at he
      subst he
      by_contra hn
      refine hq (h.apply_get (fun r hr hrq => hn ?_) e)
      rwa [← Fin.ext hrq]
    · by_contra hn
      refine hch ?_
      rw [himage]
      exact Compiled.perform_eq_map op chunk (Bool.eq_false_iff.mpr fun hsh => hn (h.shuffled hsh))
    · obtain ⟨t, ht, ha⟩ := applyProgram_spec hc h hs hne hg
      rw [hop]
      refine ⟨t, ht, ?_⟩
      rw [himage]
      split
      · rename_i hf
        rw [if_pos hf] at ha
        exact ha.2
      · rename_i hf
        rw [if_neg hf] at ha
        exact ha.perm

/-- One X on qubit `0`. -/
def flipZero : Queue := Queue.new.x 0

theorem flipZero_allowed : Allowed 1 flipZero.ops := fun p hp => by
  rw [List.mem_singleton.mp hp]
  refine ⟨fun q _ => rfl, fun _ _ => trivial, fun q hq => (by cases hq), fun q hq => ?_⟩
  rw [Op.writes, beq_iff_eq] at hq
  subst hq
  exact (by decide : (0 : Qubit).val < 64 * 1)

theorem compile_flipZero : flipZero.compile 1 Stat.default 32 =
    (some (.gate (.plain (.multiX (QubitSet.new.insert 0)))),
      ⟨1, false, QubitSet.new.insert 0⟩) := by
  have h : compileSeq 1 Stat.default flipZero.ops QubitSet.new 32 =
      ⟨⟨[], Stat.default⟩, QubitSet.new.insert 0, 0⟩ := by
    rw [compileSeq, show flipZero.ops = [(Control.always, Op.x 0)] from rfl, compileLoop_none rfl,
      compileLoop]
    rfl
  unfold Queue.compile
  rw [h]
  rfl

/-- Two amplitudes change places. -/
theorem performSfree_applies_pairState :
    ∃ t, (pairState ℝ).performSfree Context.default (fun _ => true) flipZero 32 = some t ∧
      t.elements.Perm [⟨BitSet.empty.toggle 0, ⟨1, 0⟩⟩, ⟨BitSet.empty, ⟨2, 0⟩⟩] := by
  have h := performSfree_applies (pairState ℝ) pairState_inv rfl flipZero flipZero_allowed 32
    Context.default Context.default_positive fun _ => true
  rw [compile_flipZero] at h
  obtain ⟨t, ht, hp⟩ := h.2.2 fun q _ => .inr rfl
  refine ⟨t, ht, ?_⟩
  rw [if_neg fun hf => by cases hf.2] at hp
  have hflip : ∀ e : Element 1 ℝ, (Compiled.gate (.plain (.multiX (QubitSet.new.insert 0)))).apply e =
      ⟨e.bits.toggle 0, e.val⟩ := by
    intro e
    have hset : (QubitSet.new.insert 0).iter.map Fin.val = [0] := by decide
    show (⟨e.bits.xor (BitSet.fromIter ((QubitSet.new.insert 0).iter.map Fin.val)), e.val⟩ :
      Element 1 ℝ) = _
    rw [hset]
    congr 1
    refine BitSet.ext_get fun i _ => ?_
    rw [BitSet.get_xor, BitSet.get_toggle (by decide), BitSet.get_fromIter [0] (by simp)]
    simp
  have htwice : ((BitSet.empty : BitSet 1).toggle 0).toggle 0 = BitSet.empty :=
    BitSet.toggle_toggle (by decide)
  have hel : (pairState ℝ).elements =
      [⟨BitSet.empty, ⟨1, 0⟩⟩, ⟨BitSet.empty.toggle 0, ⟨2, 0⟩⟩] := rfl
  simpa only [Compiled.perform_singleton, hflip, hel, List.flatMap_cons, List.flatMap_nil,
    List.singleton_append, htwice] using hp

/-- Elements are lost when the last reservation fails, and `perform_sfree` does not return on an
empty vector, or when a size of the context is zero. -/
theorem performSfree_loses :
    (∃ t, (zeroState ℝ).performSfree Context.default (fun i => i == 0) flipZero 32 = some t ∧
      t.elements = []) ∧
    (zeroState ℝ).clear.performSfree Context.default (fun _ => true) flipZero 32 = none ∧
    (zeroState ℝ).performSfree
      { Context.default with multithreadingThreshold := 0, workItemMaxSize := 0 }
      (fun _ => true) flipZero 32 = none := by
  have hsound : Sound 1 ℝ _ _ := compile_sound flipZero_allowed compile_flipZero
  unfold performSfree
  rw [compile_flipZero]
  refine ⟨?_, applyProgram_none Context.default_positive zeroState_inv.clear (.inl rfl), ?_⟩
  · obtain ⟨t, ht, he⟩ := applyProgram_spec Context.default_positive hsound zeroState_inv rfl
      (fun q _ => .inr rfl : partitionGranted _ (fun i => i == 0) _)
    rw [if_pos ⟨by decide, rfl⟩] at he
    exact ⟨t, ht, isEmpty_iff.mp he.2⟩
  · have h1 : (QubitSet.new.insert 0).len = 1 := by decide
    have hq : (QubitSet.new.insert 0).iter.head? = some 0 := by decide
    simp only [applyProgram, not_not.mpr hsound.inRange, if_false, h1, hq, if_true,
      Option.bind_eq_bind, Option.bind_some]
    rfl

end Statevector

end Qblaze
