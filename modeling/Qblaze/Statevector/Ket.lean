import Qblaze.Lib.Norm
import Qblaze.Sfree.Operator
import Qblaze.Statevector.Measure

/-!
# The state that a vector stores

A vector stands for the sum of its basis states, each with its amplitude. With exact arithmetic the
operations on vectors are operators on this sum. An amplitude that `accumulate` leaves out is zero.

* `u4_toKet`: `perform_u4` is the gate.
* `performSfree_toKet`: `perform_sfree` is the queue, up to a global phase.
* `importFrom_toKet`, `new_toKet`: a vector with more words stores the same state.
-/

namespace Qblaze

variable {N M : Nat}

/-- The basis state of an element, with its amplitude. -/
noncomputable def Element.toKet (e : Element N ℝ) : Ket Qubit := e.val.toC • ket e.bits.toState

/-- The sum of some elements. -/
noncomputable def elementsKet (l : List (Element N ℝ)) : Ket Qubit := (l.map Element.toKet).sum

/-- The state that a vector stores. -/
noncomputable def Statevector.toKet (s : Statevector N ℝ) : Ket Qubit := elementsKet s.elements

section

variable {l l' : List (Element N ℝ)} {e : Element N ℝ}

theorem elementsKet_nil : elementsKet ([] : List (Element N ℝ)) = 0 := rfl

theorem elementsKet_cons : elementsKet (e :: l) = e.toKet + elementsKet l := List.sum_cons

theorem elementsKet_singleton : elementsKet [e] = e.toKet := by
  rw [elementsKet_cons, elementsKet_nil, add_zero]

theorem elementsKet_append : elementsKet (l ++ l') = elementsKet l + elementsKet l' := by
  rw [elementsKet, List.map_append, List.sum_append]
  rfl

theorem elementsKet_perm (h : l.Perm l') : elementsKet l = elementsKet l' := (h.map _).sum_eq

/-- Elements that are changed one by one. -/
theorem elementsKet_map {f : Element M ℝ → Element N ℝ} {A : Operator Qubit} {l : List (Element M ℝ)}
    (h : ∀ e ∈ l, (f e).toKet = A e.toKet) : elementsKet (l.map f) = A (elementsKet l) := by
  rw [elementsKet, elementsKet, map_list_sum, List.map_map, List.map_map]
  exact congrArg List.sum (List.map_congr_left h)

end

/-! ## Gates -/

/-- The elements of an item of a merge. -/
def MergeEq.items {α : Type} : MergeEq α → List α
  | lhs a => [a]
  | rhs b => [b]
  | both a b => [a, b]

/-- A merge goes through every element once. -/
theorem mergeEq_perm {α K : Type} [LinearOrder K] (f : α → K) (v1 v2 : List α) :
    ((mergeEq f v1 v2).flatMap MergeEq.items).Perm (v1 ++ v2) := by
  induction v1, v2 using mergeEq.induct f with
  | case1 v2 =>
    rw [mergeEq_nil_left, List.flatMap_map]
    exact List.Perm.of_eq (List.flatMap_singleton' v2)
  | case2 v1 _ =>
    rw [mergeEq_nil_right, List.flatMap_map, List.append_nil]
    exact List.Perm.of_eq (List.flatMap_singleton' v1)
  | case3 e1 v1 e2 v2 he ih =>
    rw [mergeEq, if_pos he, List.flatMap_cons]
    exact ((ih.cons e2).trans List.perm_middle.symm).cons e1
  | case4 e1 v1 e2 v2 he hlt ih =>
    rw [mergeEq, if_neg he, if_pos hlt, List.flatMap_cons]
    exact ih.cons e1
  | case5 e1 v1 e2 v2 he hlt ih =>
    rw [mergeEq, if_neg he, if_neg hlt, List.flatMap_cons]
    exact (ih.cons e2).trans List.perm_middle.symm

/-- The matrix of a gate. -/
noncomputable def U4.mat (gate : U4 ℝ) : Mat :=
  Mat.mk gate.v00.toC gate.v11.toC gate.v01.toC gate.v10.toC

variable {q : Qubit} {g : U4 ℝ} {s t : Statevector N ℝ}

theorem BitSet.toState_toggle_flipAt {b : BitSet N} (h : q.val < 64 * N) :
    (b.toggle q.val).toState = flipAt q b.toState := by
  rw [BitSet.toState_toggle h, flip_single]

/-- A gate on an element. -/
theorem gate_toKet (e : Element N ℝ) (M : Mat) (q : Qubit) : gate q M e.toKet =
    (M (e.bits.get q) (e.bits.get q) * e.val.toC) • ket e.bits.toState +
      (M (!e.bits.get q) (e.bits.get q) * e.val.toC) • ket (flipAt q e.bits.toState) := by
  rw [Element.toKet, map_smul, gate_ket, smul_add, smul_smul, smul_smul, mul_comm e.val.toC,
    mul_comm e.val.toC]
  rfl

/-- An amplitude that is left out is zero. -/
theorem kept_toKet (b : BitSet N) (z w : Cplx ℝ) :
    elementsKet (if (z.accumulate w).2 = true then [(⟨b, (z.accumulate w).1⟩ : Element N ℝ)] else []) =
      (z.toC + w.toC) • ket b.toState := by
  rw [Cplx.accumulate_exact]
  simp only [decide_eq_true_eq]
  by_cases h : (z + w).toC = 0
  · rw [if_neg (not_not.mpr h), elementsKet_nil, ← Cplx.toC_add, h, zero_smul]
  · rw [if_pos h, elementsKet_singleton, Element.toKet, Cplx.toC_add]

/-- What is written for an item is the gate applied to its elements. -/
theorem u4Write_toKet {m : MergeEq (Element N ℝ)} (hq : q.val < 64 * N) (h : s.Halves q)
    (hm : m ∈ s.u4Items q) :
    elementsKet (Statevector.u4Write q g m).1 + elementsKet (Statevector.u4Write q g m).2 =
      gate q g.mat (elementsKet m.items) := by
  rw [h.mem_items] at hm
  cases m with
  | lhs a =>
    have ha := h.bit0 a hm.1
    rw [MergeEq.items, elementsKet_singleton, gate_toKet, ha]
    unfold Statevector.u4Write U4.apply
    simp only [Bool.false_eq_true, if_false]
    rw [elementsKet_singleton, elementsKet_singleton, Element.toKet, Element.toKet,
      BitSet.toState_toggle_flipAt hq, Cplx.toC_mul, Cplx.toC_mul]
    rfl
  | rhs b =>
    have hb := h.bit1 b hm.1
    rw [MergeEq.items, elementsKet_singleton, gate_toKet, hb, add_comm]
    unfold Statevector.u4Write U4.apply
    simp only [if_true]
    rw [elementsKet_singleton, elementsKet_singleton, Element.toKet, Element.toKet,
      BitSet.toState_toggle_flipAt hq, Cplx.toC_mul, Cplx.toC_mul]
    rfl
  | both a b =>
    obtain ⟨ha, hb, hab⟩ := hm
    have ha := h.bit0 a ha
    have hb := h.bit1 b hb
    -- the bits of the two elements differ in `q` alone
    have hbits : b.bits = a.bits.toggle q := by
      refine BitSet.without_inj hq ?_ ?_
      · rw [BitSet.get_toggle hq, ha, hb, decide_eq_true rfl]
        rfl
      · rw [BitSet.without_toggle hq]
        exact hab.symm
    rw [MergeEq.items, elementsKet_cons, elementsKet_singleton, map_add, gate_toKet, gate_toKet, ha, hb,
      hbits, BitSet.toState_toggle_flipAt hq, flipAt_flipAt]
    unfold Statevector.u4Write U4.apply
    simp only [Bool.false_eq_true, if_false, if_true]
    rw [kept_toKet, kept_toKet, hbits, BitSet.toState_toggle_flipAt hq]
    simp only [Cplx.toC_mul, U4.mat, Bool.not_false, Bool.not_true, Mat.mk_false_false,
      Mat.mk_false_true, Mat.mk_true_false, Mat.mk_true_true]
    module

/-- What is written for some items. -/
theorem u4Writes_toKet {l : List (MergeEq (Element N ℝ))} (hq : q.val < 64 * N) (h : s.Halves q)
    (hl : ∀ m ∈ l, m ∈ s.u4Items q) :
    elementsKet (l.flatMap fun m => (Statevector.u4Write q g m).1) +
        elementsKet (l.flatMap fun m => (Statevector.u4Write q g m).2) =
      gate q g.mat (elementsKet (l.flatMap MergeEq.items)) := by
  induction l with
  | nil => rw [List.flatMap_nil, List.flatMap_nil, List.flatMap_nil, elementsKet_nil, map_zero, add_zero]
  | cons m l ih =>
    rw [List.flatMap_cons, List.flatMap_cons, List.flatMap_cons, elementsKet_append, elementsKet_append,
      elementsKet_append, add_add_add_comm, u4Write_toKet hq h (hl m (List.mem_cons_self ..)),
      ih fun m' hm => hl m' (List.mem_cons_of_mem _ hm), map_add]

namespace Statevector

theorem toKet_perm (h : s.elements.Perm t.elements) : s.toKet = t.toKet := elementsKet_perm h

/-- `perform_u4` is the gate, if no reservation fails. -/
theorem u4_toKet {alloc : Nat → Bool} (hs : s.Inv) (hq : q.val < 64 * N) (ha : ∀ i, alloc i = true) :
    (s.u4 alloc q g).toKet = gate q g.mat s.toKet := by
  have hg : s.u4Granted alloc q g = true := by simp [u4Granted, tryReserve, ha]
  have h := halves_partitionOn hs hq true
  have hp : (s.partitionOn true q).elements.Perm s.elements := partitionOn_perm (.inr (by simp [tryReserve]))
  rw [u4_granted hg, ← toKet_perm hp, toKet, toKet]
  generalize s.partitionOn true q = r at h
  have hitems : elementsKet r.elements = elementsKet ((r.u4Items q).flatMap MergeEq.items) :=
    (elementsKet_perm (mergeEq_perm _ _ _)).symm
  rw [hitems, elements, elementsKet_append]
  exact u4Writes_toKet hq h fun _ hm => hm

/-! ## Queues -/

/-- The operations of a queue on an element. -/
theorem performOps_toKet {ops : OpSeq} (hw : ∀ p ∈ ops, ∀ q, p.2.writes q = true → Fits N q)
    (e : Element N ℝ) : (performOps ops e).toKet = opsOperator ops e.toKet := by
  have h : Holds (performOps ops e) (runOps angles ops (e.bits.toState, 0)) e.val.toC :=
    performOps_holds hw (holds_start e)
  rw [Element.toKet, h.bits, h.val, Element.toKet, map_smul, opsOperator_ket, smul_smul]

/-- `perform_sfree` is the queue, up to a global phase. -/
theorem performSfree_toKet {ctx : Context} {alloc : Nat → Bool} {opq : Queue} {prec : Nat}
    (ha : ∀ i, alloc i = true) (hs : s.Inv)
    (hp : ∀ p ∈ opq.ops, Legal (Fits N) (Angle.Fixed prec) p)
    (h : s.performSfree ctx alloc opq prec = some t) :
    UpToPhase t.toKet (opsOperator opq.ops s.toKet) := by
  have hw : ∀ p ∈ opq.ops, ∀ q, p.2.writes q = true → Fits N q := fun p hm => (hp p hm).writes
  have hallowed : Allowed N opq.ops := fun p hm =>
    ⟨(hp p hm).disjoint, fun _ _ => trivial, (hp p hm).reads, (hp p hm).writes⟩
  obtain ⟨l, a, hc, -, he⟩ := opq.compile_elements (N := N) Stat.default hp
  -- the programs leave out the phase `a`
  have hphase : ∀ e : Element N ℝ, opsOperator opq.ops e.toKet =
      a.phase • (Compiled.applySeq l e).toKet := fun e => by
    rw [← performOps_toKet hw, he]
    rw [Element.toKet, Element.toKet, BaseGate.perform, Cplx.toC_mul, Cplx.toC_fromArg, smul_smul,
      mul_comm]
  have hsum : a.phase • elementsKet (s.elements.map (Compiled.applySeq l)) =
      opsOperator opq.ops s.toKet := by
    rw [toKet, elementsKet, elementsKet, List.smul_sum, map_list_sum, List.map_map, List.map_map,
      List.map_map]
    exact congrArg List.sum (List.map_congr_left fun e _ => (hphase e).symm)
  have hto : t.toKet = elementsKet (s.elements.map (Compiled.applySeq l)) := by
    unfold performSfree at h
    cases hop : opq.compile N Stat.default prec with
    | mk op stat =>
      rw [hop] at h hc
      cases l with
      | nil =>
        cases hc
        cases h
        rw [toKet]
        exact congrArg elementsKet (List.map_id' _).symm
      | cons p l =>
        cases hc
        have happ := applyProgram_of_some ha (compile_sound hallowed hop) hs h
        rw [toKet, elementsKet_perm happ.perm]
        exact congrArg elementsKet (List.map_congr_left fun e _ => Compiled.fromSeq_apply)
  rw [hto, ← hsum]
  exact (UpToPhase.smul (Angle.norm_phase a) _).symm

/-! ## Growing -/

/-- A vector with more words stores the same state. -/
theorem importFrom_toKet (hM : M ≤ N) {data : Statevector M ℝ}
    (h : s.importFrom true data = some t) : t.toKet = data.toKet := by
  rcases importFrom_cases h with ⟨hf, -⟩ | ⟨-, rfl⟩
  · cases hf
  · rw [toKet, elements, ← List.map_append, toKet]
    refine (elementsKet_map (A := 1) fun e _ => ?_)
    rw [Element.toKet, resizeElement, Module.End.one_apply, Element.toKet]
    congr 2
    exact funext fun r => BitSet.get_resize hM e.bits r.val

/-- A new vector stores `|0...0>`. -/
theorem new_toKet (h : Statevector.new N true = some t) : t.toKet = ket fun _ => false := by
  unfold Statevector.new at h
  obtain ⟨q, -, ht⟩ := Option.bind_eq_some_iff.mp h
  cases ht
  rw [toKet, elements, List.append_nil]
  refine elementsKet_singleton.trans ?_
  rw [Element.toKet, show (⟨1, 0⟩ : Cplx ℝ).toC = 1 from rfl, one_smul]
  congr 1
  exact funext fun r => BitSet.get_empty

/-! ## Measurement -/

section

variable {l : List (Element N ℝ)} {v : Bool}

theorem toState_injective (hN : N ≤ 62) : Function.Injective (BitSet.toState : BitSet N → Qubit → Bool) := by
  intro a b h
  refine BitSet.ext_get fun i hi => ?_
  exact congrFun h ⟨i, by omega⟩

theorem elementsKet_apply_eq_zero {x : Qubit → Bool} (h : ∀ e ∈ l, e.bits.toState ≠ x) :
    elementsKet l x = 0 := by
  induction l with
  | nil => rw [elementsKet_nil, Pi.zero_apply]
  | cons e l ih =>
    rw [elementsKet_cons, Pi.add_apply, ih fun r hr => h r (List.mem_cons_of_mem _ hr), Element.toKet,
      Pi.smul_apply, ket_apply, if_neg (Ne.symm (h e (List.mem_cons_self ..))), smul_zero, add_zero]

/-- The squared norm of elements with different bits. -/
theorem norm2_elementsKet (hN : N ≤ 62) (hd : Distinct l) :
    norm2 (elementsKet l) = (l.map fun e => e.val.norm2).sum := by
  induction l with
  | nil => rw [elementsKet_nil, norm2_zero, List.map_nil, List.sum_nil]
  | cons e l ih =>
    rw [Distinct, List.pairwise_cons] at hd
    have hz : elementsKet l e.bits.toState = 0 :=
      elementsKet_apply_eq_zero fun r hr he => hd.1 r hr (toState_injective hN he.symm)
    rw [elementsKet_cons, Element.toKet, norm2_smul_ket_add _ hz, ih hd.2, List.map_cons, List.sum_cons,
      Cplx.norm2_eq]

/-- A component is the elements with the value. -/
theorem gate_proj_elementsKet (q : Qubit) (v : Bool) (l : List (Element N ℝ)) :
    gate q (Mat.proj v) (elementsKet l) = elementsKet (l.filter fun e => e.bits.get q == v) := by
  induction l with
  | nil => rw [elementsKet_nil, map_zero, List.filter_nil, elementsKet_nil]
  | cons e l ih =>
    have hx : e.bits.toState q = e.bits.get q := rfl
    rw [elementsKet_cons, map_add, ih, Element.toKet, map_smul, gate_proj_ket, hx]
    by_cases hv : e.bits.get q = v
    · rw [if_pos hv, List.filter_cons_of_pos (by rw [hv]; exact beq_self_eq_true v), elementsKet_cons,
        Element.toKet]
    · rw [if_neg hv, List.filter_cons_of_neg (by rw [beq_iff_eq]; exact hv), smul_zero, zero_add]

/-- The weights of `premeasure` are the squared norms of the components. -/
theorem weight_eq_norm2 (hN : N ≤ 62) (hs : s.Inv) (q : Qubit) (v : Bool) :
    weight s.elements q v = norm2 (gate q (Mat.proj v) s.toKet) := by
  rw [toKet, gate_proj_elementsKet, norm2_elementsKet hN (hs.distinct.filter _)]
  rfl

/-- A qubit past the end of the vector is 0. -/
theorem gate_proj_of_ge (h : 64 * N ≤ q.val) : gate q (Mat.proj false) s.toKet = s.toKet := by
  rw [toKet, gate_proj_elementsKet, List.filter_eq_self.mpr fun e _ => ?_]
  rw [BitSet.get_of_ge _ h]
  rfl

/-- `measure` is a projection. -/
theorem measure_toKet {ctx : Context} {scale : ℝ} (hs : s.Inv)
    (h : s.measure ctx true q v scale = some t) :
    t.toKet = (scale : ℂ)⁻¹ • gate q (Mat.proj v) s.toKet := by
  rcases measure_cases hs h with ⟨hf, -⟩ | ⟨hlt, -⟩ | rfl
  · cases hf
  · exact absurd hlt (not_lt.mpr (abs_nonneg _))
  · rw [toKet, collapse_elements, toKet, gate_proj_elementsKet]
    refine (elementsKet_map (A := (scale : ℂ)⁻¹ • 1) fun e _ => ?_)
    rw [LinearMap.smul_apply, Module.End.one_apply, Element.toKet, Element.toKet, rescale, Cplx.toC_divScale,
      smul_smul, div_eq_inv_mul]

end

end Statevector

end Qblaze
