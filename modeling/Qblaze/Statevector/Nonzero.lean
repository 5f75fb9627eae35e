import Qblaze.Unitary
import Qblaze.Statevector.Measure

/-!
# Interference does not empty a vector

An empty vector is the error flag of the simulator, and `accumulate` leaves out amplitudes. It compares
a sum with its first summand alone. Over the real numbers:

* `accumulate_dropped`: the norm of a sum that is left out is small, relative to the first summand.
* `pairOut_nonzero`: a unitary gate keeps the norm of a pair of amplitudes, and so it cannot be that
  both outputs of a pair are left out.
* `u4_nonzero`, `performSfree_nonzero`, `measure_nonzero`: the operations keep a nonzero amplitude.
-/

namespace Qblaze

/-- The threshold of `accumulate` is less than the root of one half. -/
def SmallEps [Eps ℝ] : Prop := 0 ≤ (Eps.eps : ℝ) ∧ 2 * (Eps.eps : ℝ) ^ 2 < 1

namespace Cplx

variable {a b : Cplx ℝ}

theorem norm2_pos (h : a ≠ ZERO) : 0 < a.norm2 := by
  rw [norm2_eq, Complex.normSq_pos]
  exact fun hz => h (toC_injective hz)

theorem norm2_nonneg (a : Cplx ℝ) : 0 ≤ a.norm2 := Complex.normSq_nonneg a.toC

@[simp] theorem norm2_zero : (ZERO : Cplx ℝ).norm2 = 0 := by
  simp [norm2, ZERO]

theorem norm2_le (a : Cplx ℝ) : a.norm2 ≤ 2 * a.normInf ^ 2 := by
  have hre : a.re ^ 2 ≤ a.normInf ^ 2 := sq_le_sq' (neg_le_of_abs_le (le_max_left _ _))
    ((le_abs_self _).trans (le_max_left _ _))
  have him : a.im ^ 2 ≤ a.normInf ^ 2 := sq_le_sq' (neg_le_of_abs_le (le_max_right _ _))
    ((le_abs_self _).trans (le_max_right _ _))
  unfold norm2
  linarith

theorem normInf_sq_le (a : Cplx ℝ) : a.normInf ^ 2 ≤ a.norm2 := by
  unfold normInf norm2
  rcases max_choice |a.re| |a.im| with h | h
  · rw [h, sq_abs]
    nlinarith [mul_self_nonneg a.im]
  · rw [h, sq_abs]
    nlinarith [mul_self_nonneg a.re]

theorem normInf_nonneg (a : Cplx ℝ) : 0 ≤ a.normInf := (abs_nonneg _).trans (le_max_left _ _)

variable [Eps ℝ]

/-- A sum that `accumulate` leaves out is small. -/
theorem accumulate_dropped (h : (a.accumulate b).2 = false) :
    (a + b).norm2 ≤ 2 * Eps.eps ^ 2 * a.norm2 := by
  have hle : (a + b).normInf ≤ Eps.eps * a.normInf := not_lt.mp (of_decide_eq_false h)
  calc (a + b).norm2 ≤ 2 * (a + b).normInf ^ 2 := norm2_le _
    _ ≤ 2 * (Eps.eps * a.normInf) ^ 2 := by
      have := pow_le_pow_left₀ (normInf_nonneg _) hle 2
      linarith
    _ = 2 * Eps.eps ^ 2 * a.normInf ^ 2 := by ring
    _ ≤ 2 * Eps.eps ^ 2 * a.norm2 :=
      mul_le_mul_of_nonneg_left (normInf_sq_le a) (by positivity)

end Cplx

/-- The matrix of the gate is unitary. -/
def U4.Unitary (gate : U4 ℝ) : Prop :=
  Mat.mk gate.v00.toC gate.v11.toC gate.v01.toC gate.v10.toC ∈ Matrix.unitaryGroup Bool ℂ

theorem U4.ofU3_unitary (g : U3) : (U4.ofU3 g : U4 ℝ).Unitary := by
  unfold Unitary
  rw [← U3.ofU3_mat]
  exact g.mat_unitary

variable {N : Nat} {gate : U4 ℝ} {q : Qubit} {ctx : Context}

/-- A unitary gate keeps the norm of a pair. -/
theorem U4.Unitary.norm2_out (h : gate.Unitary) (a b : Cplx ℝ) :
    (gate.out false a b).norm2 + (gate.out true a b).norm2 = a.norm2 + b.norm2 := by
  simp only [Cplx.norm2_eq, U4.out, Bool.false_eq_true, if_false, if_true, Cplx.toC_add,
    Cplx.toC_mul]
  exact Mat.isometry h a.toC b.toC

theorem U4.Unitary.norm2_column (h : gate.Unitary) (a : Cplx ℝ) :
    (gate.v00 * a).norm2 + (gate.v01 * a).norm2 = a.norm2 := by
  have hout := h.norm2_out a Cplx.ZERO
  simp only [U4.out, Bool.false_eq_true, if_false, if_true, Cplx.mul_ZERO, Cplx.add_ZERO] at hout
  rw [hout, Cplx.norm2_zero, add_zero]

namespace Statevector

/-- Some stored amplitude is not zero. -/
def Nonzero (s : Statevector N ℝ) : Prop := ∃ e ∈ s.elements, e.val ≠ Cplx.ZERO

variable {s t : Statevector N ℝ}

theorem Nonzero.isEmpty (h : s.Nonzero) : s.isEmpty = false := by
  obtain ⟨e, he, -⟩ := h
  rw [Bool.eq_false_iff, Ne, isEmpty_iff]
  intro hs
  rw [hs] at he
  cases he

theorem Nonzero.perm (h : s.Nonzero) (hp : t.elements.Perm s.elements) : t.Nonzero := by
  obtain ⟨e, he, hne⟩ := h
  exact ⟨e, hp.mem_iff.mpr he, hne⟩

/-! ## Superposition-free programs -/

/-- A program multiplies an amplitude by a phase. -/
theorem apply_nonzero {op : Compiled} (h : op.inRange N) {e : Element N ℝ} (he : e.val ≠ Cplx.ZERO) :
    (op.apply e).val ≠ Cplx.ZERO := by
  have hval := (Compiled.apply_holds op e _ h (holds_start e)).val
  intro hz
  rw [hz, Cplx.toC_zero, eq_comm, mul_eq_zero] at hval
  exact hval.elim (fun h0 => he (Cplx.toC_injective h0)) (Angle.phase_ne_zero _)

/-- `perform_sfree` keeps the number of elements and the nonzero amplitudes. -/
theorem performSfree_nonzero {opq : Queue} {prec : Nat} {alloc : Nat → Bool}
    (ha : ∀ i, alloc i = true) (hs : s.Inv) (hp : Allowed N opq.ops)
    (ht : s.performSfree ctx alloc opq prec = some t) :
    t.Inv ∧ t.len = s.len ∧ (s.Nonzero → t.Nonzero) := by
  rcases performSfree_of_some ha hs hp ht with rfl | ⟨op, stat, -, hr, happ⟩
  · exact ⟨hs, rfl, fun h => h⟩
  · refine ⟨happ.inv, ?_, ?_⟩
    · rw [len_eq, len_eq, happ.perm.length_eq, List.length_map]
    · rintro ⟨e, he, hne⟩
      exact ⟨op.apply e, happ.perm.mem_iff.mpr (List.mem_map.mpr ⟨e, he, rfl⟩), apply_nonzero hr hne⟩

/-- A vector that grows keeps a nonzero amplitude. -/
theorem importFrom_nonzero {M : Nat} {v : Statevector M ℝ} {u : Statevector N ℝ}
    (h : u.importFrom true v = some t) (hv : v.Nonzero) : t.Nonzero := by
  obtain ⟨e, he, hval⟩ := hv
  rcases importFrom_cases h with ⟨hf, -⟩ | ⟨-, rfl⟩
  · cases hf
  · refine ⟨resizeElement _ e, ?_, hval⟩
    rw [elements, ← List.map_append]
    exact List.mem_map.mpr ⟨e, he, rfl⟩

/-! ## Weights -/

theorem weight_nonneg (l : List (Element N ℝ)) (v : Bool) : 0 ≤ weight l q v := by
  refine List.sum_nonneg fun x hx => ?_
  obtain ⟨e, -, rfl⟩ := List.mem_map.mp hx
  exact Cplx.norm2_nonneg _

/-- An outcome has weight if and only if a nonzero amplitude is stored for it. -/
theorem weight_ne_zero {l : List (Element N ℝ)} {v : Bool} :
    weight l q v ≠ 0 ↔ ∃ e ∈ l, e.bits.get q = v ∧ e.val ≠ Cplx.ZERO := by
  constructor
  · intro h
    by_contra hcon
    push Not at hcon
    refine h (List.sum_eq_zero fun x hx => ?_)
    obtain ⟨e, he, rfl⟩ := List.mem_map.mp hx
    obtain ⟨he, hb⟩ := List.mem_filter.mp he
    rw [hcon e he (by simpa using hb), Cplx.norm2_zero]
  · rintro ⟨e, he, hb, hne⟩
    have hle : e.val.norm2 ≤ weight l q v := by
      refine List.single_le_sum (fun x hx => ?_) _
        (List.mem_map.mpr ⟨e, List.mem_filter.mpr ⟨he, by simpa using hb⟩, rfl⟩)
      obtain ⟨e, -, rfl⟩ := List.mem_map.mp hx
      exact Cplx.norm2_nonneg _
    exact ((Cplx.norm2_pos hne).trans_le hle).ne'

/-- A vector with a nonzero amplitude has a norm. -/
theorem Nonzero.weight_add (h : s.Nonzero) (q : Qubit) :
    weight s.elements q false + weight s.elements q true ≠ 0 := by
  obtain ⟨e, he, hne⟩ := h
  have h0 := @weight_nonneg N q s.elements false
  have h1 := @weight_nonneg N q s.elements true
  have hpos : 0 < weight s.elements q (e.bits.get q) :=
    lt_of_le_of_ne (weight_nonneg _ _) (weight_ne_zero.mpr ⟨e, he, rfl, hne⟩).symm
  cases hb : e.bits.get q with
  | false =>
    rw [hb] at hpos
    exact (add_pos_of_pos_of_nonneg hpos h1).ne'
  | true =>
    rw [hb] at hpos
    exact (add_pos_of_nonneg_of_pos h0 hpos).ne'

/-! ## Gates -/

variable [Eps ℝ]

/-- What is left out of a pair is small, relative to the first amplitude. -/
theorem pairOut_dropped {v : Bool} {a b : Option (Cplx ℝ)}
    (hab : a.getD Cplx.ZERO ≠ Cplx.ZERO ∨ b.getD Cplx.ZERO ≠ Cplx.ZERO)
    (h : ∀ z, pairOut gate v a b = some z → z = Cplx.ZERO) :
    (gate.out v (a.getD Cplx.ZERO) (b.getD Cplx.ZERO)).norm2 ≤
      2 * Eps.eps ^ 2 * ((if v then gate.v01 else gate.v00) * a.getD Cplx.ZERO).norm2 := by
  unfold pairOut at h
  split at h
  · rename_i hn
    rw [hn.1, hn.2] at hab
    exact absurd rfl (hab.elim id id)
  split at h
  · rename_i hk
    have hk := hk.2.2
    unfold U4.keeps at hk
    unfold U4.out
    cases v with
    | false => exact Cplx.accumulate_dropped hk
    | true => exact Cplx.accumulate_dropped hk
  · rw [h _ rfl]
    rw [Cplx.norm2_zero]
    exact mul_nonneg (by positivity) (Cplx.norm2_nonneg _)

/-- The outputs of a pair are not both left out. -/
theorem pairOut_nonzero (heps : SmallEps) (hu : gate.Unitary) {a b : Option (Cplx ℝ)}
    (hab : a.getD Cplx.ZERO ≠ Cplx.ZERO ∨ b.getD Cplx.ZERO ≠ Cplx.ZERO) :
    ∃ v z, pairOut gate v a b = some z ∧ z ≠ Cplx.ZERO := by
  by_contra hcon
  push Not at hcon
  have h0 := pairOut_dropped hab (hcon false)
  have h1 := pairOut_dropped hab (hcon true)
  have hout := hu.norm2_out (a.getD Cplx.ZERO) (b.getD Cplx.ZERO)
  have hcol := hu.norm2_column (a.getD Cplx.ZERO)
  have ha := Cplx.norm2_nonneg (a.getD Cplx.ZERO)
  have hb := Cplx.norm2_nonneg (b.getD Cplx.ZERO)
  have hpos : 0 < (a.getD Cplx.ZERO).norm2 + (b.getD Cplx.ZERO).norm2 :=
    hab.elim (fun h => add_pos_of_pos_of_nonneg (Cplx.norm2_pos h) hb)
      fun h => add_pos_of_nonneg_of_pos ha (Cplx.norm2_pos h)
  simp only [Bool.false_eq_true, if_false, if_true] at h0 h1
  have hsum : (a.getD Cplx.ZERO).norm2 + (b.getD Cplx.ZERO).norm2 ≤
      2 * Eps.eps ^ 2 * (a.getD Cplx.ZERO).norm2 := by
    rw [← hout, ← hcol]
    linarith
  have hlt : 2 * Eps.eps ^ 2 * (a.getD Cplx.ZERO).norm2 ≤ (a.getD Cplx.ZERO).norm2 :=
    mul_le_of_le_one_left ha heps.2.le
  have hb0 : (b.getD Cplx.ZERO).norm2 = 0 := by linarith
  rw [hb0, add_zero] at hpos hsum
  nlinarith [mul_lt_mul_of_pos_right heps.2 hpos]

/-- `perform_u4` leaves a nonzero amplitude. -/
theorem u4_nonzero (heps : SmallEps) (hu : gate.Unitary) (hs : s.Inv) (hq : q.val < 64 * N)
    {alloc : Nat → Bool} (ha : ∀ i, alloc i = true) (hne : s.Nonzero) :
    (s.u4 alloc q gate).Nonzero := by
  have hg : s.u4Granted alloc q gate = true := by simp [u4Granted, tryReserve, ha]
  have h := halves_partitionOn hs hq true
  have hp : (s.partitionOn true q).elements.Perm s.elements := partitionOn_perm (.inr (by simp [tryReserve]))
  rw [u4_granted hg]
  obtain ⟨e, he, hval⟩ := hne.perm hp
  have hlook := h.inv.lookup_eq_some.mpr he
  -- the element of the pair whose bit is 0
  obtain ⟨x, hx, hab⟩ : ∃ x : BitSet N, x.get q = false ∧
      (((s.partitionOn true q).lookup x).getD Cplx.ZERO ≠ Cplx.ZERO ∨
        ((s.partitionOn true q).lookup (x.toggle q)).getD Cplx.ZERO ≠ Cplx.ZERO) := by
    cases hb : e.bits.get q with
    | false => exact ⟨e.bits, hb, .inl (by rw [hlook]; exact hval)⟩
    | true =>
      refine ⟨e.bits.toggle q, ?_, .inr ?_⟩
      · rw [BitSet.get_toggle hq, hb, decide_eq_true rfl]
        rfl
      · rw [BitSet.toggle_toggle hq, hlook]
        exact hval
  obtain ⟨h0, h1⟩ := @Halves.pairOut_eq _ _ _ _ _ _ _ gate _ h partitionOn_partitionedBy hx
  have hi := @Halves.result_inv _ _ _ _ _ _ _ gate h partitionOn_partitionedBy
  obtain ⟨v, z, hz, hzne⟩ := pairOut_nonzero heps hu hab
  cases v with
  | false => exact ⟨_, hi.lookup_eq_some.mp (h0.trans hz), hzne⟩
  | true => exact ⟨_, hi.lookup_eq_some.mp (h1.trans hz), hzne⟩

/-- `measure` keeps a nonzero amplitude of its outcome. -/
theorem measure_nonzero {v : Bool} {scale : ℝ} (hs : s.Inv) (hscale : scale ≠ 0)
    (h : s.measure ctx true q v scale = some t)
    (hne : ∃ e ∈ s.elements, e.bits.get q = v ∧ e.val ≠ Cplx.ZERO) : t.Nonzero := by
  obtain ⟨e, he, hb, hval⟩ := hne
  have hmem : ∀ g : Element N ℝ → Element N ℝ, g e ∈ (s.collapse q v g).elements := fun g => by
    rw [collapse_elements]
    exact List.mem_map.mpr ⟨e, List.mem_filter.mpr ⟨he, by simpa using hb⟩, rfl⟩
  rcases measure_cases hs h with ⟨hf, -⟩ | ⟨-, rfl⟩ | rfl
  · cases hf
  · exact ⟨e, hmem id, hval⟩
  · refine ⟨_, hmem (rescale scale), fun hz => hval (Cplx.toC_injective ?_)⟩
    have hdiv := congrArg Cplx.toC hz
    rw [rescale, Cplx.toC_divScale, Cplx.toC_zero, div_eq_zero_iff] at hdiv
    rw [Cplx.toC_zero]
    exact hdiv.resolve_right (Complex.ofReal_ne_zero.mpr hscale)

end Statevector

end Qblaze
