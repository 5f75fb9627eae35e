import Mathlib.Algebra.Order.Floor.Semiring
import Mathlib.Data.Fin.Tuple.Basic
import Mathlib.SetTheory.Cardinal.Finite
import Mathlib.Order.Interval.Finset.Fin
import Mathlib.Tactic.Linarith
import Qblaze.Lib.Norm

/-!
# Ideal measurements

A state of a register is a vector up to a nonzero factor. A qubit has each of its values with the
probability that the squared norms of the components tell, and after a measurement the state is the
component of the outcome.

* `UpToScale`: two vectors are the same state.
* `born`: the probability of a value. `choose`: the outcome that a number of random bits selects.
* `Determined`: a qubit with one value. Operations that commute with its projection keep the value.
* `card_choose`: as many patterns of the bits select an outcome as its probability says, up to one.
* `Event.outcomes_card`: the same of the outcomes of a sequence of measurements, with operations in
  between. The error adds up, and a sequence that is impossible does not occur.
-/

namespace Qblaze

open Mat

/-! ## States up to a factor -/

section

variable {V : Type} [AddCommGroup V] [Module ℂ V] {a b d : V}

/-- Equality up to a nonzero factor. -/
def UpToScale (a b : V) : Prop := ∃ c : ℂ, c ≠ 0 ∧ a = c • b

theorem UpToScale.refl (a : V) : UpToScale a a := ⟨1, one_ne_zero, (one_smul ℂ a).symm⟩

theorem UpToScale.symm (h : UpToScale a b) : UpToScale b a := by
  obtain ⟨c, hc, rfl⟩ := h
  exact ⟨c⁻¹, inv_ne_zero hc, by rw [smul_smul, inv_mul_cancel₀ hc, one_smul]⟩

theorem UpToScale.trans (h : UpToScale a b) (h' : UpToScale b d) : UpToScale a d := by
  obtain ⟨c, hc, rfl⟩ := h
  obtain ⟨c', hc', rfl⟩ := h'
  exact ⟨c * c', mul_ne_zero hc hc', by rw [smul_smul]⟩

theorem UpToScale.map (f : Module.End ℂ V) (h : UpToScale a b) : UpToScale (f a) (f b) := by
  obtain ⟨c, hc, rfl⟩ := h
  exact ⟨c, hc, map_smul f c b⟩

theorem UpToScale.ne_zero (h : UpToScale a b) (hb : b ≠ 0) : a ≠ 0 := by
  obtain ⟨c, hc, rfl⟩ := h
  exact smul_ne_zero hc hb

theorem UpToPhase.scale (h : UpToPhase a b) : UpToScale a b := by
  obtain ⟨c, hc, rfl⟩ := h
  exact ⟨c, norm_ne_zero_iff.mp (by rw [hc]; exact one_ne_zero), rfl⟩

end

/-! ## Probabilities -/

variable {ι : Type} [Fintype ι] [DecidableEq ι] {ψ φ : Ket ι} {q : ι} {b : Bool}

theorem norm2_pos (h : ψ ≠ 0) : 0 < norm2 ψ :=
  lt_of_le_of_ne (norm2_nonneg ψ) fun h0 => h (eq_zero_of_norm2 h0.symm)

theorem ket_ne_zero (x : ι → Bool) : ket x ≠ 0 := by
  intro h0
  have hone := norm2_ket x
  rw [h0, norm2_zero] at hone
  exact zero_ne_one hone

/-- The probability that a qubit has the value `b`. -/
noncomputable def born (q : ι) (ψ : Ket ι) (b : Bool) : ℝ := norm2 (gate q (proj b) ψ) / norm2 ψ

theorem born_nonneg (q : ι) (ψ : Ket ι) (b : Bool) : 0 ≤ born q ψ b :=
  div_nonneg (norm2_nonneg _) (norm2_nonneg _)

theorem born_add (q : ι) (h : ψ ≠ 0) : born q ψ false + born q ψ true = 1 := by
  rw [born, born, ← add_div, norm2_proj_add, div_self (norm2_pos h).ne']

theorem born_le_one (q : ι) (ψ : Ket ι) (b : Bool) : born q ψ b ≤ 1 := by
  refine div_le_one_of_le₀ ?_ (norm2_nonneg ψ)
  have h := norm2_proj_add q ψ
  have h0 := norm2_nonneg (gate q (proj false) ψ)
  have h1 := norm2_nonneg (gate q (proj true) ψ)
  cases b <;> linarith

/-- The probabilities do not depend on the factor. -/
theorem UpToScale.born_eq (h : UpToScale ψ φ) (q : ι) : born q ψ = born q φ := by
  obtain ⟨c, hc, rfl⟩ := h
  funext b
  rw [born, born, map_smul, norm2_smul, norm2_smul,
    mul_div_mul_left _ _ fun h0 => hc (Complex.normSq_eq_zero.mp h0)]

/-- An outcome with a probability leaves a state. -/
theorem proj_ne_zero (h : born q ψ b ≠ 0) : gate q (proj b) ψ ≠ 0 := fun h0 => h (by
  rw [born, h0, norm2_zero, zero_div])

/-! ## The outcome for random bits -/

section

variable {w : Nat} {p0 p1 : ℝ}

/-- The patterns from here on select the outcome 1. The smaller probability is scaled and rounded down. -/
noncomputable def threshold (w : Nat) (p0 p1 : ℝ) : Nat :=
  if p0 ≤ p1 then ⌊p0 * ((2 ^ w : Nat) : ℝ)⌋₊ else 2 ^ w - ⌊p1 * ((2 ^ w : Nat) : ℝ)⌋₊

/-- The outcome that `w` random bits select. -/
noncomputable def choose (p0 p1 : ℝ) (bits : BitVec w) : Bool := decide (threshold w p0 p1 ≤ bits.toNat)

theorem choose_eq_true {bits : BitVec w} : choose p0 p1 bits = true ↔ threshold w p0 p1 ≤ bits.toNat :=
  decide_eq_true_iff

theorem choose_eq_false {bits : BitVec w} : choose p0 p1 bits = false ↔ bits.toNat < threshold w p0 p1 := by
  rw [choose, decide_eq_false_iff_not, Nat.not_le]

theorem floor_le_patterns {p : ℝ} (h1 : p ≤ 1) : ⌊p * ((2 ^ w : Nat) : ℝ)⌋₊ ≤ 2 ^ w := by
  refine Nat.floor_le_of_le ?_
  exact mul_le_of_le_one_left (Nat.cast_nonneg _) h1

/-- The threshold is the probability of 0, rounded up or down. -/
theorem threshold_near (h0 : 0 ≤ p0) (h1 : 0 ≤ p1) (h : p0 + p1 = 1) :
    threshold w p0 p1 ≤ 2 ^ w ∧ |(threshold w p0 p1 : ℝ) - p0 * ((2 ^ w : Nat) : ℝ)| ≤ 1 := by
  unfold threshold
  have hpos : (0 : ℝ) ≤ ((2 ^ w : Nat) : ℝ) := Nat.cast_nonneg _
  split
  · refine ⟨floor_le_patterns (by linarith), ?_⟩
    have hlt := Nat.lt_floor_add_one (p0 * ((2 ^ w : Nat) : ℝ))
    have hle := Nat.floor_le (mul_nonneg h0 hpos)
    rw [abs_le]
    constructor <;> linarith
  · refine ⟨Nat.sub_le _ _, ?_⟩
    have hlt := Nat.lt_floor_add_one (p1 * ((2 ^ w : Nat) : ℝ))
    have hle := Nat.floor_le (mul_nonneg h1 hpos)
    have hp : p0 = 1 - p1 := by linarith
    rw [Nat.cast_sub (floor_le_patterns (by linarith)), hp, abs_le]
    constructor <;> linarith

/-- An outcome that is selected has a probability. -/
theorem choose_ne_zero (h0 : 0 ≤ p0) (h1 : 0 ≤ p1) (h : p0 + p1 = 1) (bits : BitVec w) :
    (if choose p0 p1 bits then p1 else p0) ≠ 0 := by
  have hlt := bits.isLt
  split
  · rename_i hc
    rw [choose_eq_true] at hc
    rintro rfl
    unfold threshold at hc
    rw [if_neg (by linarith), zero_mul, Nat.floor_zero] at hc
    omega
  · rename_i hc
    rw [Bool.not_eq_true, choose_eq_false] at hc
    rintro rfl
    unfold threshold at hc
    rw [if_pos (by linarith), zero_mul, Nat.floor_zero] at hc
    omega

/-- The numbers of patterns from `k` on, and before `k`. -/
theorem card_patterns {k : Nat} (hk : k ≤ 2 ^ w) :
    Nat.card {x : BitVec w // k ≤ x.toNat} = 2 ^ w - k ∧ Nat.card {x : BitVec w // x.toNat < k} = k := by
  have e : ∀ P : Nat → Prop, Nat.card {x : BitVec w // P x.toNat} = Nat.card {x : Fin (2 ^ w) // P x} :=
    fun P => Nat.card_congr ⟨fun x => ⟨x.1.toFin, x.2⟩, fun x => ⟨.ofFin x.1, x.2⟩, fun _ => rfl, fun _ => rfl⟩
  refine ⟨?_, ?_⟩
  · rw [e fun n => k ≤ n]
    rw [Nat.card_congr (β := {n : ℕ // n ∈ Finset.Ico k (2 ^ w)})
      ⟨fun x => ⟨x.1.val, Finset.mem_Ico.mpr ⟨x.2, x.1.isLt⟩⟩, fun n => ⟨⟨n.1, (Finset.mem_Ico.mp n.2).2⟩,
        (Finset.mem_Ico.mp n.2).1⟩, fun _ => rfl, fun _ => rfl⟩, Nat.card_eq_fintype_card, Fintype.card_coe,
      Nat.card_Ico]
  · rw [e fun n => n < k]
    rw [Nat.card_congr (β := Fin k) ⟨fun x => ⟨x.1.val, x.2⟩,
      fun n => ⟨⟨n.val, Nat.lt_of_lt_of_le n.isLt hk⟩, n.isLt⟩, fun _ => rfl, fun _ => rfl⟩,
      Nat.card_eq_fintype_card, Fintype.card_fin]

/-- An outcome is selected as often as its probability says, up to one pattern. -/
theorem card_choose (h0 : 0 ≤ p0) (h1 : 0 ≤ p1) (h : p0 + p1 = 1) (b : Bool) :
    |(Nat.card {x : BitVec w // choose p0 p1 x = b} : ℝ) -
      (if b then p1 else p0) * ((2 ^ w : Nat) : ℝ)| ≤ 1 := by
  obtain ⟨hle, hnear⟩ := threshold_near (w := w) h0 h1 h
  obtain ⟨htrue, hfalse⟩ := card_patterns hle
  cases b with
  | false =>
    simp only [choose_eq_false, hfalse]
    exact hnear
  | true =>
    simp only [choose_eq_true, htrue, Nat.cast_sub hle]
    rw [abs_sub_comm, abs_le] at hnear
    generalize threshold w p0 p1 = t at hnear ⊢
    have hp : p1 = 1 - p0 := by linarith
    rw [if_pos trivial, hp, abs_le]
    constructor <;> linarith [hnear.1, hnear.2]

end

/-! ## Qubits with one value -/

/-- The qubit `q` has the value `b`. -/
def Determined (q : ι) (b : Bool) (ψ : Ket ι) : Prop := gate q (proj b) ψ = ψ

/-- A measurement determines the qubit. -/
theorem Determined.of_proj (q : ι) (b : Bool) (ψ : Ket ι) : Determined q b (gate q (proj b) ψ) := by
  unfold Determined
  funext x
  rw [gate_proj_apply, gate_proj_apply]
  split <;> rfl

theorem Determined.map {A : Operator ι} (hA : Commute (gate q (proj b)) A) (h : Determined q b ψ) :
    Determined q b (A ψ) := by
  unfold Determined at h ⊢
  rw [← Module.End.mul_apply, hA.eq, Module.End.mul_apply, h]

/-- Gates on two qubits commute. -/
theorem gate_commute {q r : ι} (h : q ≠ r) (M N : Mat) : Commute (gate q M) (gate r N) := by
  rw [gate_eq_tensor, gate_eq_tensor]
  show tensor _ * tensor _ = tensor _ * tensor _
  rw [← tensor_mul, ← tensor_mul, (Pi.mulSingle_commute (f := fun _ : ι => Mat) h M N).eq]

/-- Projections commute with diagonal gates. -/
theorem gate_proj_commute {M : Mat} (hM : ∀ b, M (!b) b = 0) (q r : ι) (b : Bool) :
    Commute (gate q (proj b)) (gate r M) := by
  by_cases h : q = r
  · subst h
    show gate q (proj b) * gate q M = gate q M * gate q (proj b)
    rw [← gate_mul, ← gate_mul, proj_mul_diag hM]
  · exact gate_commute h _ _

theorem proj_diag (b c : Bool) : proj b (!c) c = 0 := by
  rw [proj, keep_apply, if_neg fun h => Bool.not_ne_self c h.1]

theorem Determined.born_eq (h : Determined q b ψ) (hψ : ψ ≠ 0) (v : Bool) :
    born q ψ v = if v = b then 1 else 0 := by
  have hb : born q ψ b = 1 := by
    rw [born, h, div_self (norm2_pos hψ).ne']
  have hadd := born_add q hψ
  cases v <;> cases b <;> simp only [if_true, reduceIte, Bool.false_eq_true, Bool.true_eq_false] <;> linarith

/-- A measurement finds the value. -/
theorem Determined.choose_eq {w : Nat} (h : Determined q b ψ) (hψ : ψ ≠ 0) (bits : BitVec w) :
    choose (born q ψ false) (born q ψ true) bits = b := by
  have hne := choose_ne_zero (born_nonneg q ψ false) (born_nonneg q ψ true) (born_add q hψ) bits
  rw [h.born_eq hψ, h.born_eq hψ] at hne ⊢
  cases hc : choose (if false = b then 1 else 0) (if true = b then 1 else 0) bits with
  | false =>
    rw [hc] at hne
    cases b with
    | false => rfl
    | true => simp at hne
  | true =>
    rw [hc] at hne
    cases b with
    | false => simp at hne
    | true => rfl

/-! ## Sequences of measurements -/

/-- What happens to a register: an operation, or the measurement of a qubit. -/
inductive Event (ι : Type) where
  | apply (A : Operator ι)
  | measure (q : ι)

namespace Event

variable {w : Nat}

/-- The outcomes that an ideal register gives, with `w` random bits for each measurement. -/
noncomputable def outcomes : List (Event ι) → List (BitVec w) → Ket ι → List Bool
  | [], _, _ => []
  | apply A :: l, bits, ψ => outcomes l bits (A ψ)
  | measure _ :: _, [], _ => []
  | measure q :: l, x :: bits, ψ =>
    choose (born q ψ false) (born q ψ true) x ::
      outcomes l bits (gate q (proj (choose (born q ψ false) (born q ψ true) x)) ψ)

/-- The component of the state with the outcomes `bs`. -/
noncomputable def branch : List (Event ι) → List Bool → Ket ι → Ket ι
  | [], [], ψ => ψ
  | apply A :: l, bs, ψ => branch l bs (A ψ)
  | measure q :: l, b :: bs, ψ => branch l bs (gate q (proj b) ψ)
  | [], _ :: _, _ => 0
  | measure _ :: _, [], _ => 0

/-- The number of measurements. -/
def count : List (Event ι) → Nat
  | [] => 0
  | apply _ :: l => count l
  | measure _ :: l => count l + 1

/-- The operations keep the norm. -/
def Unitary (l : List (Event ι)) : Prop := ∀ A, apply A ∈ l → ∀ ψ, norm2 (A ψ) = norm2 ψ

theorem branch_zero (l : List (Event ι)) (bs : List Bool) : branch l bs 0 = 0 := by
  induction l generalizing bs with
  | nil => cases bs <;> rfl
  | cons e l ih =>
    cases e with
    | apply A => rw [branch, map_zero, ih]
    | measure q =>
      cases bs with
      | nil => rfl
      | cons b bs => rw [branch, map_zero, ih]

/-- The bits of the first measurement, and those of the others. -/
theorem card_cons {k : Nat} {P : BitVec w → Prop} {R : (Fin k → BitVec w) → Prop} :
    Nat.card {v : Fin (k + 1) → BitVec w // P (v 0) ∧ R fun i => v i.succ} =
      Nat.card {x // P x} * Nat.card {v // R v} := by
  rw [← Nat.card_prod]
  exact Nat.card_congr ⟨fun v => ⟨⟨v.1 0, v.2.1⟩, ⟨_, v.2.2⟩⟩, fun p => ⟨Fin.cons p.1.1 p.2.1, p.1.2, p.2.2⟩,
    fun v => Subtype.ext (Fin.cons_self_tail v.1), fun _ => rfl⟩

/-- How often the bits of `k` measurements give the outcomes `bs`. -/
noncomputable def frequency (k : Nat) (w : Nat) (l : List (Event ι)) (bs : List Bool) (ψ : Ket ι) : ℝ :=
  Nat.card {v : Fin k → BitVec w // outcomes l (List.ofFn v) ψ = bs} / ((2 ^ w : Nat) : ℝ) ^ k

/-- The first measurement, and the others. -/
theorem frequency_measure (k : Nat) (q : ι) (l : List (Event ι)) (b : Bool) (bs : List Bool) (ψ : Ket ι) :
    frequency (k + 1) w (measure q :: l) (b :: bs) ψ =
      Nat.card {x : BitVec w // choose (born q ψ false) (born q ψ true) x = b} / ((2 ^ w : Nat) : ℝ) *
        frequency k w l bs (gate q (proj b) ψ) := by
  have hiff : ∀ v : Fin (k + 1) → BitVec w, outcomes (measure q :: l) (List.ofFn v) ψ = b :: bs ↔
      choose (born q ψ false) (born q ψ true) (v 0) = b ∧
        outcomes l (List.ofFn fun i => v i.succ) (gate q (proj b) ψ) = bs := by
    intro v
    rw [List.ofFn_succ, outcomes, List.cons.injEq]
    constructor
    · rintro ⟨rfl, h⟩
      exact ⟨rfl, h⟩
    · rintro ⟨rfl, h⟩
      exact ⟨rfl, h⟩
  rw [frequency, frequency]
  simp only [hiff]
  rw [card_cons (P := fun x => choose (born q ψ false) (born q ψ true) x = b)
    (R := fun v => outcomes l (List.ofFn v) (gate q (proj b) ψ) = bs), Nat.cast_mul, pow_succ',
    mul_div_mul_comm]

theorem frequency_nonneg (k : Nat) (l : List (Event ι)) (bs : List Bool) (ψ : Ket ι) :
    0 ≤ frequency k w l bs ψ := div_nonneg (Nat.cast_nonneg _) (pow_nonneg (Nat.cast_nonneg _) _)

theorem frequency_le_one (k : Nat) (l : List (Event ι)) (bs : List Bool) (ψ : Ket ι) :
    frequency k w l bs ψ ≤ 1 := by
  refine div_le_one_of_le₀ ?_ (pow_nonneg (Nat.cast_nonneg _) _)
  have hall : Nat.card (Fin k → BitVec w) = (2 ^ w) ^ k := by
    rw [Nat.card_fun, Nat.card_congr (β := Fin (2 ^ w))
      ⟨BitVec.toFin, BitVec.ofFin, fun _ => rfl, fun _ => rfl⟩, Nat.card_eq_fintype_card,
      Nat.card_eq_fintype_card, Fintype.card_fin, Fintype.card_fin]
  have hfin : Finite (Fin k → BitVec w) := Nat.finite_of_card_ne_zero (by
    rw [hall]
    positivity)
  rw [← Nat.cast_pow, ← hall, Nat.cast_le]
  exact Finite.card_subtype_le _

/-- A list of outcomes that no bits give. -/
theorem frequency_none {k : Nat} {l : List (Event ι)} {bs : List Bool}
    (h : ∀ v : Fin k → BitVec w, outcomes l (List.ofFn v) ψ ≠ bs) : frequency k w l bs ψ = 0 := by
  rw [frequency, Nat.card_eq_zero.mpr (.inl ⟨fun v => h v.1 v.2⟩), Nat.cast_zero, zero_div]

theorem frequency_nil (ψ : Ket ι) : frequency 0 w [] [] ψ = 1 := by
  have hone : Nat.card {v : Fin 0 → BitVec w // outcomes ([] : List (Event ι)) (List.ofFn v) ψ = []} = 1 := by
    rw [Nat.card_congr (Equiv.subtypeUnivEquiv (p := fun v : Fin 0 → BitVec w =>
      outcomes ([] : List (Event ι)) (List.ofFn v) ψ = []) fun _ => rfl), Nat.card_eq_fintype_card,
      Fintype.card_unique]
  rw [frequency, hone, pow_zero, div_one, Nat.cast_one]

/-- A product of numbers that are near to others. -/
theorem near_mul {a f p g : ℝ} (hf0 : 0 ≤ f) (hf1 : f ≤ 1) (hp0 : 0 ≤ p) (hp1 : p ≤ 1) :
    |a * f - p * g| ≤ |a - p| + |f - g| := by
  calc |a * f - p * g| = |(a - p) * f + p * (f - g)| := by ring_nf
    _ ≤ |a - p| * f + p * |f - g| := by
      refine (abs_add_le _ _).trans ?_
      rw [abs_mul, abs_mul, abs_of_nonneg hf0, abs_of_nonneg hp0]
    _ ≤ |a - p| + |f - g| := add_le_add (mul_le_of_le_one_right (abs_nonneg _) hf1)
      (mul_le_of_le_one_left (abs_nonneg _) hp1)

theorem patterns_pos (w : Nat) : (0 : ℝ) < ((2 ^ w : Nat) : ℝ) := by
  rw [Nat.cast_pos]
  positivity

/-- The share of the patterns that select an outcome. -/
theorem share_choose (q : ι) (hψ : ψ ≠ 0) (b : Bool) :
    |(Nat.card {x : BitVec w // choose (born q ψ false) (born q ψ true) x = b} : ℝ) / ((2 ^ w : Nat) : ℝ) -
      born q ψ b| ≤ 1 / ((2 ^ w : Nat) : ℝ) := by
  have hcard := card_choose (w := w) (born_nonneg q ψ false) (born_nonneg q ψ true) (born_add q hψ) b
  rw [show (if b then born q ψ true else born q ψ false) = born q ψ b from by cases b <;> rfl] at hcard
  have hpow := patterns_pos w
  rw [← mul_div_cancel_right₀ (born q ψ b) hpow.ne', ← sub_div, abs_div, abs_of_pos hpow]
  exact div_le_div_of_nonneg_right hcard hpow.le

/-- An outcome without a probability is not selected. -/
theorem choose_ne_of_born (hψ : ψ ≠ 0) (hb : born q ψ b = 0) (x : BitVec w) :
    choose (born q ψ false) (born q ψ true) x ≠ b := by
  rintro rfl
  have h := choose_ne_zero (born_nonneg q ψ false) (born_nonneg q ψ true) (born_add q hψ) x
  cases hc : choose (born q ψ false) (born q ψ true) x with
  | false =>
    rw [hc] at h hb
    exact h hb
  | true =>
    rw [hc] at h hb
    exact h hb

/-- The outcomes of a sequence of measurements are as frequent as the state says. Each measurement adds at
most one pattern to the error. -/
theorem outcomes_card {l : List (Event ι)} (hl : Unitary l) (hψ : ψ ≠ 0) (bs : List Bool) :
    |frequency (count l) w l bs ψ - norm2 (branch l bs ψ) / norm2 ψ| ≤ count l / ((2 ^ w : Nat) : ℝ) := by
  have hpow := patterns_pos w
  induction l generalizing bs ψ with
  | nil =>
    rw [count, Nat.cast_zero, zero_div]
    cases bs with
    | nil => rw [frequency_nil, branch, div_self (norm2_pos hψ).ne', sub_self, abs_zero]
    | cons b bs =>
      rw [frequency_none fun v h => List.cons_ne_nil _ _ h.symm, branch, norm2_zero, zero_div, sub_zero,
        abs_zero]
  | cons e l ih =>
    have hl' : Unitary l := fun A hA => hl A (List.mem_cons_of_mem _ hA)
    cases e with
    | apply A =>
      have hA := hl A (List.mem_cons_self ..) ψ
      have hne : A ψ ≠ 0 := fun h0 => (norm2_pos hψ).ne' (by rw [← hA, h0, norm2_zero])
      have h := ih hl' hne bs
      rw [hA] at h
      exact h
    | measure q =>
      have hpos : 0 ≤ ((count l + 1 : Nat) : ℝ) / ((2 ^ w : Nat) : ℝ) := div_nonneg (Nat.cast_nonneg _) hpow.le
      cases bs with
      | nil =>
        have hnone : frequency (count l + 1) w (measure q :: l) [] ψ = 0 := frequency_none fun v h => by
          rw [List.ofFn_succ, outcomes] at h
          exact List.cons_ne_nil _ _ h
        rw [count, hnone, branch, norm2_zero, zero_div, sub_zero, abs_zero]
        exact hpos
      | cons b bs =>
        rw [count, frequency_measure, branch]
        by_cases hb : born q ψ b = 0
        · -- an outcome that is impossible
          have hproj : gate q (proj b) ψ = 0 := by
            rw [born, div_eq_zero_iff] at hb
            exact eq_zero_of_norm2 (hb.resolve_right (norm2_pos hψ).ne')
          rw [Nat.card_eq_zero.mpr (.inl ⟨fun x => choose_ne_of_born hψ hb x.1 x.2⟩), Nat.cast_zero, zero_div,
            zero_mul, hproj, branch_zero, norm2_zero, zero_div, sub_zero, abs_zero]
          exact hpos
        · have hne := proj_ne_zero hb
          have hprod : norm2 (branch l bs (gate q (proj b) ψ)) / norm2 ψ =
              born q ψ b * (norm2 (branch l bs (gate q (proj b) ψ)) / norm2 (gate q (proj b) ψ)) := by
            rw [born, div_mul_div_comm, mul_comm, mul_div_mul_right _ _ (norm2_pos hne).ne']
          rw [hprod]
          calc _ ≤ _ :=
              near_mul (frequency_nonneg ..) (frequency_le_one ..) (born_nonneg q ψ b) (born_le_one q ψ b)
            _ ≤ 1 / ((2 ^ w : Nat) : ℝ) + count l / ((2 ^ w : Nat) : ℝ) :=
              add_le_add (share_choose q hψ b) (ih hl' hne bs)
            _ = ((count l + 1 : Nat) : ℝ) / ((2 ^ w : Nat) : ℝ) := by
              rw [Nat.cast_add, Nat.cast_one, add_div, add_comm]

end Event

end Qblaze
