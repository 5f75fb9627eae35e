import Mathlib.Data.BitVec
import Mathlib.Data.Nat.Bitwise

/-!
# Angles (`src/angle.rs`)

An angle is a 64-bit fraction of a full turn; addition and negation wrap. The simulator compares
angles after rounding them to `prec` bits. An angle that rounding does not change (`Fixed`) is a
multiple of `2 ^ (64 - prec)`, and these are closed under the arithmetic of angles.
-/

namespace Qblaze

/-- An angle: the numerator of a fraction of a turn over `2 ^ 64`. -/
abbrev Angle := BitVec 64

namespace Angle

def ZERO : Angle := 0#64
def PI_1_4 : Angle := 0x2000000000000000#64
def PI_1_2 : Angle := 0x4000000000000000#64
def PI_3_4 : Angle := 0x6000000000000000#64
def PI : Angle := 0x8000000000000000#64
def PI_5_4 : Angle := 0xa000000000000000#64
def PI_3_2 : Angle := 0xc000000000000000#64
def PI_7_4 : Angle := 0xe000000000000000#64

/-- Round to the nearest multiple of `2 ^ (64 - bits)`, ties to even. -/
def round (a : Angle) (bits : Nat) : Angle :=
  if 64 ≤ bits then a
  else if bits = 0 then ZERO
  else
    let next : Angle := 1#64 <<< (64 - bits)
    let mask := next - 1#64
    let half := next >>> 1
    let low := a &&& mask
    let r := a &&& ~~~mask
    if half < low ∨ (low = half ∧ a &&& next ≠ 0#64) then r + next else r

def isNegative (a : Angle) : Bool := PI < a

def unsignedGt (a b : Angle) : Bool := b < a

def signedGt (a b : Angle) : Bool := b + (PI - 1#64) < a + (PI - 1#64)

/-- `Angle::mid`. The difference is taken from `b` to `a`, see `mid_between_iff`. -/
def mid (a b : Angle) : Angle :=
  let diff := a - b
  a + diff.sshiftRight 1 + (a &&& diff &&& 1#64)

/-! ## Rounding -/

/-- Rounding to `prec` bits does not change the angle. -/
def Fixed (prec : Nat) (a : Angle) : Prop := a.round prec = a

instance (prec : Nat) (a : Angle) : Decidable (Fixed prec a) := inferInstanceAs (Decidable (_ = _))

variable {prec : Nat} {a b : Angle}

theorem and_low_add (a mask : Angle) : (a &&& mask) + (a &&& ~~~mask) = a := by
  have hd : (a &&& mask) &&& (a &&& ~~~mask) = 0#64 := by
    ext i hi
    simp
    intro _ h1 _
    exact h1
  rw [BitVec.add_eq_or_of_and_eq_zero _ _ hd]
  ext i hi
  simp
  cases a[i] <;> cases mask[i] <;> rfl

theorem toNat_next {k : Nat} (hk : k < 64) : ((1#64 : Angle) <<< k).toNat = 2 ^ k := by
  have h : 2 ^ k < 2 ^ 64 := Nat.pow_lt_pow_right (by decide) hk
  rw [BitVec.toNat_shiftLeft, BitVec.toNat_ofNat, Nat.shiftLeft_eq]
  rw [Nat.mod_eq_of_lt (by decide : 1 < 2 ^ 64), Nat.one_mul]
  exact Nat.mod_eq_of_lt h

theorem toNat_low {k : Nat} (hk : k < 64) (a : Angle) :
    (a &&& ((1#64 : Angle) <<< k - 1#64)).toNat = a.toNat % 2 ^ k := by
  have h1 : (((1#64 : Angle) <<< k) - 1#64).toNat = 2 ^ k - 1 := by
    have hp : 0 < 2 ^ k := Nat.two_pow_pos k
    rw [BitVec.toNat_sub_of_le]
    · rw [toNat_next hk]; rfl
    · rw [BitVec.le_def, toNat_next hk]; exact hp
  rw [BitVec.toNat_and, h1, Nat.and_two_pow_sub_one_eq_mod]

/-- The angles that rounding does not change are the multiples of `2 ^ (64 - prec)`. -/
theorem fixed_iff : Fixed prec a ↔ 2 ^ (64 - prec) ∣ a.toNat := by
  unfold Fixed round
  by_cases h64 : 64 ≤ prec
  · simp [h64, Nat.sub_eq_zero_of_le h64]
  by_cases h0 : prec = 0
  · subst h0
    have := a.isLt
    simp only [h64, if_false, if_true, Nat.sub_zero]
    constructor
    · intro h; rw [← h]; exact dvd_zero _
    · intro h
      have hz : a.toNat = 0 := Nat.eq_zero_of_dvd_of_lt h this
      exact (BitVec.eq_of_toNat_eq hz).symm
  have hk : 64 - prec < 64 := by omega
  simp only [h64, h0, if_false]
  set low := a &&& ((1#64 : Angle) <<< (64 - prec) - 1#64) with hlow
  have hsum : low + (a &&& ~~~((1#64 : Angle) <<< (64 - prec) - 1#64)) = a := and_low_add _ _
  set r := a &&& ~~~((1#64 : Angle) <<< (64 - prec) - 1#64) with hr
  have hln : low.toNat = a.toNat % 2 ^ (64 - prec) := toNat_low hk a
  have hlt : low.toNat < 2 ^ (64 - prec) := hln ▸ Nat.mod_lt _ (Nat.two_pow_pos _)
  have hnext := toNat_next hk
  have hhalf : (((1#64 : Angle) <<< (64 - prec)) >>> 1).toNat = 2 ^ (64 - prec - 1) := by
    rw [BitVec.toNat_ushiftRight, hnext, Nat.shiftRight_eq_div_pow,
      Nat.pow_div (by omega) (by decide)]
  have hdvd : 2 ^ (64 - prec) ∣ a.toNat ↔ low = 0#64 := by
    rw [Nat.dvd_iff_mod_eq_zero, ← hln]
    exact ⟨fun h => BitVec.eq_of_toNat_eq h, fun h => by rw [h]; rfl⟩
  rw [hdvd]
  have hpos : 0 < 2 ^ (64 - prec - 1) := Nat.two_pow_pos _
  constructor
  · intro h
    split at h
    · -- rounding up moves the angle by less than one step
      exfalso
      have he : (1#64 : Angle) <<< (64 - prec) = low := by
        have h1 : r + (1#64 : Angle) <<< (64 - prec) = r + low := by
          rw [h, BitVec.add_comm r low, hsum]
        exact add_left_cancel h1
      rw [← he, hnext] at hlt
      exact Nat.lt_irrefl _ hlt
    · have h1 : low + r = 0#64 + r := by rw [hsum, h, BitVec.zero_add]
      exact add_right_cancel h1
  · intro h
    rw [if_neg]
    · rw [h, BitVec.zero_add] at hsum; exact hsum
    · rintro (h1 | ⟨h1, -⟩)
      · rw [h, BitVec.lt_def, hhalf] at h1
        exact Nat.not_lt_zero _ h1
      · rw [h] at h1
        rw [← h1] at hhalf
        simp only [BitVec.toNat_ofNat, Nat.zero_mod] at hhalf
        omega

theorem dvd_two_pow_64 (prec : Nat) : 2 ^ (64 - prec) ∣ 2 ^ 64 := Nat.pow_dvd_pow 2 (by omega)

theorem fixed_zero (prec : Nat) : Fixed prec ZERO := fixed_iff.mpr (dvd_zero _)

theorem Fixed.add (ha : Fixed prec a) (hb : Fixed prec b) : Fixed prec (a + b) := by
  rw [fixed_iff] at *
  rw [BitVec.toNat_add]
  exact (Nat.dvd_mod_iff (dvd_two_pow_64 prec)).mpr (Nat.dvd_add ha hb)

theorem Fixed.sub (ha : Fixed prec a) (hb : Fixed prec b) : Fixed prec (a - b) := by
  rw [fixed_iff] at *
  rw [BitVec.toNat_sub]
  refine (Nat.dvd_mod_iff (dvd_two_pow_64 prec)).mpr (Nat.dvd_add ?_ ha)
  exact Nat.dvd_sub (dvd_two_pow_64 prec) hb

theorem Fixed.neg (ha : Fixed prec a) : Fixed prec (-a) := by
  have := (fixed_zero prec).sub ha
  rwa [show ZERO - a = -a from BitVec.zero_sub a] at this

/-- Two fixed angles whose difference rounds to zero are equal. -/
theorem Fixed.sub_round_eq_zero (ha : Fixed prec a) (hb : Fixed prec b) :
    (a - b).round prec = ZERO ↔ a = b := by
  rw [ha.sub hb]
  exact sub_eq_zero

/-- Rounding to 32 bits, in numbers. -/
theorem toNat_round_32 (a : Angle) : (a.round 32).toNat =
    (a.toNat + (2 ^ 31 - 1) + a.toNat / 2 ^ 32 % 2) / 2 ^ 32 * 2 ^ 32 % 2 ^ 64 := by
  have hlt := a.isLt
  have hlow := @toNat_low 32 (by decide) a
  have hsum := congrArg BitVec.toNat (and_low_add a ((1#64 : Angle) <<< 32 - 1#64))
  have hnext := @toNat_next 32 (by decide)
  have hhalf : (((1#64 : Angle) <<< 32) >>> 1).toNat = 2 ^ 31 := rfl
  have hr : (a &&& ~~~((1#64 : Angle) <<< 32 - 1#64)).toNat ≤ a.toNat := by
    rw [BitVec.toNat_and]
    exact Nat.and_le_left
  have hbit : a &&& (1#64 : Angle) <<< 32 ≠ 0#64 ↔ a.toNat / 2 ^ 32 % 2 = 1 := by
    rw [Ne, ← BitVec.toNat_inj, BitVec.toNat_and, hnext, Nat.and_two_pow,
      Nat.testBit_eq_decide_div_mod_eq]
    by_cases h : a.toNat / 2 ^ 32 % 2 = 1
    · rw [h]
      decide
    · rw [decide_eq_false h]
      simp
      omega
  have hcond : (((1#64 : Angle) <<< 32) >>> 1 < a &&& ((1#64 : Angle) <<< 32 - 1#64) ∨
      (a &&& ((1#64 : Angle) <<< 32 - 1#64) = ((1#64 : Angle) <<< 32) >>> 1 ∧
        a &&& (1#64 : Angle) <<< 32 ≠ 0#64)) ↔
      2 ^ 31 < a.toNat % 2 ^ 32 ∨ (a.toNat % 2 ^ 32 = 2 ^ 31 ∧ a.toNat / 2 ^ 32 % 2 = 1) := by
    rw [hbit, BitVec.lt_def, hhalf, hlow, ← BitVec.toNat_inj, hlow, hhalf]
  rw [BitVec.toNat_add, hlow] at hsum
  unfold round
  rw [if_neg (by decide), if_neg (by decide)]
  simp only [show 64 - 32 = 32 from rfl]
  split
  · rename_i h
    have h := hcond.mp h
    rw [BitVec.toNat_add, hnext]
    omega
  · rename_i h
    have h : ¬ (2 ^ 31 < a.toNat % 2 ^ 32 ∨ (a.toNat % 2 ^ 32 = 2 ^ 31 ∧ a.toNat / 2 ^ 32 % 2 = 1)) :=
      fun h' => h (hcond.mpr h')
    omega

/-- The quotient that `round` chooses, for the multiple `m` of a half turn. -/
theorem round_32_eq {a c : Angle} {m : Nat} (hm : m < 2 ^ 32) (hc : c.toNat = m * 2 ^ 32) :
    a.round 32 = c ↔ (a.toNat + (2 ^ 31 - 1) + a.toNat / 2 ^ 32 % 2) / 2 ^ 32 = m ∨
      (m = 0 ∧ (a.toNat + (2 ^ 31 - 1) + a.toNat / 2 ^ 32 % 2) / 2 ^ 32 = 2 ^ 32) := by
  have hlt := a.isLt
  have hle : (a.toNat + (2 ^ 31 - 1) + a.toNat / 2 ^ 32 % 2) / 2 ^ 32 ≤ 2 ^ 32 := by omega
  rw [← BitVec.toNat_inj, toNat_round_32, hc]
  generalize (a.toNat + (2 ^ 31 - 1) + a.toNat / 2 ^ 32 % 2) / 2 ^ 32 = k at hle ⊢
  omega

theorem round_32_eq_ZERO (a : Angle) :
    a.round 32 = ZERO ↔ a.toNat ≤ 2 ^ 31 ∨ 2 ^ 64 - 2 ^ 31 ≤ a.toNat := by
  have hlt := a.isLt
  have hz : (ZERO : Angle).toNat = 0 * 2 ^ 32 := by decide
  rw [round_32_eq (m := 0) (by decide) hz, Nat.div_eq_zero_iff]
  omega

theorem round_32_eq_PI (a : Angle) :
    a.round 32 = PI ↔ 2 ^ 63 - 2 ^ 31 ≤ a.toNat ∧ a.toNat ≤ 2 ^ 63 + 2 ^ 31 := by
  have hlt := a.isLt
  have hp : PI.toNat = 2 ^ 31 * 2 ^ 32 := by decide
  rw [round_32_eq (m := 2 ^ 31) (by decide) hp]
  omega

theorem round_32_neg_eq_ZERO {a : Angle} : (-a).round 32 = ZERO ↔ a.round 32 = ZERO := by
  have hneg : (-a).toNat = (2 ^ 64 - a.toNat) % 2 ^ 64 := BitVec.toNat_neg a
  have hlt := a.isLt
  rw [round_32_eq_ZERO, round_32_eq_ZERO, hneg]
  omega

theorem round_32_neg_eq_PI {a : Angle} : (-a).round 32 = PI ↔ a.round 32 = PI := by
  have hneg : (-a).toNat = (2 ^ 64 - a.toNat) % 2 ^ 64 := BitVec.toNat_neg a
  have hlt := a.isLt
  rw [round_32_eq_PI, round_32_eq_PI, hneg]
  omega

/-! ## The middle of two angles -/

theorem mid_self (a : Angle) : mid a a = a := by
  unfold mid
  simp

/-- The length of an arc, taken the short way round. -/
def abs (d : Angle) : Nat := min d.toNat (-d).toNat

/-- The length of the short arc between two angles. -/
def dist (a b : Angle) : Nat := abs (a - b)

/-- `c` is on the short arc between `a` and `b`, at most half of its length, rounded up, away from
either end. -/
def Between (a b c : Angle) : Prop :=
  dist c a ≤ (dist a b + 1) / 2 ∧ dist c b ≤ (dist a b + 1) / 2

theorem abs_eq (d : Angle) : abs d = if d.toNat ≤ 2 ^ 63 then d.toNat else 2 ^ 64 - d.toNat := by
  have hd := d.isLt
  unfold abs
  rw [BitVec.toNat_neg]
  split <;> omega

theorem toNat_half (d : Angle) :
    (d.sshiftRight 1).toNat = d.toNat / 2 + if d.toNat < 2 ^ 63 then 0 else 2 ^ 63 := by
  have hd := d.isLt
  rw [BitVec.toNat_sshiftRight, BitVec.msb_eq_decide]
  simp only [Nat.shiftRight_eq_div_pow, decide_eq_true_eq]
  split <;> split <;> omega

theorem toNat_parity (a d : Angle) :
    (a &&& d &&& 1#64).toNat = if a.toNat % 2 = 1 ∧ d.toNat % 2 = 1 then 1 else 0 := by
  rw [BitVec.and_assoc, BitVec.toNat_and, BitVec.toNat_and, BitVec.toNat_ofNat,
    Nat.mod_eq_of_lt (by decide : 1 < 2 ^ 64), Nat.and_one_is_mod]
  rcases Nat.mod_two_eq_zero_or_one d.toNat with h | h
  · simp [h]
  · rw [h, Nat.and_one_is_mod]
    rcases Nat.mod_two_eq_zero_or_one a.toNat with h' | h' <;> simp [h']

/-- Equal angles, or neighbours of which the second is odd if the first follows it, and the first
is odd if the second follows it. -/
def Adjacent (a b : Angle) : Prop :=
  a = b ∨ (a - b = 1#64 ∧ a.toNat % 2 = 0) ∨ (b - a = 1#64 ∧ a.toNat % 2 = 1)

instance : Decidable (Adjacent a b) := inferInstanceAs (Decidable (_ ∨ _))

instance (c : Angle) : Decidable (Between a b c) := inferInstanceAs (Decidable (_ ∧ _))

theorem adjacent_iff : Adjacent a b ↔ (a - b).toNat = 0 ∨ ((a - b).toNat = 1 ∧ a.toNat % 2 = 0) ∨
    ((a - b).toNat = 2 ^ 64 - 1 ∧ a.toNat % 2 = 1) := by
  have h0 : a = b ↔ (a - b).toNat = 0 := by
    rw [← sub_eq_zero, ← BitVec.toNat_inj]
    rfl
  have h1 : a - b = 1#64 ↔ (a - b).toNat = 1 := by
    rw [← BitVec.toNat_inj]
    rfl
  have h2 : b - a = 1#64 ↔ (a - b).toNat = 2 ^ 64 - 1 := by
    rw [← neg_sub, neg_eq_iff_eq_neg, ← BitVec.toNat_inj]
    rfl
  rw [Adjacent, h0, h1, h2]

/-- The arithmetic of `mid_between_iff`: `d` is the arc from `b` to `a`, `p` is the parity of `a`,
and `o` is what `mid` adds to `a`. -/
theorem half_arc_iff {d p o : Nat} (hd : d < 2 ^ 64) (hp : p = 0 ∨ p = 1)
    (ho : o = (d / 2 + (if d < 2 ^ 63 then 0 else 2 ^ 63) +
      if p = 1 ∧ d % 2 = 1 then 1 else 0) % 2 ^ 64) :
    ((if o ≤ 2 ^ 63 then o else 2 ^ 64 - o) ≤ ((if d ≤ 2 ^ 63 then d else 2 ^ 64 - d) + 1) / 2 ∧
      (if (d + o) % 2 ^ 64 ≤ 2 ^ 63 then (d + o) % 2 ^ 64 else 2 ^ 64 - (d + o) % 2 ^ 64) ≤
        ((if d ≤ 2 ^ 63 then d else 2 ^ 64 - d) + 1) / 2) ↔
      (d = 0 ∨ (d = 1 ∧ p = 0) ∨ (d = 2 ^ 64 - 1 ∧ p = 1)) ∨ d = 2 ^ 63 := by
  obtain ⟨e, he, he0⟩ : ∃ e, (if p = 1 ∧ d % 2 = 1 then 1 else 0) = e ∧
      (e = 0 ∧ (p = 0 ∨ d % 2 = 0) ∨ e = 1 ∧ p = 1 ∧ d % 2 = 1) := by
    refine ⟨_, rfl, ?_⟩
    split <;> omega
  rw [he] at ho
  clear he
  rcases Nat.lt_or_ge d (2 ^ 63) with h | h
  · -- `a` is ahead of `b`, and `mid` goes on in the same direction
    rw [if_pos h, Nat.mod_eq_of_lt (by omega)] at ho
    rw [Nat.mod_eq_of_lt (by omega : d + o < 2 ^ 64)]
    split_ifs <;> omega
  · rw [if_neg (Nat.not_lt.mpr h)] at ho
    by_cases hw : d / 2 + 2 ^ 63 + e = 2 ^ 64
    · rw [hw, Nat.mod_self] at ho
      have hm : (d + o) % 2 ^ 64 = d := by omega
      rw [hm]
      split_ifs <;> omega
    · rw [Nat.mod_eq_of_lt (by omega)] at ho
      have hm : (d + o) % 2 ^ 64 = d + o - 2 ^ 64 := by omega
      rw [hm]
      split_ifs <;> omega

/-- `mid` subtracts the wrong way round: it starts at `a` and goes away from `b`. The result is
between the two angles only if they are next to each other, or opposite. -/
theorem mid_between_iff : Between a b (mid a b) ↔ Adjacent a b ∨ a - b = PI := by
  have hmid : mid a b = a + ((a - b).sshiftRight 1 + (a &&& (a - b) &&& 1#64)) :=
    BitVec.add_assoc _ _ _
  have hpi : a - b = PI ↔ (a - b).toNat = 2 ^ 63 := by
    rw [← BitVec.toNat_inj]
    rfl
  rw [Between, dist, dist, dist, adjacent_iff, hpi, hmid, add_sub_cancel_left, add_sub_right_comm,
    abs_eq, abs_eq, abs_eq, BitVec.toNat_add (a - b)]
  refine half_arc_iff (a - b).isLt (Nat.mod_two_eq_zero_or_one _) ?_
  rw [BitVec.toNat_add, toNat_half, toNat_parity]

/-- The same where the two angles are less than a half turn apart. -/
theorem mid_between_iff_of_lt (h : dist a b < 2 ^ 63) : Between a b (mid a b) ↔ Adjacent a b := by
  have hpi : a - b ≠ PI := by
    intro hpi
    rw [dist, hpi] at h
    exact absurd h (by decide)
  rw [mid_between_iff, or_iff_left hpi]

/-- Turning the three angles together changes nothing. -/
theorem between_add_left (s c : Angle) : Between (s + a) (s + b) (s + c) ↔ Between a b c := by
  simp only [Between, dist, add_sub_add_left_eq_sub]

end Angle

end Qblaze
