import Mathlib.Tactic.LinearCombination
import Mathlib.Tactic.Ring
import Qblaze.Exact

/-!
# Rotations in 64-bit arithmetic

The closed forms of `from_yzy` make up a calculus of rotations on the angles themselves, with no
rounding. `new` takes any angle `theta`, so that the sign cases of a rotation are a matter of `new`
(`new_neg`), and rotations around the Z axis on both sides are added to its angles (`new_turned`).

* `fromYZY_zero_left` ..: where one of the rotations around the Y axis is special, `from_yzy` is one
  formula for every angle between them.
* `compose_rz_left`, `compose_rz_right`: what `compose` does to a rotation around the Z axis.
* `rotation_algebra`: the identities of the rotations.
-/

namespace Qblaze

namespace Angle

theorem PI_add_PI : PI + PI = (0 : Angle) := by decide

theorem PI_1_2_add_PI_1_2 : PI_1_2 + PI_1_2 = PI := by decide

theorem neg_PI : -PI = PI := by decide

theorem neg_eq_PI {a : Angle} : -a = PI ↔ a = PI := by
  rw [neg_eq_iff_eq_neg, neg_PI]

/-- Exactly one of `a` and `-a` is negative, but for the two angles that are their own negative. -/
theorem isNegative_neg {a : Angle} (h0 : a ≠ ZERO) (hp : a ≠ PI) :
    isNegative (-a) = !isNegative a := by
  unfold isNegative
  unfold ZERO at h0
  unfold PI at *
  by_cases h : (0x8000000000000000#64) < a
  · rw [decide_eq_true h, decide_eq_false (by bv_omega)]
    rfl
  · rw [decide_eq_false h, decide_eq_true (by bv_omega)]
    rfl

end Angle

open Angle

namespace U3

variable (t p l x y : Angle)

/-! ## Normal forms -/

@[simp] theorem new_zero : new ZERO p l = ⟨ZERO, p + l, ZERO⟩ := rfl

@[simp] theorem new_pi : new PI p l = ⟨PI, p - l, ZERO⟩ := rfl

/-- The forms of `new`. -/
theorem new_cases : (t = ZERO ∧ new t p l = ⟨ZERO, p + l, ZERO⟩) ∨
    (t = PI ∧ new t p l = ⟨PI, p - l, ZERO⟩) ∨
    (t ≠ ZERO ∧ t ≠ PI ∧ isNegative t = true ∧ new t p l = ⟨-t, p + PI, l + PI⟩) ∨
    (t ≠ ZERO ∧ t ≠ PI ∧ isNegative t = false ∧ new t p l = ⟨t, p, l⟩) := by
  unfold new
  by_cases h0 : t = ZERO
  · rw [if_pos h0, h0]
    exact .inl ⟨rfl, rfl⟩
  by_cases hp : t = PI
  · rw [if_neg h0, if_pos hp, hp]
    exact .inr (.inl ⟨rfl, rfl⟩)
  cases hn : isNegative t with
  | true =>
    rw [if_neg h0, if_neg hp, if_pos rfl]
    exact .inr (.inr (.inl ⟨h0, hp, rfl, rfl⟩))
  | false =>
    rw [if_neg h0, if_neg hp, if_neg Bool.false_ne_true]
    exact .inr (.inr (.inr ⟨h0, hp, rfl, rfl⟩))

theorem new_of_negative (h0 : t ≠ ZERO) (hp : t ≠ PI) (hn : isNegative t = true) :
    new t p l = ⟨-t, p + PI, l + PI⟩ := by
  rw [new, if_neg h0, if_neg hp, if_pos hn]

theorem new_of_positive (h0 : t ≠ ZERO) (hp : t ≠ PI) (hn : isNegative t = false) :
    new t p l = ⟨t, p, l⟩ := by
  rw [new, if_neg h0, if_neg hp, if_neg (by rw [hn]; exact Bool.false_ne_true)]

/-- A rotation by `-t` is a rotation by `t` between two half turns around the Z axis. -/
theorem new_neg : new (-t) p l = new t (p + PI) (l + PI) := by
  have hneg : ∀ h0 : t ≠ ZERO, -t ≠ ZERO := fun h0 h => h0 (neg_eq_zero.mp h)
  rcases new_cases t (p + PI) (l + PI) with ⟨rfl, he⟩ | ⟨rfl, he⟩ | ⟨h0, hp, hn, he⟩ |
    ⟨h0, hp, hn, he⟩
  · rw [he, show -ZERO = ZERO from rfl, new_zero, add_add_add_comm, PI_add_PI, add_zero]
  · rw [he, neg_PI, new_pi, add_sub_add_right_eq_sub]
  · rw [he, new_of_positive _ _ _ (hneg h0) (fun h => hp (neg_eq_PI.mp h))
      (by rw [isNegative_neg h0 hp, hn]; rfl), add_assoc, add_assoc, PI_add_PI, add_zero, add_zero]
  · rw [he, new_of_negative _ _ _ (hneg h0) (fun h => hp (neg_eq_PI.mp h))
      (by rw [isNegative_neg h0 hp, hn]; rfl), neg_neg]

/-- Rotations around the Z axis before and after are added to the angles. -/
theorem new_turned :
    new (new t p l).theta ((new t p l).phi + x) (y + (new t p l).lambda) = new t (p + x) (y + l) := by
  rcases new_cases t p l with ⟨rfl, he⟩ | ⟨rfl, he⟩ | ⟨h0, hp, hn, he⟩ | ⟨h0, hp, hn, he⟩
  · rw [he, new_zero, new_zero]
    congr 1
    show p + l + x + (y + ZERO) = p + x + (y + l)
    rw [show y + ZERO = y from add_zero y]
    ring
  · rw [he, new_pi, new_pi]
    congr 1
    show p - l + x - (y + ZERO) = p + x - (y + l)
    rw [show y + ZERO = y from add_zero y]
    ring
  · rw [he, new_neg]
    show new t (p + PI + x + PI) (y + (l + PI) + PI) = new t (p + x) (y + l)
    refine congrArg₂ (new t) ?_ ?_
    · linear_combination PI_add_PI
    · linear_combination PI_add_PI
  · rw [he]

/-! ## The closed forms -/

section

variable {F : Type} [Field F] [LinearOrder F] [Scalar F]

theorem fromYZY_zero : fromYZY F x ZERO y = new (x + y) ZERO ZERO := by
  rw [fromYZY, if_pos rfl, ry]

theorem fromYZY_pi : fromYZY F x PI y = new (y - x) ZERO PI := by
  rw [fromYZY, if_neg (by decide), if_pos rfl]

theorem fromYZY_zero_left : fromYZY F ZERO x y = new y ZERO x := by
  unfold fromYZY
  split
  · rename_i h
    rw [h, ry, show ZERO + y = y from zero_add y]
  split
  · rename_i h
    rw [h, show y - ZERO = y from sub_zero y]
  rw [if_pos rfl]

theorem fromYZY_pi_left : fromYZY F PI x y = new (y + PI) ZERO (-x) := by
  unfold fromYZY
  split
  · rename_i h
    rw [h, ry, add_comm]
    rfl
  split
  · rename_i h
    rw [h, neg_PI, sub_eq_add_neg, neg_PI]
  rw [if_neg (by decide), if_pos rfl]

theorem fromYZY_zero_right : fromYZY F y x ZERO = new y x ZERO := by
  unfold fromYZY
  split
  · rename_i h
    rw [h, ry, show y + ZERO = y from add_zero y]
  split
  · rename_i h
    rw [h, show ZERO - y = -y from zero_sub y, new_neg, PI_add_PI, show ZERO + PI = PI from zero_add PI]
    rfl
  split
  · rename_i h
    rw [h, new_zero, new_zero, add_comm]
  split
  · rename_i h
    rw [h, show ZERO + PI = PI from zero_add PI, new_pi, new_pi, sub_neg_eq_add,
      show ZERO + x = x from zero_add x, show x - ZERO = x from sub_zero x]
  rw [if_pos rfl]

theorem fromYZY_pi_right : fromYZY F y x PI = new (y + PI) (-x) ZERO := by
  unfold fromYZY
  split
  · rename_i h
    rw [h, ry]
    rfl
  split
  · rename_i h
    have hy : PI - y = -(y + PI) := by linear_combination PI_add_PI
    rw [h, hy, new_neg, PI_add_PI, show ZERO + PI = PI from zero_add PI, neg_PI]
    rfl
  split
  · rename_i h
    rw [h, show ZERO + PI = PI from zero_add PI, new_pi, new_pi, show ZERO - x = -x from zero_sub x,
      show -x - ZERO = -x from sub_zero _]
  split
  · rename_i h
    rw [h, PI_add_PI]
    exact (new_zero _ _).trans ((congrArg (U3.mk ZERO · ZERO) (add_comm _ _)).trans
      (new_zero _ _).symm)
  rw [if_neg (by decide), if_pos rfl]

/-- Two quarter turns around the Y axis. -/
theorem fromYZY_half : fromYZY F PI_1_2 x PI_1_2 = new (PI - x) PI_1_2 PI_1_2 := by
  unfold fromYZY
  split
  · rename_i h
    rw [h]
    decide
  split
  · rename_i h
    rw [h]
    decide
  rw [if_neg (by decide), if_neg (by decide), if_neg (by decide), if_neg (by decide),
    if_pos ⟨rfl, rfl⟩]

variable (F)

/-- `compose` turns the result of `from_yzy` around the Z axis. -/
theorem compose_of_fromYZY {a b : U3} (h : fromYZY F a.theta (a.phi + b.lambda) b.theta = new t p l) :
    compose F a b = new t (p + b.phi) (a.lambda + l) := by
  rw [compose, h]
  exact new_turned t p l b.phi a.lambda

theorem compose_rz_left (g : U3) : compose F (rz x) g = new g.theta g.phi (x + g.lambda) := by
  have h : fromYZY F (rz x).theta ((rz x).phi + g.lambda) g.theta =
      new g.theta ZERO (x + g.lambda) := fromYZY_zero_left _ _
  rw [compose_of_fromYZY _ _ _ F h]
  exact congrArg₂ (new g.theta) (zero_add _) (zero_add _)

theorem compose_rz_right (g : U3) : compose F g (rz x) = new g.theta (g.phi + x) g.lambda := by
  have h : fromYZY F g.theta (g.phi + (rz x).lambda) (rz x).theta = new g.theta g.phi ZERO := by
    rw [show g.phi + (rz x).lambda = g.phi from add_zero _]
    exact fromYZY_zero_right _ _
  rw [compose_of_fromYZY _ _ _ F h]
  exact congrArg (new g.theta _) (add_zero _)

/-- An X gate and a rotation around the Z axis, before `g`. -/
theorem compose_pi_left (g : U3) :
    compose F ⟨PI, x, ZERO⟩ g = new (g.theta + PI) g.phi (-x - g.lambda) := by
  have h : fromYZY F (⟨PI, x, ZERO⟩ : U3).theta ((⟨PI, x, ZERO⟩ : U3).phi + g.lambda) g.theta =
      new (g.theta + PI) ZERO (-(x + g.lambda)) := fromYZY_pi_left _ _
  rw [compose_of_fromYZY _ _ _ F h, neg_add']
  exact congrArg₂ (new _) (zero_add _) (zero_add _)

/-- An X gate and a rotation around the Z axis, after `g`. -/
theorem compose_pi_right (g : U3) :
    compose F g ⟨PI, x, ZERO⟩ = new (g.theta + PI) (x - g.phi) g.lambda := by
  have h : fromYZY F g.theta (g.phi + (⟨PI, x, ZERO⟩ : U3).lambda) (⟨PI, x, ZERO⟩ : U3).theta =
      new (g.theta + PI) (-g.phi) ZERO := by
    rw [show g.phi + (⟨PI, x, ZERO⟩ : U3).lambda = g.phi from add_zero _]
    exact fromYZY_pi_right _ _
  rw [compose_of_fromYZY _ _ _ F h]
  exact congrArg₂ (new _) (neg_add_eq_sub _ _) (add_zero _)

/-! ## Rotations around an axis in the XY plane -/

theorem new_half_turn_left :
    new ((new t p l).theta + PI) (new t p l).phi (x - (new t p l).lambda) =
      new (t + PI) p (x - l) := by
  rcases new_cases t p l with ⟨rfl, he⟩ | ⟨rfl, he⟩ | ⟨h0, hp, hn, he⟩ | ⟨h0, hp, hn, he⟩
  · rw [he, show ZERO + PI = PI from zero_add PI, new_pi, new_pi]
    refine congrArg (U3.mk PI · ZERO) ?_
    rw [show x - ZERO = x from sub_zero x]
    ring
  · rw [he, show PI + PI = ZERO from PI_add_PI, new_zero, new_zero]
    refine congrArg (U3.mk ZERO · ZERO) ?_
    rw [show x - ZERO = x from sub_zero x]
    ring
  · rw [he, show -t + PI = -(t + PI) by linear_combination PI_add_PI, new_neg]
    refine congrArg₂ (new (t + PI)) ?_ ?_
    · linear_combination PI_add_PI
    · ring
  · rw [he]

theorem new_half_turn_right :
    new ((new t p l).theta + PI) (x - (new t p l).phi) (new t p l).lambda =
      new (t + PI) (x - p) l := by
  rcases new_cases t p l with ⟨rfl, he⟩ | ⟨rfl, he⟩ | ⟨h0, hp, hn, he⟩ | ⟨h0, hp, hn, he⟩
  · rw [he, show ZERO + PI = PI from zero_add PI, new_pi, new_pi]
    refine congrArg (U3.mk PI · ZERO) ?_
    rw [show x - (p + l) - ZERO = x - (p + l) from sub_zero _]
    ring
  · rw [he, show PI + PI = ZERO from PI_add_PI, new_zero, new_zero]
    refine congrArg (U3.mk ZERO · ZERO) ?_
    rw [show x - (p - l) + ZERO = x - (p - l) from add_zero _]
    ring
  · rw [he, show -t + PI = -(t + PI) by linear_combination PI_add_PI, new_neg]
    refine congrArg₂ (new (t + PI)) ?_ ?_
    · ring
    · linear_combination PI_add_PI
  · rw [he]

/-- The two forms of a rotation that is no multiple of a half turn. -/
theorem new_signed (h0 : t ≠ ZERO) (hp : t ≠ PI) :
    new t p l = ⟨t, p, l⟩ ∨ new t p l = ⟨-t, p + PI, l + PI⟩ := by
  rcases new_cases t p l with ⟨h, -⟩ | ⟨h, -⟩ | ⟨-, -, -, he⟩ | ⟨-, -, -, he⟩
  · exact absurd h h0
  · exact absurd h hp
  · exact .inr he
  · exact .inl he

/-- Rotations around one axis are added. `ry` is the case `c = 0`, and `rx` the case of a quarter
turn. -/
theorem compose_same_axis (a b c : Angle) :
    compose F (new a (-c) c) (new b (-c) c) = new (a + b) (-c) c := by
  -- a rotation by nothing or by a half turn is a case of its own, for both gates
  by_cases ha0 : a = ZERO
  · subst ha0
    have h := new_turned b (-c) c ZERO ZERO
    rw [show (new b (-c) c).phi + ZERO = (new b (-c) c).phi from add_zero _] at h
    rw [new_zero, neg_add_cancel, show (⟨ZERO, 0, ZERO⟩ : U3) = rz ZERO from rfl, compose_rz_left, h,
      show ZERO + b = b from zero_add b, show -c + ZERO = -c from add_zero _,
      show ZERO + c = c from zero_add c]
  by_cases hap : a = PI
  · subst hap
    rw [new_pi, compose_pi_left, show -(-c - c) = c + c by ring, new_half_turn_left, add_sub_cancel_right,
      add_comm]
  by_cases hb0 : b = ZERO
  · subst hb0
    have h := new_turned a (-c) c ZERO ZERO
    rw [show ZERO + (new a (-c) c).lambda = (new a (-c) c).lambda from zero_add _] at h
    rw [new_zero, neg_add_cancel, show (⟨ZERO, 0, ZERO⟩ : U3) = rz ZERO from rfl, compose_rz_right, h,
      show a + ZERO = a from add_zero a, show -c + ZERO = -c from add_zero _,
      show ZERO + c = c from zero_add c]
  by_cases hbp : b = PI
  · subst hbp
    rw [new_pi, compose_pi_right, new_half_turn_right, sub_neg_eq_add, sub_add_cancel]
  -- the angle between the two rotations is zero or a half turn
  have hz : ∀ {t p l t' p' l' : Angle}, p + l' = 0 →
      compose F ⟨t, p, l⟩ ⟨t', p', l'⟩ = new (t + t') p' l := fun {t p l t' p' l'} hz => by
    have h : fromYZY F t (p + l') t' = new (t + t') ZERO ZERO := by
      rw [hz]
      exact fromYZY_zero _ _
    rw [@compose_of_fromYZY _ _ _ F _ _ _ ⟨t, p, l⟩ ⟨t', p', l'⟩ h]
    exact congrArg₂ (new _) (zero_add _) (add_zero _)
  have hpi : ∀ {t p l t' p' l' : Angle}, p + l' = PI →
      compose F ⟨t, p, l⟩ ⟨t', p', l'⟩ = new (t' - t) p' (l + PI) := fun {t p l t' p' l'} hz => by
    have h : fromYZY F t (p + l') t' = new (t' - t) ZERO PI := by
      rw [hz]
      exact fromYZY_pi _ _
    rw [@compose_of_fromYZY _ _ _ F _ _ _ ⟨t, p, l⟩ ⟨t', p', l'⟩ h]
    exact congrArg₂ (new _) (zero_add p') rfl
  rcases new_signed a (-c) c ha0 hap with ha | ha <;> rcases new_signed b (-c) c hb0 hbp with hb | hb <;>
    rw [ha, hb]
  · exact hz (neg_add_cancel c)
  · rw [hpi (by ring : -c + (c + PI) = PI), show -b - a = -(a + b) by ring, new_neg]
    refine congrArg₂ (new _) ?_ ?_
    · linear_combination PI_add_PI
    · linear_combination PI_add_PI
  · rw [hpi (by ring : -c + PI + c = PI), show b - -a = a + b by ring]
    refine congrArg (new _ _) ?_
    linear_combination PI_add_PI
  · rw [hz (by linear_combination PI_add_PI : -c + PI + (c + PI) = 0),
      show -a + -b = -(a + b) by ring, new_neg]
    refine congrArg₂ (new _) ?_ ?_
    · linear_combination PI_add_PI
    · linear_combination PI_add_PI

theorem rx_eq (a : Angle) : rx a = new a (-PI_1_2) PI_1_2 := by
  rw [rx, show -PI_1_2 = PI_3_2 by decide]

/-- A rotation around the Z axis and one around the X axis. -/
theorem compose_rz_rx (a b : Angle) : compose F (rz a) (rx b) = new b PI_3_2 (a + PI_1_2) := by
  have h := new_turned b PI_3_2 PI_1_2 ZERO a
  rw [show (new b PI_3_2 PI_1_2).phi + ZERO = (new b PI_3_2 PI_1_2).phi from add_zero _,
    show PI_3_2 + ZERO = PI_3_2 from add_zero _] at h
  rw [compose_rz_left, rx, h]

theorem compose_H_rz (a : Angle) : compose F H (rz a) = ⟨PI_1_2, a, PI⟩ := by
  rw [compose_rz_right, show H.phi + a = a from zero_add a]
  rfl

variable {F}

theorem compose_X_rz (a : Angle) : compose F X (rz a) = ⟨PI, PI + a, ZERO⟩ := by
  rw [compose_rz_right]
  exact (new_pi _ _).trans (congrArg (U3.mk PI · ZERO) (sub_zero _))

/-- Between two H gates, a rotation around the Z axis is one around the X axis. -/
theorem compose_H_rz_H (a : Angle) : compose F (compose F H (rz a)) H = rx a := by
  have h : fromYZY F PI_1_2 (a + PI) PI_1_2 = new (-a) PI_1_2 PI_1_2 := by
    rw [fromYZY_half, show PI - (a + PI) = -a by ring]
  rw [compose_H_rz, @compose_of_fromYZY _ _ _ F _ _ _ ⟨PI_1_2, a, PI⟩ H h, new_neg, rx]
  exact congrArg₂ (new a) (by decide : PI_1_2 + ZERO + PI = PI_3_2)
    (by decide : PI + PI_1_2 + PI = PI_1_2)

theorem toRzRx_new (a b : Angle) {prec : Nat} (hp : 64 ≤ prec) :
    (new b PI_3_2 (a + PI_1_2)).toRzRx prec = some (a, b) := by
  have hround : ∀ x : Angle, x.round prec = x := fun x => by rw [Angle.round, if_pos hp]
  unfold toRzRx
  simp only [hround]
  rcases new_cases b PI_3_2 (a + PI_1_2) with ⟨rfl, he⟩ | ⟨rfl, he⟩ | ⟨h0, hp, hn, he⟩ |
    ⟨h0, hp, hn, he⟩
  · have h : PI_3_2 + (a + PI_1_2) + ZERO = a := by
      rw [show PI_3_2 + (a + PI_1_2) + ZERO = a + (PI_3_2 + PI_1_2 + ZERO) by ring]
      exact add_zero a
    rw [he, if_pos rfl, h]
  · have h : PI - (PI_3_2 - (a + PI_1_2)) + ZERO = a := by
      rw [show PI - (PI_3_2 - (a + PI_1_2)) + ZERO = a + (PI - PI_3_2 + PI_1_2 + ZERO) by ring]
      exact add_zero a
    rw [he, if_neg (by decide : ¬ PI = ZERO), if_pos rfl, h]
  · have hb0 : -b ≠ ZERO := fun h => h0 (neg_eq_zero.mp h)
    have h : a + PI_1_2 + PI + PI_1_2 = a := by
      rw [show a + PI_1_2 + PI + PI_1_2 = a + (PI_1_2 + PI + PI_1_2) by ring]
      exact add_zero a
    rw [he, if_neg hb0, if_neg fun h => hp (neg_eq_PI.mp h),
      if_neg (by decide : ¬ PI_3_2 + PI = PI_3_2), if_pos (by decide : PI_3_2 + PI = PI_1_2), neg_neg, h]
  · rw [he, if_neg h0, if_neg hp, if_pos rfl, add_sub_cancel_right]

variable (F)

/-- The algebra of the rotations, as equalities of the angles. -/
theorem rotation_algebra (a b : Angle) {prec : Nat} (hp : 64 ≤ prec) :
    compose F (rz a) (rz b) = rz (a + b) ∧
    compose F (ry a) (ry b) = ry (a + b) ∧
    compose F (rx a) (rx b) = rx (a + b) ∧
    compose F X (rz a) = compose F (rz (-a)) X ∧
    compose F Z (rx a) = compose F (rx (-a)) Z ∧
    compose F (compose F H (rz a)) H = rx a ∧
    (compose F (rz a) (rx b)).toRzRx prec = some (a, b) ∧
    (compose F X (rz a)).toCxRz prec = some (true, a) ∧
    (compose F (rz a) (compose F H (rz b))).toRzHRz prec = some (a, b) := by
  have hround : ∀ x : Angle, x.round prec = x := fun x => by rw [Angle.round, if_pos hp]
  refine ⟨?_, ?_, ?_, ?_, ?_, compose_H_rz_H a, ?_, ?_, ?_⟩
  · rw [compose_rz_right]
    exact (new_zero _ _).trans (congrArg (U3.mk ZERO · ZERO) (add_zero _))
  · exact compose_same_axis F a b ZERO
  · rw [rx_eq, rx_eq, rx_eq, compose_same_axis]
  · rw [compose_X_rz, compose_rz_left]
    refine (congrArg (U3.mk PI · ZERO) ?_).trans (new_pi _ _).symm
    rw [show X.lambda = 0 from rfl, add_zero, sub_neg_eq_add]
    rfl
  · rw [show Z = rz PI from rfl, compose_rz_rx, compose_rz_right]
    have h := new_turned (-a) PI_3_2 PI_1_2 PI ZERO
    rw [show ZERO + (new (-a) PI_3_2 PI_1_2).lambda = (new (-a) PI_3_2 PI_1_2).lambda from
      zero_add _] at h
    rw [rx, h, new_neg]
    refine congrArg₂ (new a) ?_ ?_
    · decide
    · decide
  · rw [compose_rz_rx, toRzRx_new a b hp]
  · have h : PI + (PI + a) - ZERO = a := by
      rw [show PI + (PI + a) - ZERO = PI + PI + (a - ZERO) by ring, PI_add_PI, zero_add]
      exact sub_zero a
    rw [compose_X_rz, toCxRz, hround, if_neg (by decide : ¬ PI = ZERO), if_pos rfl, h]
  · rw [compose_H_rz, compose_rz_left, new_of_positive PI_1_2 _ _ (by decide) (by decide) (by decide),
      toRzHRz, hround, if_neg (not_not.mpr rfl), add_sub_cancel_right]

end

/-- A quarter turn and an eighth of a turn, at the precision of the simulator's angles. -/
theorem rotation_algebra_quarter :
    (compose ℝ (rz PI_1_2) (rx PI_1_4)).toRzRx 64 = some (PI_1_2, PI_1_4) :=
  (rotation_algebra ℝ PI_1_2 PI_1_4 (Nat.le_refl 64)).2.2.2.2.2.2.1

end U3

end Qblaze
