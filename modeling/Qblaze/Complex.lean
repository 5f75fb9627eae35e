import Mathlib.Algebra.Order.Field.Basic
import Mathlib.Algebra.Order.Ring.Rat
import Mathlib.Algebra.Field.Rat
import Mathlib.Algebra.Order.Group.Unbundled.Abs
import Qblaze.Angle

/-!
# Complex numbers and the functions of angles (`src/complex.rs`, `src/angle.rs`)

The simulator computes with `f64`. The model is generic in the type `F` of scalars: a field with a
decidable linear order and the functions of the standard library that the code calls (`Scalar`).
Rounding is left out, so that the results hold for exact arithmetic; `Eps` is the threshold
`Complex::EPS`, which stays a parameter.
-/

namespace Qblaze

/-- What the literal `2` stands on. -/
scoped instance atLeastTwo : Nat.AtLeastTwo 2 := ⟨Nat.le_refl 2⟩

/-- The functions on `f64` that the code calls. -/
class Scalar (F : Type) where
  sin : F → F
  cos : F → F
  sqrt : F → F
  atan2 : F → F → F
  pi : F
  floor : F → Int

/-- `Complex::EPS` -/
class Eps (F : Type) where
  eps : F

/-- The value of the constant. -/
instance : Eps ℚ := ⟨1 / 2 ^ 40⟩

/-- `Complex` -/
@[ext] structure Cplx (F : Type) where
  re : F
  im : F
  deriving DecidableEq

variable {F : Type} [Field F] [LinearOrder F]

namespace Cplx

def ZERO : Cplx F := ⟨0, 0⟩
def ONE : Cplx F := ⟨1, 0⟩

instance : Inhabited (Cplx F) := ⟨ZERO⟩

/-- `From<f64>` -/
def ofScalar (r : F) : Cplx F := ⟨r, 0⟩

instance : Add (Cplx F) := ⟨fun a b => ⟨a.re + b.re, a.im + b.im⟩⟩

instance : Neg (Cplx F) := ⟨fun a => ⟨-a.re, -a.im⟩⟩

instance : Mul (Cplx F) := ⟨fun a b => ⟨a.re * b.re - a.im * b.im, a.re * b.im + a.im * b.re⟩⟩

/-- `Mul<f64>` -/
def scale (a : Cplx F) (r : F) : Cplx F := ⟨a.re * r, a.im * r⟩

/-- `DivAssign<f64>` -/
def divScale (a : Cplx F) (r : F) : Cplx F := ⟨a.re / r, a.im / r⟩

def mulI (a : Cplx F) : Cplx F := ⟨-a.im, a.re⟩

def divI (a : Cplx F) : Cplx F := ⟨a.im, -a.re⟩

def normInf (a : Cplx F) : F := max |a.re| |a.im|

def norm2 (a : Cplx F) : F := a.re * a.re + a.im * a.im

/-- `Complex::accumulate`: the sum, and whether it is above the threshold. -/
def accumulate [Eps F] (self a : Cplx F) : Cplx F × Bool :=
  let norm := self.normInf
  let r := self + a
  (r, decide (Eps.eps * norm < r.normInf))

end Cplx

/-! ## Functions of angles -/

namespace Angle

variable [Scalar F]

/-- `Angle::to_radians`, in `(-pi, pi]`. -/
def toRadians (a : Angle) : F :=
  if a = PI then Scalar.pi else (a.toInt : F) * (2 * Scalar.pi / 2 ^ 64)

/-- The integer nearest to `x`, ties to even. -/
def roundTiesEven (x : F) : Int :=
  let f := Scalar.floor x
  let d := x - f
  if d < 1 / 2 then f else if 1 / 2 < d then f + 1 else if f % 2 = 0 then f else f + 1

/-- `Angle::from_turns`, of a finite number. -/
def fromTurns (v : F) : Angle :=
  let w := |v|
  let u : F := roundTiesEven (2 ^ 64 * (w - Scalar.floor w))
  -- `base + v` is rounded to the doubles between `2 ^ 64` and `2 ^ 65`, the multiples of `2 ^ 12`
  let mantissa := roundTiesEven (u / 2 ^ 12)
  let r : Angle := BitVec.ofInt 64 (2 ^ 12 * mantissa)
  if v < 0 then -r else r

/-- `Angle::from_radians`, of a finite number. -/
def fromRadians (v : F) : Angle := fromTurns (v / (2 * Scalar.pi))

/-- `Angle::from_atan2` -/
def fromAtan2 (y x : F) : Angle :=
  let flipX := decide (x < 0)
  let x := |x|
  let flipXY := decide (x < |y|)
  let (x, y) := if flipXY then (y, x) else (x, y)
  let r := fromRadians (Scalar.atan2 y x)
  let r := if flipXY then PI_1_2 - r else r
  if flipX then PI - r else r

/-- `Angle::from_2atan2_pos` -/
def from2Atan2Pos (y x : F) : Angle :=
  let flipXY := decide (x < y)
  let (x, y) := if flipXY then (y, x) else (x, y)
  let r := fromRadians (2 * Scalar.atan2 y x)
  if flipXY then PI - r else r

/-- `Angle::sin_cos` -/
def sinCos (a : Angle) : F × F :=
  let invSin := isNegative a
  let d := if invSin then -a else a
  let invCos := unsignedGt d PI_1_2
  let d := if invCos then PI - d else d
  let flip := unsignedGt d PI_1_4
  let d := if flip then PI_1_2 - d else d
  let r : F := toRadians d
  let (x, y) := if flip then (Scalar.cos r, Scalar.sin r) else (Scalar.sin r, Scalar.cos r)
  let y := if invCos then -y else y
  let x := if invSin then -x else x
  (x, y)

/-- `Angle::half_sin_cos`: the sine and cosine of half the angle in `[0, 2 * pi)`. -/
def halfSinCos (a : Angle) : F × F :=
  let invCos := isNegative a
  let d := if invCos then -a else a
  let flip := unsignedGt d PI_1_2
  let d := if flip then PI - d else d
  let r : F := toRadians d / 2
  let (x, y) := if flip then (Scalar.cos r, Scalar.sin r) else (Scalar.sin r, Scalar.cos r)
  let y := if invCos then -y else y
  (x, y)

/-- `Angle::half_diff_sin_cos` -/
def halfDiffSinCos (a b : Angle) : F × F :=
  let invSin := !signedGt a b
  let d := if invSin then b - a else a - b
  let sc : F × F := halfSinCos d
  (if invSin then -sc.1 else sc.1, sc.2)

/-- `Angle::half_sum_sin_cos` -/
def halfSumSinCos (a b : Angle) : F × F := halfDiffSinCos a (-b)

end Angle

/-- `Complex::from_arg` -/
def Cplx.fromArg [Scalar F] (theta : Angle) : Cplx F :=
  let (s, c) := Angle.sinCos theta
  ⟨c, s⟩

end Qblaze
