import Qblaze.Complex

/-!
# Single-qubit gates (`src/u3.rs`, `src/u4.rs`)

A `U3` is `rz(lambda); ry(theta); rz(phi)` up to a global phase, and a `U4` the matrix that is applied
to the state vector. `compose` has closed forms for the common rotations; in general it goes
through the matrix and back, with the functions of `Scalar`.
-/

namespace Qblaze

open Angle

/-- `U3` -/
@[ext] structure U3 where
  theta : Angle
  phi : Angle
  lambda : Angle
  deriving DecidableEq

namespace U3

def I : U3 := ⟨ZERO, ZERO, ZERO⟩
def X : U3 := ⟨PI, PI, ZERO⟩
def Z : U3 := ⟨ZERO, PI, ZERO⟩
def H : U3 := ⟨PI_1_2, ZERO, PI⟩

/-- `U3::new`: `theta` in `[0, pi]`. -/
def new (theta phi lambda : Angle) : U3 :=
  if theta = ZERO then ⟨theta, phi + lambda, ZERO⟩
  else if theta = PI then ⟨theta, phi - lambda, ZERO⟩
  else if isNegative theta then ⟨-theta, phi + PI, lambda + PI⟩
  else ⟨theta, phi, lambda⟩

def rx (a : Angle) : U3 := new a PI_3_2 PI_1_2

def ry (a : Angle) : U3 := new a ZERO ZERO

def rz (a : Angle) : U3 := ⟨ZERO, a, ZERO⟩

section

variable (F : Type) [Field F] [LinearOrder F] [Scalar F]

/-- The lower row `m10`, `m11` of the matrix, in the last branch of `from_yzy`. -/
def lowerRow (ry1 rz ry2 : Angle) : Cplx F × Cplx F :=
  let shd : F := (halfDiffSinCos ry1 ry2).1
  let chd : F := (halfDiffSinCos ry1 ry2).2
  let shs : F := (halfSumSinCos ry1 ry2).1
  let chs : F := (halfSumSinCos ry1 ry2).2
  -- no factor sqrt(1/2) where it can be left out
  if rz = PI_1_2 then (⟨shs, shd⟩, ⟨chs, chd⟩)
  else if rz = PI_3_2 then (⟨-shs, shd⟩, ⟨-chs, chd⟩)
  else
    let shz : F := (halfSinCos rz).1
    let chz : F := (halfSinCos rz).2
    (⟨chz * shs, shz * shd⟩, ⟨chz * chs, shz * chd⟩)

/-- The last branch of `from_yzy`: through the lower row of the matrix. -/
def fromMatrix (ry1 rz ry2 : Angle) : U3 :=
  let m10 := (lowerRow F ry1 rz ry2).1
  let m11 := (lowerRow F ry1 rz ry2).2
  let hypot (x y : F) : F := Scalar.sqrt (x * x + y * y)
  let theta := from2Atan2Pos (hypot m10.re m10.im) (hypot m11.re m11.im)
  let halfPhiMinusLambda := fromAtan2 m10.im m10.re
  let halfPhiPlusLambda := fromAtan2 m11.im m11.re
  new theta (halfPhiPlusLambda + halfPhiMinusLambda) (halfPhiPlusLambda - halfPhiMinusLambda)

/-- `U3::from_yzy` -/
def fromYZY (ry1 rz ry2 : Angle) : U3 :=
  if rz = ZERO then ry (ry1 + ry2)
  else if rz = PI then new (ry2 - ry1) ZERO PI
  else if ry1 = ZERO then new ry2 ZERO rz
  else if ry1 = PI then new (ry2 + PI) ZERO (-rz)
  else if ry2 = ZERO then new ry1 rz ZERO
  else if ry2 = PI then new (ry1 + PI) (-rz) ZERO
  else if ry1 = PI_1_2 ∧ ry2 = PI_1_2 then new (PI - rz) PI_1_2 PI_1_2
  else fromMatrix F ry1 rz ry2

/-- `U3::compose`: `a` and then `b`. -/
def compose (a b : U3) : U3 :=
  let r := fromYZY F a.theta (a.phi + b.lambda) b.theta
  new r.theta (r.phi + b.phi) (a.lambda + r.lambda)

end

/-- `U3::adjoint` -/
def adjoint (g : U3) : U3 := new (-g.theta) (-g.lambda) (-g.phi)

/-- `U3::is_sfree`: a permutation of the basis states with phases. -/
def isSfree (g : U3) (prec : Nat) : Bool :=
  let th := g.theta.round prec
  decide (th = ZERO) || decide (th = PI)

/-- `U3::to_cx_rz`: an X or nothing, and then an rz. -/
def toCxRz (g : U3) (prec : Nat) : Option (Bool × Angle) :=
  let th := g.theta.round prec
  if th = ZERO then some (false, g.phi + g.lambda)
  else if th = PI then some (true, PI + g.phi - g.lambda)
  else none

/-- `U3::to_rz_rx`: an rz and then an rx. -/
def toRzRx (g : U3) (prec : Nat) : Option (Angle × Angle) :=
  let th := g.theta.round prec
  if th = ZERO then some (g.phi + g.lambda, ZERO)
  else if th = PI then some (PI - g.phi + g.lambda, PI)
  else
    let ph := g.phi.round prec
    if ph = PI_3_2 then some (g.lambda - PI_1_2, g.theta)
    else if ph = PI_1_2 then some (g.lambda + PI_1_2, -g.theta)
    else none

/-- `U3::to_rz_h_rz`: an rz, an H and an rz. -/
def toRzHRz (g : U3) (prec : Nat) : Option (Angle × Angle) :=
  if g.theta.round prec ≠ PI_1_2 then none else some (g.lambda - PI, g.phi)

end U3

/-- `U4`: the matrix, with the second column reversed. -/
structure U4 (F : Type) where
  v00 : Cplx F
  v01 : Cplx F
  v10 : Cplx F
  v11 : Cplx F

namespace U4

variable {F : Type} [Field F] [LinearOrder F]

/-- `From<U3>` -/
def ofU3 [Scalar F] (r : U3) : U4 F :=
  let (s, c) : F × F := halfSinCos r.theta
  { v00 := Cplx.ofScalar c
    v01 := (Cplx.fromArg r.phi).scale s
    v10 := (Cplx.fromArg (r.phi + r.lambda)).scale c
    v11 := (Cplx.fromArg r.lambda).scale (-s) }

/-- `U4::apply`: the column of `v`, times `a`. -/
def apply (g : U4 F) (v : Bool) (a : Cplx F) : Cplx F × Cplx F :=
  if v then (g.v10 * a, g.v11 * a) else (g.v00 * a, g.v01 * a)

end U4

end Qblaze
