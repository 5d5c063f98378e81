import Shader.Number.Elementary

/-!
# Powers of doubles

`power x y` is `x ^ y` in double precision. The whole part of the exponent is taken by repeated
squaring of the significand of `x`, with the binary exponent counted apart so that nothing overflows
before the end. What is left of the exponent, at most one half in magnitude, goes through the
logarithm and the exponential. Zeros, infinities and not-a-numbers follow the usual rules for `pow`.
-/

namespace Shader.Number

/-- A number `significand * 2 ^ exponent`. -/
structure Scaled where
  significand : Float
  exponent : Int

namespace Scaled

/-- The square, with the significand brought back to at least one half. -/
def square (s : Scaled) : Scaled :=
  let m := s.significand * s.significand
  if m < 0.5 then ⟨m + m, 2 * s.exponent - 1⟩ else ⟨m, 2 * s.exponent⟩

/-- Past this exponent a factor decides the result by itself. -/
def limit : Int := 4096

/-- `acc * base ^ n` by repeated squaring. -/
def mulPow (acc base : Scaled) (n : Nat) : Scaled :=
  if n = 0 then acc
  else if base.exponent < -limit ∨ limit < base.exponent then
    ⟨acc.significand, acc.exponent + base.exponent⟩
  else
    let acc := if n % 2 = 1
      then ⟨acc.significand * base.significand, acc.exponent + base.exponent⟩ else acc
    mulPow acc base.square (n / 2)
termination_by n

end Scaled

/-- Positive infinity. -/
def infinity : Float := 1.0 / 0.0

/-- Not a number. -/
def notANumber : Float := 0.0 / 0.0

/-- From here on every double is an even integer. -/
def evenFrom : Float := 9007199254740992.0

/-- From here on a whole exponent is too large to count. -/
def countable : Float := 9223372036854775808.0

/-- Whether `y` is an odd integer. -/
def isOdd (y : Float) : Bool :=
  y.abs < evenFrom && y.floor == y && y.abs.toUInt64 % 2 == 1

/-- Whether the sign bit of `x` is set. -/
def isNegative (x : Float) : Bool := x.toBits >>> 63 == 1

/-- `x ^ y` for a nonzero finite `x` and a nonzero finite `y`. -/
def finitePower (x y : Float) : Float :=
  let whole := y.abs.floor
  let rest := y.abs - whole
  if rest != 0.0 && x < 0.0 then notANumber
  else if countable ≤ whole then
    if x == -1.0 then 1.0 else if (x.abs < 1.0) == (0.0 < y) then 0.0 else infinity
  else
    let up := 0.5 < rest
    let rest := if up then rest - 1.0 else rest
    let count := whole.toUInt64.toNat + (if up then 1 else 0)
    let start : Float := if rest == 0.0 then 1.0 else exponential (rest * logarithm x)
    let (significand, exponent) := x.frExp
    let result := Scaled.mulPow ⟨start, 0⟩ ⟨significand, exponent⟩ count
    if y < 0.0 then (1.0 / result.significand).scaleB (-result.exponent)
    else result.significand.scaleB result.exponent

/-- `x ^ y`. -/
def power (x y : Float) : Float :=
  if y == 0.0 || x == 1.0 then 1.0
  else if y == 1.0 then x
  else if x.isNaN || y.isNaN then notANumber
  else if x == 0.0 then
    let size := if y < 0.0 then infinity else 0.0
    if isNegative x && isOdd y then -size else size
  else if y.isInf then
    if x == -1.0 then 1.0 else if (x.abs < 1.0) == (0.0 < y) then 0.0 else infinity
  else if x.isInf then
    let size := if y < 0.0 then 0.0 else infinity
    if isNegative x && isOdd y then -size else size
  else if y == 0.5 then x.sqrt
  else if y == -0.5 then 1.0 / x.sqrt
  else finitePower x y

end Shader.Number
