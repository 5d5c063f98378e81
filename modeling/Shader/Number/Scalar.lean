import Shader.Number.Binary
import Shader.Number.Power

/-!
# The arithmetic of constants

Constants are folded over a type of scalars. `Scalar` lists what folding needs of it and nothing
about how it rounds, so the same folding runs in single precision, as the compiler does it, and
over exact numbers. The operations carry no laws here: those are hypotheses of the theorems that
need them.
-/

namespace Shader.Number

/-- The operations on the components of a constant. -/
class Scalar (α : Type) where
  /-- The value of an integer literal. -/
  ofInt : Int → α
  /-- The value of a float literal. -/
  ofFloat : Float → α
  neg : α → α
  add : α → α → α
  sub : α → α → α
  mul : α → α → α
  /-- Division, asked for with a nonzero divisor only. -/
  div : α → α → α
  /-- The power, unless it is no finite number. -/
  pow? : α → α → Option α
  min : α → α → α
  max : α → α → α
  lt : α → α → Bool
  le : α → α → Bool
  eq : α → α → Bool

namespace Scalar

variable {α : Type} [Scalar α]

/-- Truth values as numbers: one for true, minus one for false, so that negation is `not`,
the minimum `and` and the maximum `or`. -/
def ofBool (b : Bool) : α := ofInt (if b then 1 else -1)

/-- Whether a number equals zero. -/
def isZero (x : α) : Bool := eq x (ofInt 0)

end Scalar

/-! ## Single precision -/

namespace Single

/-- The lesser of two numbers: a not-a-number if either is one, and negative zero below positive
zero. -/
def min (x y : Float32) : Float32 :=
  if x.isNaN || y.isNaN then Float32.ofBits 0x7FC00000
  else if x == 0 && y == 0 then Float32.ofBits (x.toBits ||| y.toBits)
  else if x < y then x else y

/-- The greater of two numbers, with the same rules as `min`. -/
def max (x y : Float32) : Float32 :=
  if x.isNaN || y.isNaN then Float32.ofBits 0x7FC00000
  else if x == 0 && y == 0 then Float32.ofBits (x.toBits &&& y.toBits)
  else if x < y then y else x

/-- The power in double precision, rounded at the end. It is refused if the double is not finite;
a finite double past the largest single becomes infinite. -/
def pow? (x y : Float32) : Option Float32 :=
  let p := power (toDouble (ofSingle x)) (toDouble (ofSingle y))
  if p.isFinite then some (toSingle (ofDouble p)) else none

end Single

/-- The arithmetic the compiler folds in: every operation rounds to single precision. -/
instance : Scalar Float32 where
  ofInt z := toSingle (Number.ofInt z)
  ofFloat x := toSingle (ofDouble x)
  neg x := -x
  add x y := x + y
  sub x y := x - y
  mul x y := x * y
  div x y := x / y
  pow? := Single.pow?
  min := Single.min
  max := Single.max
  lt x y := x < y
  le x y := x ≤ y
  eq x y := x == y

end Shader.Number
