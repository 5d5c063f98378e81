import Shader.Number.Binary

/-!
# Exponential and logarithm of doubles

Both reduce their argument by powers of two, so that a short series is enough for what is left:

* `exponential` splits off the nearest multiple of `ln 2`, takes the Taylor series at a sixteenth of
  the rest, and doubles that argument four times;
* `logarithm` splits off the binary exponent and takes a series in `f / (2 + f)`, where `1 + f` is
  the significand, brought near to one.

Neither is correctly rounded. The order of the operations is part of the definition, since the last
bit depends on it.
-/

namespace Shader.Number

/-! ## Steps of double precision -/

/-- An integer from its sign and its magnitude. -/
def signed (negative : Bool) (magnitude : Nat) : Int :=
  if negative then -(magnitude : Int) else magnitude

/-- `x * y + z` with a single rounding at the end. A sum of zero is positive. -/
def mulAdd (x y z : Float) : Float :=
  match ofDouble x, ofDouble y, ofDouble z with
  | .finite nx mx ex, .finite ny my ey, .finite nz mz ez =>
    let exponent := min (ex + ey) ez
    let product := signed (nx != ny) (mx * my * Nat.pow 2 (ex + ey - exponent).toNat)
    let sum := product + signed nz (mz * Nat.pow 2 (ez - exponent).toNat)
    toDouble (.finite (sum < 0) sum.natAbs exponent)
  | _, _, _ => x * y + z

/-- Doubles of this magnitude have no room for a fraction. -/
def wholeOnly : Float := 6755399441055744.0

/-- The whole number nearest to a double of moderate size, a tie to the even one. -/
def nearestWhole (x : Float) : Float := x + wholeOnly - wholeOnly

/-! ## The exponential -/

/-- `1 / ln 2`. -/
def log2e : Float := 1.4426950408889634

/-- The leading bits of `ln 2`, few enough that small multiples of it are exact. -/
def ln2Leading : Float := 0.69314718055966295651160180568695068359375

/-- What the leading bits leave of `ln 2`. -/
def ln2Trailing : Float := 0.28235290563031577122588448175013436025525412068e-12

/-- `1 / n!` for `n` from seven down to one. -/
def taylor : List Float :=
  [1.9841269841269841270e-4, 1.3888888888888888889e-3, 8.3333333333333333333e-3,
    4.1666666666666666667e-2, 1.6666666666666666667e-1, 0.5, 1.0]

/-- `e ^ x - 1` for a small `x`, by the first eight terms of the series. -/
def expMinusOne (x : Float) : Float :=
  x * taylor.foldl (fun sum c => mulAdd sum x c) 2.4801587301587301587e-5

/-- `e ^ (2 * x) - 1` from `e ^ x - 1`. -/
def doubleArgument (y : Float) : Float := y * (y + 2.0)

/-- `e ^ x`, for an `x` at which it is a normal number. -/
def exponential (x : Float) : Float :=
  let k := nearestWhole (log2e * x)
  let rest := mulAdd (-ln2Trailing) k (mulAdd (-ln2Leading) k x)
  let y := doubleArgument (doubleArgument (doubleArgument (expMinusOne (rest * 0.0625))))
  (mulAdd y (y + 2.0) 1.0).scaleB k.toInt64.toInt

/-! ## The logarithm -/

/-- `ln 2` to its leading bits, for the logarithm. -/
def ln2High : Float := 6.93147180369123816490e-01

/-- The rest of `ln 2`, for the logarithm. -/
def ln2Low : Float := 1.90821492927058770002e-10

/-- Significands below this are doubled, so that they lie around one. -/
def halfSqrtTwo : Float := 7.07106781186547524401e-01

/-- The series `2 s² / 3 + 2 s⁴ / 5 + …` in `q = s²`, its coefficients fitted to the range of
significands. Even and odd powers of `q` are summed apart. -/
def logSeries (q : Float) : Float :=
  let q2 := q * q
  let odd := q * (6.666666666666735130e-01 + q2 * (2.857142874366239149e-01 +
    q2 * (1.818357216161805012e-01 + q2 * 1.479819860511658591e-01)))
  let even := q2 * (3.999999999940941908e-01 + q2 * (2.222219843214978396e-01 +
    q2 * 1.531383769920937332e-01))
  odd + even

/-- `ln x` for a positive finite `x`. -/
def logarithm (x : Float) : Float :=
  let (significand, exponent) := x.frExp
  let below := significand < halfSqrtTwo
  let f := (if below then significand * 2.0 else significand) - 1.0
  let k := Float.ofInt (if below then exponent - 1 else exponent)
  let s := f / (2.0 + f)
  let series := logSeries (s * s)
  let square := 0.5 * f * f
  k * ln2High - ((square - (s * (square + series) + k * ln2Low)) - f)

end Shader.Number
