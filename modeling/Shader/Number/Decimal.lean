import Shader.Text
import Shader.Number.Binary

/-!
# Decimal text

Literals are read from decimal text, and values are written with a fixed number of places. Reading
gives the nearest double. Writing rounds the exact binary value once, to the nearest decimal of the
asked number of places. Both send a tie to the even neighbour.

A literal can be of any length, but reading has limits. The exponent stops growing at five digits.
The first 19 significant digits are used alone if the others cannot change the result. If they can,
800 digits are kept and the point stands behind the last of them at most, so that a literal with
more digits before its point is read as a smaller number.
-/

namespace Shader.Number

open Text

/-! ## Reading -/

/-- The number that a text of decimal digits stands for. -/
def digitsValue (t : Bytes) : Nat := t.foldl (fun n b => 10 * n + (b.toNat - 48)) 0

/-- The largest integer a literal may have. -/
def maxInteger : Nat := Nat.pow 2 63 - 1

/-- An integer literal: the digits' value, unless it is past the largest integer. -/
def readInteger? (t : Bytes) : Option Nat :=
  if t ≠ [] ∧ t.all isDigit ∧ digitsValue t ≤ maxInteger then some (digitsValue t) else none

/-- A decimal in scientific form: `mantissa * 10 ^ exponent`. -/
structure Scientific where
  mantissa : Nat
  exponent : Int
  deriving DecidableEq, Repr

namespace Scientific

/-- The number of decimal digits before the point, negative for leading zeros behind it: the value
lies in `[10 ^ (magnitude - 1), 10 ^ magnitude)`. -/
def magnitude (s : Scientific) : Int := (Nat.toDigits 10 s.mantissa).length + s.exponent

/-- A positive decimal of a larger magnitude exceeds every double. -/
def tooLarge : Int := 310

/-- A decimal of a smaller magnitude rounds to zero. -/
def tooSmall : Int := -330

/-- The bits of the nearest double, those of infinity past the largest. -/
def nearest (s : Scientific) : Nat :=
  if s.mantissa = 0 ∨ s.magnitude < tooSmall then 0
  else if tooLarge < s.magnitude then Format.binary64.infinity
  else
    Format.binary64.round false (s.mantissa * Nat.pow 10 s.exponent.toNat)
      (Nat.pow 10 (-s.exponent).toNat)

/-- The next decimal with as many digits behind the point. -/
def next (s : Scientific) : Scientific := { s with mantissa := s.mantissa + 1 }

end Scientific

/-- A literal `0.d₁d₂… * 10 ^ point`, where `d₁` is not zero. -/
structure Literal where
  digits : Bytes
  /-- How many of the digits stand before the point as it is written. -/
  whole : Nat
  point : Int
  deriving DecidableEq, Repr

/-- Whether a digit is zero. -/
def isZeroDigit (b : UInt8) : Bool := b == byte '0'

namespace Literal

/-- The literal of the digits before and behind the point, and an exponent. -/
def ofParts (whole fraction : Bytes) (exponent : Int) : Literal :=
  let front := whole.dropWhile isZeroDigit
  if front = [] then
    let digits := fraction.dropWhile isZeroDigit
    ⟨digits, 0, exponent - ((fraction.length - digits.length : Nat) : Int)⟩
  else ⟨front ++ fraction, front.length, exponent + front.length⟩

/-- The first `n` digits as a number. -/
def leading (l : Literal) (n : Nat) : Scientific :=
  ⟨digitsValue (l.digits.take n), l.point - (min n l.digits.length : Nat)⟩

/-- How many digits are tried by themselves. -/
def tried : Nat := 19

/-- Whether the first digits give the nearest double by themselves: the others are zeros, or every
number that starts with these digits has the same nearest double. -/
def isSettled (l : Literal) : Bool :=
  (l.digits.drop tried).all isZeroDigit ||
    (l.leading tried).nearest == (l.leading tried).next.nearest

/-- How many digits are kept at most. -/
def limit : Nat := 800

/-- The digits that are kept as a number, with a one behind them for others that are not zero.
Digits before the point that are not kept do not move it. -/
def kept (l : Literal) : Scientific :=
  let sum := digitsValue (l.digits.take limit)
  let sticky := if (l.digits.drop limit).all isZeroDigit then 0 else 1
  ⟨10 * sum + sticky,
    l.point - (l.whole - limit : Nat) - (min limit l.digits.length : Nat) - 1⟩

/-- The bits of the double that the literal is read as. -/
def bits (l : Literal) : Nat :=
  if l.isSettled then (l.leading tried).nearest else l.kept.nearest

end Literal

/-- An exponent from here on takes no further digit. -/
def exponentLimit : Nat := 10000

/-- The number that the digits of an exponent stand for. -/
def exponentValue (t : Bytes) : Nat :=
  t.foldl (fun n b => if n < exponentLimit then 10 * n + (b.toNat - 48) else n) 0

/-- The exponent part of a literal: nothing, or a letter `e`, a sign if any, and digits. -/
def readExponent? : Bytes → Option Int
  | [] => some 0
  | e :: rest =>
    if e == byte 'e' || e == byte 'E' then
      let digits := if rest.head? == some (byte '+') || rest.head? == some (byte '-')
        then rest.drop 1 else rest
      if digits ≠ [] ∧ digits.all isDigit then
        some (if rest.head? == some (byte '-') then -(exponentValue digits : Int)
          else exponentValue digits)
      else none
    else none

/-- A decimal: digits, a point and digits behind it if any, and an exponent part. One of the two
runs of digits may be empty. -/
def readLiteral? (t : Bytes) : Option Literal :=
  let whole := t.takeWhile isDigit
  let behind := t.dropWhile isDigit
  let fraction := if behind.head? == some (byte '.') then (behind.drop 1).takeWhile isDigit else []
  let tail := if behind.head? == some (byte '.') then (behind.drop 1).dropWhile isDigit else behind
  if whole = [] ∧ fraction = [] then none
  else (readExponent? tail).map (Literal.ofParts whole fraction)

/-- A decimal as a double, infinite past the largest. -/
def readDouble? (t : Bytes) : Option Float :=
  (readLiteral? t).map fun l => Float.ofBits l.bits.toUInt64

/-- A float literal: its double, unless the text is no decimal or past the largest. -/
def readFloat? (t : Bytes) : Option Float :=
  (readLiteral? t).bind fun l =>
    if l.bits = Format.binary64.infinity then none else some (Float.ofBits l.bits.toUInt64)

/-! ## Writing -/

/-- The places every float is written with. -/
def places : Nat := 6

/-- `n / 10 ^ places`, with all its places. -/
def fixedText (n : Nat) : Bytes :=
  let digits := decimal n
  let digits := List.replicate (places + 1 - digits.length) (byte '0') ++ digits
  digits.take (digits.length - places) ++ byte '.' :: digits.drop (digits.length - places)

/-- A value with its fixed number of places. -/
def Value.text : Value → Bytes
  | .nan => ascii "NaN"
  | .infinite false => ascii "+Inf"
  | .infinite true => ascii "-Inf"
  | .finite negative mantissa exponent =>
    let scaled := roundDiv (mantissa * Nat.pow 10 places * Nat.pow 2 exponent.toNat)
      (Nat.pow 2 (-exponent).toNat)
    (if negative then ascii "-" else []) ++ fixedText scaled

end Shader.Number
