/-!
# Binary floating point, exactly

A float literal is a binary64 value and the compiler folds constants in binary32. Both are handled
here through their bits: `Format.decode` gives the exact value of a bit pattern, and
`Format.round` the bit pattern nearest to an exact quotient, a tie going to the even one. Every
conversion of the library is one of the two after the other, so each rounds once.
-/

namespace Shader.Number

/-- `num / den` to the nearest natural number, a tie to the even one. -/
def roundDiv (num den : Nat) : Nat :=
  let q := num / den
  let r := num % den
  if 2 * r < den then q
  else if den < 2 * r then q + 1
  else if q % 2 = 0 then q else q + 1

/-- What a bit pattern stands for. -/
inductive Value where
  /-- Not a number. -/
  | nan
  /-- An infinity. -/
  | infinite (negative : Bool)
  /-- `± mantissa * 2 ^ exponent`, zeros with their sign. -/
  | finite (negative : Bool) (mantissa : Nat) (exponent : Int)
  deriving DecidableEq, Repr

/-- A binary interchange format. -/
structure Format where
  /-- Bits of the fraction field. -/
  fraction : Nat
  /-- Bits of the exponent field. -/
  exponent : Nat
  deriving DecidableEq, Repr

namespace Format

/-- Single precision. -/
def binary32 : Format := ⟨23, 8⟩

/-- Double precision. -/
def binary64 : Format := ⟨52, 11⟩

/-- The exponent of the last bit of a subnormal number, the smallest there is. -/
def least (f : Format) : Int := 2 - Int.pow 2 (f.exponent - 1) - f.fraction

/-- The bit pattern of positive infinity. -/
def infinity (f : Format) : Nat := (Nat.pow 2 f.exponent - 1) * Nat.pow 2 f.fraction

/-- The weight of the sign bit. -/
def signBit (f : Format) : Nat := Nat.pow 2 (f.exponent + f.fraction)

/-- The exact value of a bit pattern. -/
def decode (f : Format) (bits : Nat) : Value :=
  let negative := f.signBit ≤ bits
  let magnitude := bits % f.signBit
  let field := magnitude / Nat.pow 2 f.fraction
  let mantissa := magnitude % Nat.pow 2 f.fraction
  if magnitude = f.infinity then .infinite negative
  else if f.infinity < magnitude then .nan
  else if field = 0 then .finite negative mantissa f.least
  else .finite negative (Nat.pow 2 f.fraction + mantissa) (f.least + field - 1)

/-- The largest `k` with `2 ^ k ≤ num / den`, for a positive quotient. -/
def floorLog2 (num den : Nat) : Int :=
  let k : Int := (Nat.log2 num : Int) - Nat.log2 den
  if num * Nat.pow 2 (-k).toNat < den * Nat.pow 2 k.toNat then k - 1 else k

/-- The magnitude bits of the number nearest to `num / den`. A mantissa that rounds up to the next
power of two carries into the exponent field, and from the largest finite number into infinity. -/
def roundMagnitude (f : Format) (num den : Nat) : Nat :=
  if num = 0 then 0
  else
    let quantum := max (floorLog2 num den - f.fraction) f.least
    let mantissa := roundDiv (num * Nat.pow 2 (-quantum).toNat) (den * Nat.pow 2 quantum.toNat)
    min ((quantum - f.least).toNat * Nat.pow 2 f.fraction + mantissa) f.infinity

/-- The bit pattern nearest to `± num / den`. -/
def round (f : Format) (negative : Bool) (num den : Nat) : Nat :=
  (if negative then f.signBit else 0) + f.roundMagnitude num den

/-- The bit pattern nearest to a value, with a quiet not-a-number for every not-a-number. -/
def encode (f : Format) : Value → Nat
  | .nan => f.infinity + Nat.pow 2 (f.fraction - 1)
  | .infinite negative => (if negative then f.signBit else 0) + f.infinity
  | .finite negative mantissa exponent =>
    f.round negative (mantissa * Nat.pow 2 exponent.toNat) (Nat.pow 2 (-exponent).toNat)

end Format

/-! ## The two formats in use -/

/-- The exact value of a double. -/
def ofDouble (x : Float) : Value := Format.binary64.decode x.toBits.toNat

/-- The exact value of a single. -/
def ofSingle (x : Float32) : Value := Format.binary32.decode x.toBits.toNat

/-- The double nearest to a value. -/
def toDouble (v : Value) : Float := Float.ofBits (Format.binary64.encode v).toUInt64

/-- The single nearest to a value. -/
def toSingle (v : Value) : Float32 := Float32.ofBits (Format.binary32.encode v).toUInt32

/-- An integer as a value. -/
def ofInt (z : Int) : Value := .finite (z < 0) z.natAbs 0

end Shader.Number
