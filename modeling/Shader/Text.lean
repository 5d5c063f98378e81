/-!
# Text, byte by byte

Shaders and everything the compiler writes are byte strings: a name may hold any byte, valid UTF-8
or not. This file has the byte string itself and the few ways in which the rest of the library
writes one: constants, decimal numbers, and fields of a fixed width.

A field is padded by the number of *characters* it shows, not by its bytes. `Text.runes` counts
them: a well-formed UTF-8 sequence is one character, and so is every byte that belongs to none.
-/

namespace Shader

/-- A text. Nothing in it has to be valid UTF-8. -/
abbrev Bytes := List UInt8

/-- The byte of an ASCII character. -/
def byte (c : Char) : UInt8 := c.toNat.toUInt8

/-- The text of an ASCII string. -/
def ascii (s : String) : Bytes := s.toList.map byte

namespace Text

/-! ## Numbers and repetition -/

/-- A natural number in decimal, without leading zeros. -/
def decimal (n : Nat) : Bytes := (Nat.toDigits 10 n).map byte

/-- An integer in decimal, a minus sign before a negative one. -/
def integer : Int → Bytes
  | .ofNat n => decimal n
  | .negSucc n => byte '-' :: decimal (n + 1)

/-- The texts in order, with `sep` between each two. -/
def join (sep : Bytes) : List Bytes → Bytes
  | [] => []
  | [t] => t
  | t :: u :: ts => t ++ sep ++ join sep (u :: ts)

/-- `n` blanks. -/
def blanks (n : Nat) : Bytes := List.replicate n (byte ' ')

/-- `t` between single quotes. -/
def quoted (t : Bytes) : Bytes := ascii "'" ++ t ++ ascii "'"

/-! ## Writing before a text -/

/-- Text that is written before another one. Nested texts are put together this way, so that the
inner ones are not copied again at each level. -/
abbrev Writer := Bytes → Bytes

/-- Writes `t`. -/
def write (t : Bytes) : Writer := fun rest => t ++ rest

@[simp] theorem write_apply (t rest : Bytes) : write t rest = t ++ rest := rfl

/-! ## Classes of bytes -/

/-- `0` to `9`. -/
def isDigit (b : UInt8) : Bool := byte '0' ≤ b && b ≤ byte '9'

/-- The bytes between tokens: space, tab, carriage return and newline. -/
def isSpace (b : UInt8) : Bool :=
  b == byte ' ' || b == byte '\t' || b == byte '\n' || b == byte '\r'

/-- ASCII letters. -/
def isAsciiLetter (b : UInt8) : Bool :=
  (byte 'a' ≤ b && b ≤ byte 'z') || (byte 'A' ≤ b && b ≤ byte 'Z')

/-- The bytes a name starts with: the underscore, and each byte that is the code of a letter of
the first 256 characters of Unicode. -/
def isLetter (b : UInt8) : Bool :=
  isAsciiLetter b || b == byte '_' || b == 0xAA || b == 0xB5 || b == 0xBA ||
    (0xC0 ≤ b && b != 0xD7 && b != 0xF7)

/-! ## UTF-8 -/

/-- The UTF-8 encoding of the character whose code is `b`: one byte below 128, two above. -/
def utf8 (b : UInt8) : Bytes :=
  if b < 0x80 then [b] else [(0xC0 : UInt8) ||| (b >>> 6), (0x80 : UInt8) ||| (b &&& 0x3F)]

/-- A continuation byte. -/
def isTail (b : UInt8) : Bool := 0x80 ≤ b && b ≤ 0xBF

/-- The bytes allowed after the lead byte `b` of a sequence of three or four: overlong forms,
surrogates and codes past the last plane are cut off here. -/
def isSecond (lead b : UInt8) : Bool :=
  (if lead == 0xE0 then 0xA0 else if lead == 0xF0 then 0x90 else 0x80) ≤ b &&
    b ≤ (if lead == 0xED then 0x9F else if lead == 0xF4 then 0x8F else 0xBF)

/-- How many bytes after the first belong to the character at the front of the text: those of its
UTF-8 sequence if it is well-formed and complete, and none otherwise. -/
def tailLength : Bytes → Nat
  | a :: b :: rest =>
    if 0xC2 ≤ a && a ≤ 0xDF then
      if isTail b then 1 else 0
    else if 0xE0 ≤ a && a ≤ 0xEF then
      match rest with
      | c :: _ => if isSecond a b && isTail c then 2 else 0
      | [] => 0
    else if 0xF0 ≤ a && a ≤ 0xF4 then
      match rest with
      | c :: d :: _ => if isSecond a b && isTail c && isTail d then 3 else 0
      | _ => 0
    else 0
  | _ => 0

/-- The number of characters of the text, `skip` bytes at its front being the tail of one that is
counted already. -/
def runesFrom : (skip : Nat) → Bytes → Nat
  | _, [] => 0
  | skip + 1, _ :: rest => runesFrom skip rest
  | 0, b :: rest => 1 + runesFrom (tailLength (b :: rest)) rest

/-- The number of characters of the text. -/
def runes (t : Bytes) : Nat := runesFrom 0 t

/-- `t` and as many blanks as bring it to `width` characters. -/
def padRight (width : Nat) (t : Bytes) : Bytes := t ++ blanks (width - runes t)

/-- As many blanks as bring `t` to `width` bytes, and `t`. -/
def padLeft (width : Nat) (t : Bytes) : Bytes := blanks (width - t.length) ++ t

end Text

end Shader
