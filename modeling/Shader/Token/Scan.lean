import Shader.Position
import Shader.Token.Kind

/-!
# From bytes to tokens

A cursor stands at a position of a text. `Cursor.next` passes over what separates tokens, spaces and
comments, and reads one token. At the end of the text it reads the end token, and stays there.

Both halves of that step are lengths: `gapLength` says how many bytes separate, and `lexeme?` what
kind of token the rest starts with and how long it is. So the bytes of a text are split into gaps
and lexemes without any being lost or read twice, and positions follow from the bytes passed over.

A text ends at its first zero byte, if it has one.
-/

namespace Shader

open Text

/-- A token: its kind, what it says, and where its first byte is. -/
structure Token where
  kind : Kind
  literal : Bytes
  pos : Pos
  deriving DecidableEq, Repr

/-! ## What separates tokens -/

/-- Where in the separating bytes one is. -/
inductive Gap where
  /-- Between comments. -/
  | plain
  /-- In a comment that runs to the end of the line. -/
  | line
  /-- At the star that opens a block comment. -/
  | opening
  /-- In a block comment. -/
  | block
  /-- At the slash that closes a block comment. -/
  | closing
  deriving DecidableEq, Repr

/-- How one byte of a gap leads on, given the bytes behind it; nothing if the gap ends before it.
A slash opens a comment only together with a second slash or a star, and a block comment ends at the
first star and slash behind its opening. -/
def Gap.step (g : Gap) (b : UInt8) (rest : Bytes) : Option Gap :=
  match g with
  | .plain =>
    if isSpace b then some .plain
    else if b = byte '/' then
      if rest.head? = some (byte '/') then some .line
      else if rest.head? = some (byte '*') then some .opening
      else none
    else none
  | .line => some (if b = byte '\n' then .plain else .line)
  | .opening => some .block
  | .block => some (if b = byte '*' ∧ rest.head? = some (byte '/') then .closing else .block)
  | .closing => some .plain

/-- The number of bytes that separate, from inside a gap on. -/
def Gap.length : Gap → Bytes → Nat
  | _, [] => 0
  | g, b :: rest =>
    match g.step b rest with
    | some g => g.length rest + 1
    | none => 0

/-- The number of bytes before the first token of a text. -/
def gapLength (t : Bytes) : Nat := Gap.plain.length t

/-! ## Lexemes -/

/-- The length of the run of bytes of a class at the front of a text. -/
def runLength (p : UInt8 → Bool) (t : Bytes) : Nat := (t.takeWhile p).length

/-- Bytes that are a token by themselves. -/
def singles : List (UInt8 × Kind) :=
  [(byte '+', .plus), (byte '-', .minus), (byte '*', .star), (byte '/', .slash),
    (byte '^', .caret), (byte '(', .lparen), (byte ')', .rparen), (byte '\x7b', .lbrace),
    (byte '\x7d', .rbrace), (byte '[', .lbracket), (byte ']', .rbracket),
    (byte ';', .semicolon), (byte ',', .comma)]

/-- A byte that may be followed by a second one. -/
structure Pairing where
  first : UInt8
  second : UInt8
  /-- The kind of both together. -/
  both : Kind
  /-- The kind of the first without the second. -/
  alone : Kind

/-- The operators of two bytes. A lone `&` or `|` is no token of the language. -/
def pairings : List Pairing :=
  [⟨byte '=', byte '=', .eq, .assign⟩, ⟨byte '!', byte '=', .ne, .not⟩,
    ⟨byte '<', byte '=', .le, .lt⟩, ⟨byte '>', byte '=', .ge, .gt⟩,
    ⟨byte '&', byte '&', .and, .illegal⟩, ⟨byte '|', byte '|', .or, .illegal⟩]

/-- The length of the exponent part at the front of a text. An `e` without a digit or a sign behind
it is none. -/
def exponentLength : Bytes → Nat
  | e :: c :: rest =>
    if e = byte 'e' ∨ e = byte 'E' then
      if isDigit c then 1 + runLength isDigit (c :: rest)
      else if c = byte '+' ∨ c = byte '-' then 2 + runLength isDigit rest
      else 0
    else 0
  | _ => 0

/-- The number at the front of a text: an integer, or with a point behind its digits a float, which
alone may have an exponent. -/
def number (t : Bytes) : Kind × Nat :=
  let whole := runLength isDigit t
  match t.drop whole with
  | c :: rest =>
    if c = byte '.' then
      let fraction := runLength isDigit rest
      (.float, whole + 1 + fraction + exponentLength (rest.drop fraction))
    else (.int, whole)
  | [] => (.int, whole)

/-- Whether a name can go on with `b`. -/
def isWordByte (b : UInt8) : Bool := isLetter b || isDigit b

/-- The kind and the length of the token a text starts with; nothing at its end. -/
def lexeme? : Bytes → Option (Kind × Nat)
  | [] => none
  | b :: rest =>
    match singles.lookup b with
    | some kind => some (kind, 1)
    | none =>
      match pairings.find? (fun p => p.first == b) with
      | some p => some (if rest.head? = some p.second then (p.both, 2) else (p.alone, 1))
      | none =>
        if isLetter b then
          let n := 1 + runLength isWordByte rest
          some (Kind.ofWord ((b :: rest).take n), n)
        else if isDigit b ∨ (b = byte '.' ∧ rest.head?.any isDigit) then
          some (number (b :: rest))
        else some (.illegal, 1)

/-- What a token says: its bytes, but a byte that is no token by its character in UTF-8. -/
def literalOf (kind : Kind) (lexeme : Bytes) : Bytes :=
  if kind = .illegal then lexeme.flatMap utf8 else lexeme

/-! ## The cursor -/

/-- A place in a text: its position and the bytes from there on. -/
structure Cursor where
  pos : Pos
  rest : Bytes
  deriving DecidableEq, Repr

namespace Cursor

/-- Past the next `n` bytes. -/
def skip (c : Cursor) (n : Nat) : Cursor := ⟨c.pos.advance (c.rest.take n), c.rest.drop n⟩

/-- At the next token. -/
def skipGap (c : Cursor) : Cursor := c.skip (gapLength c.rest)

/-- The token at the cursor, and the place behind it. -/
def next (c : Cursor) : Token × Cursor :=
  let c := c.skipGap
  match lexeme? c.rest with
  | none => (⟨.eof, [], c.pos⟩, c)
  | some (kind, n) => (⟨kind, literalOf kind (c.rest.take n), c.pos⟩, c.skip n)

end Cursor

/-- The part of a text that is read: all before its first zero byte. -/
def visible (source : Bytes) : Bytes := source.takeWhile (· != 0)

/-- The start of a text. -/
def Cursor.ofSource (source : Bytes) : Cursor := ⟨.start, visible source⟩

/-! ## Every step but the last makes progress -/

theorem runLength_pos {p : UInt8 → Bool} {b : UInt8} (rest : Bytes) (h : p b = true) :
    0 < runLength p (b :: rest) := by
  rw [runLength, List.takeWhile_cons_of_pos h]
  exact Nat.succ_pos _

theorem runLength_eq_zero {p : UInt8 → Bool} {b : UInt8} (rest : Bytes) (h : ¬ p b = true) :
    runLength p (b :: rest) = 0 := by
  rw [runLength, List.takeWhile_cons_of_neg h]
  rfl

theorem number_pos {b : UInt8} (rest : Bytes) (h : isDigit b ∨ b = byte '.') :
    0 < (number (b :: rest)).2 := by
  by_cases hb : isDigit b = true
  · have hw := runLength_pos rest hb
    unfold number
    dsimp only
    split
    · split
      · dsimp only
        omega
      · exact hw
    · exact hw
  · -- without a digit in front the number starts with its point
    unfold number
    dsimp only
    rw [runLength_eq_zero rest hb, List.drop_zero]
    dsimp only
    rw [if_pos (h.resolve_left hb)]
    dsimp only
    omega

theorem lexeme?_pos {t : Bytes} {kind : Kind} {n : Nat} (h : lexeme? t = some (kind, n)) :
    0 < n := by
  cases t with
  | nil => simp [lexeme?] at h
  | cons b rest =>
    simp only [lexeme?] at h
    split at h
    · simp at h; omega
    · split at h
      · split at h <;> simp at h <;> omega
      · split at h
        · simp at h; omega
        · split at h
          · rename_i hn
            simp only [Option.some.injEq] at h
            have := number_pos rest (hn.imp_right And.left)
            rw [h] at this
            exact this
          · simp at h; omega

theorem lexeme?_nil : lexeme? [] = none := rfl

theorem Cursor.length_skip (c : Cursor) (n : Nat) :
    (c.skip n).rest.length = c.rest.length - n := by
  simp [Cursor.skip]

/-- A token that is not the end token takes bytes. -/
theorem Cursor.length_next {c : Cursor} (h : c.next.1.kind ≠ .eof) :
    c.next.2.rest.length < c.rest.length := by
  unfold Cursor.next at h ⊢
  dsimp only at h ⊢
  split at h
  · simp at h
  · rename_i kind n hl
    have hpos := lexeme?_pos hl
    have hne : c.skipGap.rest ≠ [] := fun he => by simp [he, lexeme?_nil] at hl
    have hlen := List.length_pos_iff.mpr hne
    have hgap := c.length_skip (gapLength c.rest)
    simp only [length_skip]
    unfold skipGap at hlen ⊢
    omega

/-! ## All tokens -/

/-- The tokens from a cursor on, without the end token, and the end token. -/
def Cursor.scan (c : Cursor) : List Token × Token :=
  if c.next.1.kind = .eof then ([], c.next.1)
  else
    let (tokens, last) := c.next.2.scan
    (c.next.1 :: tokens, last)
termination_by c.rest.length
decreasing_by exact Cursor.length_next ‹_›

/-- The tokens of a text, and its end token. -/
def scan (source : Bytes) : List Token × Token := (Cursor.ofSource source).scan

end Shader
