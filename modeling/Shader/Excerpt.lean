import Shader.Position

/-!
# Showing a position in its source

An excerpt quotes the line of a position behind its number and underlines the word that starts
there:

          2:     int a = 1.0;
                 ^^^

Tabs before the word are kept as tabs in the second line, so that both lines agree wherever they are
shown.
-/

namespace Shader

open Text

/-- The lines of a text, without the newlines between them. -/
def lines : Bytes → List Bytes
  | [] => [[]]
  | b :: rest =>
    if b = byte '\n' then [] :: lines rest
    else match lines rest with
      | line :: more => (b :: line) :: more
      | [] => [[b]]

/-- A line without the carriage returns at its end. -/
def trimReturns (line : Bytes) : Bytes := (line.reverse.dropWhile (· == byte '\r')).reverse

namespace Excerpt

/-- The bytes of a word or a number. -/
def isWord (b : UInt8) : Bool :=
  b == byte '_' || b == byte '.' || isAsciiLetter b || isDigit b

/-- How much is underlined: the word or number that starts here, and one byte of all else. -/
def width (t : Bytes) : Nat := max (t.takeWhile isWord).length 1

/-- The number of a line, as it stands before the line. -/
def label (line : Int) : Bytes := padLeft 7 (integer line) ++ ascii ": "

/-- What stands under a byte before the word. -/
def shade (b : UInt8) : UInt8 := if b = byte '\t' then byte '\t' else byte ' '

/-- The two lines that show column `start`, counted from zero, of a line. -/
def ofLine (number : Int) (line : Bytes) (start : Nat) : Bytes :=
  label number ++ line ++ ascii "\n" ++
    blanks (label number).length ++ (line.take start).map shade ++
    List.replicate (width (line.drop start)) (byte '^') ++ ascii "\n"

end Excerpt

/-- The excerpt of a source at a position, empty for a position outside of it. -/
def excerpt (source : Bytes) (pos : Pos) : Bytes :=
  if pos.line < 1 then []
  else match (lines source)[(pos.line - 1).toNat]? with
    | none => []
    | some line =>
      let line := trimReturns line
      if pos.column < 1 ∨ (line.length : Int) < pos.column - 1 then []
      else Excerpt.ofLine pos.line line (pos.column - 1).toNat

end Shader
