import Shader.Text

/-!
# Positions in a source text
-/

namespace Shader

open Text

/-- A line and a column, both counted from one. Declarations that stand in no source are at
`(0, 0)`. -/
structure Pos where
  line : Int := 0
  column : Int := 0
  deriving DecidableEq, Repr

namespace Pos

/-- Where a text starts. -/
def start : Pos := ⟨1, 1⟩

/-- The position behind the byte `b` at `p`: columns count bytes, and a newline ends its line. -/
def step (p : Pos) (b : UInt8) : Pos :=
  if b = byte '\n' then ⟨p.line + 1, 1⟩ else ⟨p.line, p.column + 1⟩

/-- The position behind a text at `p`. -/
def advance (p : Pos) (t : Bytes) : Pos := t.foldl step p

@[simp] theorem advance_nil (p : Pos) : p.advance [] = p := rfl

@[simp] theorem advance_cons (p : Pos) (b : UInt8) (t : Bytes) :
    p.advance (b :: t) = (p.step b).advance t := rfl

theorem advance_append (p : Pos) (t u : Bytes) :
    p.advance (t ++ u) = (p.advance t).advance u := by
  simp [advance]

/-- How a message names a position. -/
def text (p : Pos) : Bytes :=
  ascii "line " ++ integer p.line ++ ascii ", col " ++ integer p.column

/-- A message at a position. -/
def message (p : Pos) (t : Bytes) : Bytes := p.text ++ ascii ": " ++ t

end Pos

end Shader
