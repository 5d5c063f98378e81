import Shader.Assembly
import Shader.Number.Decimal

/-!
# Assembly text

The text of a fragment program: a section for each kind of register, then the code. Every field of a
line has a fixed width.
-/

namespace Shader

open Text

variable {α : Type}

/-- A constant as a value: one component as it is, any other number of them in braces. -/
def Constant.text (number : α → Bytes) : Constant α → Bytes
  | .literal [x] => number x
  | .literal xs => ascii "\x7b" ++ join (ascii ",") (xs.map number) ++ ascii "\x7d"
  | .register r path => r.text ++ path.flatMap fun c => ascii "." ++ c.text

/-- `n` times the same text in braces. -/
def ParamValue.repeated (n : Nat) (t : Bytes) : Bytes :=
  ascii "\x7b" ++ join (ascii ",") (List.replicate n t) ++ ascii "\x7d"

/-- The value of a declaration. -/
def ParamValue.text (number : α → Bytes) : ParamValue α → Bytes
  | .constant c => c.text number
  | .truth b => repeated 4 (if b then ascii "1.0" else ascii "-1.0")
  | .zeros n => repeated n (ascii "0.0")
  | .given t => t

namespace Assembly

/-- The field of a mnemonic or a declaration. -/
def wordField (t : Bytes) : Bytes := padRight 7 t

/-- The field of an operand. -/
def operandField (t : Bytes) : Bytes := padRight 24 t

/-- The field of a value. -/
def valueField (t : Bytes) : Bytes := padRight 36 t

/-- The declaration of a register that is written. -/
def tempText (r : Register) : Bytes :=
  wordField (ascii "TEMP") ++ operandField r.text ++ ascii ";\n"

/-- The declaration of a constant register. -/
def paramText (number : α → Bytes) (p : Param α) : Bytes :=
  wordField (ascii "PARAM") ++ operandField p.reg.text ++ ascii "=  " ++
    valueField (p.value.text number) ++ ascii ";\n"

/-- An instruction. -/
def instructionText (i : Instruction) : Bytes :=
  wordField i.op.name ++ operandField i.dst.text ++
    i.src.flatMap (fun s => ascii ",  " ++ operandField s.text) ++ ascii ";\n"

/-- A line of code. -/
def lineText : Line → Bytes
  | .instr i => instructionText i
  | .comment t => ascii "# " ++ t ++ ascii "\n"
  | .blank => ascii "\n"
  | .absent => ascii "# unknown line <nil>\n"

/-- The title of a section. -/
def title (t : Bytes) : Bytes := ascii "# " ++ t ++ ascii "\n"

/-- A section of registers. -/
def registers (name : Bytes) (entries : List Bytes) : Bytes :=
  title name ++ entries.flatten ++ ascii "\n\n"

/-- The text of a program. -/
def text (number : α → Bytes) (a : Assembly α) : Bytes :=
  ascii "!!ARBfp1.0\n\n" ++
    registers (ascii "User Declared Non-Constant Variables") (a.userTemps.map tempText) ++
    registers (ascii "User Declared Constant Variables") (a.userParams.map (paramText number)) ++
    registers (ascii "Auto-Generated Re-usable Intermediate Value Registers")
      (a.temps.map tempText) ++
    registers (ascii "Auto-Generated Non-reusable Intermediate Value Registers")
      (a.longLived.map tempText) ++
    registers (ascii "Auto-Generated Immediate Value Registers")
      (a.immediates.map (paramText number)) ++
    title (ascii "Instructions") ++ a.lines.flatMap lineText ++ ascii "\n\nEND\n"

end Assembly

end Shader
