import Shader.Assembly.Register

/-!
# Fragment programs

Straight-line code of the target, with the registers it declares. The scalars in its constants are
of any type, so that a program can be run over exact numbers as well as printed.
-/

namespace Shader

/-- The instructions of the target. -/
inductive Opcode where
  /-- Componentwise: the second source where the first is negative, and the third elsewhere. -/
  | cmp
  | mov
  | add
  | sub
  | mul
  /-- Reciprocal of one component. -/
  | rcp
  /-- Power of one component. -/
  | pow
  | dp3
  | lit
  /-- Reciprocal square root of one component. -/
  | rsq
  | max
  | min
  | abs
  /-- No instruction of the target. -/
  | unknown
  deriving DecidableEq, Repr

namespace Opcode

/-- The instructions in the order of their codes. -/
def all : List Opcode := [cmp, mov, add, sub, mul, rcp, pow, dp3, lit, rsq, max, min, abs]

/-- The instruction of a code. -/
def ofCode (n : Int) : Opcode := (n.toNat?.bind (all[·]?)).getD unknown

/-- The mnemonic. -/
def name : Opcode → Bytes
  | cmp => ascii "CMP"
  | mov => ascii "MOV"
  | add => ascii "ADD"
  | sub => ascii "SUB"
  | mul => ascii "MUL"
  | rcp => ascii "RCP"
  | pow => ascii "POW"
  | dp3 => ascii "DP3"
  | lit => ascii "LIT"
  | rsq => ascii "RSQ"
  | max => ascii "MAX"
  | min => ascii "MIN"
  | abs => ascii "ABS"
  | unknown => ascii "???"

end Opcode

/-- An instruction: what it does, where the result goes and where the sources come from. -/
structure Instruction where
  op : Opcode
  dst : Operand
  src : List Operand
  deriving DecidableEq, Repr

/-- A line of code. -/
inductive Line where
  | instr (i : Instruction)
  | comment (text : Bytes)
  | blank
  /-- A missing line. -/
  | absent
  deriving DecidableEq, Repr

/-- The instruction of a line. -/
def Line.instruction? : Line → Option Instruction
  | .instr i => some i
  | _ => none

/-- A value known before the program runs: its components, or a hardware register of which
components may be selected, one after the other. -/
inductive Constant (α : Type) where
  | literal (values : List α)
  | register (reg : Register) (path : List Component)
  deriving DecidableEq, Repr

/-- The value that a constant register is declared with. -/
inductive ParamValue (α : Type) where
  | constant (c : Constant α)
  /-- Four times the number that stands for a truth value. -/
  | truth (b : Bool)
  /-- As many zeros. -/
  | zeros (n : Nat)
  /-- A value given by its text. -/
  | given (text : Bytes)
  deriving DecidableEq, Repr

/-- A constant register. -/
structure Param (α : Type) where
  reg : Register
  value : ParamValue α
  deriving DecidableEq, Repr

/-- A fragment program. Declarations and lines are only ever added at the end. -/
structure Assembly (α : Type) where
  /-- Mutable variables of the shader. -/
  userTemps : List Register := []
  /-- Constants of the shader. -/
  userParams : List (Param α) := []
  /-- Scratch registers. -/
  temps : List Register := []
  /-- Registers for conditions. -/
  longLived : List Register := []
  /-- Constants from the program text, behind those every program has. -/
  immediates : List (Param α) :=
    [⟨.truth true, .truth true⟩, ⟨.truth false, .truth false⟩, ⟨.zero, .zeros 4⟩]
  lines : List Line := []
  deriving DecidableEq, Repr

namespace Assembly

variable {α : Type}

/-- With a mutable variable. -/
def declareUserTemp (a : Assembly α) (r : Register) : Assembly α :=
  { a with userTemps := a.userTemps ++ [r] }

/-- With a constant of the shader. -/
def declareUserParam (a : Assembly α) (r : Register) (v : ParamValue α) : Assembly α :=
  { a with userParams := a.userParams ++ [⟨r, v⟩] }

/-- With a scratch register. -/
def declareTemp (a : Assembly α) (r : Register) : Assembly α :=
  { a with temps := a.temps ++ [r] }

/-- With a register for a condition. -/
def declareLongLived (a : Assembly α) (r : Register) : Assembly α :=
  { a with longLived := a.longLived ++ [r] }

/-- With a constant from the program text. -/
def declareImmediate (a : Assembly α) (r : Register) (v : ParamValue α) : Assembly α :=
  { a with immediates := a.immediates ++ [⟨r, v⟩] }

/-- With more lines. -/
def append (a : Assembly α) (lines : List Line) : Assembly α :=
  { a with lines := a.lines ++ lines }

/-- The instructions among the lines. -/
def instructions (a : Assembly α) : List Instruction := a.lines.filterMap Line.instruction?

end Assembly

end Shader
