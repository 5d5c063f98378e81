import Shader.Builtin

/-!
# Registers and operands

A register of the target has four components. As a source an operand reads all of them, or one of
them four times; as a destination it writes all of them, or one.

Registers are known by what they are for. `Register.text` is the name that each has in assembly: the
compiler's own start with two underscores and user variables with a dollar sign, so that neither can
be taken for the other or for a hardware register.
-/

namespace Shader

open Text

/-- The components of a register. -/
inductive Component where
  | x
  | y
  | z
  | w
  deriving DecidableEq, Repr

namespace Component

/-- The components in order. -/
def all : List Component := [x, y, z, w]

/-- The letter of a component. -/
def text : Component → Bytes
  | x => ascii "x"
  | y => ascii "y"
  | z => ascii "z"
  | w => ascii "w"

/-- The component of an index. -/
def ofIndex? (i : Int) : Option Component := if i < 0 then none else all[i.toNat]?

end Component

/-- Registers, by their use. -/
inductive Register where
  /-- The variable of a name that is declared as the `copy`-th of that name, counted from zero. -/
  | user (name : Bytes) (copy : Nat)
  | hardware (h : Hardware)
  /-- A scratch register, used again by every statement. -/
  | temp (n : Nat)
  /-- A register for the condition of one `if`, never used again. -/
  | longLived (n : Nat)
  /-- A constant taken from the program text. -/
  | immediate (n : Nat)
  /-- The constants true and false. -/
  | truth (b : Bool)
  /-- The constant zero. -/
  | zero
  /-- A register given by its name. -/
  | named (text : Bytes)
  deriving DecidableEq, Repr

/-- The name of a register. -/
def Register.text : Register → Bytes
  | .user name copy => ascii "$" ++ name ++ ascii "_" ++ decimal copy
  | .hardware h => h.text
  | .temp n => ascii "__$temp_" ++ decimal n
  | .longLived n => ascii "__$templl_" ++ decimal n
  | .immediate n => ascii "__$param_" ++ decimal n
  | .truth true => ascii "__$param_true"
  | .truth false => ascii "__$param_false"
  | .zero => ascii "__$param_zero"
  | .named text => text

/-- What part of a register an operand means. -/
inductive Selector where
  /-- All components. -/
  | whole
  /-- One component. -/
  | one (c : Component)
  /-- Any other selection, by its text. -/
  | other (text : Bytes)
  deriving DecidableEq, Repr

namespace Selector

/-- The selector of a text. -/
def ofText (t : Bytes) : Selector :=
  if t = [] then whole
  else match Component.all.find? (fun c => c.text == t) with
    | some c => one c
    | none => other t

/-- What stands behind the register's name. -/
def text : Selector → Bytes
  | whole => []
  | one c => ascii "." ++ c.text
  | other t => ascii "." ++ t

end Selector

/-- A register, or a part of it, or its negation. -/
structure Operand where
  reg : Register
  select : Selector := .whole
  negated : Bool := false
  deriving DecidableEq, Repr

namespace Operand

/-- A whole register. -/
def of (r : Register) : Operand := { reg := r }

/-- One component, in place of what was selected before. -/
def component (o : Operand) (c : Component) : Operand := { o with select := .one c }

/-- The negation. -/
def neg (o : Operand) : Operand := { o with negated := !o.negated }

/-- A single component: the one selected, or else the first. -/
def scalar (o : Operand) : Operand :=
  match o.select with
  | .whole => o.component .x
  | _ => o

/-- An operand in assembly. -/
def text (o : Operand) : Bytes :=
  (if o.negated then ascii "-" else []) ++ o.reg.text ++ o.select.text

end Operand

end Shader
