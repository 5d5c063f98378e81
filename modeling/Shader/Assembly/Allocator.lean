import Shader.Assembly

/-!
# Handing out registers

An allocator declares registers in a program as code asks for them. Scratch registers are handed out
in sessions: the `n`-th request of every session gets the same register, so that a program has as
many of them as its longest session needs. Registers for conditions and constants are handed out
once.
-/

namespace Shader

/-- An allocator and the program it declares registers in. -/
structure Allocator (α : Type) where
  program : Assembly α := {}
  /-- Scratch registers handed out in this session. -/
  position : Nat := 0
  /-- Registers for conditions handed out. -/
  conditions : Nat := 0
  /-- Constants handed out. -/
  constants : Nat := 0

namespace Allocator

variable {α : Type}

/-- Starts a new session. -/
def reset (a : Allocator α) : Allocator α := { a with position := 0 }

/-- The next scratch register of the session. -/
def temp (a : Allocator α) : Register × Allocator α :=
  match a.program.temps[a.position]? with
  | some r => (r, { a with position := a.position + 1 })
  | none =>
    let r := Register.temp a.program.temps.length
    (r, { a with program := a.program.declareTemp r, position := a.position + 1 })

/-- A fresh register for a condition. -/
def longLived (a : Allocator α) : Register × Allocator α :=
  let r := Register.longLived a.conditions
  (r, { a with program := a.program.declareLongLived r, conditions := a.conditions + 1 })

/-- A fresh constant register that holds a value. Equal values do not share one. -/
def immediate (a : Allocator α) (v : ParamValue α) : Register × Allocator α :=
  let r := Register.immediate a.constants
  (r, { a with program := a.program.declareImmediate r v, constants := a.constants + 1 })

end Allocator

end Shader
