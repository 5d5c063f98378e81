import Shader.Lower.Expr

/-!
# Code for statements

The target has no branches. An `if` evaluates its condition into a register of its own, and each
write inside it is done by a `CMP` that keeps the old value where the condition does not hold. A
nested `if` combines its condition with the one around it, and an `else` negates the condition of
its `if`.
-/

namespace Shader

open Program (Expr Stmt)
open Number (Scalar)

namespace Lower

variable {α : Type} [Scalar α]

/-- The comments that mark the code of an `if`. -/
inductive Mark where
  | condition
  | outerIf
  | nestedIf
  | outerElse
  | nestedElse
  deriving DecidableEq, Repr

/-- The text of a comment. -/
def Mark.text : Mark → Bytes
  | condition => ascii "Evaluate if statement condition"
  | outerIf => ascii "Set the condition for outer-most if statement"
  | nestedIf => ascii "Combine the condition with the enclosing if statement"
  | outerElse => ascii "Negate the condition for outer-most else statement"
  | nestedElse => ascii "Negate the condition for nested else statement"

/-- Emits a comment. -/
def comment (m : Mark) : Lower α Unit := emit [.comment m.text]

/-- Emits a blank line. -/
def blank : Lower α Unit := emit [.blank]

/-- Sets a statement apart from the one before it. -/
def beginStatement : Lower α Unit := do
  blank
  resetSession

/-- Writes a value, under the combined condition of the statements around if there is one. -/
def write (cond : Option Operand) (dst value : Operand) : Lower α Unit :=
  match cond with
  | none => instr .mov dst [value]
  | some cond => instr .cmp dst [cond, dst, value]

/-- Where an assignment goes. -/
def target (env : Env) : Expr → Lower α Operand
  | .var ref => register env ref
  | .index ref i _ => indexed env ref i
  | e => fail (.internal (.target e.form))

/-- Initializes a variable, with zeros if it has no initializer. The value of a constant is part of
its declaration. -/
def decl (env : Env) (cond : Option Operand) (id : DeclId) : Lower α Unit :=
  match env.decls[id]? with
  | none => return
  | some d =>
    if d.isConst then return
    else do
      beginStatement
      let value ← match d.init with
        | some init => expr env init
        | none => pure (.of .zero)
      let reg ← register env { name := d.name, decl := some id }
      write cond reg value

/-- Initializes variables in order. -/
def decls (env : Env) (cond : Option Operand) : List DeclId → Lower α Unit
  | [] => return
  | id :: ids => do
    decl env cond id
    decls env cond ids

/-- Copies a condition into all components of a scratch register. -/
def spread (cond : Operand) : Lower α Operand := do
  let res ← temp
  emit (Component.all.map fun c => .instr ⟨.mov, res.component c, [cond.scalar]⟩)
  return res

/-- Evaluates the condition of an `if` into a register that lasts as long as the `if`. -/
def enterIf (env : Env) (cond : Option Operand) (e : Expr) : Lower α Operand := do
  blank
  comment .condition
  resetSession
  let value ← expr env e
  let own ← spread value
  let combined ← longLived
  match cond with
  | none =>
    comment .outerIf
    instr .mov combined [own]
  | some outer =>
    comment .nestedIf
    instr .cmp combined [outer, falseOperand, own]
  return combined

/-- Turns the condition of an `if` into that of its `else`. -/
def enterElse (cond : Option Operand) (combined : Operand) : Lower α Unit := do
  blank
  match cond with
  | none =>
    comment .outerElse
    instr .mov combined [combined.neg]
  | some outer =>
    comment .nestedElse
    instr .cmp combined [outer, falseOperand, combined.neg]

mutual

/-- Emits the code of a statement that runs under a condition. -/
def stmt (env : Env) (cond : Option Operand) : Stmt → Lower α Unit
  | .absent => fail (.internal .lowerStatement)
  | .assign _ dst value => do
    beginStatement
    let value ← expr env value
    let dst ← target env dst
    write cond dst value
  | .branch e yes none => do
    let combined ← enterIf env cond e
    stmt env (some combined) yes
  | .branch e yes (some no) => do
    let combined ← enterIf env cond e
    stmt env (some combined) yes
    enterElse cond combined
    stmt env (some combined) no
  | .loop pos _ _ => fail (.loop pos)
  | .scope ids ss => do
    decls env cond ids
    stmts env cond ss

/-- Emits the code of statements in order. -/
def stmts (env : Env) (cond : Option Operand) : List Stmt → Lower α Unit
  | [] => return
  | s :: ss => do
    stmt env cond s
    stmts env cond ss

end

end Lower

end Shader
