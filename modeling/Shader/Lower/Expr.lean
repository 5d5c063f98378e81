import Shader.Lower
import Shader.Reduce

/-!
# Code for expressions

Every expression is evaluated into a register, its operands from left to right before the register
of the result is asked for. Variables and literals need no code: they are registers.

Truth values are one and minus one in every component, so that negation, minimum and maximum are the
logical operators. The target compares with zero only, so that a comparison looks at the sign of a
difference.
-/

namespace Shader

open Program (Expr)
open Number (Scalar)

namespace Lower

variable {α : Type} [Scalar α]

/-- The constant true. -/
def trueOperand : Operand := .of (.truth true)

/-- The constant false. -/
def falseOperand : Operand := .of (.truth false)

/-- The first components of a vector of so many. -/
def vectorComponents (order : Int) : Except Failure (List Component) :=
  if 0 ≤ order ∧ order ≤ 4 then .ok (Component.all.take order.toNat) else .error (.order order)

/-- The register of a name. -/
def register (env : Env) (ref : Ref) : Lower α Operand :=
  ofExcept <| match env.symbols.registerOf env.decls ref.decl with
    | .ok r => .ok (.of r)
    | .error d => .error (.internal d)

/-- One component of the register of a name. -/
def indexed (env : Env) (ref : Ref) (i : Int) : Lower α Operand := do
  let reg ← register env ref
  return reg.component (← ofExcept (componentOf i))

/-! ## Operators -/

/-- An operator that the target has. -/
def direct (op : Opcode) (l r : Operand) : Lower α Operand := do
  let res ← temp
  instr op res [l, r]
  return res

/-- A quotient, as the product with the reciprocal of each component of the divisor. -/
def quotient (l r : Operand) (divisor : Ty) : Lower α Operand := do
  let res ← temp
  let inverse ← temp
  if divisor.isScalar then instr .rcp inverse [r.scalar]
  else
    let cs ← ofExcept (vectorComponents divisor.order)
    emit (cs.map fun c => .instr ⟨.rcp, inverse.component c, [r.component c]⟩)
  instr .mul res [l, inverse]
  return res

/-- A power, component by component. -/
def power (l r : Operand) (type : Ty) : Lower α Operand := do
  let res ← temp
  if type.isScalar then instr .pow res [l.scalar, r.scalar]
  else
    let cs ← ofExcept (vectorComponents type.order)
    emit (cs.map fun c => .instr ⟨.pow, res.component c, [l.component c, r.component c]⟩)
  return res

/-- One operand where `a - b` is negative, and another where it is not. -/
def compare (a b ifNegative ifNot : Operand) : Lower α Operand := do
  let res ← temp
  let difference ← temp
  instr .sub difference [a, b]
  instr .cmp res [difference, ifNegative, ifNot]
  return res

/-- Equality: neither difference is negative, in any component. -/
def equal (l r : Operand) (type : Ty) : Lower α Operand := do
  let res ← temp
  let other ← temp
  instr .sub other [l, r]
  instr .cmp res [other, falseOperand, trueOperand]
  instr .sub other [r, l]
  instr .cmp other [other, falseOperand, trueOperand]
  instr .min res [res, other]
  if type.order ≤ 1 then return res
  else
    let cs ← ofExcept (vectorComponents type.order)
    instr .min other [res.component .x, res.component .y]
    emit ((cs.drop 2).map fun c => .instr ⟨.min, other, [other.component .x, res.component c]⟩)
    return other

/-- A binary operator on evaluated operands, whose types are `left` and `right`. -/
def binary (op : BinaryOp) (l r : Operand) (left right type : Ty) : Lower α Operand :=
  match op with
  | .add => direct .add l r
  | .sub => direct .sub l r
  | .mul => direct .mul l r
  | .and => direct .min l r
  | .or => direct .max l r
  | .div => quotient l r right
  | .pow => power l r type
  | .lt => compare l r trueOperand falseOperand
  | .gt => compare r l trueOperand falseOperand
  | .le => compare r l falseOperand trueOperand
  | .ge => compare l r falseOperand trueOperand
  | .eq => equal l r left
  | .ne => do
    let res ← equal l r left
    instr .mov res [res.neg]
    return res
  | .unknown => fail (.internal (.lowerOperator op))

/-- A call on evaluated arguments. -/
def call (func : Bytes) (args : List Operand) : Lower α Operand :=
  match Function.ofName? func with
  | none => fail (.internal (.unknownFunction func))
  | some f =>
    match f, args with
    | .rsq, [x] => do
      let res ← temp
      instr .rsq res [x.scalar]
      return res
    | .dp3, [x, y] => do
      let res ← temp
      instr .dp3 res [x, y]
      return res
    | .lit, [x] => do
      let res ← temp
      instr .lit res [x]
      return res
    | _, _ => fail (.internal (.callArity func args.length))

/-- A value put together from evaluated components. -/
def assemble (args : List Operand) : Lower α Operand := do
  let res ← temp
  emit ((Component.all.zip args).map fun (c, a) => .instr ⟨.mov, res.component c, [a.scalar]⟩)
  return res

/-- A literal as a constant register. -/
def literal (value : α) : Lower α Operand := immediate (.constant (.literal [value]))

/-! ## Expressions -/

mutual

/-- Emits the code of an expression and gives the operand that holds its value. A constructor whose
components are constants is one itself. -/
def expr (env : Env) : Expr → Lower α Operand
  | .absent => fail (.internal (.lowerForm Expr.absent.form))
  | .int _ value => literal (Scalar.ofInt value)
  | .float _ value => literal (Scalar.ofFloat value)
  | .bool _ value => literal (Scalar.ofBool value)
  | .var ref => register env ref
  | .index ref i _ => indexed env ref i
  | .unary _ _ x _ => do
    let value ← expr env x
    let res ← temp
    instr .mov res [value.neg]
    return res
  | .binary _ op l r type => do
    let left ← expr env l
    let right ← expr env r
    binary op left right (l.type env.decls) (r.type env.decls) type
  | .call _ func args _ => do
    let values ← exprs env args
    call func values
  | .construct pos type args => do
    match ← ofExcept (reduce env (.construct pos type args)) with
    | some (.literal values) => immediate (.constant (.literal values))
    | _ =>
      if args.length ≤ Component.all.length then
        let values ← exprs env args
        assemble values
      else fail (.internal (.constructorSize type args.length))

/-- Emits the code of expressions, one after the other. -/
def exprs (env : Env) : List Expr → Lower α (List Operand)
  | [] => return []
  | e :: es => do
    let value ← expr env e
    let values ← exprs env es
    return value :: values

end

end Lower

end Shader
