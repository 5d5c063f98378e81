import Shader.Assembly
import Shader.Number.Scalar
import Shader.Symbols

/-!
# Folding constants

`reduce` evaluates an expression as far as it is known before the program runs. Literals and what is
computed from them give the components of a value. A predefined variable gives its register, and an
index into it one component of that, but nothing can be computed from those. An expression with a
call or a mutable variable gives nothing.

A constant is replaced by its initializer, wherever that stands. How often that can happen in a row
is bounded by the number of declarations.

Folding has three outcomes: a constant, nothing, and a defect of the tree.
-/

namespace Shader

open Program (Expr)
open Number (Scalar)

/-- What names are looked up in. -/
structure Env where
  decls : List Declaration
  symbols : Symbols

/-- The component of an index. -/
def componentOf (i : Int) : Except Failure Component :=
  match Component.ofIndex? i with
  | some c => .ok c
  | none => .error (.internal (.noComponent i))

namespace Reduce

variable {α : Type} [Scalar α]

/-! ## Operators on components -/

/-- Whether an order holds between two scalars. -/
def ordered (op : BinaryOp) (x y : α) : Bool :=
  match op with
  | .lt => Scalar.lt x y
  | .le => Scalar.le x y
  | .gt => Scalar.lt y x
  | _ => Scalar.le y x

/-- An operator that works on each component by itself. -/
def component (op : BinaryOp) (x y : α) : Except Failure (Option α) :=
  match op with
  | .add => .ok (some (Scalar.add x y))
  | .sub => .ok (some (Scalar.sub x y))
  | .mul => .ok (some (Scalar.mul x y))
  | .div => .ok (if Scalar.isZero y then none else some (Scalar.div x y))
  | .pow => .ok (Scalar.pow? x y)
  | .and => .ok (some (Scalar.min x y))
  | .or => .ok (some (Scalar.max x y))
  | _ => .error (.internal (.reduceOperator op))

/-- Two values with as many components: a single one is repeated to the length of the other. -/
def broadcast (l r : List α) : Option (List (α × α)) :=
  if l.length = r.length then some (l.zip r)
  else match l, r with
    | [x], _ => some (r.map fun y => (x, y))
    | _, [y] => some (l.map fun x => (x, y))
    | _, _ => none

/-- An operator on each pair of components. -/
def components (op : BinaryOp) : List (α × α) → Except Failure (Option (List α))
  | [] => .ok (some [])
  | (x, y) :: rest => do
    match ← component op x y with
    | none => return none
    | some z => return (← components op rest).map (z :: ·)

/-- An operator on two values. -/
def binary (op : BinaryOp) (l r : List α) : Except Failure (Option (List α)) :=
  match op with
  | .lt | .le | .gt | .ge =>
    match l, r with
    | [x], [y] => .ok (some [Scalar.ofBool (ordered op x y)])
    | _, _ => .ok none
  | .eq | .ne =>
    if l.length = r.length then
      let same := (l.zip r).all fun (x, y) => Scalar.eq x y
      .ok (some [Scalar.ofBool (same == (op == .eq))])
    else .ok none
  | _ =>
    match broadcast l r with
    | none => .ok none
    | some pairs => components op pairs

/-! ## Expressions -/

/-- One component of a constant. -/
def index (c : Constant α) (i : Int) : Except Failure (Option (Constant α)) :=
  match c with
  | .register reg path => do return some (.register reg (path ++ [← componentOf i]))
  | .literal values =>
    .ok (if i < 0 then none else values[i.toNat]?.map fun x => .literal [x])

mutual

/-- Folds an expression in which `lookup` folds the names. -/
def expr (lookup : Ref → Except Failure (Option (Constant α))) :
    Expr → Except Failure (Option (Constant α))
  | .absent => .error (.internal (.reduceForm Expr.absent.form))
  | .int _ value => .ok (some (.literal [Scalar.ofInt value]))
  | .float _ value => .ok (some (.literal [Scalar.ofFloat value]))
  | .bool _ value => .ok (some (.literal [Scalar.ofBool value]))
  | .var ref => lookup ref
  | .index ref i _ => do
    match ← lookup ref with
    | none => return none
    | some c => index c i
  | .construct _ _ args => do return (← scalars lookup args).map .literal
  | .unary _ _ x _ => do
    match ← expr lookup x with
    | some (.literal values) => return some (.literal (values.map Scalar.neg))
    | _ => return none
  | .binary _ op l r _ => do
    match ← expr lookup l with
    | some (.literal ls) =>
      match ← expr lookup r with
      | some (.literal rs) => return (← binary op ls rs).map .literal
      | _ => return none
    | _ => return none
  | .call _ _ _ _ => .ok none

/-- Folds expressions that each have one component. -/
def scalars (lookup : Ref → Except Failure (Option (Constant α))) :
    List Expr → Except Failure (Option (List α))
  | [] => .ok (some [])
  | e :: es => do
    match ← expr lookup e with
    | some (.literal [x]) => return (← scalars lookup es).map (x :: ·)
    | _ => return none

end

/-- Folds a name: a constant of the shader by its initializer, which may go through `budget` further
constants, and a predefined variable to its register. -/
def named (env : Env) : (budget : Nat) → Ref → Except Failure (Option (Constant α))
  | 0, ref => .error (.cycle ref.name)
  | n + 1, ref =>
    match ref.decl.bind (env.decls[·]?) with
    | none => .error (.internal (.unboundName ref.name))
    | some d =>
      if !d.isOrdinary then
        match env.symbols.registerOf env.decls ref.decl with
        | .ok r => .ok (some (.register r []))
        | .error defect => .error (.internal defect)
      else if d.isConst then
        match d.init with
        | some init => expr (named env n) init
        | none => .ok none
      else .ok none

end Reduce

variable {α : Type} [Scalar α]

/-- Folds an expression. Each constant on the way takes one of the budget, and so does the name that
ends it. -/
def reduce (env : Env) (e : Expr) : Except Failure (Option (Constant α)) :=
  Reduce.expr (Reduce.named env (env.decls.length + 1)) e

/-- The value declared for an expression that cannot be folded: a zero for each component of its
type, and at least one. -/
def zeroValue (t : Ty) : ParamValue α := .zeros (max t.order 1).toNat

/-- The value a constant is declared with, and whether its initializer could be folded. -/
def reduceOrZero (env : Env) (e : Expr) : Except Failure (ParamValue α × Bool) := do
  match ← reduce env e with
  | some c => return (.constant c, true)
  | none => return (zeroValue (e.type env.decls), false)

end Shader
