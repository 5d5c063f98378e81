import Shader.Proofs.Machine
import Shader.Reduce

/-!
# What a shader means

The meaning of a checked program over an ordered field, block by block: a block runs its
declarations in order and then its statements, and an `if` runs the branches its condition selects.
Nothing here knows of registers for intermediate values, or of conditions that are kept.

A value has a number in each component. A scalar has the same number in all of them, and of a vector
only the components below its order count. Truth values are numbers: one for true and minus one for
false, so that negation is `not`, the minimum `and` and the maximum `or`. A variable without
initializer is zero, which is neither.

Literals, constructors of constants and constants are known before the program runs. They are folded
in the arithmetic of the compiler, so `value` says what number each of its scalars stands for.
-/

namespace Shader

open Program (Expr Stmt)
open Number (Scalar)

/-- The components of a value of a type that count: those below its order, and all of a scalar. -/
def Ty.components (t : Ty) : List Component :=
  if t.isScalar then Component.all else Component.all.take t.order.toNat

/-- The value of every variable. -/
abbrev Store (K : Type) := DeclId → Vec K

namespace Semantics

variable {K : Type} [Field K] [LinearOrder K]

/-! ## Operators and functions -/

/-- The truth value of a proposition. -/
def holds (p : Prop) [Decidable p] : Vec K := .splat (Machine.truth (decide p))

/-- A binary operator, of which the left operand has type `t`. -/
def binary (F : Functions K) (t : Ty) (l r : Vec K) : BinaryOp → Vec K
  | .add => fun c => l c + r c
  | .sub => fun c => l c - r c
  | .mul => fun c => l c * r c
  | .div => .splat (l .x * F.rcp (r .x))
  | .pow => .splat (F.pow (l .x) (r .x))
  | .and => fun c => min (l c) (r c)
  | .or => fun c => max (l c) (r c)
  | .lt => holds (l .x < r .x)
  | .gt => holds (r .x < l .x)
  | .le => holds (l .x ≤ r .x)
  | .ge => holds (r .x ≤ l .x)
  | .eq => holds (∀ c ∈ t.components, l c = r c)
  | .ne => holds (¬∀ c ∈ t.components, l c = r c)
  | .unknown => 0

/-- A call of a function of the target. -/
def call (F : Functions K) : Function → List (Vec K) → Vec K
  | .rsq, [u] => .splat (F.rsq (u .x))
  | .dp3, [u, v] => .splat (u .x * v .x + u .y * v .y + u .z * v .z)
  | .lit, [u] => F.lit u
  | _, _ => 0

/-! ## Expressions -/

variable {α : Type} [Scalar α]

/-- The value of a variable: a scalar is one number. -/
def variableValue (env : Env) (σ : Store K) (ref : Ref) : Vec K :=
  match ref.decl with
  | some id => if (Program.refType env.decls ref).isScalar then .splat (σ id .x) else σ id
  | none => 0

/-- The value of one component of a variable. -/
def componentValue (σ : Store K) (ref : Ref) (i : Int) : Vec K :=
  match ref.decl, Component.ofIndex? i with
  | some id, some c => .splat (σ id c)
  | _, _ => 0

mutual

/-- The value of an expression. A constructor that can be folded has the value it folds to. -/
def expr (env : Env) (F : Functions K) (value : α → K) (σ : Store K) : Expr → Vec K
  | .absent => 0
  | .int _ n => .splat (value (Scalar.ofInt n))
  | .float _ x => .splat (value (Scalar.ofFloat x))
  | .bool _ b => .splat (value (Scalar.ofBool b))
  | .var ref => variableValue env σ ref
  | .index ref i _ => componentValue σ ref i
  | .unary _ _ x _ => -expr env F value σ x
  | .binary _ op l r _ =>
    binary F (l.type env.decls) (expr env F value σ l) (expr env F value σ r) op
  | .call _ func args _ =>
    match Function.ofName? func with
    | some f => call F f (exprs env F value σ args)
    | none => 0
  | .construct pos type args =>
    match reduce (α := α) env (.construct pos type args) with
    | .ok (some (.literal xs)) => .ofList (xs.map value)
    | _ => .ofList ((exprs env F value σ args).map (· .x))

/-- The values of expressions. -/
def exprs (env : Env) (F : Functions K) (value : α → K) (σ : Store K) : List Expr → List (Vec K)
  | [] => []
  | e :: es => expr env F value σ e :: exprs env F value σ es

end

/-! ## Statements -/

/-- The store after an assignment to a variable or a component. -/
def assign (σ : Store K) (v : Vec K) : Expr → Store K
  | .var ⟨_, some id, _⟩ => Function.update σ id v
  | .index ⟨_, some id, _⟩ i _ =>
    match Component.ofIndex? i with
    | some c => Function.update σ id (Function.update (σ id) c (v .x))
    | none => σ
  | _ => σ

/-- The store after a declaration. A variable without initializer becomes zero; a constant has its
value from the start. -/
def declare (env : Env) (F : Functions K) (value : α → K) (σ : Store K) (id : DeclId) : Store K :=
  match env.decls[id]? with
  | none => σ
  | some d =>
    if d.isConst then σ
    else match d.init with
      | some e => Function.update σ id (expr env F value σ e)
      | none => Function.update σ id 0

mutual

/-- The store after a statement. The condition of an `if` is evaluated once: the first branch runs
unless it is negative, and then the other unless its negation is. With one for true and minus one
for false that is exactly one of them. Loops have no meaning. -/
def stmt (env : Env) (F : Functions K) (value : α → K) (σ : Store K) : Stmt → Store K
  | .absent => σ
  | .assign _ target e => assign σ (expr env F value σ e) target
  | .branch e yes none =>
    if expr env F value σ e .x < 0 then σ else stmt env F value σ yes
  | .branch e yes (some no) =>
    let c := expr env F value σ e .x
    let σ₁ := if c < 0 then σ else stmt env F value σ yes
    if -c < 0 then σ₁ else stmt env F value σ₁ no
  | .loop _ _ _ => σ
  | .scope ids ss => stmts env F value (ids.foldl (declare env F value) σ) ss

/-- The store after statements in order. -/
def stmts (env : Env) (F : Functions K) (value : α → K) (σ : Store K) : List Stmt → Store K
  | [] => σ
  | s :: ss => stmts env F value (stmt env F value σ s) ss

end

/-! ## Programs -/

/-- The store a program starts from: a constant has the value it is declared with, and any other
variable what is in its register. -/
def initial (env : Env) (value : α → K) (contents : Registers K) : Store K := fun id =>
  match env.decls[id]? with
  | none => 0
  | some d =>
    match d.isConst, d.init with
    | true, some e =>
      match reduceOrZero (α := α) env e with
      | .ok (v, _) => Machine.paramValue value contents v
      | .error _ => 0
    | _, _ =>
      match env.symbols.register? id with
      | some r => contents r
      | none => 0

/-- The store after a program. -/
def program (env : Env) (F : Functions K) (value : α → K) (contents : Registers K)
    (body : Option Program.Scope) : Store K :=
  match body with
  | some body => stmt env F value (initial env value contents) (.scope body.decls body.stmts)
  | none => initial env value contents

/-! ## Constructors of scalars

A constructor with one argument, such as `float(e)`, is code that fills one component of a register
only. The others keep what they had, so a program has its meaning if all of these fold. -/

/-- Whether an expression can be folded to numbers. -/
def foldsToNumbers (α : Type) [Scalar α] (env : Env) (e : Expr) : Bool :=
  match reduce (α := α) env e with
  | .ok (some (.literal _)) => true
  | _ => false

theorem exists_literal_of_foldsToNumbers {env : Env} {e : Expr}
    (h : foldsToNumbers α env e = true) :
    ∃ xs : List α, reduce env e = .ok (some (.literal xs)) := by
  unfold foldsToNumbers at h
  split at h
  · rename_i xs heq
    exact ⟨xs, heq⟩
  · cases h

/-- A constructor that does not fold has the values of its arguments. -/
theorem expr_construct_of_fresh {env : Env} {F : Functions K} {value : α → K} {σ : Store K}
    {pos : Pos} {type : Ty} {args : List Expr}
    (h : foldsToNumbers α env (.construct pos type args) = false) :
    expr env F value σ (.construct pos type args) =
      .ofList ((exprs env F value σ args).map (· .x)) := by
  unfold foldsToNumbers at h
  rw [expr]
  split
  · rename_i xs heq
    rw [heq] at h
    cases h
  · rfl

mutual

/-- Whether every constructor of a scalar in an expression can be folded. -/
def scalarsFold (α : Type) [Scalar α] (env : Env) : Expr → Bool
  | .unary _ _ x _ => scalarsFold α env x
  | .binary _ _ l r _ => scalarsFold α env l && scalarsFold α env r
  | .call _ _ args _ => scalarsFoldAll α env args
  | .construct pos type args =>
    (!type.isScalar || foldsToNumbers α env (.construct pos type args)) && scalarsFoldAll α env args
  | _ => true

def scalarsFoldAll (α : Type) [Scalar α] (env : Env) : List Expr → Bool
  | [] => true
  | e :: es => scalarsFold α env e && scalarsFoldAll α env es

end

mutual

/-- Whether every constructor of a scalar in a statement can be folded, those in initializers
apart. -/
def stmtScalarsFold (α : Type) [Scalar α] (env : Env) : Stmt → Bool
  | .absent => true
  | .assign _ _ e => scalarsFold α env e
  | .branch e yes none => scalarsFold α env e && stmtScalarsFold α env yes
  | .branch e yes (some no) =>
    scalarsFold α env e && stmtScalarsFold α env yes && stmtScalarsFold α env no
  | .loop _ e body => scalarsFold α env e && stmtScalarsFold α env body
  | .scope _ ss => stmtsScalarsFold α env ss

def stmtsScalarsFold (α : Type) [Scalar α] (env : Env) : List Stmt → Bool
  | [] => true
  | s :: ss => stmtScalarsFold α env s && stmtsScalarsFold α env ss

end

/-- Whether every constructor of a scalar in a program can be folded. -/
def programScalarsFold (α : Type) [Scalar α] (p : Program) : Bool :=
  match Symbols.build p with
  | .error _ => false
  | .ok symbols =>
    p.decls.all (fun d => d.init.all (scalarsFold α ⟨p.decls, symbols⟩)) &&
      p.body.all fun b => stmtsScalarsFold α ⟨p.decls, symbols⟩ b.stmts

end Semantics

end Shader
