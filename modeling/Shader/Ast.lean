import Shader.Operator
import Shader.Position
import Shader.Types

/-!
# The tree of a source text

What the parser reads: names are not yet bound to declarations, and nothing has a type but what
names one. Every part that the grammar asks for is there, so this tree has no gaps.
-/

namespace Shader.Ast

/-- A variable, or one component of it: `v` or `v[2]`. -/
structure Var where
  pos : Pos
  name : Bytes
  index : Option Nat := none

/-- Expressions. Operators are at the position of their token, all else where it starts. -/
inductive Expr where
  | int (pos : Pos) (value : Nat)
  | float (pos : Pos) (value : Float)
  | bool (pos : Pos) (value : Bool)
  | var (v : Var)
  | unary (pos : Pos) (op : UnaryOp) (operand : Expr)
  | binary (pos : Pos) (op : BinaryOp) (left right : Expr)
  /-- A call of a named function. -/
  | call (pos : Pos) (func : Bytes) (args : List Expr)
  /-- A value put together from its components: `vec3(1.0, x, 2.0)`. -/
  | construct (pos : Pos) (type : Ty) (args : List Expr)

/-- A declaration: `const float x = 1.0;` -/
structure Decl where
  pos : Pos
  isConst : Bool
  type : Ty
  name : Bytes
  init : Option Expr

/-- Statements. -/
inductive Stmt where
  | assign (target : Var) (value : Expr)
  | branch (cond : Expr) (yes : Stmt) (no : Option Stmt)
  | loop (pos : Pos) (cond : Expr) (body : Stmt)
  | scope (decls : List Decl) (stmts : List Stmt)

/-- A braced block: declarations, then statements. -/
structure Scope where
  decls : List Decl := []
  stmts : List Stmt := []

/-- A block as a statement. -/
def Scope.toStmt (s : Scope) : Stmt := .scope s.decls s.stmts

end Shader.Ast
