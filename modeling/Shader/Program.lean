import Shader.Ast
import Shader.Builtin

/-!
# Programs

A program is a tree whose names are bound to declarations. Several places of the tree can mean the
same declaration, and the checker fills in what it finds out about one, so declarations live in a
table and the tree refers to them by their place in it, a `DeclId`. Expressions carry their types.

`Program.ofAst` makes a program of the tree of a source text: nothing is bound yet, and the table
lists the declarations of the text in order. Programs can also be put together by hand, and then a
part of the tree may be absent, a reference may lead to a declaration of no scope, and a
declaration may stand in more than one.
-/

namespace Shader

/-- The place of a declaration in the table of its program. -/
abbrev DeclId := Nat

/-- A use of a name, with the declaration it is bound to. -/
structure Ref where
  name : Bytes
  decl : Option DeclId := none
  pos : Pos := {}
  deriving DecidableEq, Repr

namespace Program

/-- Expressions with their types. -/
inductive Expr where
  /-- A missing expression. -/
  | absent
  | int (pos : Pos) (value : Int)
  | float (pos : Pos) (value : Float)
  | bool (pos : Pos) (value : Bool)
  | var (ref : Ref)
  /-- One component of a vector variable. -/
  | index (ref : Ref) (component : Int) (type : Ty)
  | unary (pos : Pos) (op : UnaryOp) (operand : Expr) (type : Ty)
  | binary (pos : Pos) (op : BinaryOp) (left right : Expr) (type : Ty)
  | call (pos : Pos) (func : Bytes) (args : List Expr) (type : Ty)
  | construct (pos : Pos) (type : Ty) (args : List Expr)

/-- The position of an expression. -/
def Expr.pos : Expr → Pos
  | .absent => {}
  | .int pos _ | .float pos _ | .bool pos _ => pos
  | .var ref | .index ref _ _ => ref.pos
  | .unary pos _ _ _ | .binary pos _ _ _ _ | .call pos _ _ _ | .construct pos _ _ => pos

/-- Statements. -/
inductive Stmt where
  /-- A missing statement. -/
  | absent
  | assign (pos : Pos) (target value : Expr)
  | branch (cond : Expr) (yes : Stmt) (no : Option Stmt)
  | loop (pos : Pos) (cond : Expr) (body : Stmt)
  | scope (decls : List DeclId) (stmts : List Stmt)

/-- A block: its declarations, then its statements. -/
structure Scope where
  decls : List DeclId := []
  stmts : List Stmt := []

end Program

/-- The way down a tree to one of its nodes: at each step, the place of the next node among those
directly below. Nodes that look the same have different addresses. -/
abbrev Address := List Nat

/-- A variable: what a name is bound to. -/
structure Declaration where
  name : Bytes
  type : Ty
  qualifier : Qualifier := .ordinary
  init : Option Program.Expr := none
  pos : Pos := {}

namespace Declaration

/-- Whether the shader declares the variable, constant or not. -/
def isOrdinary (d : Declaration) : Bool := d.qualifier.isOrdinary

/-- Whether the variable is a constant. -/
def isConst (d : Declaration) : Bool := d.qualifier == .const

/-- The declaration of the variable of a hardware register. -/
def ofHardware (h : Hardware) : Declaration :=
  { name := h.varName, type := h.type, qualifier := h.qualifier }

end Declaration

/-- A program: the table of its declarations, the predefined ones unless they are not installed yet,
and the outermost block. -/
structure Program where
  decls : List Declaration
  predefined : Option (List DeclId) := none
  body : Option Program.Scope := some {}

namespace Program

/-- The declarations of the predefined variables. -/
def predefinedDecls : List Declaration := Hardware.all.map Declaration.ofHardware

/-- The type of a variable, invalid while it is not bound. -/
def refType (decls : List Declaration) (ref : Ref) : Ty :=
  match ref.decl.bind (decls[·]?) with
  | some d => d.type
  | none => .invalid

/-- The type of an expression. -/
def Expr.type (decls : List Declaration) : Expr → Ty
  | .absent => .invalid
  | .int _ _ => .int
  | .float _ _ => .float
  | .bool _ _ => .bool
  | .var ref => refType decls ref
  | .index _ _ type => type
  | .unary _ _ _ type => type
  | .binary _ _ _ _ type => type
  | .call _ _ _ type => type
  | .construct _ type _ => type

/-! ## The program of a source text -/

/-- A variable that is not bound yet. -/
def Expr.ofVar (v : Ast.Var) : Expr :=
  match v.index with
  | none => .var { name := v.name, pos := v.pos }
  | some i => .index { name := v.name, pos := v.pos } i .invalid

mutual

/-- An expression with nothing bound and no operator typed. -/
def Expr.ofAst : Ast.Expr → Expr
  | .int pos value => .int pos value
  | .float pos value => .float pos value
  | .bool pos value => .bool pos value
  | .var v => Expr.ofVar v
  | .unary pos op x => .unary pos op (Expr.ofAst x) .invalid
  | .binary pos op l r => .binary pos op (Expr.ofAst l) (Expr.ofAst r) .invalid
  | .call pos func args => .call pos func (Expr.ofAsts args) .invalid
  | .construct pos type args => .construct pos type (Expr.ofAsts args)

/-- Expressions, one by one. -/
def Expr.ofAsts : List Ast.Expr → List Expr
  | [] => []
  | e :: es => Expr.ofAst e :: Expr.ofAsts es

end

/-- A declaration of the text as an entry of the table. -/
def declOfAst (d : Ast.Decl) : Declaration where
  name := d.name
  type := d.type
  qualifier := if d.isConst then .const else .ordinary
  init := d.init.map Expr.ofAst
  pos := d.pos

mutual

/-- The declarations of a statement in the order of the text. -/
def astDecls : Ast.Stmt → List Ast.Decl
  | .assign _ _ => []
  | .branch _ yes none => astDecls yes
  | .branch _ yes (some no) => astDecls yes ++ astDecls no
  | .loop _ _ body => astDecls body
  | .scope decls stmts => decls ++ astDeclsList stmts

/-- The declarations of statements in the order of the text. -/
def astDeclsList : List Ast.Stmt → List Ast.Decl
  | [] => []
  | s :: ss => astDecls s ++ astDeclsList ss

end

mutual

/-- A statement whose first declaration has the place `next` in the table. -/
def Stmt.ofAst (next : DeclId) : Ast.Stmt → Stmt
  | .assign target value => .assign target.pos (Expr.ofVar target) (Expr.ofAst value)
  | .branch cond yes none => .branch (Expr.ofAst cond) (Stmt.ofAst next yes) none
  | .branch cond yes (some no) =>
    .branch (Expr.ofAst cond) (Stmt.ofAst next yes)
      (some (Stmt.ofAst (next + (astDecls yes).length) no))
  | .loop pos cond body => .loop pos (Expr.ofAst cond) (Stmt.ofAst next body)
  | .scope decls stmts =>
    .scope (List.range' next decls.length) (Stmt.ofAsts (next + decls.length) stmts)

/-- Statements, of which the first declaration has the place `next` in the table. -/
def Stmt.ofAsts (next : DeclId) : List Ast.Stmt → List Stmt
  | [] => []
  | s :: ss => Stmt.ofAst next s :: Stmt.ofAsts (next + (astDecls s).length) ss

end

/-- The program of a source text. -/
def ofAst (body : Ast.Scope) : Program where
  decls := (astDecls body.toStmt).map declOfAst
  body := some ⟨List.range' 0 body.decls.length, Stmt.ofAsts body.decls.length body.stmts⟩

end Program

end Shader
