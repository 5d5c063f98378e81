import Shader.Program
import Shader.Typing.Diagnostic
import Shader.Typing.Rules

/-!
# Checking a program

One walk through the program, in the order of the text, binds every name to its declaration, gives
every expression its type, and collects the diagnostics. The result is the same program with
bindings and types filled in.

A name means the declaration of the innermost block that has declared it so far. The predefined
variables share the outermost block with the program's own. A variable is declared behind its
initializer, so it is not in scope there.

An invalid type stands for a fault that has been reported already: no operator complains about an
operand of that type.

The walk stops at a missing part of the tree. What it has passed stays filled in, and nothing behind
is looked at.
-/

namespace Shader

open Program (Expr Stmt refType predefinedDecls)
open Typing

/-- The missing part at which a check stopped. -/
inductive Absence where
  | statement
  | expression
  deriving DecidableEq, Repr

/-- The message about a check that stopped. -/
def Absence.message : Absence → Bytes
  | statement => ascii "semantic: unexpected statement <nil>"
  | expression => ascii "semantic: unexpected expression <nil>"

/-- The names a block has declared. -/
abbrev Names := List (Bytes × DeclId)

/-- A checker: the open blocks, innermost first, and the diagnostics in the order of their faults.
One checker can check several programs. -/
structure Checker where
  scopes : List Names := []
  errors : List Diagnostic := []

namespace Checker

/-- A check under way: the checker, the table of the program being checked, and where it stopped. -/
structure State extends Checker where
  decls : List Declaration
  stopped : Option Absence := none

/-- A step of a check. -/
abbrev CheckM := StateM State

/-- The declaration a name means. -/
def lookup? (c : Checker) (name : Bytes) : Option DeclId := c.scopes.findSome? (·.lookup name)

namespace State

/-- Whether the check goes on. -/
def running (s : State) : Bool := s.stopped.isNone

/-- With a diagnostic. -/
def report (s : State) (pos : Pos) (complaint : Complaint) : State :=
  if s.running then { s with errors := s.errors ++ [⟨pos, complaint⟩] } else s

/-- Stopped at a missing part. -/
def stop (s : State) (part : Absence) : State :=
  if s.running then { s with stopped := some part } else s

/-- In a new innermost block. -/
def push (s : State) : State := { s with scopes := [] :: s.scopes }

/-- Out of the innermost block. -/
def pop (s : State) : State := { s with scopes := s.scopes.tail }

/-- With a variable declared in the innermost block. The first declaration of a name stands. -/
def declare (s : State) (id : DeclId) : State :=
  match s.running, s.decls[id]?, s.scopes with
  | true, some d, top :: outer =>
    match (top.lookup d.name).bind (s.decls[·]?) with
    | some previous =>
      if isPredefined previous.name && !previous.isOrdinary then
        s.report d.pos (.duplicatePredefined d.type d.name)
      else s.report d.pos (.duplicate d.type d.name previous.pos)
    | none => { s with scopes := ((d.name, id) :: top) :: outer }
  | _, _, _ => s

/-- With an initializer as the check left it. -/
def setInit (s : State) (id : DeclId) (init : Expr) : State :=
  { s with decls := s.decls.modify id fun d => { d with init := some init } }

end State

/-- Adds a diagnostic. -/
def report (pos : Pos) (complaint : Complaint) : CheckM Unit := modify (·.report pos complaint)

/-- Does `act` unless the check has stopped. -/
def whileRunning {α : Type} (otherwise : α) (act : CheckM α) : CheckM α := do
  if (← get).running then act else return otherwise

/-- The type that a node gets: the one found, unless the check stopped below it. -/
def settle (old found : Ty) : CheckM Ty := return if (← get).running then found else old

/-! ## Variables -/

/-- Binds a use of a name, and gives the type of the variable. A name that nothing declares keeps
what it was bound to. -/
def resolve (ref : Ref) : CheckM (Ref × Ty) := do
  let s ← get
  match s.lookup? ref.name with
  | some id =>
    let ref := { ref with decl := some id }
    return (ref, refType s.decls ref)
  | none =>
    report ref.pos (.undeclared ref.name)
    return (ref, .invalid)

/-- The qualifier of the variable that a reference is bound to. -/
def qualifier? (ref : Ref) : CheckM (Option Qualifier) := do
  let s ← get
  return (ref.decl.bind (s.decls[·]?)).map (·.qualifier)

/-- Whether a variable can be read: not if it is an output. -/
def readable (ref : Ref) : CheckM Bool := do
  if (← qualifier? ref) = some .result then
    report ref.pos (.readResult ref.name)
    return false
  else return true

/-- The type of one component of a variable, and the type its node carries from now on, which is the
old one if the index is wrong. -/
def component (ref : Ref) (index : Int) (old : Ty) : CheckM (Ty × Ty) := do
  let type := refType (← get).decls ref
  if !type.isValid then return (old, .invalid)
  else if !type.isVector then
    report ref.pos (.indexOfScalar ref.name type)
    return (old, .invalid)
  else if index < 0 || type.order ≤ index then
    report ref.pos (.indexOutOfRange ref.name type)
    return (old, .invalid)
  else return (type.scalar, type.scalar)

/-! ## Expressions -/

/-- The type of a prefix operator. -/
def unaryType (pos : Pos) (op : UnaryOp) (t : Ty) : CheckM Ty := do
  if !t.isValid then return .invalid
  else
    match unaryResult? op t with
    | some type => return type
    | none =>
      report pos (.unaryOperand op t)
      return .invalid

/-- The type of a binary operator. -/
def binaryType (pos : Pos) (op : BinaryOp) (l r : Ty) : CheckM Ty := do
  if !l.isValid || !r.isValid then return .invalid
  else
    match binaryResult? op l r with
    | some type => return type
    | none =>
      report pos (.binaryOperands op l r)
      return .invalid

/-- The type of a call. -/
def callType (pos : Pos) (func : Bytes) (args : List Ty) : CheckM Ty := do
  match Function.ofName? func with
  | none =>
    report pos (.unknownFunction func)
    return .invalid
  | some f =>
    if !args.all Ty.isValid then return .invalid
    else
      match f.result? args with
      | some type => return type
      | none =>
        report pos (.arguments func)
        return .invalid

/-- Whether a component of a constructor is a scalar of its base. -/
def componentFits (type : Ty) (pos : Pos) (given : Ty) : CheckM Bool := do
  if !given.isValid then return false
  else if given ≠ type.scalar then
    report pos (.component type given type.scalar)
    return false
  else return true

mutual

/-- An expression with its names bound and its operators typed, and its type. -/
def checkExpr : Expr → CheckM (Expr × Ty)
  | .absent => do
    modify (·.stop .expression)
    return (.absent, .invalid)
  | .int pos value => return (.int pos value, .int)
  | .float pos value => return (.float pos value, .float)
  | .bool pos value => return (.bool pos value, .bool)
  | .var ref => whileRunning (.var ref, .invalid) do
    let (ref, type) ← resolve ref
    if !type.isValid then return (.var ref, type)
    else if ← readable ref then return (.var ref, type)
    else return (.var ref, .invalid)
  | .index ref index old => whileRunning (.index ref index old, .invalid) do
    let (ref, type) ← resolve ref
    if !type.isValid then return (.index ref index old, .invalid)
    else if ← readable ref then
      let (carried, type) ← component ref index old
      return (.index ref index carried, type)
    else return (.index ref index old, .invalid)
  | .unary pos op x old => do
    let (x, t) ← checkExpr x
    let type ← settle old (← unaryType pos op t)
    return (.unary pos op x type, type)
  | .binary pos op l r old => do
    let (l, lt) ← checkExpr l
    let (r, rt) ← checkExpr r
    let type ← settle old (← binaryType pos op lt rt)
    return (.binary pos op l r type, type)
  | .call pos func args old => do
    let (args, types) ← checkArgs args
    let type ← settle old (← callType pos func types)
    return (.call pos func args type, type)
  | .construct pos type args => do
    let (args, fit) ← checkComponents type args
    if fit && (args.length : Int) ≠ type.order then
      report pos (.componentCount type args.length)
    return (.construct pos type args, type)

/-- The arguments of a call, and their types. -/
def checkArgs : List Expr → CheckM (List Expr × List Ty)
  | [] => return ([], [])
  | e :: es => do
    let (e, t) ← checkExpr e
    let (es, ts) ← checkArgs es
    return (e :: es, t :: ts)

/-- The components of a constructor, and whether all of them fit. -/
def checkComponents (type : Ty) : List Expr → CheckM (List Expr × Bool)
  | [] => return ([], true)
  | e :: es => do
    let (e, t) ← checkExpr e
    let fits ← componentFits type e.pos t
    let (es, rest) ← checkComponents type es
    return (e :: es, fits && rest)

end

/-! ## Declarations and statements -/

/-- Checks a declaration and declares it. -/
def checkDecl (id : DeclId) : CheckM Unit := whileRunning () do
  match (← get).decls[id]? with
  | none => return
  | some d =>
    match d.init with
    | none =>
      if d.isConst then report d.pos (.uninitialized d.name)
    | some init =>
      let (init, type) ← checkExpr init
      modify (·.setInit id init)
      if type.isValid && type ≠ d.type then report d.pos (.initializer d.type d.name type)
    modify (·.declare id)

/-- Checks the condition of a statement. -/
def checkCondition (statement : Conditional) (cond : Expr) : CheckM Expr := do
  let (cond, type) ← checkExpr cond
  if type.isValid && type ≠ .bool then report cond.pos (.condition statement type)
  return cond

/-- The name under which a variable is declared. -/
def boundName (ref : Ref) : CheckM Bytes := do
  return ((ref.decl.bind ((← get).decls[·]?)).map (·.name)).getD []

/-- Checks what is written to a variable of a type. -/
def checkWrite (pos : Pos) (ref : Ref) (target value : Ty) : CheckM Unit := do
  match ← qualifier? ref with
  | some .const => report pos (.assignConst (← boundName ref))
  | some .varying => report pos (.assignReadOnly .varying (← boundName ref))
  | some .uniform => report pos (.assignReadOnly .uniform (← boundName ref))
  | _ =>
    if target.isValid && value.isValid && target ≠ value then
      report pos (.assignment ref.name target value)

/-- Checks the target of an assignment of a value. -/
def checkTarget (pos : Pos) (target : Expr) (value : Ty) : CheckM Expr :=
  whileRunning target do
    match target with
    | .var ref =>
      let (ref, type) ← resolve ref
      checkWrite pos ref type value
      return .var ref
    | .index ref index old =>
      let (ref, _) ← resolve ref
      let (carried, type) ← component ref index old
      checkWrite pos ref type value
      return .index ref index carried
    | _ =>
      report pos .badTarget
      return target

mutual

/-- Checks a statement. -/
def checkStmt : Stmt → CheckM Stmt
  | .absent => do
    modify (·.stop .statement)
    return .absent
  | .assign pos target value => do
    let (value, type) ← checkExpr value
    let target ← checkTarget pos target type
    return .assign pos target value
  | .branch cond yes none => do
    let cond ← checkCondition .branch cond
    let yes ← checkStmt yes
    return .branch cond yes none
  | .branch cond yes (some no) => do
    let cond ← checkCondition .branch cond
    let yes ← checkStmt yes
    let no ← checkStmt no
    return .branch cond yes (some no)
  | .loop pos cond body => do
    let cond ← checkCondition .loop cond
    let body ← checkStmt body
    return .loop pos cond body
  | .scope decls stmts => do
    modify State.push
    decls.forM checkDecl
    let stmts ← checkStmts stmts
    modify State.pop
    return .scope decls stmts

/-- Checks statements in order. -/
def checkStmts : List Stmt → CheckM (List Stmt)
  | [] => return []
  | s :: ss => do
    let s ← checkStmt s
    let ss ← checkStmts ss
    return s :: ss

end

/-! ## Programs -/

/-- The program with the predefined variables and a body, which it may lack. -/
def install (p : Program) : Program :=
  match p.predefined with
  | some _ => { p with body := some (p.body.getD {}) }
  | none =>
    { decls := p.decls ++ predefinedDecls
      predefined := some (List.range' p.decls.length predefinedDecls.length)
      body := some (p.body.getD {}) }

/-- A checker after a program, that program checked, and where the check stopped, if it did. -/
structure Checked where
  checker : Checker
  program : Program
  stopped : Option Absence

/-- Checks a program. -/
def check (c : Checker) (p : Program) : Checked :=
  let p := install p
  let body := p.body.getD {}
  let walk : CheckM (List Stmt) := do
    modify State.push
    (p.predefined.getD []).forM fun id => modify (·.declare id)
    body.decls.forM checkDecl
    let stmts ← checkStmts body.stmts
    modify State.pop
    return stmts
  let (stmts, s) := walk.run { c with decls := p.decls }
  { checker := s.toChecker
    program := { p with decls := s.decls, body := some ⟨body.decls, stmts⟩ }
    stopped := s.stopped }

end Checker

/-- Checks a program with a fresh checker. -/
def Program.check (p : Program) : Checker.Checked := ({} : Checker).check p

end Shader
