import Shader.Assembly.Register
import Shader.Failure

/-!
# The register of every declaration

A symbol table lists the declarations of a program, the predefined ones first and the others in the
order of the text, each with its register. The variable of a hardware register is bound to it. Any
other variable `x` is bound to the first of `$x_0`, `$x_1`, … that no variable before it has.
-/

namespace Shader

namespace Program

/-- What a walk through a program meets: a declaration, or a missing statement. -/
inductive Visit where
  | decl (id : DeclId)
  | absent
  deriving DecidableEq, Repr

mutual

/-- The declarations of a statement in the order of the text. -/
def Stmt.visits : Stmt → List Visit
  | .absent => [.absent]
  | .assign _ _ _ => []
  | .branch _ yes none => yes.visits
  | .branch _ yes (some no) => yes.visits ++ no.visits
  | .loop _ _ body => body.visits
  | .scope decls stmts => decls.map .decl ++ Stmt.listVisits stmts

/-- The declarations of statements in the order of the text. -/
def Stmt.listVisits : List Stmt → List Visit
  | [] => []
  | s :: ss => s.visits ++ Stmt.listVisits ss

end

/-- The declarations of a program, the predefined ones first. -/
def visits (p : Program) : List Visit :=
  (p.predefined.getD []).map .decl ++
    match p.body with
    | some body => (Stmt.scope body.decls body.stmts).visits
    | none => []

end Program

open Program (Visit declText)

/-- Declarations with their registers, in the order in which they are listed. -/
structure Symbols where
  entries : List (DeclId × Register) := []
  deriving DecidableEq, Repr

namespace Symbols

/-- The register of a declaration. -/
def register? (s : Symbols) (id : DeclId) : Option Register := s.entries.lookup id

/-- The declaration of a register, by the register's name. -/
def declaration? (s : Symbols) (name : Bytes) : Option DeclId :=
  (s.entries.find? fun e => e.2.text == name).map (·.1)

/-- Whether a declaration that is listed has the register. -/
def isTaken (s : Symbols) (r : Register) : Bool := s.entries.any (·.2 = r)

/-- Looks for a number from `n` on with which the register of a name is free, `budget` numbers
far. -/
def seek (s : Symbols) (name : Bytes) : (budget n : Nat) → Nat
  | 0, n => n
  | budget + 1, n => if s.isTaken (.user name n) then seek s name budget (n + 1) else n

/-- The first number with which the register of a name is free. The entries cannot take more numbers
than there are entries. -/
def firstFree (s : Symbols) (name : Bytes) : Nat := s.seek name s.entries.length 0

/-- The register a declaration gets behind those listed. -/
def assign (s : Symbols) (d : Declaration) : Except Defect Register :=
  if d.isOrdinary then .ok (.user d.name (s.firstFree d.name))
  else match Hardware.ofName? d.name with
    | none => .error (.noHardware d.name)
    | some h =>
      if s.isTaken (.hardware h) then .error (.hardwareTwice d.name) else .ok (.hardware h)

/-- The table with what a walk meets next. -/
def add (decls : List Declaration) (s : Symbols) : Visit → Except Defect Symbols
  | .absent => .error .absentStatement
  | .decl id =>
    match decls[id]? with
    | none => .ok s
    | some d =>
      if (s.register? id).isSome then .error (.visitedTwice d.name)
      else do
        let r ← s.assign d
        return ⟨s.entries ++ [(id, r)]⟩

/-- The symbol table of a program. -/
def build (p : Program) : Except Defect Symbols := p.visits.foldlM (add p.decls) {}

/-- The register a bound name stands for. -/
def registerOf (s : Symbols) (decls : List Declaration) (decl : Option DeclId) :
    Except Defect Register :=
  match decl with
  | none => .error .unbound
  | some id =>
    match s.register? id with
    | some r => .ok r
    | none => .error (.noRegister ((decls[id]?.map (·.name)).getD []))

/-- The table as text, a declaration a line. -/
def text (s : Symbols) (decls : List Declaration) : Bytes :=
  let line (e : DeclId × Register) : Bytes :=
    e.2.text ++ ascii " : " ++ ((decls[e.1]?.map declText).getD []) ++ ascii "\n"
  ascii "Declared Symbol Register Table\n" ++ s.entries.flatMap line

end Symbols

end Shader
