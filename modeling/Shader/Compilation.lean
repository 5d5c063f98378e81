import Shader.Assembly.Printer
import Shader.Ast.Parser
import Shader.Lower.Stmt
import Shader.Typing.Check

/-!
# Compiling a program

A source text is parsed, checked and compiled, and each step needs the one before to find no error.

A program is compiled in two passes. The first names every declaration and declares the shader's
variables, folding the initializers of constants. The second emits the code.

What was found out before a failure stays: the symbol table, if the program has one, and a note for
each constant that was declared.
-/

namespace Shader

open Program (Scope)
open Number (Scalar)
open Text

/-- A note on a constant: the value it is declared with, and whether that is its own. -/
structure Note (α : Type) where
  pos : Pos
  type : Ty
  name : Bytes
  value : ParamValue α
  folded : Bool

/-- A note as a line. -/
def Note.text {α : Type} (number : α → Bytes) (n : Note α) : Bytes :=
  n.pos.message (ascii "const " ++ n.type.name ++ ascii " " ++ quoted n.name ++
    (if n.folded then ascii " folded to "
      else ascii " is not a compile-time constant, initialized to ") ++
    n.value.text number) ++ ascii "\n"

/-- The outcome of a compilation. -/
structure Compilation (α : Type) where
  symbols : Option Symbols := none
  notes : List (Note α) := []
  outcome : Except Failure (Assembly α)

namespace Compilation

variable {α : Type} [Scalar α]

/-- Declares the variables of the shader in the order of the symbol table, with a note for each
constant. -/
def declare (env : Env) : List (DeclId × Register) → Assembly α →
    List (Note α) × Except Failure (Assembly α)
  | [], a => ([], .ok a)
  | (id, reg) :: rest, a =>
    match env.decls[id]? with
    | none => declare env rest a
    | some d =>
      if !d.isOrdinary then declare env rest a
      else if !d.isConst then declare env rest (a.declareUserTemp reg)
      else match d.init with
        | none => ([], .error (.internal (.uninitialized d.name)))
        | some init =>
          match reduceOrZero env init with
          | .error e => ([], .error e)
          | .ok (value, folded) =>
            let (notes, result) := declare env rest (a.declareUserParam reg value)
            (⟨d.pos, d.type, d.name, value, folded⟩ :: notes, result)

/-- Emits the code of a program whose variables are declared. -/
def emit (env : Env) (body : Option Scope) (a : Assembly α) : Except Failure (Assembly α) :=
  match body with
  | none => .ok a
  | some body =>
    match (Lower.stmt env none (.scope body.decls body.stmts)).run { program := a } with
    | .error e => .error e
    | .ok (_, lines, alloc) => .ok (alloc.program.append lines)

end Compilation

/-- Compiles a program. -/
def Program.compile {α : Type} [Scalar α] (p : Program) : Compilation α :=
  match Symbols.build p with
  | .error d => { outcome := .error (.internal d) }
  | .ok symbols =>
    let env : Env := ⟨p.decls, symbols⟩
    let (notes, declared) := Compilation.declare env symbols.entries {}
    { symbols := some symbols
      notes := notes
      outcome := match declared with
        | .error e => .error e
        | .ok a => Compilation.emit env p.body a }

/-! ## What is shown of a compilation -/

/-- How the scalars of a program are written. -/
def singleText (x : Float32) : Bytes := (Number.ofSingle x).text

/-- The notes as text. -/
def Compilation.log (c : Compilation Float32) : Bytes := c.notes.flatMap (Note.text singleText)

/-- The symbol table as text, with a blank line behind it. -/
def Compilation.symbolText (c : Compilation Float32) (p : Program) : Bytes :=
  match c.symbols with
  | some s => s.text p.decls ++ ascii "\n"
  | none => []

/-! ## From the source text -/

/-- How far a source text gets. -/
inductive Compiled where
  | malformed (errors : List ParseError)
  | illTyped (errors : List Diagnostic)
  /-- A program without errors, its names bound, and what compiling it gave. -/
  | attempted (program : Program) (result : Compilation Float32)

/-- Compiles a source text. -/
def compile (source : Bytes) : Compiled :=
  let parsed := parse source
  if !parsed.errors.isEmpty then .malformed parsed.errors
  else
    let checked := (Program.ofAst parsed.body).check
    if !checked.checker.errors.isEmpty then .illTyped checked.checker.errors
    else .attempted checked.program checked.program.compile

end Shader
