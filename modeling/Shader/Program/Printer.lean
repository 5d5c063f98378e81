import Shader.Number.Decimal
import Shader.Program

/-!
# Programs as nested lists

The dump of a program: every node is a parenthesised list that starts with what it is. Blocks are
spread over lines, indented by four blanks for each level; all else stays on its line.
-/

namespace Shader.Program

open Text

/-- The name a message has for an expression's form. -/
def Expr.form : Expr → Bytes
  | .absent => ascii "<nil>"
  | .int _ _ => ascii "*ast.IntLit"
  | .float _ _ => ascii "*ast.FloatLit"
  | .bool _ _ => ascii "*ast.BoolLit"
  | .var _ => ascii "*ast.Ident"
  | .index _ _ _ => ascii "*ast.Index"
  | .unary _ _ _ _ => ascii "*ast.Unary"
  | .binary _ _ _ _ _ => ascii "*ast.Binary"
  | .call _ _ _ _ => ascii "*ast.Call"
  | .construct _ _ _ => ascii "*ast.Constructor"

/-- What is shown for a missing part. -/
def absentText : Bytes := ascii "(UNKNOWN <nil>)"

mutual

/-- Writes an expression as a list. -/
def Expr.writer : Expr → Writer
  | .absent => write absentText
  | .int _ value => write (integer value)
  | .float _ value => write (Number.ofDouble value).text
  | .bool _ value => write (if value then ascii "true" else ascii "false")
  | .var ref => write ref.name
  | .index ref component type =>
    write (ascii "(INDEX ") ∘ write type.name ∘ write (ascii " ") ∘ write ref.name ∘
      write (ascii " ") ∘ write (integer component) ∘ write (ascii ")")
  | .unary _ op x type =>
    write (ascii "(UNARY ") ∘ write type.name ∘ write (ascii " ") ∘ write op.name ∘
      write (ascii " ") ∘ x.writer ∘ write (ascii ")")
  | .binary _ op l r type =>
    write (ascii "(BINARY ") ∘ write type.name ∘ write (ascii " ") ∘ write op.name ∘
      write (ascii " ") ∘ l.writer ∘ write (ascii " ") ∘ r.writer ∘ write (ascii ")")
  | .call _ func args _ =>
    write (ascii "(CALL ") ∘ write func ∘ Expr.argsWriter args ∘ write (ascii ")")
  | .construct _ type args =>
    write (ascii "(CALL ") ∘ write type.name ∘ Expr.argsWriter args ∘ write (ascii ")")

/-- Writes arguments, each behind a blank. -/
def Expr.argsWriter : List Expr → Writer
  | [] => id
  | e :: es => write (ascii " ") ∘ e.writer ∘ Expr.argsWriter es

end

/-- An expression as a list. -/
def Expr.text (e : Expr) : Bytes := e.writer []

mutual

theorem Expr.writer_append (e : Expr) (t u : Bytes) : e.writer (t ++ u) = e.writer t ++ u := by
  cases e with
  | unary _ _ x _ => simp [Expr.writer, ← Expr.writer_append x]
  | binary _ _ l r _ => simp [Expr.writer, ← Expr.writer_append l, ← Expr.writer_append r]
  | call _ _ args _ => simp [Expr.writer, ← Expr.argsWriter_append args]
  | construct _ _ args => simp [Expr.writer, ← Expr.argsWriter_append args]
  | _ => simp [Expr.writer]

theorem Expr.argsWriter_append (es : List Expr) (t u : Bytes) :
    Expr.argsWriter es (t ++ u) = Expr.argsWriter es t ++ u := by
  cases es with
  | nil => rfl
  | cons e es => simp [Expr.argsWriter, ← Expr.writer_append e, ← Expr.argsWriter_append es]

end

/-- Writing an expression before a text is appending the text to it. -/
theorem Expr.writer_eq (e : Expr) (rest : Bytes) : e.writer rest = e.text ++ rest :=
  e.writer_append [] rest

/-- A declaration as a list. -/
def declText (d : Declaration) : Bytes :=
  let qualifier := if d.qualifier.name = [] then [] else d.qualifier.name ++ ascii " "
  let init := match d.init with
    | some e => ascii " " ++ e.text
    | none => []
  ascii "(DECLARATION " ++ d.name ++ ascii " " ++ qualifier ++ d.type.name ++ init ++ ascii ")"

/-- The blanks before a line of a level. -/
def indent (level : Nat) : Bytes := blanks (4 * level)

/-- The declarations of a block, one a line. -/
def declsText (decls : List Declaration) (level : Nat) (ids : List DeclId) : Bytes :=
  let line (id : DeclId) : Bytes := match decls[id]? with
    | some d => indent (level + 1) ++ declText d ++ ascii "\n"
    | none => []
  indent level ++ ascii "(DECLARATIONS\n" ++ ids.flatMap line ++ indent level ++ ascii ")\n"

mutual

/-- Writes a statement as a list. -/
def Stmt.writer (decls : List Declaration) (level : Nat) : Stmt → Writer
  | .absent => write absentText
  | .assign _ target value =>
    write (ascii "(ASSIGN ") ∘ write (target.type decls).name ∘ write (ascii " ") ∘
      target.writer ∘ write (ascii " ") ∘ value.writer ∘ write (ascii ")")
  | .branch cond yes none =>
    write (ascii "(IF ") ∘ cond.writer ∘ write (ascii " ") ∘ yes.writer decls level ∘
      write (ascii ")")
  | .branch cond yes (some no) =>
    write (ascii "(IF ") ∘ cond.writer ∘ write (ascii " ") ∘ yes.writer decls level ∘
      write (ascii " ") ∘ no.writer decls level ∘ write (ascii ")")
  | .loop _ cond body =>
    write (ascii "(WHILE ") ∘ cond.writer ∘ write (ascii " ") ∘ body.writer decls level ∘
      write (ascii ")")
  | .scope ids stmts =>
    write (ascii "(SCOPE\n") ∘ write (declsText decls (level + 1) ids) ∘
      write (indent (level + 1)) ∘ write (ascii "(STATEMENTS\n") ∘
      Stmt.linesWriter decls (level + 2) stmts ∘
      write (indent (level + 1)) ∘ write (ascii ")\n") ∘ write (indent level) ∘ write (ascii ")")

/-- Writes statements, one a line. -/
def Stmt.linesWriter (decls : List Declaration) (level : Nat) : List Stmt → Writer
  | [] => id
  | s :: ss =>
    write (indent level) ∘ s.writer decls level ∘ write (ascii "\n") ∘
      Stmt.linesWriter decls level ss

end

/-- A statement as a list. -/
def Stmt.text (decls : List Declaration) (level : Nat) (s : Stmt) : Bytes := s.writer decls level []

mutual

theorem Stmt.writer_append (decls : List Declaration) (level : Nat) (s : Stmt) (t u : Bytes) :
    s.writer decls level (t ++ u) = s.writer decls level t ++ u := by
  match s with
  | .absent => simp [Stmt.writer]
  | .assign _ target value =>
    simp [Stmt.writer, ← Expr.writer_append target, ← Expr.writer_append value]
  | .branch cond yes none =>
    simp [Stmt.writer, ← Expr.writer_append cond, ← Stmt.writer_append decls level yes]
  | .branch cond yes (some no) =>
    simp [Stmt.writer, ← Expr.writer_append cond, ← Stmt.writer_append decls level yes,
      ← Stmt.writer_append decls level no]
  | .loop _ cond body =>
    simp [Stmt.writer, ← Expr.writer_append cond, ← Stmt.writer_append decls level body]
  | .scope ids stmts =>
    simp [Stmt.writer, ← Stmt.linesWriter_append decls (level + 2) stmts]

theorem Stmt.linesWriter_append (decls : List Declaration) (level : Nat) (ss : List Stmt)
    (t u : Bytes) :
    Stmt.linesWriter decls level ss (t ++ u) = Stmt.linesWriter decls level ss t ++ u := by
  match ss with
  | [] => rfl
  | s :: ss =>
    simp [Stmt.linesWriter, ← Stmt.writer_append decls level s,
      ← Stmt.linesWriter_append decls level ss]

end

/-- Writing a statement before a text is appending the text to it. -/
theorem Stmt.writer_eq (decls : List Declaration) (level : Nat) (s : Stmt) (rest : Bytes) :
    s.writer decls level rest = s.text decls level ++ rest :=
  s.writer_append decls level [] rest

/-- The block that is dumped for a program: its body, with the predefined variables declared before
all others. -/
def outermost (p : Program) : Scope :=
  let body := p.body.getD {}
  ⟨p.predefined.getD [] ++ body.decls, body.stmts⟩

/-- The dump of a program. -/
def text (p : Program) : Bytes :=
  (Stmt.scope p.outermost.decls p.outermost.stmts).text p.decls 0 ++ ascii "\n"

end Shader.Program
