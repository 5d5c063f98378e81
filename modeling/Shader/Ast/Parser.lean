import Shader.Ast
import Shader.Number.Decimal
import Shader.Token.Scan

/-!
# Reading the tree

Recursive descent over the tokens, one token ahead. A parser either gives its part of the tree or
gives up, having said why; a block goes on behind the next semicolon, so that every text has a tree
and a list of errors.

The grammar, loosest first:

* `program = scope EOF`
* `scope = { decl* stmt* }`
* `decl = [const] type IDENT [= expr] ;`
* `stmt = var = expr ; | if ( expr ) stmt [else stmt] | while ( expr ) stmt | scope | ;`
* `var = IDENT [ [ INT ] ]`
* `expr`: the operators `||`, `&&`, comparisons, `+ -`, `* /` in levels, each associating to the
  left, then the operators `! -` before their operand, then `^`, whose right operand may again
  start with one of those, then literals, variables, calls, constructors and parentheses.

Recursion is by a budget that bounds how deep the descent goes. It is taken once from the number of
tokens, since at most five levels of the descent share a token.
-/

namespace Shader

open Text

/-! ## Errors -/

/-- Why a parser gave up. `got` is the token at which it did. -/
inductive Refusal where
  /-- The text does not start with a block. -/
  | noBlock (got : Kind)
  /-- Something follows the outermost block. -/
  | trailing (got : Kind)
  /-- A fixed token is missing. -/
  | expected (want got : Kind)
  /-- A declaration stands behind a statement. -/
  | lateDeclaration
  | noType (got : Kind)
  | noName (got : Kind)
  | noStatement (got : Kind)
  | noIndex (got : Kind)
  | badIndex (literal : Bytes)
  | badInteger (literal : Bytes)
  | badFloat (literal : Bytes)
  | noExpression (got : Kind)
  deriving DecidableEq, Repr

/-- The wording of a refusal. -/
def Refusal.message : Refusal → Bytes
  | noBlock got => ascii "expected '\x7b', got " ++ got.name
  | trailing got => ascii "unexpected " ++ got.name ++ ascii " after end of program"
  | expected want got => ascii "expected " ++ want.name ++ ascii ", got " ++ got.name
  | lateDeclaration => ascii "declarations must precede statements"
  | noType got => ascii "expected type, got " ++ got.name
  | noName got => ascii "expected variable name, got " ++ got.name
  | noStatement got => ascii "unexpected token in statement: " ++ got.name
  | noIndex got => ascii "expected integer index, got " ++ got.name
  | badIndex literal => ascii "invalid index \"" ++ literal ++ ascii "\""
  | badInteger literal => ascii "invalid integer literal \"" ++ literal ++ ascii "\""
  | badFloat literal => ascii "invalid float literal \"" ++ literal ++ ascii "\""
  | noExpression got => ascii "expected expression, got " ++ got.name

/-- A refusal and the position of the token it happened at. -/
structure ParseError where
  pos : Pos
  cause : Refusal
  deriving DecidableEq, Repr

/-- The line shown for an error. -/
def ParseError.text (e : ParseError) : Bytes := e.pos.message e.cause.message

namespace Parser

open Ast

/-! ## The state of a parser -/

/-- The tokens left, the end token that stands behind them for ever, a budget that is enough for
all tokens of the text, and the errors so far. -/
structure State where
  rest : List Token
  last : Token
  budget : Nat
  errors : List ParseError := []

namespace State

/-- The token to read. -/
def current (s : State) : Token := s.rest.headD s.last

/-- The token behind it. -/
def peek (s : State) : Token := s.rest.tail.headD s.last

/-- Past the token. The end token is never passed. -/
def advance (s : State) : State := { s with rest := s.rest.tail }

/-- With an error at the token. -/
def report (s : State) (cause : Refusal) : State :=
  { s with errors := s.errors ++ [⟨s.current.pos, cause⟩] }

end State

end Parser

/-- A parser: gives its part of the tree or gives up, and in both cases moves on in the tokens and
adds to the errors. -/
abbrev Parser := OptionT (StateM Parser.State)

namespace Parser

open Ast

/-- The token to read. -/
def current : Parser Token := return (← get).current

/-- Its kind. -/
def kind : Parser Kind := return (← get).current.kind

/-- Passes the token. -/
def advance : Parser Unit := modify State.advance

/-- Gives up for a reason. -/
def refuse {α : Type} (cause : Refusal) : Parser α := do
  modify (·.report cause)
  failure

/-- Passes a token of a fixed kind. -/
def expect (want : Kind) : Parser Unit := do
  let got ← kind
  if got = want then advance else refuse (.expected want got)

/-- Runs a parser that may give up, and goes on in either case. -/
def attempt {α : Type} (p : Parser α) : Parser (Option α) := OptionT.lift p.run

/-- Behind the next semicolon, to go on after an error; but a closing brace or the end stops it. -/
def recover : StateM State Unit := modify fun s =>
  let rest := s.rest.dropWhile fun t => t.kind != .semicolon && t.kind != .rbrace
  let s := { s with rest }
  if s.current.kind = .semicolon then s.advance else s

/-- Runs a parser, and recovers if it gives up. -/
def recovering {α : Type} (p : Parser α) : StateM State (Option α) := do
  let result ← p.run
  if result.isNone then recover
  return result

/-! ## Expressions -/

/-- A variable, at an identifier, with the index of a component if a bracket follows. -/
def variableRef : Parser Var := do
  let name ← current
  advance
  if (← kind) = .lbracket then
    advance
    let index ← current
    if index.kind = .int then
      match Number.readInteger? index.literal with
      | some i =>
        advance
        expect .rbracket
        return ⟨name.pos, name.literal, some i⟩
      | none => refuse (.badIndex index.literal)
    else refuse (.noIndex index.kind)
  else return ⟨name.pos, name.literal, none⟩

mutual

/-- An expression of operators that bind tighter than `floor`. -/
def binary : (budget floor : Nat) → Parser Expr
  | 0, _ => failure
  | n + 1, floor => do
    let left ← unary n
    binaryRest n floor left

/-- What follows the operand `left`: operators that bind tighter than `floor`, each taking all to
its left as its left operand. -/
def binaryRest : (budget floor : Nat) → Expr → Parser Expr
  | 0, _, _ => failure
  | n + 1, floor, left => do
    let token ← current
    match token.kind.binary? with
    | some (op, level) =>
      if floor < level then
        advance
        let right ← binary n level
        binaryRest n floor (.binary token.pos op left right)
      else return left
    | none => return left

/-- An operand with the operators before it. -/
def unary : (budget : Nat) → Parser Expr
  | 0 => failure
  | n + 1 => do
    let token ← current
    match token.kind.unary? with
    | some op =>
      advance
      let operand ← unary n
      return .unary token.pos op operand
    | none => power n

/-- An operand without operators before it, and the power it is raised to. -/
def power : (budget : Nat) → Parser Expr
  | 0 => failure
  | n + 1 => do
    let base ← primary n
    let token ← current
    if token.kind = .caret then
      advance
      let exponent ← unary n
      return .binary token.pos .pow base exponent
    else return base

/-- A literal, a variable, a call, a constructor or an expression in parentheses. -/
def primary : (budget : Nat) → Parser Expr
  | 0 => failure
  | n + 1 => do
    let token ← current
    match token.kind with
    | .int =>
      match Number.readInteger? token.literal with
      | some value =>
        advance
        return .int token.pos value
      | none => refuse (.badInteger token.literal)
    | .float =>
      match Number.readFloat? token.literal with
      | some value =>
        advance
        return .float token.pos value
      | none => refuse (.badFloat token.literal)
    | .trueWord =>
      advance
      return .bool token.pos true
    | .falseWord =>
      advance
      return .bool token.pos false
    | .ident =>
      if (← get).peek.kind = .lparen then
        advance
        let args ← arguments n
        return .call token.pos token.literal args
      else return .var (← variableRef)
    | .lparen =>
      advance
      let e ← binary n 0
      expect .rparen
      return e
    | got =>
      match got.type? with
      | some type =>
        advance
        let args ← arguments n
        return .construct token.pos type args
      | none => refuse (.noExpression got)

/-- Arguments in parentheses. -/
def arguments : (budget : Nat) → Parser (List Expr)
  | 0 => failure
  | n + 1 => do
    expect .lparen
    if (← kind) = .rparen then
      advance
      return []
    else
      let args ← argumentList n
      expect .rparen
      return args

/-- One argument or more, with commas between them. -/
def argumentList : (budget : Nat) → Parser (List Expr)
  | 0 => failure
  | n + 1 => do
    let arg ← binary n 0
    if (← kind) = .comma then
      advance
      let args ← argumentList n
      return arg :: args
    else return [arg]

end

/-- An expression. -/
def expression : Parser Expr := do
  binary (← get).budget 0

/-! ## Declarations and statements -/

/-- Whether a token starts a declaration. -/
def startsDecl (k : Kind) : Bool := k == .constWord || k.isType

/-- A declaration. -/
def declaration : Parser Decl := do
  let first ← current
  let isConst := first.kind = .constWord
  if isConst then advance
  let typeWord ← kind
  match typeWord.type? with
  | none => refuse (.noType typeWord)
  | some type =>
    advance
    let name ← current
    if name.kind = .ident then
      advance
      let init ← if (← kind) = .assign then
          advance
          some <$> expression
        else pure none
      expect .semicolon
      return ⟨first.pos, isConst, type, name.literal, init⟩
    else refuse (.noName name.kind)

/-- The declarations at the front of a block. -/
def declarations : (budget : Nat) → StateM State (List Decl)
  | 0 => return []
  | n + 1 => do
    if startsDecl (← get).current.kind then
      let decl ← recovering declaration
      let decls ← declarations n
      return decl.toList ++ decls
    else return []

/-- The part of an assignment before its semicolon. -/
def assignment : Parser Stmt := do
  let target ← variableRef
  expect .assign
  let value ← expression
  return .assign target value

/-- A condition in parentheses. -/
def condition : Parser Expr := do
  expect .lparen
  let cond ← expression
  expect .rparen
  return cond

mutual

/-- A statement; an empty one gives nothing. Where a body is asked for, nothing is an empty
block. -/
def statement : (budget : Nat) → Parser Stmt
  | 0 => failure
  | n + 1 => do
    let token ← current
    match token.kind with
    | .ident =>
      match ← OptionT.lift (recovering assignment) with
      | some stmt =>
        expect .semicolon
        return stmt
      | none => failure
    | .ifWord =>
      advance
      let cond ← condition
      let yes ← attempt (statement n)
      let no ← if (← kind) = .elseWord then
          advance
          attempt (statement n)
        else pure none
      return .branch cond (yes.getD (.scope [] [])) no
    | .whileWord =>
      advance
      let cond ← condition
      let body ← attempt (statement n)
      return .loop token.pos cond (body.getD (.scope [] []))
    | .lbrace =>
      let scope ← scope n
      return scope.toStmt
    | .semicolon =>
      advance
      failure
    | got =>
      modify (·.report (.noStatement got))
      advance
      failure

/-- The statements up to the brace that closes a block. -/
def statements : (budget : Nat) → StateM State (List Stmt)
  | 0 => return []
  | n + 1 => do
    let k := (← get).current.kind
    if k = .rbrace ∨ k = .eof then return []
    else if startsDecl k then
      modify (·.report .lateDeclaration)
      recover
      statements n
    else
      let stmt ← (statement n).run
      let stmts ← statements n
      return stmt.toList ++ stmts

/-- A block, at its opening brace. -/
def scope : (budget : Nat) → StateM State Scope
  | 0 => return {}
  | n + 1 => do
    modify State.advance
    let decls ← declarations (← get).budget
    let stmts ← statements n
    let _ ← (expect .rbrace).run
    return ⟨decls, stmts⟩

end

/-- A whole text: one block and nothing behind it. -/
def program : StateM State Scope := do
  let first := (← get).current.kind
  if first = .lbrace then
    let body ← scope (← get).budget
    let behind := (← get).current.kind
    if behind ≠ .eof then modify (·.report (.trailing behind))
    return body
  else
    modify (·.report (.noBlock first))
    return {}

end Parser

/-- The tree of a source text, and the errors met on the way. -/
structure Parsed where
  body : Ast.Scope
  errors : List ParseError

/-- Reads a source text. -/
def parse (source : Bytes) : Parsed :=
  let (tokens, last) := scan source
  let (body, state) := Parser.program.run
    { rest := tokens, last, budget := 8 * (tokens.length + 1) }
  ⟨body, state.errors⟩

end Shader
