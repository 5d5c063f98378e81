import Shader.Ast.Parser

/-!
# The grammar, as rules

The grammar of the language, written as derivations over tokens, each with the tree it stands for.
Nothing here looks at the parser: an operator's level, the bound of an integer and the place of an
empty statement are rules of this file.

Expressions are in eight levels. Levels one to five are the infix operators from the loosest to the
tightest, each associating to the left. Level six is an operand with the operators before it, level
seven a power, and level eight what stands by itself.

An `else` can belong to any `if` before it that has none yet, so the plain grammar derives some
texts in several ways. `StmtOf` therefore has a switch: with `nearest` on, the statement between an
`if` and its `else` must not end in an `if` that is still without one.
-/

namespace Shader.Grammar

open Ast

/-! ## Expressions -/

/-- The infix operators of a level, the loosest at one. -/
inductive OperatorAt : Nat → Kind → BinaryOp → Prop where
  | or : OperatorAt 1 .or .or
  | and : OperatorAt 2 .and .and
  | eq : OperatorAt 3 .eq .eq
  | ne : OperatorAt 3 .ne .ne
  | lt : OperatorAt 3 .lt .lt
  | le : OperatorAt 3 .le .le
  | gt : OperatorAt 3 .gt .gt
  | ge : OperatorAt 3 .ge .ge
  | add : OperatorAt 4 .plus .add
  | sub : OperatorAt 4 .minus .sub
  | mul : OperatorAt 5 .star .mul
  | div : OperatorAt 5 .slash .div

/-- The operators before an operand. -/
inductive OperatorBefore : Kind → UnaryOp → Prop where
  | neg : OperatorBefore .minus .neg
  | not : OperatorBefore .not .not

/-- An integer literal and its value, which is at most the largest signed number of 64 bits. -/
def IntegerOf (t : Token) (n : Nat) : Prop :=
  t.kind = .int ∧ n = Number.digitsValue t.literal ∧ n ≤ 9223372036854775807

/-- `var = IDENT [ '[' INT ']' ]` -/
inductive VarOf : List Token → Var → Prop where
  | plain {x : Token} : x.kind = .ident → VarOf [x] ⟨x.pos, x.literal, none⟩
  | indexed {x l i r : Token} {n : Nat} :
      x.kind = .ident → l.kind = .lbracket → IntegerOf i n → r.kind = .rbracket →
      VarOf [x, l, i, r] ⟨x.pos, x.literal, some n⟩

mutual

/-- `ExprOf n ts e`: the tokens `ts` are an expression of level `n` or tighter, and `e` is its
tree. -/
inductive ExprOf : Nat → List Token → Expr → Prop where
  /-- Levels one to five: all to the left of the last operator is its left operand. -/
  | binary {n : Nat} {t : Token} {op : BinaryOp} {ts us : List Token} {l r : Expr} :
      OperatorAt n t.kind op → ExprOf n ts l → ExprOf (n + 1) us r →
      ExprOf n (ts ++ t :: us) (.binary t.pos op l r)
  | tighter {n : Nat} {ts : List Token} {e : Expr} : n < 8 → ExprOf (n + 1) ts e → ExprOf n ts e
  /-- Level six: an operator before an operand of the same level. -/
  | unary {t : Token} {op : UnaryOp} {ts : List Token} {e : Expr} :
      OperatorBefore t.kind op → ExprOf 6 ts e → ExprOf 6 (t :: ts) (.unary t.pos op e)
  /-- Level seven: the exponent may again start with operators. -/
  | power {t : Token} {ts us : List Token} {b x : Expr} :
      t.kind = .caret → ExprOf 8 ts b → ExprOf 6 us x →
      ExprOf 7 (ts ++ t :: us) (.binary t.pos .pow b x)
  | int {t : Token} {n : Nat} : IntegerOf t n → ExprOf 8 [t] (.int t.pos n)
  | float {t : Token} {x : Float} :
      t.kind = .float → Number.readFloat? t.literal = some x → ExprOf 8 [t] (.float t.pos x)
  | true {t : Token} : t.kind = .trueWord → ExprOf 8 [t] (.bool t.pos true)
  | false {t : Token} : t.kind = .falseWord → ExprOf 8 [t] (.bool t.pos false)
  | var {ts : List Token} {v : Var} : VarOf ts v → ExprOf 8 ts (.var v)
  | call {t : Token} {ts : List Token} {args : List Expr} :
      t.kind = .ident → ArgsOf ts args → ExprOf 8 (t :: ts) (.call t.pos t.literal args)
  | construct {t : Token} {type : Ty} {ts : List Token} {args : List Expr} :
      t.kind.type? = some type → ArgsOf ts args → ExprOf 8 (t :: ts) (.construct t.pos type args)
  | parens {l r : Token} {ts : List Token} {e : Expr} :
      l.kind = .lparen → ExprOf 1 ts e → r.kind = .rparen → ExprOf 8 (l :: (ts ++ [r])) e

/-- `args = '(' [ list ] ')'` -/
inductive ArgsOf : List Token → List Expr → Prop where
  | none {l r : Token} : l.kind = .lparen → r.kind = .rparen → ArgsOf [l, r] []
  | some {l r : Token} {ts : List Token} {args : List Expr} :
      l.kind = .lparen → ListOf ts args → r.kind = .rparen → ArgsOf (l :: (ts ++ [r])) args

/-- `list = expr | expr ',' list` -/
inductive ListOf : List Token → List Expr → Prop where
  | one {ts : List Token} {e : Expr} : ExprOf 1 ts e → ListOf ts [e]
  | more {c : Token} {ts us : List Token} {e : Expr} {es : List Expr} :
      ExprOf 1 ts e → c.kind = .comma → ListOf us es → ListOf (ts ++ c :: us) (e :: es)

end

/-! ## Declarations and statements -/

/-- `[ '=' expr ]` -/
inductive InitOf : List Token → Option Expr → Prop where
  | none : InitOf [] none
  | some {a : Token} {ts : List Token} {e : Expr} :
      a.kind = .assign → ExprOf 1 ts e → InitOf (a :: ts) (some e)

/-- `decl = ['const'] type IDENT ['=' expr] ';'` -/
inductive DeclOf : List Token → Decl → Prop where
  | mutable {t x s : Token} {type : Ty} {ts : List Token} {init : Option Expr} :
      t.kind.type? = some type → x.kind = .ident → InitOf ts init → s.kind = .semicolon →
      DeclOf (t :: x :: (ts ++ [s])) ⟨t.pos, false, type, x.literal, init⟩
  | const {c t x s : Token} {type : Ty} {ts : List Token} {init : Option Expr} :
      c.kind = .constWord → t.kind.type? = some type → x.kind = .ident → InitOf ts init →
      s.kind = .semicolon →
      DeclOf (c :: t :: x :: (ts ++ [s])) ⟨c.pos, true, type, x.literal, init⟩

/-- `decl*` -/
inductive DeclsOf : List Token → List Decl → Prop where
  | nil : DeclsOf [] []
  | cons {ts us : List Token} {d : Decl} {ds : List Decl} :
      DeclOf ts d → DeclsOf us ds → DeclsOf (ts ++ us) (d :: ds)

/-- `'(' expr ')'` -/
inductive CondOf : List Token → Expr → Prop where
  | mk {l r : Token} {ts : List Token} {e : Expr} :
      l.kind = .lparen → ExprOf 1 ts e → r.kind = .rparen → CondOf (l :: (ts ++ [r])) e

/-- The body of an `if` or a loop: an empty statement is an empty block there. -/
def bodyOf (s : Option Stmt) : Stmt := s.getD (.scope [] [])

mutual

/-- `StmtOf nearest dangling ts s`: the tokens `ts` are a statement, and `s` is its tree, which an
empty statement does not have. It is `dangling` if it ends in an `if` without `else`, so that an
`else` behind it could belong there. With `nearest` on, every `else` belongs to the nearest `if`
before it that could take it. -/
inductive StmtOf (nearest : Bool) : Bool → List Token → Option Stmt → Prop where
  | assign {a s : Token} {ts us : List Token} {v : Var} {e : Expr} :
      VarOf ts v → a.kind = .assign → ExprOf 1 us e → s.kind = .semicolon →
      StmtOf nearest false (ts ++ a :: (us ++ [s])) (some (.assign v e))
  | ifThen {i : Token} {ts us : List Token} {dangling : Bool} {e : Expr} {s : Option Stmt} :
      i.kind = .ifWord → CondOf ts e → StmtOf nearest dangling us s →
      StmtOf nearest true (i :: (ts ++ us)) (some (.branch e (bodyOf s) none))
  | ifElse {i l : Token} {ts us ws : List Token} {dangling dangling' : Bool} {e : Expr}
      {s s' : Option Stmt} :
      i.kind = .ifWord → CondOf ts e → StmtOf nearest dangling us s →
      (nearest = true → dangling = false) → l.kind = .elseWord →
      StmtOf nearest dangling' ws s' →
      StmtOf nearest dangling' (i :: (ts ++ (us ++ l :: ws))) (some (.branch e (bodyOf s) s'))
  | loop {w : Token} {ts us : List Token} {dangling : Bool} {e : Expr} {s : Option Stmt} :
      w.kind = .whileWord → CondOf ts e → StmtOf nearest dangling us s →
      StmtOf nearest dangling (w :: (ts ++ us)) (some (.loop w.pos e (bodyOf s)))
  | block {ts : List Token} {b : Scope} :
      BlockOf nearest ts b → StmtOf nearest false ts (some b.toStmt)
  | empty {s : Token} : s.kind = .semicolon → StmtOf nearest false [s] none

/-- `scope = '{' decl* stmt* '}'` -/
inductive BlockOf (nearest : Bool) : List Token → Scope → Prop where
  | mk {l r : Token} {ts us : List Token} {ds : List Decl} {ss : List Stmt} :
      l.kind = .lbrace → DeclsOf ts ds → StmtsOf nearest us ss → r.kind = .rbrace →
      BlockOf nearest (l :: (ts ++ (us ++ [r]))) ⟨ds, ss⟩

/-- `stmt*`, of which the empty ones leave nothing. -/
inductive StmtsOf (nearest : Bool) : List Token → List Stmt → Prop where
  | nil : StmtsOf nearest [] []
  | cons {ts us : List Token} {dangling : Bool} {s : Option Stmt} {ss : List Stmt} :
      StmtOf nearest dangling ts s → StmtsOf nearest us ss →
      StmtsOf nearest (ts ++ us) (s.toList ++ ss)

end

/-- The token sequence of a program: one block and nothing else before the end. -/
def Derivable (ts : List Token) : Prop := ∃ b, BlockOf false ts b

/-- The program tree of a token sequence in which every `else` belongs to the nearest `if`. -/
def TreeOf (ts : List Token) (b : Scope) : Prop := BlockOf true ts b

end Shader.Grammar
