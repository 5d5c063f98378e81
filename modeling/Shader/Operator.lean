import Shader.Token.Kind

/-!
# Operators

Each operator has its text, and for the parser its place in the order of precedence. A program built
by hand may hold an operator the language does not have; `unknown` stands for all of those.
-/

namespace Shader

/-- Binary operators. -/
inductive BinaryOp where
  | add
  | sub
  | mul
  | div
  | pow
  | and
  | or
  | eq
  | ne
  | lt
  | le
  | gt
  | ge
  | unknown
  deriving DecidableEq, Repr

namespace BinaryOp

/-- The operators of the language, in the order of their codes. -/
def all : List BinaryOp := [add, sub, mul, div, pow, and, or, eq, ne, lt, le, gt, ge]

/-- The operator of a code. -/
def ofCode (n : Int) : BinaryOp := (n.toNat?.bind (all[·]?)).getD unknown

/-- The text of an operator. -/
def name : BinaryOp → Bytes
  | add => ascii "+"
  | sub => ascii "-"
  | mul => ascii "*"
  | div => ascii "/"
  | pow => ascii "^"
  | and => ascii "&&"
  | or => ascii "||"
  | eq => ascii "=="
  | ne => ascii "!="
  | lt => ascii "<"
  | le => ascii "<="
  | gt => ascii ">"
  | ge => ascii ">="
  | unknown => ascii "?"

/-- Whether the operator orders or equates its operands. -/
def isComparison (op : BinaryOp) : Bool := op ∈ [eq, ne, lt, le, gt, ge]

/-- Whether the operator connects truth values. -/
def isLogical (op : BinaryOp) : Bool := op ∈ [and, or]

/-- How tightly the operator binds, the loosest at one. The power is not among these: it binds
tighter than a prefix operator and is read apart. -/
def precedence? : BinaryOp → Option Nat
  | or => some 1
  | and => some 2
  | eq | ne | lt | le | gt | ge => some 3
  | add | sub => some 4
  | mul | div => some 5
  | pow | unknown => none

end BinaryOp

/-- The infix operator a token stands for, with its precedence. -/
def Kind.binary? : Kind → Option (BinaryOp × Nat)
  | .or => some (.or, 1)
  | .and => some (.and, 2)
  | .eq => some (.eq, 3)
  | .ne => some (.ne, 3)
  | .lt => some (.lt, 3)
  | .le => some (.le, 3)
  | .gt => some (.gt, 3)
  | .ge => some (.ge, 3)
  | .plus => some (.add, 4)
  | .minus => some (.sub, 4)
  | .star => some (.mul, 5)
  | .slash => some (.div, 5)
  | _ => none

/-- Prefix operators. -/
inductive UnaryOp where
  | neg
  | not
  | unknown
  deriving DecidableEq, Repr

namespace UnaryOp

/-- The operator of a code. -/
def ofCode (n : Int) : UnaryOp := if n = 0 then neg else if n = 1 then not else unknown

/-- The text of an operator. -/
def name : UnaryOp → Bytes
  | neg => ascii "-"
  | not => ascii "!"
  | unknown => ascii "?"

end UnaryOp

/-- The prefix operator a token stands for. -/
def Kind.unary? : Kind → Option UnaryOp
  | .minus => some .neg
  | .not => some .not
  | _ => none

end Shader
