import Shader.Text

/-!
# Kinds of tokens
-/

namespace Shader

/-- The kinds of tokens, in the order of their codes. -/
inductive Kind where
  | eof
  | illegal
  | ident
  | int
  | float
  | boolType
  | intType
  | floatType
  | vec2
  | vec3
  | vec4
  | ivec2
  | ivec3
  | ivec4
  | bvec2
  | bvec3
  | bvec4
  | constWord
  | ifWord
  | elseWord
  | whileWord
  | trueWord
  | falseWord
  | plus
  | minus
  | star
  | slash
  | caret
  | assign
  | eq
  | ne
  | lt
  | le
  | gt
  | ge
  | and
  | or
  | not
  | lparen
  | rparen
  | lbrace
  | rbrace
  | lbracket
  | rbracket
  | semicolon
  | comma
  deriving DecidableEq, Repr

namespace Kind

/-- Kinds that name a data type. -/
def typeWords : List Kind :=
  [boolType, intType, floatType, vec2, vec3, vec4, ivec2, ivec3, ivec4, bvec2, bvec3, bvec4]

/-- Words that are no names. -/
def keywords : List Kind :=
  typeWords ++ [constWord, ifWord, elseWord, whileWord, trueWord, falseWord]

/-- Every kind, in the order of the codes. -/
def all : List Kind :=
  [eof, illegal, ident, int, float] ++ keywords ++
    [plus, minus, star, slash, caret, assign, eq, ne, lt, le, gt, ge, and, or, not,
      lparen, rparen, lbrace, rbrace, lbracket, rbracket, semicolon, comma]

/-- The name of a kind: its text, where it has only one. -/
def name : Kind → Bytes
  | eof => ascii "EOF"
  | illegal => ascii "ILLEGAL"
  | ident => ascii "IDENT"
  | int => ascii "INT"
  | float => ascii "FLOAT"
  | boolType => ascii "bool"
  | intType => ascii "int"
  | floatType => ascii "float"
  | vec2 => ascii "vec2"
  | vec3 => ascii "vec3"
  | vec4 => ascii "vec4"
  | ivec2 => ascii "ivec2"
  | ivec3 => ascii "ivec3"
  | ivec4 => ascii "ivec4"
  | bvec2 => ascii "bvec2"
  | bvec3 => ascii "bvec3"
  | bvec4 => ascii "bvec4"
  | constWord => ascii "const"
  | ifWord => ascii "if"
  | elseWord => ascii "else"
  | whileWord => ascii "while"
  | trueWord => ascii "true"
  | falseWord => ascii "false"
  | plus => ascii "+"
  | minus => ascii "-"
  | star => ascii "*"
  | slash => ascii "/"
  | caret => ascii "^"
  | assign => ascii "="
  | eq => ascii "=="
  | ne => ascii "!="
  | lt => ascii "<"
  | le => ascii "<="
  | gt => ascii ">"
  | ge => ascii ">="
  | and => ascii "&&"
  | or => ascii "||"
  | not => ascii "!"
  | lparen => ascii "("
  | rparen => ascii ")"
  | lbrace => ascii "\x7b"
  | rbrace => ascii "\x7d"
  | lbracket => ascii "["
  | rbracket => ascii "]"
  | semicolon => ascii ";"
  | comma => ascii ","

/-- Whether a kind names a data type. -/
def isType (k : Kind) : Bool := k ∈ typeWords

/-- The place of a kind in the list of all. -/
def code (k : Kind) : Nat := all.idxOf k

/-- The kind of a code. -/
def ofCode? (n : Int) : Option Kind := if n < 0 then none else all[n.toNat]?

/-- The name of a code. -/
def codeName (n : Int) : Bytes := ((ofCode? n).map name).getD (ascii "UNKNOWN")

/-- The kind of a word: a keyword if it is one, and an identifier otherwise. -/
def ofWord (w : Bytes) : Kind := (keywords.find? (fun k => k.name == w)).getD ident

end Kind

end Shader
