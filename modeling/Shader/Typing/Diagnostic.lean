import Shader.Operator
import Shader.Position
import Shader.Types

/-!
# What a program can be blamed for
-/

namespace Shader

open Text

/-- The statements that have a condition. -/
inductive Conditional where
  | branch
  | loop
  deriving DecidableEq, Repr

/-- The word a conditional statement starts with. -/
def Conditional.word : Conditional → Bytes
  | branch => ascii "if"
  | loop => ascii "while"

/-- The faults of a program. -/
inductive Complaint where
  /-- A declaration takes the name of a predefined variable. -/
  | duplicatePredefined (type : Ty) (name : Bytes)
  /-- A declaration takes a name that its block has declared at `previous`. -/
  | duplicate (type : Ty) (name : Bytes) (previous : Pos)
  | uninitialized (name : Bytes)
  | initializer (type : Ty) (name : Bytes) (init : Ty)
  | condition (statement : Conditional) (type : Ty)
  | badTarget
  | assignConst (name : Bytes)
  | assignReadOnly (qualifier : Qualifier) (name : Bytes)
  | assignment (name : Bytes) (target value : Ty)
  | undeclared (name : Bytes)
  | indexOfScalar (name : Bytes) (type : Ty)
  | indexOutOfRange (name : Bytes) (type : Ty)
  | readResult (name : Bytes)
  | unaryOperand (op : UnaryOp) (type : Ty)
  | binaryOperands (op : BinaryOp) (left right : Ty)
  | unknownFunction (name : Bytes)
  | arguments (name : Bytes)
  | component (type given want : Ty)
  | componentCount (type : Ty) (given : Nat)
  deriving DecidableEq, Repr

/-- The wording of a complaint. -/
def Complaint.message : Complaint → Bytes
  | duplicatePredefined type name =>
    ascii "duplicate declaration of " ++ quoted (type.name ++ ascii " " ++ name) ++
      ascii ", predefined variable"
  | duplicate type name previous =>
    ascii "duplicate declaration of " ++ quoted (type.name ++ ascii " " ++ name) ++
      ascii ", previously declared at " ++ previous.text
  | uninitialized name => ascii "const variable " ++ quoted name ++ ascii " must be initialized"
  | initializer type name init =>
    ascii "variable declaration of " ++ quoted (type.name ++ ascii " " ++ name) ++
      ascii " is initialized to a noncompatible type " ++ quoted init.name
  | condition statement type =>
    statement.word ++ ascii "-statement condition expression has type " ++ quoted type.name ++
      ascii ", expecting type 'bool'"
  | badTarget => ascii "invalid assignment target"
  | assignConst name => ascii "cannot assign to const variable " ++ quoted name
  | assignReadOnly qualifier name =>
    ascii "cannot assign to read-only " ++ qualifier.name ++ ascii " variable " ++ quoted name
  | assignment name target value =>
    ascii "invalid variable assignment for " ++ quoted name ++ ascii " of type " ++
      quoted target.name ++ ascii ", has expression of non-compatible type " ++ quoted value.name
  | undeclared name => ascii "missing declaration for symbol " ++ quoted name
  | indexOfScalar name type =>
    ascii "invalid indexing of non-vector variable " ++ quoted name ++ ascii " of type " ++
      quoted type.name
  | indexOutOfRange name type =>
    ascii "invalid indexing of vector variable " ++ quoted name ++ ascii " of type " ++
      quoted type.name
  | readResult name => ascii "read of write-only result variable " ++ quoted name
  | unaryOperand op type =>
    ascii "operand of unary " ++ quoted op.name ++ ascii " has non-compatible type " ++
      quoted type.name
  | binaryOperands op left right =>
    ascii "operands of binary " ++ quoted op.name ++ ascii " have non-compatible types " ++
      quoted left.name ++ ascii " and " ++ quoted right.name
  | unknownFunction name => ascii "unknown function " ++ quoted name
  | arguments name => ascii "unmatched function parameters when calling function " ++ quoted name
  | component type given want =>
    ascii "constructor " ++ quoted type.name ++ ascii " argument has type " ++ quoted given.name ++
      ascii ", expecting " ++ quoted want.name
  | componentCount type given =>
    ascii "constructor " ++ quoted type.name ++ ascii " expects " ++ integer type.order ++
      ascii " arguments, got " ++ decimal given

/-- A complaint and the position it is about. -/
structure Diagnostic where
  pos : Pos
  complaint : Complaint
  deriving DecidableEq, Repr

/-- The line shown for a diagnostic. -/
def Diagnostic.text (d : Diagnostic) : Bytes := d.pos.message d.complaint.message

end Shader
