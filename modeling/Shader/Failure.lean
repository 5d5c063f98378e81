import Shader.Program.Printer

/-!
# Why a program cannot be compiled

Most failures are defects of the program tree that a check would have reported, or that no source
text has. The one that a checked program of a source text can meet is a loop, since the target has
no branches.
-/

namespace Shader

open Text

/-- Defects of a program tree. -/
inductive Defect where
  | absentStatement
  /-- A declaration stands in two places. -/
  | visitedTwice (name : Bytes)
  /-- A predefined variable that the hardware does not have. -/
  | noHardware (name : Bytes)
  | hardwareTwice (name : Bytes)
  /-- A use of a name that is bound to nothing. -/
  | unbound
  /-- The same, where the name is known. -/
  | unboundName (name : Bytes)
  /-- A use of a variable that no block declares. -/
  | noRegister (name : Bytes)
  | noComponent (index : Int)
  | reduceForm (form : Bytes)
  | reduceOperator (op : BinaryOp)
  | lowerForm (form : Bytes)
  | lowerOperator (op : BinaryOp)
  | lowerStatement
  | target (form : Bytes)
  | constructorSize (type : Ty) (given : Nat)
  | unknownFunction (name : Bytes)
  | callArity (name : Bytes) (given : Nat)
  | uninitialized (name : Bytes)
  deriving DecidableEq, Repr

/-- The wording of a defect. -/
def Defect.message : Defect → Bytes
  | absentStatement => ascii "unexpected statement <nil>"
  | visitedTwice name => ascii "declaration " ++ quoted name ++ ascii " visited twice"
  | noHardware name => ascii "no hardware register for predefined variable " ++ quoted name
  | hardwareTwice name => ascii "predefined variable " ++ quoted name ++ ascii " declared twice"
  | unbound => ascii "unresolved identifier"
  | unboundName name => ascii "unresolved identifier " ++ quoted name
  | noRegister name => ascii "no register bound to declaration " ++ quoted name
  | noComponent index => ascii "component index " ++ integer index ++ ascii " out of range"
  | reduceForm form => ascii "cannot reduce expression " ++ form
  | reduceOperator op => ascii "cannot reduce operator " ++ op.name
  | lowerForm form => ascii "cannot lower expression " ++ form
  | lowerOperator op => ascii "cannot lower operator " ++ op.name
  | lowerStatement => ascii "cannot lower statement <nil>"
  | target form => ascii "cannot assign to " ++ form
  | constructorSize type given =>
    ascii "constructor " ++ type.name ++ ascii " with " ++ decimal given ++ ascii " arguments"
  | unknownFunction name => ascii "unknown function " ++ quoted name
  | callArity name given =>
    ascii "function " ++ quoted name ++ ascii " called with " ++ decimal given ++
      ascii " arguments"
  | uninitialized name => ascii "const " ++ quoted name ++ ascii " has no initializer"

/-- Why a compilation failed. -/
inductive Failure where
  /-- The tree is defective. -/
  | internal (d : Defect)
  /-- There is a loop. -/
  | loop (pos : Pos)
  /-- A vector operation is typed with a number of components that no register has. -/
  | order (n : Int)
  /-- A constant is initialized with itself. -/
  | cycle (name : Bytes)
  deriving DecidableEq, Repr

/-- The wording of a failure. -/
def Failure.message : Failure → Bytes
  | internal d => ascii "internal compiler error: " ++ d.message
  | loop pos =>
    pos.message (ascii "while loops are not supported by the ARB fragment program target")
  | order n => ascii "no register has " ++ integer n ++ ascii " components"
  | cycle name => ascii "constant " ++ quoted name ++ ascii " depends on itself"

end Shader
