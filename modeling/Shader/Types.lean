import Shader.Token.Kind

/-!
# Types and qualifiers

A type is a scalar or a vector of two to four components of a base type. Programs built by hand may
carry any base code and any number of components, so both are open here, and `Ty.isValid` says which
types count as well-formed. The type without a base, `Ty.invalid`, stands for "no type known".
-/

namespace Shader

open Text

/-- The scalar a type is made of. -/
inductive BaseType where
  | invalid
  | bool
  | int
  | float
  /-- A code that names no scalar of the language. -/
  | other (code : Int)
  deriving DecidableEq, Repr

namespace BaseType

/-- The base type of a code. -/
def ofCode (n : Int) : BaseType :=
  if n = 0 then invalid else if n = 1 then bool else if n = 2 then int else if n = 3 then float
  else other n

/-- The name of the scalar. -/
def name : BaseType → Bytes
  | bool => ascii "bool"
  | int => ascii "int"
  | float => ascii "float"
  | _ => ascii "invalid"

end BaseType

/-- A base type and a number of components. -/
structure Ty where
  base : BaseType
  order : Int
  deriving DecidableEq, Repr

namespace Ty

/-- No type. -/
def invalid : Ty := ⟨.invalid, 0⟩

/-- A truth value. -/
def bool : Ty := ⟨.bool, 1⟩

/-- An integer. -/
def int : Ty := ⟨.int, 1⟩

/-- A floating-point number. -/
def float : Ty := ⟨.float, 1⟩

/-- A vector of four floating-point numbers, the type of most hardware registers. -/
def vec4 : Ty := ⟨.float, 4⟩

/-- Whether the type has a base and one to four components. -/
def isValid (t : Ty) : Bool := t.base != .invalid && 1 ≤ t.order && t.order ≤ 4

/-- Whether the type has one component. -/
def isScalar (t : Ty) : Bool := t.order == 1

/-- Whether the type has more than one component. -/
def isVector (t : Ty) : Bool := 1 < t.order

/-- The type of one component. -/
def scalar (t : Ty) : Ty := ⟨t.base, 1⟩

/-- Whether the components are numbers, so that they can be added and compared. -/
def isArithmetic (t : Ty) : Bool := t.base == .int || t.base == .float

/-- The name of the type. -/
def name (t : Ty) : Bytes :=
  if !t.isValid then ascii "ANY_TYPE"
  else if t.order = 1 then t.base.name
  else
    let letter := match t.base with
      | .bool => ascii "b"
      | .int => ascii "i"
      | _ => []
    letter ++ ascii "vec" ++ integer t.order

end Ty

/-- The type a token names. -/
def Kind.type? : Kind → Option Ty
  | .boolType => some .bool
  | .intType => some .int
  | .floatType => some .float
  | .bvec2 => some ⟨.bool, 2⟩
  | .bvec3 => some ⟨.bool, 3⟩
  | .bvec4 => some ⟨.bool, 4⟩
  | .ivec2 => some ⟨.int, 2⟩
  | .ivec3 => some ⟨.int, 3⟩
  | .ivec4 => some ⟨.int, 4⟩
  | .vec2 => some ⟨.float, 2⟩
  | .vec3 => some ⟨.float, 3⟩
  | .vec4 => some ⟨.float, 4⟩
  | _ => none

theorem Kind.isSome_type? (k : Kind) : k.type?.isSome = k.isType := by
  cases k <;> rfl

/-- How a variable may be used. -/
inductive Qualifier where
  /-- Declared by the shader, mutable. -/
  | ordinary
  /-- Declared by the shader, a constant. -/
  | const
  /-- A predefined output, only written. -/
  | result
  /-- A predefined input that varies, only read. -/
  | varying
  /-- A predefined input that is fixed for a drawing, only read. -/
  | uniform
  /-- No qualifier of the language. -/
  | unknown
  deriving DecidableEq, Repr

namespace Qualifier

/-- The qualifier of a code. -/
def ofCode (n : Int) : Qualifier :=
  if n = 0 then ordinary else if n = 1 then const else if n = 2 then result
  else if n = 3 then varying else if n = 4 then uniform else unknown

/-- The word for the qualifier; an ordinary variable has none. -/
def name : Qualifier → Bytes
  | ordinary => []
  | const => ascii "const"
  | result => ascii "result"
  | varying => ascii "attribute"
  | uniform => ascii "uniform"
  | unknown => ascii "?"

/-- Whether the shader itself declares such a variable. -/
def isOrdinary (q : Qualifier) : Bool := q == ordinary || q == const

end Qualifier

end Shader
