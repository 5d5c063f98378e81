import Shader.Builtin
import Shader.Operator

/-!
# The types of operators

The type that an operator gives for the types of its operands, and nothing where they do not fit.
-/

namespace Shader.Typing

/-- The type of a prefix operator's value: numbers can be negated, truth values inverted. -/
def unaryResult? (op : UnaryOp) (t : Ty) : Option Ty :=
  match op with
  | .neg => if t.isArithmetic then some t else none
  | .not => if t.base = .bool then some t else none
  | .unknown => none

/-- The type of a product: both of one type, or a vector and a scalar of its base. -/
def productResult? (l r : Ty) : Option Ty :=
  if !l.isArithmetic || l.base != r.base then none
  else if l = r then some l
  else if l.isScalar then some r
  else if r.isScalar then some l
  else none

/-- The type of a binary operator's value. -/
def binaryResult? (op : BinaryOp) (l r : Ty) : Option Ty :=
  match op with
  | .add | .sub => if l.isArithmetic && l = r then some l else none
  | .mul => productResult? l r
  | .div | .pow => if l.isArithmetic && l.isScalar && l = r then some l else none
  | .and | .or => if l.base = .bool && l = r then some l else none
  | .lt | .le | .gt | .ge => if l.isArithmetic && l.isScalar && l = r then some .bool else none
  | .eq | .ne => if l.isArithmetic && l = r then some .bool else none
  | .unknown => none

end Shader.Typing
