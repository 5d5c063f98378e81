import Shader.Types

/-!
# What every shader finds declared

The predefined variables with the hardware registers behind them, and the functions of the target.
-/

namespace Shader

/-- The hardware registers a shader can name. -/
inductive Hardware where
  | fragColor
  | fragDepth
  | fragCoord
  | texCoord
  | color
  | secondary
  | fogFragCoord
  | lightHalf
  | lightAmbient
  | materialShininess
  | env1
  | env2
  | env3
  deriving DecidableEq, Repr

namespace Hardware

/-- The registers in the order in which their variables are declared. -/
def all : List Hardware :=
  [fragColor, fragDepth, fragCoord, texCoord, color, secondary, fogFragCoord, lightHalf,
    lightAmbient, materialShininess, env1, env2, env3]

/-- The name of the variable bound to the register. -/
def varName : Hardware → Bytes
  | fragColor => ascii "gl_FragColor"
  | fragDepth => ascii "gl_FragDepth"
  | fragCoord => ascii "gl_FragCoord"
  | texCoord => ascii "gl_TexCoord"
  | color => ascii "gl_Color"
  | secondary => ascii "gl_Secondary"
  | fogFragCoord => ascii "gl_FogFragCoord"
  | lightHalf => ascii "gl_Light_Half"
  | lightAmbient => ascii "gl_Light_Ambient"
  | materialShininess => ascii "gl_Material_Shininess"
  | env1 => ascii "env1"
  | env2 => ascii "env2"
  | env3 => ascii "env3"

/-- The name of the register in assembly. -/
def text : Hardware → Bytes
  | fragColor => ascii "result.color"
  | fragDepth => ascii "result.depth"
  | fragCoord => ascii "fragment.position"
  | texCoord => ascii "fragment.texcoord"
  | color => ascii "fragment.color"
  | secondary => ascii "fragment.color.secondary"
  | fogFragCoord => ascii "fragment.fogcoord"
  | lightHalf => ascii "state.light[0].half"
  | lightAmbient => ascii "state.lightmodel.ambient"
  | materialShininess => ascii "state.material.shininess"
  | env1 => ascii "program.env[1]"
  | env2 => ascii "program.env[2]"
  | env3 => ascii "program.env[3]"

/-- How the variable of the register may be used. -/
def qualifier : Hardware → Qualifier
  | fragColor | fragDepth => .result
  | fragCoord | texCoord | color | secondary | fogFragCoord => .varying
  | lightHalf | lightAmbient | materialShininess | env1 | env2 | env3 => .uniform

/-- The type of the variable of the register. The depth is the one that is no vector. -/
def type : Hardware → Ty
  | fragDepth => .bool
  | _ => .vec4

/-- The register behind a variable name. -/
def ofName? (name : Bytes) : Option Hardware := all.find? (fun h => h.varName == name)

end Hardware

/-- Whether a name is that of a predefined variable. -/
def isPredefined (name : Bytes) : Bool := (Hardware.ofName? name).isSome

/-! ## Functions -/

/-- The functions of the target. -/
inductive Function where
  /-- Reciprocal square root of a number. -/
  | rsq
  /-- Dot product of three components. -/
  | dp3
  /-- Lighting coefficients. -/
  | lit
  deriving DecidableEq, Repr

namespace Function

/-- The name a shader calls the function by. -/
def name : Function → Bytes
  | rsq => ascii "rsq"
  | dp3 => ascii "dp3"
  | lit => ascii "lit"

/-- The function of a name. -/
def ofName? (name : Bytes) : Option Function :=
  [rsq, dp3, lit].find? (fun f => f.name == name)

/-- The number of arguments. -/
def arity : Function → Nat
  | rsq | lit => 1
  | dp3 => 2

/-- The argument types the function takes, each with the type it gives. -/
def signatures : Function → List (List Ty × Ty)
  | rsq => [([.float], .float), ([.int], .float)]
  | dp3 =>
    [([.vec4, .vec4], .float), ([⟨.float, 3⟩, ⟨.float, 3⟩], .float),
      ([⟨.int, 4⟩, ⟨.int, 4⟩], .float), ([⟨.int, 3⟩, ⟨.int, 3⟩], .float)]
  | lit => [([.vec4], .vec4)]

/-- The type of a call, if the arguments fit. -/
def result? (f : Function) (args : List Ty) : Option Ty := f.signatures.lookup args

end Function

end Shader
