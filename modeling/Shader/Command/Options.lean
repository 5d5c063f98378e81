import Shader.Command.Path

/-!
# The options of the command

The command has flags, and two environment variables stand in for two of them. How flags are read
from arguments, and what the value of a variable means, is left to a `Library`: the command relies
on what a library makes of them, and on nothing else. `Shader.Command.Flags` has the one that it is
run with.
-/

namespace Shader

/-- The flags there are. -/
inductive Flag where
  | dumpTree
  | dumpSymbols
  | dumpAssembly
  | verbose
  | watch
  | output
  | ext
  | help
  | version
  deriving DecidableEq, Repr

namespace Flag

/-- Every flag. -/
def all : List Flag :=
  [dumpTree, dumpSymbols, dumpAssembly, verbose, watch, output, ext, help, version]

/-- The name of a flag. -/
def name : Flag → Bytes
  | dumpTree => ascii "dparse"
  | dumpSymbols => ascii "dsymbols"
  | dumpAssembly => ascii "dasm"
  | verbose => ascii "verbose"
  | watch => ascii "watch"
  | output => ascii "output"
  | ext => ascii "ext"
  | help => ascii "help"
  | version => ascii "version"

/-- The letter of a flag that has one. -/
def letter? : Flag → Option UInt8
  | verbose => some (byte 'v')
  | output => some (byte 'o')
  | help => some (byte 'h')
  | _ => none

/-- The flags that take a text; the others are switches. -/
def takesText : Flag → Bool
  | output | ext => true
  | _ => false

/-- The flag of a name. -/
def ofName? (name : Bytes) : Option Flag := all.find? (·.name == name)

/-- The flag of a letter. -/
def ofLetter? (letter : UInt8) : Option Flag := all.find? (·.letter? == some letter)

/-- The flags that show what the compiler makes. They are also known by a single dash. -/
def dumps : List Flag := [dumpTree, dumpSymbols, dumpAssembly]

end Flag

/-- A dump flag with a single dash is given its second one. -/
def normalizeArg (arg : Bytes) : Bytes :=
  if Flag.dumps.any (fun f => arg == byte '-' :: f.name) then byte '-' :: arg else arg

/-- Arguments with two dashes before each dump flag, wherever it stands. -/
def normalizeArgs (args : List Bytes) : List Bytes := args.map normalizeArg

/-- What the arguments ask for. -/
structure Options where
  tree : Bool := false
  symbols : Bool := false
  assembly : Bool := false
  /-- Whether to report folding, if a flag says so. -/
  verbose : Option Bool := none
  watch : Bool := false
  output : Bytes := []
  /-- The extension of the assembly, if a flag gives it. -/
  ext : Option Bytes := none
  help : Bool := false
  version : Bool := false
  sources : List Bytes := []
  deriving DecidableEq, Repr

/-! ## The environment -/

/-- The environment variables that stand in for flags. One that is not set is empty. -/
structure Environment where
  verbose : Bytes := []
  ext : Bytes := []
  deriving DecidableEq, Repr

/-! ## Libraries -/

/-- What arguments come to. -/
inductive Invocation where
  /-- They are refused, without a word. -/
  | refused
  /-- They ask for something that has nothing to do with the command, and here it is. -/
  | answered (t : Bytes)
  /-- The command is to run. -/
  | accepted (o : Options)
  deriving DecidableEq, Repr

/-- What the command leaves to others. -/
structure Library where
  /-- What arguments come to. -/
  invoke : List Bytes → Invocation
  /-- Whether the value of an environment variable says yes. -/
  affirms : Bytes → Bool
  /-- The value of an environment variable, or the text that stands in for it. -/
  valueOr : Bytes → Bytes → Bytes
  /-- The help. -/
  help : Bytes
  /-- What is said of the version. -/
  version : Bytes

/-- How to compile: what the flags say and, where they are silent, the environment. -/
structure Settings where
  verbose : Bool := false
  symbols : Bool := false
  output : Bytes := []
  ext : Bytes := Path.assemblyExt
  deriving DecidableEq, Repr

/-- The settings that options mean in an environment. -/
def Options.settings (o : Options) (lib : Library) (env : Environment) : Settings where
  verbose := o.verbose.getD (lib.affirms env.verbose)
  symbols := o.symbols
  output := o.output
  ext := o.ext.getD (lib.valueOr env.ext Path.assemblyExt)

/-- Where the settings have the assembly of a source written. -/
def Settings.assemblyOutput (s : Settings) (source : Bytes) : Bytes :=
  Path.assemblyOutput s.output s.ext source

end Shader
