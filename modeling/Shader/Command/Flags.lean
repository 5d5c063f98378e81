import Shader.Command.Options

/-!
# The library of the command

An argument that starts with a dash holds flags: `--name` one of them, `-abc` one for each letter.
A switch is on, or has the truth value behind an equals sign; every other flag takes a text, which
stands behind an equals sign, behind the letter, or in the next argument. All other arguments are
source files, and so is everything behind `--`. Arguments that break these rules are refused as a
whole.
-/

namespace Shader

namespace Options

/-- The truth value of a word. -/
def truth? (word : Bytes) : Option Bool :=
  if [ascii "1", ascii "t", ascii "T", ascii "TRUE", ascii "true", ascii "True"].contains word then
    some true
  else if [ascii "0", ascii "f", ascii "F", ascii "FALSE", ascii "false", ascii "False"].contains
      word then
    some false
  else none

/-- Gives a flag its value. A later value replaces an earlier one. -/
def set (o : Options) (f : Flag) (value : Bytes) : Option Options :=
  match f with
  | .output => some { o with output := value }
  | .ext => some { o with ext := some value }
  | .dumpTree => (truth? value).map fun b => { o with tree := b }
  | .dumpSymbols => (truth? value).map fun b => { o with symbols := b }
  | .dumpAssembly => (truth? value).map fun b => { o with assembly := b }
  | .verbose => (truth? value).map fun b => { o with verbose := some b }
  | .watch => (truth? value).map fun b => { o with watch := b }
  | .help => (truth? value).map fun b => { o with help := b }
  | .version => (truth? value).map fun b => { o with version := b }

/-- A flag without a value behind it: a switch is on, any other flag waits for the next argument. -/
def bare (o : Options) (f : Flag) : Option (Options × Option Flag) :=
  if f.takesText then some (o, some f) else (o.set f (ascii "true")).map (·, none)

/-- Reads a flag given by name. -/
def long (o : Options) (body : Bytes) : Option (Options × Option Flag) :=
  if body.head? = some (byte '-') then none
  else
    let name := body.takeWhile (· != byte '=')
    match Flag.ofName? name, body.drop name.length with
    | none, _ => none
    | some f, [] => o.bare f
    | some f, _ :: value => (o.set f value).map (·, none)

/-- Reads flags given by letters. Letters that start with `test.` are ignored. -/
def short (o : Options) : Bytes → Option (Options × Option Flag)
  | [] => some (o, none)
  | c :: rest =>
    if (ascii "test.").isPrefixOf (c :: rest) then some (o, none)
    else match Flag.ofLetter? c with
      | none => none
      | some f =>
        if rest.head? = some (byte '=') ∧ rest.length ≠ 1 then
          (o.set f (rest.drop 1)).map (·, none)
        else if f.takesText then
          if rest = [] then some (o, some f) else (o.set f rest).map (·, none)
        else match o.set f (ascii "true") with
          | none => none
          | some o => short o rest

/-- Reads an argument that starts with a dash. -/
def flags (o : Options) (arg : Bytes) : Option (Options × Option Flag) :=
  if (ascii "--").isPrefixOf arg then o.long (arg.drop 2) else o.short (arg.drop 1)

/-- Whether an argument holds flags. A dash alone is the name of a file. -/
def isFlags (arg : Bytes) : Bool := arg.head? == some (byte '-') && arg.length != 1

/-- Reads arguments, `wait` being a flag whose value is the next of them. -/
def read (o : Options) (wait : Option Flag) : List Bytes → Option Options
  | [] => if wait.isSome then none else some o
  | arg :: rest =>
    match wait with
    | some f =>
      match o.set f arg with
      | none => none
      | some o => read o none rest
    | none =>
      if !isFlags arg then read { o with sources := o.sources ++ [arg] } none rest
      else if arg = ascii "--" then some { o with sources := o.sources ++ rest }
      else match o.flags arg with
        | none => none
        | some (o, wait) => read o wait rest

/-- The options of the arguments, or nothing if they are refused. -/
def ofArgs? (args : List Bytes) : Option Options := read {} none args

end Options

/-! ## The environment -/

namespace Environment

/-- The words that affirm, in small letters. -/
def affirmations : List Bytes :=
  [ascii "true", ascii "yes", ascii "enable", ascii "enabled", ascii "positive",
    ascii "affirmative", ascii "absolutely"]

/-- A letter as a capital. -/
def capital (b : UInt8) : UInt8 := if byte 'a' ≤ b ∧ b ≤ byte 'z' then b - 32 else b

/-- A word with a capital at its start. -/
def capitalized : Bytes → Bytes
  | [] => []
  | b :: rest => capital b :: rest

/-- Whether a variable affirms: by `1`, by a letter, or by a word in small letters, in capitals, or
with one capital at its start. -/
def affirms (value : Bytes) : Bool :=
  [ascii "1", ascii "t", ascii "T", ascii "y", ascii "Y"].contains value ||
    affirmations.any fun w => value == w || value == w.map capital || value == capitalized w

end Environment

/-! ## Texts -/

namespace Library

/-- The name of the command and its version. -/
def versionText : Bytes := ascii "ralph-fp version 0.1.0\n"

/-- The help, line by line. -/
def helpLines : List Bytes :=
  [ascii "ralph-fp compiles a small GLSL-like fragment shader language to",
    ascii "ARBfp1.0 assembly. The target has no branch instructions, so if/else",
    ascii "statements are flattened into predicated writes.",
    [],
    ascii "Usage:",
    ascii "  ralph-fp [file] [flags]",
    [],
    ascii "Flags:",
    ascii "      --dasm            Dump assembly (default)",
    ascii "      --dparse          Dump after parsing",
    ascii "      --dsymbols        Dump the symbol register table before the assembly",
    ascii "      --ext string      Extension of the assembly file (env RALPH_FP_EXT) " ++
      ascii "(default \".fp\")",
    ascii "  -h, --help            help for ralph-fp",
    ascii "  -o, --output string   Write the assembly to this file",
    ascii "  -v, --verbose         Report constant folding (env RALPH_FP_VERBOSE)",
    ascii "      --version         version for ralph-fp",
    ascii "      --watch           Recompile whenever the source file changes"]

/-- The help. -/
def helpText : Bytes := helpLines.flatMap (· ++ ascii "\n")

/-- The library that the command is run with. -/
def standard : Library where
  invoke args := match Options.ofArgs? args with
    | none => .refused
    | some o => .accepted o
  affirms := Environment.affirms
  valueOr value default := if value = [] then default else value
  help := helpText
  version := versionText

end Library

end Shader
