import Shader.Command.Disk
import Shader.Command.Flags
import Shader.Compilation
import Shader.Excerpt

/-!
# The command

The arguments and the environment determine one job: show a text such as the help, dump the tree of
a source, compile a source, or compile it again whenever it changes. A job needs little of its
surroundings, and `Host` says what: to read and to write a file, to know whether a path leads
anywhere, and two streams of text. The jobs are the same on every host; on a `World` they are plain
functions.

Nothing is written to a file before the source has been read and compiled without an error.
-/

namespace Shader

/-- What a job needs of its surroundings. -/
class Host (m : Type → Type) where
  /-- The content of a file. -/
  read (path : Bytes) : m (Except Fault Bytes)
  /-- Creates a file, or replaces what it holds, and leaves all as it is where that is
  impossible. -/
  write (path content : Bytes) : m (Except Fault Unit)
  /-- Whether a path leads to anything. -/
  probe (path : Bytes) : m (Except Fault Unit)
  /-- Shows output. -/
  out (t : Bytes) : m Unit
  /-- Shows a message. -/
  err (t : Bytes) : m Unit

/-- A disk, and what was shown. -/
structure World where
  disk : Disk := {}
  out : Bytes := []
  err : Bytes := []
  deriving DecidableEq, Repr

/-- The host that is a value. -/
instance : Host (StateM World) where
  read path := fun w => (w.disk.read path, w)
  write path content := fun w =>
    match w.disk.write path content with
    | .error f => (.error f, w)
    | .ok d => (.ok (), { w with disk := d })
  probe path := fun w => ((w.disk.find path).map fun _ => (), w)
  out t := fun w => ((), { w with out := w.out ++ t })
  err t := fun w => ((), { w with err := w.err ++ t })

/-! ## Messages -/

namespace Job

/-- The name of the command. -/
def command : Bytes := ascii "ralph-fp"

/-- A message of the command itself. -/
def notice (t : Bytes) : Bytes := command ++ ascii ": " ++ t ++ ascii "\n"

/-- A message about a source. -/
def about (source t : Bytes) : Bytes := source ++ ascii ": " ++ t ++ ascii "\n"

end Job

/-! ## Jobs -/

/-- What the command is asked to do. -/
inductive Job where
  /-- The arguments are refused, without a word. -/
  | refuse
  /-- Only a text is asked for. -/
  | answer (t : Bytes)
  | dump (source : Bytes)
  | compile (s : Settings) (source : Bytes)
  | watch (s : Settings) (source : Bytes)
  deriving DecidableEq, Repr

namespace Job

/-- The job that options mean: help comes before the version, and both come before a look at the
sources, of which there is one at most. -/
def ofOptions (lib : Library) (env : Environment) (o : Options) : Job :=
  if o.help then answer lib.help
  else if o.version then answer lib.version
  else match o.sources with
    | [] => answer lib.help
    | [source] =>
      if o.tree then dump source
      else if o.watch then watch (o.settings lib env) source
      else compile (o.settings lib env) source
    | _ => refuse

/-- The job of what arguments come to. -/
def ofInvocation (lib : Library) (env : Environment) : Invocation → Job
  | .refused => refuse
  | .answered t => answer t
  | .accepted o => ofOptions lib env o

variable {m : Type → Type} [Monad m] [Host m]

/-- Writes a file and shows the same text. -/
def deliver (path t : Bytes) : m Bool := do
  match ← Host.write path t with
  | .error f =>
    Host.err (notice (ascii "error creating " ++ path ++ ascii ": " ++ f.opening path))
    return false
  | .ok () =>
    Host.out t
    return true

/-- Goes on with the content of a source. -/
def withSource (source : Bytes) (k : Bytes → m Bool) : m Bool := do
  match ← Host.read source with
  | .error f =>
    Host.err (notice (ascii "error reading " ++ source ++ ascii ": " ++ f.reading source))
    return false
  | .ok content => k content

/-- The messages about a text that cannot be parsed. -/
def parseMessages (source : Bytes) (errors : List ParseError) : Bytes :=
  errors.flatMap fun e => about source e.text

/-- The messages about a program with errors, each with its excerpt. -/
def checkMessages (source content : Bytes) (errors : List Diagnostic) : Bytes :=
  errors.flatMap fun d => about source d.text ++ excerpt content d.pos

/-- Dumps the tree of a source. -/
def runDump (source : Bytes) : m Bool :=
  withSource source fun content => do
    let parsed := parse content
    if !parsed.errors.isEmpty then
      Host.err (parseMessages source parsed.errors)
      return false
    else deliver (Path.treeOutput source) (Program.ofAst parsed.body).text

/-- Compiles a source. -/
def runCompile (s : Settings) (source : Bytes) : m Bool :=
  withSource source fun content => do
    match Shader.compile content with
    | .malformed errors =>
      Host.err (parseMessages source errors)
      return false
    | .illTyped errors =>
      Host.err (checkMessages source content errors)
      return false
    | .attempted program result =>
      Host.out (if s.symbols then result.symbolText program else [])
      Host.err (if s.verbose then result.log else [])
      match result.outcome with
      | .error e =>
        Host.err (about source e.message)
        return false
      | .ok a => deliver (s.assemblyOutput source) (a.text singleText)

/-- Begins to watch a source, and compiles it for the first time. Only a directory that cannot be
watched is an error. -/
def beginWatch (s : Settings) (source : Bytes) : m Bool := do
  match ← Host.probe (Place.ofPath (Path.parent source)).path with
  | .error f =>
    Host.err (notice (ascii "cannot watch " ++ source ++ ascii ": " ++ f.reason))
    return false
  | .ok () =>
    let _ ← runCompile s source
    return true

/-- Compiles a source that was changed. -/
def recompile (s : Settings) (source : Bytes) : m Unit := do
  Host.err (notice (source ++ ascii " changed, recompiling"))
  let _ ← runCompile s source

/-- Does a job, and tells whether it succeeded. A watch ends here with its first compilation. -/
def run : Job → m Bool
  | refuse => return false
  | answer t => do
    Host.out t
    return true
  | dump source => runDump source
  | compile s source => runCompile s source
  | watch s source => beginWatch s source

/-! ## Watching -/

end Job

/-- A change that someone else makes to the files. -/
inductive Change where
  | write (path content : Bytes)
  | remove (path : Bytes)
  deriving DecidableEq, Repr

namespace Change

/-- The disk after a change. What cannot be done is left. -/
def apply (d : Disk) : Change → Disk
  | write path content => (d.write path content).toOption.getD d
  | remove path => d.remove path

/-- Whether a change gives the file at a place a content. -/
def fills (d : Disk) (p : Place) : Change → Bool
  | write path _ => (d.slot path).toOption == some p
  | remove _ => false

end Change

namespace Job

/-- Answers a change: only a new content of the source is one. -/
def react (s : Settings) (source : Bytes) (c : Change) : StateM World Unit := do
  let w ← get
  set { w with disk := c.apply w.disk }
  if c.fills w.disk (Place.ofPath source) then recompile s source

/-- Does a job while the files change. A job that is no watch, or fails, is over before the first
change. -/
def runAmid (changes : List Change) (job : Job) : StateM World Bool := do
  let ok ← job.run
  match ok, job with
  | true, watch s source => changes.forM (react s source)
  | _, _ => changes.forM fun c => modify fun w => { w with disk := c.apply w.disk }
  return ok

end Job

/-- The command with any library: the job of the arguments, on any host. -/
def Library.command {m : Type → Type} [Monad m] [Host m] (lib : Library) (env : Environment)
    (args : List Bytes) : m Bool :=
  (Job.ofInvocation lib env (lib.invoke (normalizeArgs args))).run

/-! ## The library in use -/

/-- The job of arguments in which every dump flag has two dashes. -/
def Job.ofArgs (env : Environment) (args : List Bytes) : Job :=
  ofInvocation .standard env (Library.standard.invoke args)

/-- The command. -/
def command {m : Type → Type} [Monad m] [Host m] (env : Environment) (args : List Bytes) : m Bool :=
  Library.standard.command env args

end Shader
