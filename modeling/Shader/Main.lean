import Shader.Command.Job

/-!
# The command on the files of the system

Here the jobs meet the files, the streams and the environment of the process. A watch looks at the
source again and again, and compiles it when it was written since the last look.
-/

namespace Shader

/-- A string of the system as a text. -/
def ofSystem (s : String) : Bytes := s.toUTF8.toList

/-- A text as the bytes that a stream takes. -/
def toByteArray (t : Bytes) : ByteArray := ⟨t.toArray⟩

/-- A text as a string of the system. -/
def toSystem (t : Bytes) : String := (String.fromUTF8? (toByteArray t)).getD ""

/-- The fault that an error of the system is. The system's number of an error may come negated. -/
def Fault.ofError : IO.Error → Fault
  | .noFileOrDirectory .. => .missing
  | .inappropriateType _ code _ =>
    if code = 20 ∨ -code = 20 then .notDirectory else .isDirectory
  | e => .other (ofSystem (toString e))

/-- Does something with the files, an error given as a fault. -/
def withFault {β : Type} (action : IO β) : IO (Except Fault β) := do
  try
    return .ok (← action)
  catch e =>
    return .error (.ofError e)

/-- When a path was last written. -/
def lastWritten (path : Bytes) : IO IO.FS.SystemTime := do
  let real ← IO.FS.realPath (toSystem path)
  return (← real.metadata).modified

instance : Host IO where
  read path := withFault do
    return (← IO.FS.readBinFile (toSystem path)).toList
  write path content := withFault (IO.FS.writeBinFile (toSystem path) (toByteArray content))
  probe path := withFault do
    discard (lastWritten path)
  out t := do
    (← IO.getStdout).write (toByteArray t)
  err t := do
    (← IO.getStderr).write (toByteArray t)

/-- Compiles a source whenever it was written after the time `seen`, until the process is ended. -/
partial def keepWatching (s : Settings) (source : Bytes) (seen : Option IO.FS.SystemTime) :
    IO Unit := do
  IO.sleep 100
  let now := (← withFault (lastWritten source)).toOption
  if now.isSome && now != seen then Job.recompile s source
  keepWatching s source now

end Shader

open Shader in
def main (args : List String) : IO UInt32 := do
  let setting (name : String) : IO Bytes :=
    return ofSystem ((← IO.getEnv name).getD "")
  let env : Environment := ⟨← setting "RALPH_FP_VERBOSE", ← setting "RALPH_FP_EXT"⟩
  let job := Job.ofArgs env (normalizeArgs (args.map ofSystem))
  let ok ← job.run
  match ok, job with
  | true, .watch s source =>
    keepWatching s source (← withFault (lastWritten source)).toOption
  | _, _ => pure ()
  return if ok then 0 else 1
