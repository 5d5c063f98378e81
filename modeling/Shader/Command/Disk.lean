import Shader.Command.Path

/-!
# Files and directories

A disk lists files and directories by their places. A path is followed name by name, and every name
but the last has to be a directory on the way: `d/../s` is not there if `d` is not.

The disk is about the working directory. Of what is outside, it is known that some directories and
the null device are there.
-/

namespace Shader

/-- Why a path cannot be used. -/
inductive Fault where
  | missing
  | isDirectory
  | notDirectory
  | nameTooLong
  /-- The path holds a zero byte. -/
  | invalid
  /-- Any other reason, in the words of the system. -/
  | other (reason : Bytes)
  deriving DecidableEq, Repr

namespace Fault

/-- The reason in words. -/
def reason : Fault → Bytes
  | missing => ascii "no such file or directory"
  | isDirectory => ascii "is a directory"
  | notDirectory => ascii "not a directory"
  | nameTooLong => ascii "file name too long"
  | invalid => ascii "invalid argument"
  | other reason => reason

/-- The message about a file that cannot be opened. -/
def opening (f : Fault) (path : Bytes) : Bytes :=
  ascii "open " ++ path ++ ascii ": " ++ f.reason

/-- The message about a file that cannot be read: a directory opens and fails after that. -/
def reading (f : Fault) (path : Bytes) : Bytes :=
  match f with
  | isDirectory => ascii "read " ++ path ++ ascii ": " ++ f.reason
  | _ => f.opening path

end Fault

/-- What a place holds. -/
inductive Entry where
  | file (content : Bytes)
  | directory
  deriving DecidableEq, Repr

/-- Files and directories by their places, each place at most once. -/
structure Disk where
  entries : List (Place × Entry) := []
  deriving DecidableEq, Repr

namespace Disk

/-- What a place holds. -/
def entry? (d : Disk) (p : Place) : Option Entry :=
  if p.isGiven then some .directory
  else if p = Place.nullDevice then some (.file [])
  else d.entries.lookup p

/-- The disk with nothing at a place. -/
def erase (d : Disk) (p : Place) : Disk := ⟨d.entries.filter (·.1 != p)⟩

/-- The disk with an entry at a place. -/
def insert (d : Disk) (p : Place) (e : Entry) : Disk := ⟨(p, e) :: (d.erase p).entries⟩

/-- The longest name a directory can hold. -/
def nameLimit : Nat := 255

/-- The longest path that can be followed. -/
def pathLimit : Nat := 4095

/-- Whether a text is a path at all. -/
def checkPath (path : Bytes) : Except Fault Unit :=
  if path.contains 0 then .error .invalid
  else if path = [] then .error .missing
  else if pathLimit < path.length then .error .nameTooLong
  else .ok ()

/-- Follows a name out of a directory, to whatever it leads to. -/
def step (d : Disk) (p : Place) (name : Bytes) : Except Fault Entry :=
  if nameLimit < name.length then .error .nameTooLong
  else match d.entry? (p.enter name) with
    | none => .error .missing
    | some e => .ok e

/-- Follows names, each of which has to lead to a directory. -/
def walk (d : Disk) (p : Place) : List Bytes → Except Fault Place
  | [] => .ok p
  | name :: rest =>
    match d.step p name with
    | .error f => .error f
    | .ok (.file _) => .error .notDirectory
    | .ok .directory => walk d (p.enter name) rest

/-- What a path leads to. -/
def find (d : Disk) (path : Bytes) : Except Fault Entry := do
  checkPath path
  let p ← d.walk (Place.start path) (Path.names path).dropLast
  d.step p (Path.base path)

/-- The content of a file. -/
def read (d : Disk) (path : Bytes) : Except Fault Bytes :=
  match d.find path with
  | .error f => .error f
  | .ok .directory => .error .isDirectory
  | .ok (.file content) => .ok content

/-- The names of a path without the empty ones at its end, and whether there were any. -/
def trimmed (path : Bytes) : List Bytes × Bool :=
  let names := Path.names path
  let kept := (names.reverse.dropWhile (· == [])).reverse
  (kept, kept.length != names.length)

/-- Where a file can be written. A path that ends with a slash is the path of a directory. -/
def slot (d : Disk) (path : Bytes) : Except Fault Place := do
  checkPath path
  let (names, slash) := trimmed path
  let p ← d.walk (Place.start path) names.dropLast
  if slash then throw .isDirectory
  let name := names.getLast?.getD []
  match d.step p name with
  | .ok .directory => throw .isDirectory
  | .ok (.file _) => return p.enter name
  | .error .missing => return p.enter name
  | .error f => throw f

/-- Writes a file, in the place of one that is there. The null device takes the content and stays
empty. -/
def write (d : Disk) (path content : Bytes) : Except Fault Disk := do
  let p ← d.slot path
  return if p = Place.nullDevice then d else d.insert p (.file content)

/-- Removes a file. -/
def remove (d : Disk) (path : Bytes) : Disk :=
  match d.read path with
  | .error _ => d
  | .ok _ => d.erase (Place.ofPath path)

/-- Makes a directory and the directories it stands in. -/
def makeDirectory (d : Disk) (path : Bytes) : Disk :=
  let p := Place.ofPath path
  (List.range p.length).foldl (fun d n => d.insert (p.take (n + 1)) .directory) d

/-- A disk with directories and files. A file brings the directories it stands in. -/
def ofFiles (directories : List Bytes) (files : List (Bytes × Bytes)) : Disk :=
  files.foldl
    (fun d f => (d.makeDirectory (Path.parent f.1)).insert (Place.ofPath f.1) (.file f.2))
    (directories.foldl makeDirectory {})

/-- The files under the working directory that another disk does not hold with that content, by
their paths. -/
def changes (before after : Disk) : List (Bytes × Bytes) :=
  after.entries.filterMap fun (p, e) =>
    match e with
    | .directory => none
    | .file content =>
      if p.head? = some (ascii "..") ∨ p.head? = some (ascii "/") ∨ before.entry? p = some e then
        none
      else some (p.path, content)

end Disk

end Shader
