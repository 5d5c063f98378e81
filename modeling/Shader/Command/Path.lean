import Shader.Text

/-!
# File names

A path is a text in which slashes divide names. The compiler derives the name of what it writes from
the name of the source: the source's extension makes way for another.

A place is where a path leads if every name on it is a directory: the names from the working
directory on, after the names `..` that lead out of it.
-/

namespace Shader

namespace Path

/-- The names of a path. Two slashes in a row have an empty name between them. -/
def names : Bytes → List Bytes
  | [] => [[]]
  | b :: rest =>
    if b = byte '/' then [] :: names rest
    else match names rest with
      | name :: more => (b :: name) :: more
      | [] => [[b]]

/-- What stands behind the last slash. -/
def base (path : Bytes) : Bytes := (path.reverse.takeWhile (· != byte '/')).reverse

/-- What stands before the base, the slash included. -/
def parent (path : Bytes) : Bytes := (path.reverse.dropWhile (· != byte '/')).reverse

/-! ## Extensions -/

/-- The extension: the base from its last dot on, and nothing if it has no dot. -/
def ext (path : Bytes) : Bytes :=
  let name := base path
  if name.contains (byte '.') then
    byte '.' :: (name.reverse.takeWhile (· != byte '.')).reverse
  else []

/-- The path without its extension. -/
def stem (path : Bytes) : Bytes := path.take (path.length - (ext path).length)

/-- The extension of assembly. -/
def assemblyExt : Bytes := ascii ".fp"

/-- Where the tree of a source is written. -/
def treeOutput (source : Bytes) : Bytes := stem source ++ ascii ".parsed"

/-- Where the assembly of a source is written: to the path that was asked for, and otherwise next to
the source under another extension. A source with just that extension keeps it and gets a second
one. -/
def assemblyOutput (output wanted source : Bytes) : Bytes :=
  if output ≠ [] then output
  else
    let wanted := if wanted = [] then assemblyExt else wanted
    if ext source = wanted then source ++ wanted else stem source ++ wanted

end Path

/-- Names from the working directory on, after the names that lead out of it. A slash as the first
name stands for the root of all files. -/
abbrev Place := List Bytes

namespace Place

/-- The root of all files. -/
def root : Place := [ascii "/"]

/-- The directories that every system has at its root. -/
def standard : List Bytes :=
  [ascii "bin", ascii "boot", ascii "dev", ascii "etc", ascii "home", ascii "lib", ascii "media",
    ascii "mnt", ascii "opt", ascii "proc", ascii "root", ascii "run", ascii "sbin", ascii "srv",
    ascii "sys", ascii "tmp", ascii "usr", ascii "var"]

/-- The device that is always empty and takes everything. -/
def nullDevice : Place := root ++ [ascii "dev", ascii "null"]

/-- Whether a place leads up from the working directory, or nowhere. -/
def isAbove (p : Place) : Bool := p.all (· == ascii "..")

/-- Places that are directories whatever the disk holds: those above the working directory, itself
included, and the standard ones. -/
def isGiven (p : Place) : Bool :=
  p.isAbove || p == root || standard.any (fun name => p == root ++ [name])

/-- The place that a name leads to. -/
def enter (p : Place) (name : Bytes) : Place :=
  if name = [] ∨ name = ascii "." then p
  else if name = ascii ".." then
    if p = root then p
    else if p.isAbove then p ++ [name]
    else p.dropLast
  else p ++ [name]

/-- Where a path starts. -/
def start (path : Bytes) : Place := if path.head? = some (byte '/') then root else []

/-- Where a path leads if all of its names are directories. -/
def ofPath (path : Bytes) : Place := (Path.names path).foldl enter (start path)

/-- The shortest path to a place. -/
def path (p : Place) : Bytes :=
  match p with
  | [] => ascii "."
  | name :: rest =>
    if name = ascii "/" then name ++ Text.join (ascii "/") rest
    else Text.join (ascii "/") (name :: rest)

end Place

end Shader
