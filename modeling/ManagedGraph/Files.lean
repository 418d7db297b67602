import ManagedGraph.Path

/-!
# Files

What the library sees of a file system: the content of a path, or why there is none.
-/

namespace ManagedGraph

/-- Why the text of a file cannot be had. -/
inductive ReadFault where
  /-- There is no such file. -/
  | missing
  /-- The file does not hold UTF-8 text. -/
  | notText
deriving DecidableEq, Repr

namespace ReadFault

/-- The text of a fault. -/
def message : ReadFault → String
  | missing => "No such file or directory (os error 2)"
  | notText => "stream did not contain valid UTF-8"

end ReadFault

/-- The files by path. -/
abbrev Files := String → Except ReadFault String

namespace Files

/-- The given files and no others, in their directories and the given ones. Paths that lead
to the same file share it, and a later entry replaces an earlier one. A path leads nowhere
if it passes what is no directory. -/
def ofList (directories : List String) (entries : List (String × Except ReadFault String)) :
    Files :=
  let known :=
    (entries.flatMap fun entry => Path.passed entry.1) ++
      directories.flatMap fun path => Path.destination path :: Path.passed path
  fun path =>
    if Path.endsInName path && (Path.passed path).all known.contains then
      match entries.reverse.find? fun entry =>
          Path.destination entry.1 == Path.destination path with
      | some entry => entry.2
      | none => .error .missing
    else .error .missing

end Files

end ManagedGraph
