/-!
# Paths

Paths are texts whose steps are divided by `/`. Nothing is normalised: a path is shown as
it was put together.
-/

namespace ManagedGraph.Path

/-- Whether a path starts at the top. -/
def isAbsolute (path : String) : Bool :=
  path.toList.head? == some '/'

/-- Whether another step can follow without a divider. -/
def isOpen (path : String) : Bool :=
  path.toList.getLast? == none || path.toList.getLast? == some '/'

/-- A path continued by another one; an absolute path replaces what stands before it. -/
def join (base next : String) : String :=
  if isAbsolute next then next
  else if isOpen base then base ++ next
  else base ++ "/" ++ next

/-! ## What a path leads to -/

/-- The names of nested directories, innermost first. -/
abbrev Place := List (List Char)

/-- The steps of a path as they are written. -/
def steps (path : String) : List (List Char) :=
  path.toList.splitOn '/'

/-- Where a step leads: empty ones and `.` stay, and `..` goes back. -/
def follow (place : Place) (step : List Char) : Place :=
  if step = [] ∨ step = ['.'] then place
  else if step = ['.', '.'] then place.tail
  else step :: place

/-- Where a path leads. -/
def destination (path : String) : Place :=
  (steps path).foldl follow []

/-- The places after each of some steps. -/
def places (place : Place) : List (List Char) → List Place
  | [] => []
  | step :: rest => follow place step :: places (follow place step) rest

/-- The directories that a path passes before its last step. -/
def passed (path : String) : List Place :=
  places [] (steps path).dropLast

/-- Whether a path ends in a name, so that it can name a file. -/
def endsInName (path : String) : Bool :=
  match (steps path).getLast? with
  | some step => !(step.isEmpty || step == ['.'] || step == ['.', '.'])
  | none => false

end ManagedGraph.Path
