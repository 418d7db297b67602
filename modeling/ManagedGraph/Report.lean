/-!
# Reports of failure

A report is a problem and the contexts that were wrapped around it on its way up. Its
text is that of the outermost context; its root cause, the text of the deepest error,
does not depend on the contexts (`rootCause_wrap`).
-/

namespace ManagedGraph

/-- What went wrong. -/
inductive Problem where
  /-- Reading or writing failed. -/
  | io (message : String)
  /-- The settings file is invalid. -/
  | settings (message : String)
  /-- A POM could not be read, understood or built into an effective model. -/
  | pom (message : String)
  /-- The BOMs imported into a scope could not be resolved. -/
  | bomImport (coordinates cause : String)
  /-- Resolving dependencies failed. -/
  | resolution (message : String)
  /-- Any other failure of this library. -/
  | general (message : String)
  /-- A failure stated by a service from outside. -/
  | external (message : String)
deriving DecidableEq, Repr

namespace Problem

/-- The text of a problem. -/
def message : Problem → String
  | io m => "I/O error: " ++ m
  | settings m => "Configuration error: " ++ m
  | pom m => "POM error: " ++ m
  | bomImport coordinates cause =>
      "Failed to resolve imported BOMs (" ++ coordinates ++ "): " ++ cause
  | resolution m => "Dependency resolution failed: " ++ m
  | general m => m
  | external m => m

/-- A problem and the errors below it, by their texts. -/
def chain : Problem → List String
  | io m => [(io m).message, m]
  | p => [p.message]

/-- The text of the deepest error. -/
def rootCause : Problem → String
  | io m => m
  | p => p.message

/-- What the user may do about a problem. -/
def help : Problem → Option String
  | settings _ => some "Check your depman.toml for syntax errors"
  | bomImport _ _ => some "Check that every imported BOM exists and that its properties resolve"
  | _ => none

end Problem

/-- A problem under the contexts wrapped around it, outermost first. -/
structure Report where
  contexts : List String
  problem : Problem
deriving DecidableEq, Repr

namespace Report

/-- A problem without context. -/
def ofProblem (p : Problem) : Report := ⟨[], p⟩

/-- A report with one more context around it. -/
def wrap (r : Report) (context : String) : Report :=
  ⟨context :: r.contexts, r.problem⟩

/-- The texts from the outermost context down to the deepest error. -/
def chain (r : Report) : List String :=
  r.contexts ++ r.problem.chain

/-- The text of the outermost context, or of the problem if there is none. -/
def message (r : Report) : String :=
  r.contexts.head?.getD r.problem.message

/-- The text of the deepest error. -/
def rootCause (r : Report) : String :=
  r.problem.rootCause

/-- What the user may do about it. -/
def help (r : Report) : Option String :=
  r.problem.help

/-- Contexts do not change the root cause. -/
@[simp] theorem rootCause_wrap (r : Report) (context : String) :
    (r.wrap context).rootCause = r.rootCause := rfl

/-- The root cause is the last text of the chain. -/
theorem getLast?_chain (r : Report) : r.chain.getLast? = some r.rootCause := by
  rcases r with ⟨cs, p⟩
  cases p <;> simp [chain, Problem.chain, rootCause, Problem.rootCause]

end Report

end ManagedGraph
