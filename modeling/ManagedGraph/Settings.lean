import ManagedGraph.Coordinates
import ManagedGraph.Files
import ManagedGraph.Report
import ManagedGraph.Toml.Document

/-!
# Settings

The settings of a build are read from a TOML file at the root of the project. A file that
does not exist stands for the defaults, and so does whatever a file leaves out.

A section may also be written as an array of the values of its keys, in order.
-/

namespace ManagedGraph

/-- The settings of a build. -/
structure Settings where
  /-- Whether the exclusions declared in the POMs of dependencies count. -/
  applyMavenExclusions : Bool
  /-- Whether concrete versions of direct dependencies win over imported BOMs. -/
  overriddenByDependencies : Bool
  /-- The directory of the local repository. -/
  localRepository : String
  /-- The properties that imported BOMs are resolved with. -/
  properties : Properties
deriving DecidableEq

/-- What an environment says about the home directory. -/
structure Environment where
  home : Option String
  userProfile : Option String
deriving DecidableEq, Repr

namespace Environment

/-- The home directory; the current one if nothing names it. -/
def homeDirectory (env : Environment) : String :=
  (env.home.or env.userProfile).getD "."

end Environment

namespace Settings

/-- The name of the settings file. -/
def fileName : String := "depman.toml"

/-- The settings of a build that states none. -/
def default : Settings :=
  ⟨true, true, "~/.m2/repository", ∅⟩

/-- The directory of the local repository, a leading `~` standing for the home directory. -/
def localPath (settings : Settings) (env : Environment) : String :=
  match settings.localRepository.toList with
  | '~' :: '/' :: rest => Path.join env.homeDirectory (String.ofList rest)
  | _ => settings.localRepository

/-! ## Reading -/

/-- A flag, with its value where it is left out. -/
def flag (absent : Bool) : Option Toml.Value → Option Bool
  | none => some absent
  | some (.boolean b) => some b
  | some _ => none

/-- A text, with its value where it is left out. -/
def text (absent : String) : Option Toml.Value → Option String
  | none => some absent
  | some (.string s) => some s
  | some _ => none

/-- The values of the keys of a section; a moment is a section with no known key. -/
def valuesOf (keys : List String) : Option Toml.Value → Option (List (Option Toml.Value))
  | none => some (keys.map fun _ => none)
  | some (.table _ entries) => some (keys.map (Toml.Entries.get? entries))
  | some (.array items) => some ((List.range keys.length).map fun i => items[i]?)
  | some (.tables elements) =>
      some ((List.range keys.length).map fun i => elements[i]?.map (.table .header))
  | some (.moment _) => some (keys.map fun _ => none)
  | some _ => none

/-- The entries of a table of texts. A moment is a table with one entry, under a name that
no key of a document needs. -/
def texts : Option Toml.Value → Option Properties
  | none => some ∅
  | some (.moment m) => some ((∅ : Properties).insert "$__toml_private_datetime" m)
  | some (.table _ entries) =>
      entries.foldlM (fun table entry =>
        match entry.2 with
        | .string s => some (table.insert entry.1 s)
        | _ => none) ∅
  | some _ => none

/-- The settings that the top table of a document states. -/
def ofEntries (entries : Toml.Entries) : Option Settings := do
  let management ←
    valuesOf ["apply-maven-exclusions", "overridden-by-dependencies"] (entries.get? "management")
  let repository ← valuesOf ["local"] (entries.get? "repository")
  let properties ← texts (entries.get? "properties")
  match management, repository with
  | [apply, overridden], [directory] => do
      let apply ← flag default.applyMavenExclusions apply
      let overridden ← flag default.overriddenByDependencies overridden
      let directory ← text default.localRepository directory
      some ⟨apply, overridden, directory, properties⟩
  | _, _ => none

/-- The settings that a text states. -/
def parse (content : String) : Except Report Settings :=
  match (Toml.document content).bind ofEntries with
  | some settings => .ok settings
  | none => .error (.ofProblem (.settings ("Failed to parse " ++ fileName)))

/-- The settings in a file. -/
def read (files : Files) (path : String) : Except Report Settings :=
  match files path with
  | .ok content => parse content
  | .error .missing => .ok default
  | .error fault =>
      .error (.ofProblem (.settings ("Failed to read " ++ path ++ ": " ++ fault.message)))

/-- The settings of the project at a directory. -/
def load (files : Files) (directory : String) : Except Report Settings :=
  read files (Path.join directory fileName)

end Settings

end ManagedGraph
