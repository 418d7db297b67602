import ManagedGraph.Coordinates
import ManagedGraph.Files
import ManagedGraph.Report
import ManagedGraph.Xml.Entity
import ManagedGraph.Xml.Item

/-!
# Faults of POMs

Why a POM cannot be read or built into an effective model.
-/

namespace ManagedGraph.Pom

/-- The longest chain of parents and imports that is followed. -/
def chainLimit : Nat := 16

/-- Why there is no POM. -/
inductive Fault where
  /-- A text in the file cannot be decoded. -/
  | invalidText (fault : Xml.EntityFault)
  /-- The file is not XML. -/
  | invalidMarkup (fault : Xml.Fault)
  /-- The file of a module version cannot be read. -/
  | unreadable (module : ModuleVersion) (path : String) (fault : ReadFault)
  /-- A reference has no version. -/
  | noVersion (coordinates : Coordinates)
  /-- A chain of parents and imports is longer than the limit. -/
  | tooDeep (module : ModuleVersion)
deriving DecidableEq, Repr

namespace Fault

/-- The text of a fault. -/
def message : Fault → String
  | invalidText fault => "Invalid text in POM XML: " ++ fault.message
  | invalidMarkup fault => "Failed to parse POM XML: " ++ fault.message
  | unreadable m path fault =>
      "Cannot read POM for " ++ m.display ++ " at " ++ path ++ ": " ++ fault.message
  | noVersion c => "Cannot resolve POM for " ++ c.display ++ ": no version"
  | tooDeep m =>
      "Parent or import chain of " ++ m.display ++ " is deeper than " ++ toString chainLimit ++
        "; is it cyclic?"

/-- A fault as a report. -/
def report (fault : Fault) : Report :=
  .ofProblem (.pom fault.message)

end Fault

end ManagedGraph.Pom
