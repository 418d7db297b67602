import ManagedGraph.Text.Search
import Std.Data.ExtTreeMap
import Std.Data.ExtTreeSet

/-!
# Modules and their coordinates

A module is named by a group and an artifact; coordinates add a version, which is absent
when it is expected to be managed. Identifiers are ordered by group, then by artifact, so
that maps over them list their entries in that order.
-/

namespace ManagedGraph

/-- The name `group:artifact` of a module, without version. -/
structure ModuleId where
  group : String
  artifact : String
deriving DecidableEq, Repr

namespace ModuleId

/-- Identifiers are ordered by group, and within a group by artifact. -/
instance : Ord ModuleId where
  compare := compareLex (compareOn group) (compareOn artifact)

theorem compare_def (a b : ModuleId) :
    compare a b = (compare a.group b.group).then (compare a.artifact b.artifact) := rfl

instance : Std.TransOrd ModuleId :=
  inferInstanceAs (Std.TransCmp (compareLex (compareOn group) (compareOn artifact)))

instance : Std.LawfulEqOrd ModuleId where
  compare_self := by simp
  eq_of_compare := by
    rintro ⟨g, a⟩ ⟨g', a'⟩ h
    simpa [compare_def, Ordering.then_eq_eq] using h

/-- The written form `group:artifact`. -/
def display (id : ModuleId) : String :=
  id.group ++ ":" ++ id.artifact

/-- Reads `group:artifact`, which is divided at its first colon. Both parts must be non-empty,
and the artifact has no colon of its own. -/
def parse? (s : String) : Option ModuleId :=
  match Text.breakOn [':'] s.toList with
  | some (group, artifact) =>
      if group.isEmpty || artifact.isEmpty || artifact.contains ':' then none
      else some ⟨String.ofList group, String.ofList artifact⟩
  | none => none

end ModuleId

/-- A module, with a version unless that is to be managed. -/
structure Coordinates where
  id : ModuleId
  version : Option String
deriving DecidableEq, Repr

namespace Coordinates

/-- The written form `group:artifact` or `group:artifact:version`. -/
def display (c : Coordinates) : String :=
  match c.version with
  | some version => c.id.display ++ ":" ++ version
  | none => c.id.display

/-- Reads `group:artifact` or `group:artifact:version`. All parts must be non-empty. -/
def parse? (s : String) : Option Coordinates :=
  match s.toList.splitOn ':' with
  | [group, artifact] =>
      if group.isEmpty || artifact.isEmpty then none
      else some ⟨⟨String.ofList group, String.ofList artifact⟩, none⟩
  | [group, artifact, version] =>
      if group.isEmpty || artifact.isEmpty || version.isEmpty then none
      else some ⟨⟨String.ofList group, String.ofList artifact⟩, some (String.ofList version)⟩
  | _ => none

end Coordinates

/-- A module at one version, as a graph resolver selects it. -/
structure ModuleVersion where
  id : ModuleId
  version : String
deriving DecidableEq, Repr

namespace ModuleVersion

/-- The coordinates that name this version. -/
def coordinates (m : ModuleVersion) : Coordinates :=
  ⟨m.id, some m.version⟩

/-- The written form `group:artifact:version`. -/
def display (m : ModuleVersion) : String :=
  m.id.display ++ ":" ++ m.version

end ModuleVersion

/-- Versions by module. -/
abbrev VersionTable := Std.ExtTreeMap ModuleId String

/-- Property values by name. -/
abbrev Properties := Std.ExtTreeMap String String

end ManagedGraph
