import ManagedGraph.Coordinates

/-!
# POM documents

The content of one POM file, before inheritance and interpolation.
-/

namespace ManagedGraph.Pom

/-- A reference to a parent POM. -/
structure ParentReference where
  group : String
  artifact : String
  version : String
deriving DecidableEq, Repr

/-- An exclusion within a declaration; without artifact it excludes the whole group. -/
structure DeclaredExclusion where
  group : String
  artifact : Option String
deriving DecidableEq, Repr

/-- A dependency declared in a POM, managed or direct. -/
structure Declaration where
  group : String
  artifact : String
  version : Option String
  scope : Option String
  optional : Bool
  classifier : Option String
  type : Option String
  exclusions : List DeclaredExclusion
deriving DecidableEq, Repr

namespace Declaration

/-- A declaration of nothing yet. -/
def blank : Declaration :=
  ⟨"", "", none, none, false, none, none, []⟩

/-- Whether a managed declaration imports a BOM: scope `import` with type `pom`. -/
def isBomImport (d : Declaration) : Bool :=
  d.scope == some "import" && d.type == some "pom"

/-- The module declared. -/
def id (d : Declaration) : ModuleId :=
  ⟨d.group, d.artifact⟩

/-- The module and version declared. -/
def coordinates (d : Declaration) : Coordinates :=
  ⟨d.id, d.version⟩

/-- What inheritance compares: group, artifact and classifier, as written. -/
def key (d : Declaration) : ModuleId × Option String :=
  (d.id, d.classifier)

end Declaration

/-- The content of a POM file. -/
structure Document where
  group : Option String
  artifact : Option String
  version : Option String
  packaging : Option String
  parent : Option ParentReference
  properties : Properties
  dependencies : List Declaration
  /-- The declarations of dependency management, BOM imports included. -/
  management : List Declaration
deriving DecidableEq

namespace Document

/-- The content of a file that states nothing. -/
def blank : Document :=
  ⟨none, none, none, none, none, ∅, [], []⟩

/-- The group, which the parent reference gives if the document does not. -/
def effectiveGroup (d : Document) : Option String :=
  d.group.or (d.parent.map ParentReference.group)

/-- The version, which the parent reference gives if the document does not. -/
def effectiveVersion (d : Document) : Option String :=
  d.version.or (d.parent.map ParentReference.version)

end Document

end ManagedGraph.Pom
