import ManagedGraph.Exclusion

/-!
# Effective POMs

An effective POM has its parents merged, its properties interpolated and its BOM imports
expanded. A service resolves references to effective POMs, either all of them or each as
far as possible.
-/

namespace ManagedGraph

/-- A dependency of an effective POM, managed or direct. -/
structure Dependency where
  coordinates : Coordinates
  type : Option String
  classifier : Option String
  scope : Option String
  optional : Bool
  exclusions : List Exclusion
deriving DecidableEq, Repr

namespace Dependency

/-- The module depended on. -/
def id (d : Dependency) : ModuleId :=
  d.coordinates.id

/-- What the management of a POM compares: module and classifier. -/
def key (d : Dependency) : ModuleId × Option String :=
  (d.id, d.classifier)

/-- Whether a dependency is followed by those who depend on the POM: it is not optional
and its scope is neither `provided` nor `test`. -/
def isTransitive (d : Dependency) : Bool :=
  !d.optional && d.scope != some "provided" && d.scope != some "test"

end Dependency

/-- An effective POM. -/
structure EffectivePom where
  coordinates : Coordinates
  managed : List Dependency
  dependencies : List Dependency
  properties : Properties
deriving DecidableEq

/-- A POM to resolve, with property values that apply only while it is resolved. -/
structure PomReference where
  coordinates : Coordinates
  properties : Properties
deriving DecidableEq

namespace PomReference

/-- A reference without property values of its own. -/
def plain (coordinates : Coordinates) : PomReference :=
  ⟨coordinates, ∅⟩

end PomReference

end ManagedGraph
