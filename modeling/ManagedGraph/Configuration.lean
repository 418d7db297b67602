import ManagedGraph.Coordinates
import ManagedGraph.Merge

/-!
# Configurations

A configuration is a resolvable scope of a build: the dependencies declared on it, the
configurations it extends, its constraints and its flat exclude rules.
-/

namespace ManagedGraph

/-- What a dependency asks for. -/
inductive Selector where
  /-- An external module; the version may be absent or dynamic. -/
  | module (coordinates : Coordinates)
  /-- Another module of the same build, by build path. -/
  | project (path : String)
deriving DecidableEq, Repr

namespace Selector

/-- The module an external selector asks for. -/
def moduleId? : Selector → Option ModuleId
  | module c => some c.id
  | project _ => none

/-- The written form. -/
def display : Selector → String
  | module c => c.display
  | project path => "project " ++ path

end Selector

/-- A set of modules. -/
abbrev ModuleSet := Std.ExtTreeSet ModuleId

/-- A resolvable scope of a build, such as `compileClasspath`. -/
structure Configuration where
  name : String
  /-- The configurations this one extends, nearest first. -/
  extendsFrom : List String
  dependencies : List Selector
  /-- Version constraints that take part in resolution without adding edges. -/
  constraints : List Coordinates
  /-- The modules removed everywhere from the graph of this configuration. -/
  excludeRules : List ModuleId
deriving DecidableEq, Repr

namespace Configuration

/-- A configuration with nothing declared on it. -/
def named (name : String) : Configuration :=
  ⟨name, [], [], [], []⟩

/-- The name of a configuration and of those it extends, most specific first. -/
def hierarchy (c : Configuration) : List String :=
  c.name :: c.extendsFrom

/-- The external modules declared directly on a configuration. -/
def directIds (c : Configuration) : ModuleSet :=
  Std.ExtTreeSet.ofList (c.dependencies.filterMap Selector.moduleId?)

/-- Whether an exclude rule removes a module. -/
def excludes (c : Configuration) (id : ModuleId) : Bool :=
  c.excludeRules.contains id

/-- The same configuration without exclude rules, for discovering the complete graph. -/
def withoutExcludeRules (c : Configuration) : Configuration :=
  { c with excludeRules := [] }

/-- The same configuration with further exclude rules after its own. -/
def withExcludeRules (c : Configuration) (more : List ModuleId) : Configuration :=
  { c with excludeRules := appendNew (fun rule => rule) c.excludeRules more }

end Configuration

end ManagedGraph
