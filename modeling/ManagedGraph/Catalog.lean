import ManagedGraph.Exclusion.Table
import ManagedGraph.Merge
import ManagedGraph.Operation
import ManagedGraph.Pom.Service
import ManagedGraph.Scope

/-!
# The exclusion catalog

The exclusions that the POMs of modules attach to their own dependencies, remembered per
module. What was found for one version of a module is used for all its versions; a module
whose POM was not found is looked up again.
-/

namespace ManagedGraph

/-- The exclusions found so far. -/
structure Catalog where
  cache : Std.ExtTreeMap ModuleId Exclusions

namespace Catalog

/-- Nothing found yet. -/
def empty : Catalog := ⟨∅⟩

/-- What was found for a module. -/
def get? (c : Catalog) (id : ModuleId) : Option Exclusions :=
  c.cache[id]?

/-- The number of modules with an entry. -/
def size (c : Catalog) : Nat :=
  c.cache.size

/-- Whether no module has an entry. -/
def isEmpty (c : Catalog) : Bool :=
  c.cache.isEmpty

/-- The exclusions of the transitive dependencies of a POM, managed and direct. -/
def exclusionsOf (pom : EffectivePom) : Exclusions :=
  ((pom.managed ++ pom.dependencies).filter Dependency.isTransitive).foldl
    (fun table d => table.add d.id d.exclusions) ∅

/-- The first of the versions listed for each module, in order. -/
def firstVersions (modules : List ModuleVersion) : List ModuleVersion :=
  appendNew ModuleVersion.id [] modules

/-- The modules of a list to look up, each at its first version. -/
def missing (c : Catalog) (modules : List ModuleVersion) : List ModuleVersion :=
  (firstVersions modules).filter fun m => (c.get? m.id).isNone

/-- Remembers what was found for modules, slot by slot. -/
def record (c : Catalog) (modules : List ModuleVersion) (found : List (Option EffectivePom)) :
    Catalog :=
  ⟨(modules.zip found).foldl (fun cache slot =>
    match slot.2 with
    | some pom => cache.insert slot.1.id (exclusionsOf pom)
    | none => cache) c.cache⟩

/-- All exclusions found for the modules of a list. -/
def merged (c : Catalog) (modules : List ModuleVersion) : Exclusions :=
  (firstVersions modules).foldl (fun table m =>
    match c.get? m.id with
    | some exclusions => table.merge exclusions
    | none => table) ∅

/-- The exclusions for some modules; those not known are looked up in one call. -/
def resolve (poms : PomService) (modules : List ModuleVersion) :
    Operation PomCall Catalog Exclusions := fun c =>
  let missing := c.missing modules
  if missing.isEmpty then ⟨.ok (c.merged modules), c, []⟩
  else
    -- the slots come back in the order of the modules asked for
    let references := missing.map fun m => PomReference.plain m.coordinates
    let c := c.record missing (poms.lenient references ∅)
    ⟨.ok (c.merged modules), c, [.lenient references ∅]⟩

end Catalog

end ManagedGraph
