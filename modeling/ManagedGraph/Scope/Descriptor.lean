import ManagedGraph.Scope

/-!
# Descriptors

The management section that is written into the descriptor of a build. Consumers of a
descriptor let the first import win, so its imports are listed last one first.
-/

namespace ManagedGraph

/-- A managed dependency of a descriptor. -/
structure DescriptorEntry where
  coordinates : Coordinates
  /-- The written forms of its exclusions. -/
  exclusions : List String
deriving DecidableEq, Repr

/-- The management of one scope, ready to be written. -/
structure Descriptor where
  /-- The imported BOMs, last import first. -/
  imports : List Coordinates
  /-- The versions declared by the user, in order of modules. -/
  dependencies : List DescriptorEntry
  /-- The managed versions that must be written out since properties change them. -/
  overrides : List DescriptorEntry
deriving DecidableEq, Repr

namespace Scope

/-- The imports of the descriptor of a scope. -/
def descriptorImports (s : Scope) : List Coordinates :=
  (s.boms.map PomReference.coordinates).reverse

/-- The declared dependencies of the descriptor of a scope. -/
def descriptorDependencies (s : Scope) : List DescriptorEntry :=
  s.explicitVersions.toList.map fun entry =>
    ⟨⟨entry.1, some entry.2⟩,
      (s.explicitExclusions.patterns entry.1).toList.map Exclusion.display⟩

/-- The descriptor of a scope. The scope is only read. -/
def descriptor (poms : PomService) (properties : Properties) :
    Operation PomCall Scope Descriptor := do
  let overrides ← overridden poms properties
  let imports ← .read descriptorImports
  let dependencies ← .read descriptorDependencies
  pure
    { imports := imports
      dependencies := dependencies
      overrides := overrides.map fun d => ⟨d.coordinates, d.exclusions.map Exclusion.display⟩ }

end Scope

end ManagedGraph
