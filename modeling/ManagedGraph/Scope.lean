import ManagedGraph.Exclusion.Table
import ManagedGraph.Operation
import ManagedGraph.Pom.Service
import ManagedGraph.Version

/-!
# Scopes of dependency management

A scope manages versions. They are declared by the user, inferred from direct
dependencies, or imported from BOMs. BOMs are resolved once, at the first query, and what
was declared directly wins over what they contribute. From then on the scope is final: it
takes no more declarations, and a failure is reported again by every later query.
-/

namespace ManagedGraph

/-- A call to the POM service from outside it. -/
inductive PomCall where
  | strict (references : List PomReference) (properties : Properties)
  | lenient (references : List PomReference) (properties : Properties)
deriving DecidableEq

/-- How far a scope is. -/
inductive ScopeState where
  /-- It takes declarations. -/
  | unresolved
  /-- Its BOMs are being imported. A query meets this state only if it comes from within
  that import. -/
  | resolving
  /-- Its table is final. -/
  | resolved
  /-- Importing its BOMs failed for this root cause. -/
  | failed (cause : String)
deriving DecidableEq, Repr

/-- The managed versions, exclusions and BOM imports of one scope. -/
structure Scope where
  versions : VersionTable
  /-- The versions declared by the user. -/
  explicitVersions : VersionTable
  exclusions : Exclusions
  /-- The exclusions declared by the user. -/
  explicitExclusions : Exclusions
  /-- The imported BOMs in the order they were declared. -/
  boms : List PomReference
  /-- The properties of the imported BOMs. -/
  importedProperties : Properties
  state : ScopeState

namespace Scope

/-- A scope without declarations. -/
def new : Scope :=
  ⟨∅, ∅, ∅, ∅, [], ∅, .unresolved⟩

/-! ## Declarations -/

/-- Whether a scope still takes declarations. -/
def isOpen (s : Scope) : Bool :=
  s.state == .unresolved

/-- Records a version inferred from a direct dependency, if it is concrete. -/
def addImplicit (s : Scope) (id : ModuleId) (version : String) : Scope :=
  if s.isOpen && Version.isConcrete version then
    { s with versions := s.versions.insert id version }
  else s

/-- Records a version declared by the user, with exclusions that apply to the dependencies
of the module. -/
def addExplicit (s : Scope) (id : ModuleId) (version : String) (exclusions : List Exclusion) :
    Scope :=
  if s.isOpen then
    { s with
      versions := s.versions.insert id version
      explicitVersions := s.explicitVersions.insert id version
      exclusions := s.exclusions.add id exclusions
      explicitExclusions := s.explicitExclusions.add id exclusions }
  else s

/-- Appends a BOM to the imports. -/
def importBom (s : Scope) (reference : PomReference) : Scope :=
  if s.isOpen then { s with boms := s.boms ++ [reference] } else s

/-! ## Importing BOMs -/

/-- The version that a managed dependency of a BOM contributes: it has one if it has no
classifier and its version is concrete. -/
def contribution? (d : Dependency) : Option String :=
  match d.classifier, d.coordinates.version with
  | none, some version => if Version.isConcrete version then some version else none
  | _, _ => none

/-- Takes over what a managed dependency of a BOM contributes. -/
def contribute (s : Scope) (d : Dependency) : Scope :=
  match contribution? d with
  | some version =>
      { s with
        versions := s.versions.insert d.id version
        exclusions := s.exclusions.add d.id d.exclusions }
  | none => s

/-- Takes over what a BOM contributes. -/
def importPom (s : Scope) (pom : EffectivePom) : Scope :=
  pom.managed.foldl contribute
    { s with importedProperties := s.importedProperties ∪ pom.properties }

/-- Takes over what BOMs contribute, later ones winning over earlier ones and what was
declared over all of them. -/
def importPoms (s : Scope) (poms : List EffectivePom) : Scope :=
  let imported := poms.foldl importPom s
  -- what was declared goes on top, wherever the imports stand between declarations
  { imported with versions := imported.versions ∪ s.versions }

/-- The scope after an import that ended with BOMs or in a failure, whose root cause is kept. -/
def conclude (s : Scope) (found : Except Report (List EffectivePom)) : Scope :=
  match found with
  | .ok poms => { s.importPoms poms with state := .resolved }
  | .error report => { s with state := .failed report.rootCause }

/-- The report of a failure to import the BOMs of a scope. -/
def importFailure (s : Scope) (cause : String) : Report :=
  .ofProblem (.bomImport (", ".intercalate (s.boms.map fun b => b.coordinates.display)) cause)

/-- The report of a query that comes from within the import of the BOMs of its scope. -/
def reentry : Report :=
  .ofProblem (.resolution
    "dependency management was queried while its BOMs were being imported")

/-! ## Queries -/

/-- The scope after its BOMs were resolved, which happens at most once. -/
def settle (poms : PomService) (properties : Properties) (s : Scope) : Scope :=
  match s.state with
  | .unresolved =>
      if s.boms = [] then { s with state := .resolved }
      else
        { s with state := .resolving }.conclude (poms.strict s.boms properties)
  | _ => s

/-- The calls that settling a scope takes. -/
def callsToSettle (properties : Properties) (s : Scope) : List PomCall :=
  match s.state with
  | .unresolved => if s.boms = [] then [] else [.strict s.boms properties]
  | _ => []

/-- What a settled scope answers with: a value read from it, or its failure. -/
def verdict {α : Type} (read : Scope → α) (s : Scope) : Except Report α :=
  match s.state with
  | .failed cause => .error (s.importFailure cause)
  | .resolving => .error reentry
  | .unresolved | .resolved => .ok (read s)

/-- Settles the scope and reads from it. -/
def query {α : Type} (read : Scope → α) (poms : PomService) (properties : Properties) :
    Operation PomCall Scope α := fun s =>
  let settled := s.settle poms properties
  ⟨settled.verdict read, settled, s.callsToSettle properties⟩

/-- Resolves the imported BOMs if that has not been done. -/
def resolve (poms : PomService) (properties : Properties) : Operation PomCall Scope Unit :=
  query (fun _ => ()) poms properties

/-- The managed version of a module. -/
def managedVersion (id : ModuleId) (poms : PomService) (properties : Properties) :
    Operation PomCall Scope (Option String) :=
  query (fun s => s.versions[id]?) poms properties

/-! ## Dependencies that properties override -/

/-- The managed dependencies without classifier by module; later ones win. -/
def managedById (poms : List EffectivePom) : Std.ExtTreeMap ModuleId Dependency :=
  ((poms.flatMap EffectivePom.managed).filter fun d => d.classifier.isNone).foldl
    (fun table d => table.insert d.id d) ∅

/-- A strict call to the service. -/
def strictCall (poms : PomService) (references : List PomReference) (properties : Properties) :
    Operation PomCall Scope (List EffectivePom) :=
  .consult (.strict references properties) (poms.strict references properties)

/-- The managed dependencies whose version depends on properties: those that the BOMs,
resolved with properties, manage at another version than without any. -/
def overridden (poms : PomService) (properties : Properties) :
    Operation PomCall Scope (List Dependency) := do
  let boms ← .read Scope.boms
  if boms.isEmpty then
    pure []
  else
    let defaults ← strictCall poms (boms.map fun b => .plain b.coordinates) ∅
    let live ← strictCall poms boms properties
    let byDefault := managedById defaults
    pure ((managedById live).toList.filterMap fun entry =>
      match byDefault[entry.1]? with
      | some d =>
          if d.coordinates.version = entry.2.coordinates.version then none else some entry.2
      | none => some entry.2)

end Scope

end ManagedGraph
