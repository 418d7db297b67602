import ManagedGraph.Path
import ManagedGraph.Pom.Inheritance
import ManagedGraph.Pom.Interpolation
import ManagedGraph.Pom.Reading
import ManagedGraph.Pom.Service

/-!
# A local repository

POMs are files under a root, at a path made of group, artifact and version. An effective
POM is built by merging the chain of parents, interpolating, and expanding BOM imports.
Parents and imports share one limit on how deep they go, which ends every cycle.
-/

namespace ManagedGraph

namespace Pom

/-- An exclusion as a pattern; without artifact it matches the whole group. -/
def DeclaredExclusion.pattern (e : DeclaredExclusion) : Exclusion :=
  .pattern e.group (e.artifact.getD Exclusion.wildcard)

/-- A declaration as a dependency of the effective POM. -/
def Declaration.dependency (d : Declaration) : Dependency where
  coordinates := d.coordinates
  type := d.type
  classifier := d.classifier
  scope := d.scope
  optional := d.optional
  exclusions := d.exclusions.map DeclaredExclusion.pattern

end Pom

/-- A directory of POM files. -/
structure Repository where
  root : String
  files : Files

namespace Repository

/-- A group as steps of a path. -/
def groupPath (group : String) : String :=
  String.ofList (group.toList.map fun c => if c = '.' then '/' else c)

/-- Where the POM of a module version is. -/
def pomPath (root : String) (m : ModuleVersion) : String :=
  Path.join (Path.join (Path.join (Path.join root (groupPath m.id.group)) m.id.artifact)
    m.version) (m.id.artifact ++ "-" ++ m.version ++ ".pom")

/-- The content of one POM file. -/
def read (r : Repository) (m : ModuleVersion) : Except Pom.Fault Pom.Document :=
  match r.files (pomPath r.root m) with
  | .ok xml => Pom.Document.parse xml
  | .error fault => .error (.unreadable m (pomPath r.root m) fault)

/-- A document with its parents merged; the first argument is how many documents the chain
may have. -/
def load (r : Repository) : Nat → ModuleVersion → Except Pom.Fault Pom.Document
  | 0, m => .error (.tooDeep m)
  | depth + 1, m => do
      let document ← r.read m
      match document.parent with
      | none => pure document
      | some p => do
          let parent ← r.load depth ⟨⟨p.group, p.artifact⟩, p.version⟩
          pure (document.inherit parent)

/-- A document with its parents merged and its declarations interpolated, under property
values that win over all others. -/
def effective (r : Repository) (overrides : Properties) (depth : Nat) (m : ModuleVersion) :
    Except Pom.Fault Pom.Document := do
  let merged ← r.load depth m
  pure (merged.override overrides).resolveProperties

/-- A direct dependency with the version that management gives it if it has none. -/
def withManagedVersion (managed : List Dependency) (d : Dependency) : Dependency :=
  match d.coordinates.version with
  | some _ => d
  | none =>
      let version := (managed.find? fun m => m.key = d.key).bind (·.coordinates.version)
      { d with coordinates := ⟨d.id, version⟩ }

/-- The effective POM of a document whose imports contribute the given dependencies. -/
def assemble (m : ModuleVersion) (document : Pom.Document) (imported : List Dependency) :
    EffectivePom :=
  let own := (document.management.filter fun d => !d.isBomImport).map Pom.Declaration.dependency
  let managed := appendNew Dependency.key own imported
  { coordinates :=
      ⟨⟨document.effectiveGroup.getD m.id.group, document.artifact.getD m.id.artifact⟩,
        some (document.effectiveVersion.getD m.version)⟩
    managed := managed
    dependencies := document.dependencies.map fun d => withManagedVersion managed d.dependency
    properties := document.properties }

/-- The effective POM of some coordinates under property values that win over all others;
the first argument is how many documents a chain of parents and imports may have. -/
def build (r : Repository) (overrides : Properties) :
    Nat → Coordinates → Except Pom.Fault EffectivePom
  | 0, c =>
      match c.version with
      | none => .error (.noVersion c)
      | some version => .error (.tooDeep ⟨c.id, version⟩)
  | depth + 1, c =>
      match c.version with
      | none => .error (.noVersion c)
      | some version => do
          let document ← r.effective overrides (depth + 1) ⟨c.id, version⟩
          let boms ← (document.management.filter Pom.Declaration.isBomImport).mapM fun d =>
            -- an import is one document further down, under the same property values
            r.build overrides depth d.coordinates
          pure (assemble ⟨c.id, version⟩ document (boms.flatMap EffectivePom.managed))

/-- The effective POM of a reference for a caller with some properties. -/
def resolve (r : Repository) (reference : PomReference) (properties : Properties) :
    Except Pom.Fault EffectivePom :=
  r.build (properties ∪ reference.properties) (Pom.chainLimit + 1) reference.coordinates

/-- A repository as a service. -/
def service (r : Repository) : PomService :=
  .ofEach fun reference properties =>
    (r.resolve reference properties).mapError Pom.Fault.report

end Repository

end ManagedGraph
