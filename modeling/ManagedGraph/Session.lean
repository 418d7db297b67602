import ManagedGraph.Catalog
import ManagedGraph.Dialogue
import ManagedGraph.Graph.Walk
import ManagedGraph.Scope.Descriptor
import ManagedGraph.Settings

/-!
# Build sessions

A session holds what all resolutions of a build share: its settings, its scopes and its
exclusion catalog. To resolve a configuration, a trial without exclude rules discovers the
whole graph; the exclusions that apply to it become exclude rules; and the configuration is
resolved again with those.
-/

namespace ManagedGraph

/-- What the resolutions of a build share. -/
structure Session where
  settings : Settings
  scopes : Scopes
  catalog : Catalog
  /-- The modules of the current build. -/
  localModules : ModuleSet

/-- The outcome of resolving a configuration. -/
structure Resolution where
  graph : ResolvedGraph
  /-- The exclude rules added to those of the configuration. -/
  excludeRules : List ModuleId
deriving DecidableEq

namespace Session

variable {α : Type}

/-- A session before anything is declared. -/
def new (settings : Settings) (localModules : ModuleSet) : Session :=
  ⟨settings, .new settings.properties, .empty, localModules⟩

/-! ## Parts of a session -/

/-- An operation on the scopes of a session. -/
def onScopes (op : Operation PomCall Scopes α) : Operation BuildEvent Session α :=
  (op.logging .call).within Session.scopes fun s scopes => { s with scopes := scopes }

/-- An operation on the catalog of a session. -/
def onCatalog (op : Operation PomCall Catalog α) : Operation BuildEvent Session α :=
  (op.logging .call).within Session.catalog fun s catalog => { s with catalog := catalog }

/-- Runs a graph resolver on a configuration, with managed versions forced onto its
requests. -/
def run (poms : PomService) (resolver : GraphResolver) (configuration : Configuration) :
    Operation BuildEvent Session ResolvedGraph := do
  Operation.consult (.run configuration) (.ok ())
  let localModules ← Operation.read Session.localModules
  let selector : VersionSelector := ⟨poms, configuration, localModules⟩
  (resolver configuration).hold BuildEvent.request fun request =>
    onScopes (selector.intercept request)

/-! ## Resolving a configuration -/

/-- Records the versions of direct dependencies in the scope of their configuration. -/
def recordDirectVersions (configuration : Configuration) (scopes : Scopes) : Scopes :=
  configuration.dependencies.foldl (fun scopes dependency =>
    match dependency with
    | .module ⟨id, some version⟩ => scopes.addImplicit (some configuration.name) id version
    | _ => scopes) scopes

/-- The session in which a configuration is resolved: the versions of its direct dependencies
are recorded if the settings say so. -/
def prepare (configuration : Configuration) (s : Session) : Session :=
  if s.settings.overriddenByDependencies then
    { s with scopes := recordDirectVersions configuration s.scopes }
  else s

/-- The complete graph of a configuration. No exclude rule applies to it. -/
def trial (poms : PomService) (resolver : GraphResolver) (configuration : Configuration) :
    Operation BuildEvent Session ResolvedGraph := do
  Operation.update (prepare configuration)
  run poms resolver configuration.withoutExcludeRules

/-- The exclusions that the POMs of a graph declare, if the settings let them count. -/
def pomExclusions (poms : PomService) (graph : ResolvedGraph) :
    Operation BuildEvent Session Exclusions := do
  let settings ← Operation.read Session.settings
  if settings.applyMavenExclusions then onCatalog (Catalog.resolve poms graph.externalModules)
  else pure ∅

/-- The exclude rules with the effect of the exclusions that apply to a configuration, given
its complete graph. -/
def rulesOf (poms : PomService) (configuration : Configuration) (graph : ResolvedGraph) :
    Operation BuildEvent Session (List ModuleId) := do
  let declared ← onScopes (Scopes.exclusions (some configuration) poms)
  let fromPoms ← pomExclusions poms graph
  pure (Walk.outcome graph ⟨declared, fromPoms⟩).rules

/-- The exclude rules that a configuration gets from its complete graph. -/
def computeRules (poms : PomService) (resolver : GraphResolver) (configuration : Configuration) :
    Operation BuildEvent Session (List ModuleId) := do
  let graph ← trial poms resolver configuration
  rulesOf poms configuration graph

/-- Resolves a configuration. -/
def resolve (poms : PomService) (resolver : GraphResolver) (configuration : Configuration) :
    Operation BuildEvent Session Resolution := do
  let rules ← computeRules poms resolver configuration
  let graph ← run poms resolver (configuration.withExcludeRules rules)
  pure ⟨graph, rules⟩

/-- The managed versions in effect for a configuration. -/
def managedVersions (poms : PomService) (configuration : Configuration) :
    Operation BuildEvent Session VersionTable :=
  onScopes (Scopes.hierarchyVersions configuration poms)

/-- The descriptor of a scope, which is created if there is none of that name. -/
def descriptor (poms : PomService) (scope : Option String) :
    Operation BuildEvent Session Descriptor := do
  Operation.update fun s => { s with scopes := s.scopes.touch scope }
  let properties ← Operation.read fun s => s.scopes.properties
  onScopes ((Scope.descriptor poms properties).within
    (fun scopes => (scopes.get? scope).getD .new) fun scopes s => scopes.set scope s)

end Session

end ManagedGraph
