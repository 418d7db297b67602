import ManagedGraph.Scopes

/-!
# Requests

While a graph is being resolved, each edge is presented as a request before a version is
chosen for it. Managed versions are forced onto requests; a request for a project or for a
module of the build is left alone, and so is one for a directly declared module that asks
for a dynamic version. A selector decides many requests, one after another, and gathers the
direct dependencies of its configuration when they first matter.
-/

namespace ManagedGraph

/-- A request for one edge of a graph. -/
structure Request where
  requested : Selector
  /-- The version to choose whatever was requested. -/
  forced : Option String
deriving DecidableEq, Repr

namespace Request

/-- A request as an edge makes it. -/
def ofSelector (requested : Selector) : Request :=
  ⟨requested, none⟩

/-- The same request with a version forced onto it. -/
def force (request : Request) (version : String) : Request :=
  { request with forced := some version }

/-- The version to choose: the forced one, or else the requested one. -/
def target (request : Request) : Option String :=
  match request.forced, request.requested with
  | some version, _ => some version
  | none, .module c => c.version
  | none, .project _ => none

end Request

/-- What became of a request: how it is afterwards, and the failure if there was one. -/
structure Decision where
  request : Request
  failure : Option Report
deriving DecidableEq, Repr

/-- What an answer makes of a request. A failure leaves the request as it was. -/
def Request.decided (request : Request) : Except Report Request → Decision
  | .ok after => ⟨after, none⟩
  | .error report => ⟨request, some report⟩

/-- What forces managed versions onto the edges of one configuration. -/
structure VersionSelector where
  poms : PomService
  configuration : Configuration
  /-- The modules of the current build. -/
  localModules : ModuleSet

namespace VersionSelector

/-- Whether an edge keeps the version it asks for. -/
def leaves (v : VersionSelector) (c : Coordinates) : Bool :=
  v.localModules.contains c.id ||
    (c.version.any Version.isDynamic && v.configuration.directIds.contains c.id)

/-- Forces the managed version onto a request, if there is one. -/
def intercept (v : VersionSelector) (request : Request) : Operation PomCall Scopes Request :=
  match request.requested with
  | .project _ => pure request
  | .module c =>
      if v.leaves c then pure request
      else do
        match ← Scopes.managedVersion (some v.configuration) c.id v.poms with
        | some version => pure (request.force version)
        | none => pure request

end VersionSelector

/-! ## A selector at work -/

/-- What a selector works on: the scopes of the build, and the direct dependencies of its
configuration once they were gathered. -/
structure Selecting where
  scopes : Scopes
  directIds : Option ModuleSet

/-- A selector that has decided nothing yet. -/
def Selecting.start (scopes : Scopes) : Selecting :=
  ⟨scopes, none⟩

namespace VersionSelector

/-- Whether a module is declared directly on the configuration. -/
def isDirect (v : VersionSelector) (id : ModuleId) : Operation PomCall Selecting Bool := fun s =>
  let ids := s.directIds.getD v.configuration.directIds
  ⟨.ok (ids.contains id), { s with directIds := some ids }, []⟩

/-- Whether an edge keeps the version it asks for. The direct dependencies matter only to an
edge that asks for a dynamic version of a module from outside the build. -/
def keeps (v : VersionSelector) (c : Coordinates) : Operation PomCall Selecting Bool :=
  if v.localModules.contains c.id then pure true
  else if c.version.any Version.isDynamic then v.isDirect c.id
  else pure false

/-- Decides one of many requests. -/
def select (v : VersionSelector) (request : Request) : Operation PomCall Selecting Request :=
  match request.requested with
  | .project _ => pure request
  | .module c => do
      if ← v.keeps c then pure request
      else
        let version ← (Scopes.managedVersion (some v.configuration) c.id v.poms).within
          Selecting.scopes fun s scopes => { s with scopes := scopes }
        pure (version.elim request request.force)

/-- The selector after some requests. One that fails does not keep the next from being decided. -/
def after (v : VersionSelector) (s : Selecting) (requests : List Request) : Selecting :=
  requests.foldl (fun s request => (v.select request s).state) s

end VersionSelector

end ManagedGraph
