import ManagedGraph.Pom.Model
import ManagedGraph.Report

/-!
# The POM service

A service builds effective POMs. The properties given with a call are the caller's; the
properties of a reference win over them, and both win over those a POM declares.
-/

namespace ManagedGraph

/-- What resolves references to effective POMs. -/
structure PomService where
  /-- All references in order, or the failure of one. -/
  strict : List PomReference → Properties → Except Report (List EffectivePom)
  /-- One slot for each reference in order, empty where it failed. -/
  lenient : List PomReference → Properties → List (Option EffectivePom)

namespace PomService

/-- The service that is lenient by resolving each reference on its own. -/
def ofStrict (strict : List PomReference → Properties → Except Report (List EffectivePom)) :
    PomService where
  strict := strict
  lenient references properties := references.map fun reference =>
    match strict [reference] properties with
    | .ok poms => poms.getLast?
    | .error _ => none

/-- The service that answers each reference on its own, in order, up to the first
failure. -/
def ofEach (resolve : PomReference → Properties → Except Report EffectivePom) : PomService :=
  ofStrict fun references properties => references.mapM fun reference =>
    resolve reference properties

end PomService

end ManagedGraph
