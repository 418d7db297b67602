import ManagedGraph.Proofs.Scopes.Declaring
import ManagedGraph.Session

/-!
# Sessions whose scopes settle

A run of a graph resolver asks the scopes for versions and does nothing else to a session, so
it observes `Settling` (`observes_run`). Preparing a session for a configuration declares its
direct versions in its own scope, which keeps apart what was settled elsewhere
(`Settling.prepare`).
-/

namespace ManagedGraph

/-- What a direct dependency declares in the scope of its configuration. -/
def Selector.declaration? : Selector → Option Declaration
  | .module ⟨id, some version⟩ => some (.implicit id version)
  | _ => none

/-- The versions that a configuration declares on its dependencies. -/
def Configuration.declarations (c : Configuration) : List Declaration :=
  c.dependencies.filterMap Selector.declaration?

namespace Session

variable {poms : PomService} {resolver : GraphResolver} {c : Configuration} {s t : Session}
variable {queried watched : Set (Option String)} {α : Type}

/-! ## Settling -/

/-- The settings and the modules of the build are the same, and the scopes have settled. -/
structure Settling (poms : PomService) (queried watched : Set (Option String))
    (s t : Session) : Prop where
  settings : t.settings = s.settings
  localModules : t.localModules = s.localModules
  scopes : Scopes.Settling poms queried watched s.scopes t.scopes

namespace Settling

instance isPreorder : IsPreorder Session (Settling poms queried watched) where
  refl s := ⟨rfl, rfl, .refl s.scopes⟩
  trans _ _ _ h h' := ⟨h'.settings.trans h.settings, h'.localModules.trans h.localModules,
    h.scopes.trans h'.scopes⟩

theorem mono {queried' watched' : Set (Option String)} (h : Settling poms queried watched s t)
    (hqueried : queried ⊆ queried') (hwatched : watched' ⊆ watched) :
    Settling poms queried' watched' s t :=
  ⟨h.settings, h.localModules, h.scopes.mono hqueried hwatched⟩

end Settling

theorem observes_onScopes {op : Operation PomCall Scopes α}
    (h : op.Observes (Scopes.Settling poms queried watched)) :
    (onScopes op).Observes (Settling poms queried watched) := by
  apply Operation.observes_within _ _ (Operation.observes_logging _ h)
  · intro s scopes hscopes
    exact ⟨rfl, rfl, hscopes⟩
  · intro s t hst
    exact hst.scopes

theorem observes_run (hview : c.view ⊆ queried ∩ watched) :
    (run poms resolver c).Observes (Settling poms queried watched) := by
  apply (Operation.observes_consult _ _).bind
  intro _
  apply (Operation.observes_read fun s t hst => Settling.localModules hst).bind
  intro localModules
  apply Operation.observes_hold
  intro request
  exact observes_onScopes (Scopes.observes_intercept hview request)

/-! ## Preparing -/

theorem recordDirectVersions_eq (c : Configuration) (scopes : Scopes) :
    recordDirectVersions c scopes =
      scopes.declareAll (c.declarations.map fun d => (some c.name, d)) := by
  unfold recordDirectVersions Configuration.declarations Scopes.declareAll
  rw [List.foldl_map, List.foldl_filterMap]
  congr 1
  funext scopes dependency
  rcases dependency with ⟨id, _ | version⟩ | path <;> rfl

/-- If the settings say so, the versions of direct dependencies are declared in the scope of the
configuration. -/
theorem get?_prepare (hon : s.settings.overriddenByDependencies = true)
    (hsome : c.declarations ≠ []) :
    (prepare c s).scopes.get? (some c.name) =
      some (((s.scopes.get? (some c.name)).getD .new).declareAll c.declarations) := by
  have hown : Scopes.declaredIn (some c.name) (c.declarations.map fun d => (some c.name, d)) =
      c.declarations := by
    simp [Scopes.declaredIn, List.filter_map, Function.comp_def]
  unfold prepare
  rw [if_pos hon, recordDirectVersions_eq, Scopes.get?_declareAll, hown, if_neg hsome]

/-- Preparing changes nothing but the scope of the configuration itself. -/
theorem settling_prepare (h : some c.name ∉ watched) :
    Settling poms queried watched s (prepare c s) := by
  unfold prepare
  split
  · refine ⟨rfl, rfl, ?_⟩
    rw [recordDirectVersions_eq]
    apply Scopes.settling_declareAll
    intro entry hentry
    rcases List.mem_map.1 hentry with ⟨d, -, rfl⟩
    exact h
  · exact refl_of _ s

/-- What was settled apart from the scope of a configuration is so after preparing it. -/
theorem Settling.prepare (h : Settling poms queried watched s t) (hown : some c.name ∉ queried) :
    Settling poms queried watched (prepare c s) (prepare c t) := by
  unfold Session.prepare
  rw [h.settings]
  split
  · refine ⟨rfl, h.localModules, ?_⟩
    rw [recordDirectVersions_eq, recordDirectVersions_eq]
    apply h.scopes.declareAll
    intro entry hentry
    rcases List.mem_map.1 hentry with ⟨d, -, rfl⟩
    exact hown
  · exact h

end Session

end ManagedGraph
