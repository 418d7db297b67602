import ManagedGraph.Proofs.Scope.Descriptor
import ManagedGraph.Proofs.Scopes.Blank
import ManagedGraph.Proofs.Session.Passes

/-!
# Sessions whose scopes match

Two sessions that differ only in scopes in which nothing was declared match. All that is done in
a session is in step along them, but for declarations that are taken in one of them alone. A
descriptor call does no more than create its scope (`state_descriptor`), so it leads to a session
that matches (`Matches.descriptor_left`).
-/

namespace ManagedGraph

namespace Scopes

variable {c : Scopes} {scope : Option String} {own : Scope}

/-- A scope put in place of itself. -/
theorem set_of_get? (h : c.get? scope = some own) : c.set scope own = c := by
  obtain ⟨global, named, properties⟩ := c
  cases scope with
  | none =>
      obtain rfl : global = own := Option.some.inj h
      rfl
  | some name =>
      have hnamed : named.insert name own = named := by
        apply Std.ExtTreeMap.ext_getElem?
        intro other
        rw [Std.ExtTreeMap.getElem?_insert]
        split
        · rename_i heq
          obtain rfl : name = other := by simpa using heq
          exact h.symm
        · rfl
      simp [set, hnamed]

/-- Only a scope that does not exist is created. -/
theorem touch_of_get? (h : c.get? scope = some own) : c.touch scope = c := by
  unfold touch change
  rw [h]
  exact set_of_get? h

theorem get?_touch (c : Scopes) (scope : Option String) :
    (c.touch scope).get? scope = some ((c.get? scope).getD .new) := by
  rw [touch, get?_change, if_pos rfl]

/-- A scope that does not exist declares what the new one does. -/
theorem getD_get?_touch (c : Scopes) (scope other : Option String) :
    ((c.touch scope).get? other).getD .new = (c.get? other).getD .new := by
  rw [touch, get?_change]
  split
  · rename_i heq
    rw [heq, Option.getD_some]
  · rfl

end Scopes

namespace Session

variable {poms : PomService} {resolver : GraphResolver} {c : Configuration} {s t : Session}
variable {α : Type}

/-- The sessions are the same, but for scopes in which nothing was declared. -/
structure Matches (s t : Session) : Prop where
  settings : t.settings = s.settings
  localModules : t.localModules = s.localModules
  catalog : t.catalog = s.catalog
  scopes : s.scopes.Matches t.scopes

theorem Matches.refl (s : Session) : s.Matches s :=
  ⟨rfl, rfl, rfl, .refl s.scopes⟩

/-! ## Parts of a session -/

theorem inStep_onScopes {op : Operation PomCall Scopes α} (h : op.InStep Scopes.Matches) :
    (onScopes op).InStep Matches := by
  apply Operation.simulates_within _ _ (Operation.simulates_logging _ h)
  · intro s t hst
    exact hst.scopes
  · intro s t scopes scopes' hst hscopes
    exact ⟨hst.settings, hst.localModules, hst.catalog, hscopes⟩

theorem inStep_onCatalog (op : Operation PomCall Catalog α) : (onCatalog op).InStep Matches := by
  have hop : op.InStep Eq := Operation.inStep_of (fun _ _ h => h ▸ rfl) fun _ _ h => h ▸ rfl
  apply Operation.simulates_within _ _ (Operation.simulates_logging _ hop)
  · intro s t hst
    exact hst.catalog.symm
  · intro s t catalog catalog' hst hcatalog
    exact ⟨hst.settings, hst.localModules, hcatalog.symm, hst.scopes⟩

/-! ## Resolving a configuration -/

theorem inStep_run (poms : PomService) (resolver : GraphResolver) (c : Configuration) :
    (run poms resolver c).InStep Matches := by
  apply (Operation.inStep_consult _ _).bind
  intro _
  apply Operation.InStep.bind
  · exact Operation.inStep_read fun s t hst => hst.localModules.symm
  · intro localModules
    apply Operation.inStep_hold
    intro request
    exact inStep_onScopes (Scopes.inStep_intercept _ request)

theorem inStep_pomExclusions (poms : PomService) (graph : ResolvedGraph) :
    (pomExclusions poms graph).InStep Matches := by
  apply Operation.InStep.bind
  · exact Operation.inStep_read fun s t hst => hst.settings.symm
  · intro settings
    split
    · exact inStep_onCatalog _
    · exact Operation.inStep_pure _

theorem inStep_rulesOf (poms : PomService) (c : Configuration) (graph : ResolvedGraph) :
    (rulesOf poms c graph).InStep Matches := by
  apply (inStep_onScopes (Scopes.inStep_exclusions (some c) poms)).bind
  intro declared
  apply (inStep_pomExclusions poms graph).bind
  intro fromPoms
  exact Operation.inStep_pure _

theorem inStep_firstPass (poms : PomService) (resolver : GraphResolver) (c : Configuration) :
    (firstPass poms resolver c).InStep Matches := by
  apply (inStep_run poms resolver c.withoutExcludeRules).bind
  intro graph
  exact inStep_rulesOf poms c graph

theorem inStep_secondPass (poms : PomService) (resolver : GraphResolver) (c : Configuration)
    (rules : List ModuleId) : (secondPass poms resolver c rules).InStep Matches := by
  apply (inStep_run poms resolver (c.withExcludeRules rules)).bind
  intro graph
  exact Operation.inStep_pure _

theorem inStep_managedVersions (poms : PomService) (c : Configuration) :
    (managedVersions poms c).InStep Matches :=
  inStep_onScopes (Scopes.inStep_hierarchyVersions c poms)

/-! ## Descriptors -/

/-- The descriptor of a scope that does not exist is that of a new one. -/
theorem answer_descriptor (poms : PomService) (scope : Option String) (s : Session) :
    (descriptor poms scope s).answer =
      (Scope.descriptor poms s.scopes.properties ((s.scopes.get? scope).getD .new)).answer := by
  have hanswer : (descriptor poms scope s).answer =
      (Scope.descriptor poms (s.scopes.touch scope).properties
        (((s.scopes.touch scope).get? scope).getD .new)).answer := rfl
  have hproperties : (s.scopes.touch scope).properties = s.scopes.properties :=
    Scopes.properties_change _ _ _
  rw [hanswer, hproperties, Scopes.get?_touch, Option.getD_some]

/-- A descriptor call creates its scope if it does not exist, and does nothing else. -/
theorem state_descriptor (poms : PomService) (scope : Option String) (s : Session) :
    (descriptor poms scope s).state = { s with scopes := s.scopes.touch scope } := by
  let touched := s.scopes.touch scope
  have hstate : (descriptor poms scope s).state = { s with
      scopes := touched.set scope (Scope.descriptor poms touched.properties
        ((touched.get? scope).getD .new)).state } := rfl
  have hget : touched.get? scope = some ((s.scopes.get? scope).getD .new) := Scopes.get?_touch _ _
  rw [hstate, Scope.state_descriptor, hget, Option.getD_some, Scopes.set_of_get? hget]

theorem Matches.descriptor_left (h : s.Matches t) (poms : PomService) (scope : Option String) :
    (descriptor poms scope s).state.Matches t := by
  rw [state_descriptor]
  exact ⟨h.settings, h.localModules, h.catalog, h.scopes.touch_left scope⟩

theorem inStep_descriptor (poms : PomService) (scope : Option String) :
    (descriptor poms scope).InStep Matches := by
  apply Operation.inStep_of
  · intro s t hst
    rw [answer_descriptor, answer_descriptor, hst.scopes.properties,
      Scope.answer_descriptor_of_declaresAlike (hst.scopes.declaresAlike scope)]
  · intro s t hst
    rw [state_descriptor, state_descriptor]
    exact ⟨hst.settings, hst.localModules, hst.catalog, hst.scopes.touch scope⟩

end Session

end ManagedGraph
