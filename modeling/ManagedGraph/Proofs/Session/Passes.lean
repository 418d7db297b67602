import ManagedGraph.Proofs.Session.Settling

/-!
# The passes of a resolution

A resolution prepares the session and then passes through the graph twice. Whatever it asks
the scopes for observes `Settling`, so all its parts answer as they would in the prepared
session (`answer_resolve`), in both passes alike (`answer_of_mem_log_resolve`). It leaves the
scopes settled (`moves_resolve`) and the catalog extended by the modules of the complete graph
(`catalog_resolve`).
-/

namespace ManagedGraph.Session

variable {poms : PomService} {resolver : GraphResolver} {c : Configuration} {s t : Session}
variable {queried watched : Set (Option String)} {α : Type}

/-! ## The catalog -/

@[simp] theorem catalog_prepare : (prepare c s).catalog = s.catalog := by
  unfold prepare
  split <;> rfl

@[simp] theorem catalog_onScopes (op : Operation PomCall Scopes α) :
    (onScopes op s).state.catalog = s.catalog := rfl

/-- Passing through a graph leaves the catalog as it is. -/
@[simp] theorem catalog_run : (run poms resolver c s).state.catalog = s.catalog := by
  have hhold (d : Dialogue ResolvedGraph) (intercept : Request → Operation PomCall Scopes Request)
      (s : Session) :
      (d.hold BuildEvent.request (fun request => onScopes (intercept request)) s).state.catalog =
        s.catalog := by
    induction d generalizing s with
    | done outcome => rfl
    | ask request next ih =>
        rw [Operation.hold_ask]
        exact (ih _ _).trans (catalog_onScopes (intercept request))
  exact hhold _ _ s

theorem pomExclusions_eq (graph : ResolvedGraph) (s : Session) :
    pomExclusions poms graph s =
      (if s.settings.applyMavenExclusions then
        onCatalog (Catalog.resolve poms graph.externalModules)
      else pure ∅ : Operation BuildEvent Session Exclusions) s :=
  Operation.read_bind Session.settings _ s

/-- The POMs of a graph are looked up in the catalog, which is extended, or not at all. -/
theorem catalog_pomExclusions (poms : PomService) (graph : ResolvedGraph) (s : Session) :
    (pomExclusions poms graph s).state.catalog = s.catalog ∨
      (pomExclusions poms graph s).state.catalog =
        (Catalog.resolve poms graph.externalModules s.catalog).state := by
  rw [pomExclusions_eq]
  split
  · exact Or.inr rfl
  · exact Or.inl rfl

/-- The exclusions of the POMs of a graph hang on the settings and on what is looked up. -/
theorem answer_pomExclusions_congr (graph : ResolvedGraph) (hsettings : t.settings = s.settings)
    (hcatalog : (Catalog.resolve poms graph.externalModules t.catalog).answer =
      (Catalog.resolve poms graph.externalModules s.catalog).answer) :
    (pomExclusions poms graph t).answer = (pomExclusions poms graph s).answer := by
  rw [pomExclusions_eq, pomExclusions_eq, hsettings]
  split
  · exact hcatalog
  · rfl

theorem moves_pomExclusions (graph : ResolvedGraph) :
    (pomExclusions poms graph).Moves (Settling poms queried watched) := by
  intro s
  rw [pomExclusions_eq]
  split
  · exact ⟨rfl, rfl, .refl s.scopes⟩
  · exact refl_of _ s

/-! ## Deriving exclude rules -/

theorem moves_rulesOf (graph : ResolvedGraph) (hview : c.view ⊆ queried ∩ watched) :
    (rulesOf poms c graph).Moves (Settling poms queried watched) := by
  apply (observes_onScopes (Scopes.observes_exclusions hview)).moves.bind
  intro declared
  apply (moves_pomExclusions graph).bind
  intro fromPoms
  exact (Operation.observes_pure _).moves

/-- The declared exclusions are asked for first, which the catalog does not see. -/
theorem answer_rulesOf (graph : ResolvedGraph) (s : Session) :
    (rulesOf poms c graph s).answer =
      (onScopes (Scopes.exclusions (some c) poms) s).answer.bind fun declared =>
        (pomExclusions poms graph s).answer.map fun fromPoms =>
          (Walk.outcome graph ⟨declared, fromPoms⟩).rules := by
  have hrules (declared : Exclusions) (s : Session) :
      ((pomExclusions poms graph >>= fun fromPoms =>
          pure (Walk.outcome graph ⟨declared, fromPoms⟩).rules) s).answer =
        (pomExclusions poms graph s).answer.map fun fromPoms =>
          (Walk.outcome graph ⟨declared, fromPoms⟩).rules :=
    Operation.answer_bind_pure _ s
  have hsame : ∀ declared : Exclusions, (pomExclusions poms graph >>= fun fromPoms =>
      pure (Walk.outcome graph ⟨declared, fromPoms⟩).rules).Ignores
        fun s t => t.settings = s.settings ∧ t.catalog = s.catalog := by
    intro declared s t ⟨hsettings, hcatalog⟩
    rw [hrules, hrules, answer_pomExclusions_congr graph hsettings (by rw [hcatalog])]
  -- asking the scopes leaves alone what the look-up hangs on
  have hasked : (onScopes (Scopes.exclusions (some c) poms)).Moves
      fun s t => t.settings = s.settings ∧ t.catalog = s.catalog :=
    fun _ => ⟨rfl, rfl⟩
  simp only [← hrules]
  exact Operation.answer_bind_of_moves hasked hsame s

/-- Exclude rules hang on what the scopes settle to and on what is looked up. -/
theorem answer_rulesOf_congr (graph : ResolvedGraph) (hview : c.view ⊆ watched)
    (h : Settling poms Set.univ watched s t)
    (hcatalog : (Catalog.resolve poms graph.externalModules t.catalog).answer =
      (Catalog.resolve poms graph.externalModules s.catalog).answer) :
    (rulesOf poms c graph t).answer = (rulesOf poms c graph s).answer := by
  have hboth : c.view ⊆ Set.univ ∩ watched := Configuration.view_subset_univ_inter hview
  have hdeclared := (observes_onScopes (Scopes.observes_exclusions hboth)).ignores s t h
  rw [answer_rulesOf, answer_rulesOf, hdeclared,
    answer_pomExclusions_congr graph h.settings hcatalog]

theorem catalog_rulesOf (poms : PomService) (c : Configuration) (graph : ResolvedGraph)
    (s : Session) :
    (rulesOf poms c graph s).state.catalog = s.catalog ∨
      (rulesOf poms c graph s).state.catalog =
        (Catalog.resolve poms graph.externalModules s.catalog).state := by
  unfold rulesOf
  rw [Operation.state_bind]
  cases (onScopes (Scopes.exclusions (some c) poms) s).answer with
  | error report => exact Or.inl rfl
  | ok declared =>
      simp only
      rw [Operation.state_bind]
      have hcatalog := catalog_pomExclusions poms graph
        (onScopes (Scopes.exclusions (some c) poms) s).state
      cases (pomExclusions poms graph (onScopes (Scopes.exclusions (some c) poms) s).state).answer <;>
        exact hcatalog

/-! ## The two passes -/

/-- The first pass, through the complete graph, from which exclude rules are derived. -/
def firstPass (poms : PomService) (resolver : GraphResolver) (c : Configuration) :
    Operation BuildEvent Session (List ModuleId) :=
  run poms resolver c.withoutExcludeRules >>= rulesOf poms c

/-- The second pass, with the exclude rules. -/
def secondPass (poms : PomService) (resolver : GraphResolver) (c : Configuration)
    (rules : List ModuleId) : Operation BuildEvent Session Resolution := do
  let graph ← run poms resolver (c.withExcludeRules rules)
  pure ⟨graph, rules⟩

/-- Exclude rules are computed by the first pass, in the prepared session. -/
theorem computeRules_eq (s : Session) :
    computeRules poms resolver c s = firstPass poms resolver c (prepare c s) :=
  Operation.bind_congr rfl

/-- A resolution makes both passes in the prepared session. -/
theorem resolve_eq (s : Session) :
    resolve poms resolver c s =
      (firstPass poms resolver c >>= secondPass poms resolver c) (prepare c s) :=
  Operation.bind_congr (computeRules_eq s)

theorem moves_firstPass (hview : c.view ⊆ queried ∩ watched) :
    (firstPass poms resolver c).Moves (Settling poms queried watched) := by
  apply (observes_run (c := c.withoutExcludeRules) hview).moves.bind
  intro graph
  exact moves_rulesOf graph hview

theorem observes_secondPass (rules : List ModuleId) (hview : c.view ⊆ queried ∩ watched) :
    (secondPass poms resolver c rules).Observes (Settling poms queried watched) := by
  apply (observes_run (c := c.withExcludeRules rules) hview).bind
  intro graph
  exact Operation.observes_pure _

theorem answer_firstPass (s : Session) :
    (firstPass poms resolver c s).answer =
      (run poms resolver c.withoutExcludeRules s).answer.bind fun complete =>
        (rulesOf poms c complete s).answer := by
  have hview : c.view ⊆ Set.univ ∩ Set.univ :=
    Configuration.view_subset_univ_inter (Set.subset_univ _)
  -- the run settles scopes, and the rules are derived from the catalog as it was
  apply Operation.answer_bind_of_moves
    (R := fun s t => Settling poms Set.univ Set.univ s t ∧ t.catalog = s.catalog)
  · intro s
    exact ⟨(observes_run (c := c.withoutExcludeRules) hview).moves s, catalog_run⟩
  · intro complete s t ⟨hst, hcatalog⟩
    exact answer_rulesOf_congr complete (Set.subset_univ _) hst (by rw [hcatalog])

theorem answer_secondPass (rules : List ModuleId) (s : Session) :
    (secondPass poms resolver c rules s).answer =
      (run poms resolver (c.withExcludeRules rules) s).answer.map fun graph => ⟨graph, rules⟩ :=
  Operation.answer_bind_pure _ s

/-- The first pass extends the catalog by the modules of the complete graph, if it gets that
far. -/
theorem catalog_firstPass (poms : PomService) (resolver : GraphResolver) (c : Configuration)
    (s : Session) :
    (firstPass poms resolver c s).state.catalog = s.catalog ∨
      ∃ complete, (run poms resolver c.withoutExcludeRules s).answer = .ok complete ∧
        (firstPass poms resolver c s).state.catalog =
          (Catalog.resolve poms complete.externalModules s.catalog).state := by
  unfold firstPass
  rw [Operation.state_bind]
  cases hrun : (run poms resolver c.withoutExcludeRules s).answer with
  | error report => exact Or.inl catalog_run
  | ok complete =>
      have hrules := catalog_rulesOf poms c complete
        (run poms resolver c.withoutExcludeRules s).state
      rw [catalog_run] at hrules
      rcases hrules with hsame | hextended
      · exact Or.inl hsame
      · exact Or.inr ⟨complete, rfl, hextended⟩

theorem catalog_secondPass (rules : List ModuleId) (s : Session) :
    (secondPass poms resolver c rules s).state.catalog = s.catalog := by
  unfold secondPass
  rw [Operation.state_bind]
  cases (run poms resolver (c.withExcludeRules rules) s).answer with
  | error report => exact catalog_run
  | ok graph => exact catalog_run

/-! ## The whole resolution -/

/-- After the session is prepared, a resolution does no more than settle scopes. -/
theorem settling_resolve (s : Session) :
    Settling poms c.view Set.univ (prepare c s) (resolve poms resolver c s).state := by
  have hview : c.view ⊆ c.view ∩ Set.univ := Set.subset_inter subset_rfl (Set.subset_univ _)
  have hmoves : (firstPass poms resolver c >>= secondPass poms resolver c).Moves
      (Settling poms c.view Set.univ) :=
    (moves_firstPass hview).bind fun rules => (observes_secondPass rules hview).moves
  rw [resolve_eq]
  exact hmoves (prepare c s)

/-- A resolution changes the scope of its configuration and settles others. -/
theorem moves_resolve :
    (resolve poms resolver c).Moves (Settling poms c.view {some c.name}ᶜ) := by
  intro s
  have hprepare : Settling poms c.view {some c.name}ᶜ s (prepare c s) :=
    settling_prepare fun h => h rfl
  exact trans_of _ hprepare ((settling_resolve s).mono subset_rfl (Set.subset_univ _))

/-- Every part of a resolution answers as it does in the prepared session. -/
theorem answer_resolve (s : Session) :
    (resolve poms resolver c s).answer =
      (trial poms resolver c s).answer.bind fun complete =>
        (rulesOf poms c complete (prepare c s)).answer.bind fun rules =>
          (run poms resolver (c.withExcludeRules rules) (prepare c s)).answer.map fun graph =>
            ⟨graph, rules⟩ := by
  have hview : c.view ⊆ Set.univ ∩ Set.univ :=
    Configuration.view_subset_univ_inter (Set.subset_univ _)
  have hpasses : ((firstPass poms resolver c >>= secondPass poms resolver c) (prepare c s)).answer =
      (firstPass poms resolver c (prepare c s)).answer.bind fun rules =>
        (secondPass poms resolver c rules (prepare c s)).answer :=
    Operation.answer_bind_of_moves (moves_firstPass hview)
      (fun rules => (observes_secondPass rules hview).ignores) _
  have htrial : (trial poms resolver c s).answer =
      (run poms resolver c.withoutExcludeRules (prepare c s)).answer := rfl
  simp only [resolve_eq, hpasses, answer_firstPass, answer_secondPass, htrial]
  cases (run poms resolver c.withoutExcludeRules (prepare c s)).answer <;> rfl

/-- A resolution answers alike in two prepared sessions if scopes that it draws on have at most
settled in between, and if the catalogs know the same of the modules of its complete graph. -/
theorem answer_resolve_congr (hview : c.view ⊆ watched)
    (h : Settling poms Set.univ watched (prepare c s) (prepare c t))
    (hcatalog : ∀ complete, (trial poms resolver c s).answer = .ok complete →
      (Catalog.resolve poms complete.externalModules t.catalog).answer =
        (Catalog.resolve poms complete.externalModules s.catalog).answer) :
    (resolve poms resolver c t).answer = (resolve poms resolver c s).answer := by
  have hboth : c.view ⊆ Set.univ ∩ watched := Configuration.view_subset_univ_inter hview
  have htrial : (trial poms resolver c t).answer = (trial poms resolver c s).answer :=
    (observes_run (c := c.withoutExcludeRules) hboth).ignores _ _ h
  have hrun (rules : List ModuleId) :
      (run poms resolver (c.withExcludeRules rules) (prepare c t)).answer =
        (run poms resolver (c.withExcludeRules rules) (prepare c s)).answer :=
    (observes_run (c := c.withExcludeRules rules) hboth).ignores _ _ h
  simp only [answer_resolve, htrial, hrun]
  cases hgraph : (trial poms resolver c s).answer with
  | error report => rfl
  | ok complete =>
      have hrules : (rulesOf poms c complete (prepare c t)).answer =
          (rulesOf poms c complete (prepare c s)).answer := by
        apply answer_rulesOf_congr complete hview h
        rw [catalog_prepare, catalog_prepare]
        exact hcatalog complete hgraph
      simp only [Except.bind, hrules]

/-- A resolution extends the catalog by the modules of the trial graph, if it gets that far. -/
theorem catalog_resolve (poms : PomService) (resolver : GraphResolver) (c : Configuration)
    (s : Session) :
    (resolve poms resolver c s).state.catalog = s.catalog ∨
      ∃ complete, (trial poms resolver c s).answer = .ok complete ∧
        (resolve poms resolver c s).state.catalog =
          (Catalog.resolve poms complete.externalModules s.catalog).state := by
  have hsecond : (resolve poms resolver c s).state.catalog =
      (firstPass poms resolver c (prepare c s)).state.catalog := by
    rw [resolve_eq, Operation.state_bind]
    cases (firstPass poms resolver c (prepare c s)).answer with
    | error report => rfl
    | ok rules => exact catalog_secondPass rules _
  have hfirst := catalog_firstPass poms resolver c (prepare c s)
  rw [catalog_prepare] at hfirst
  rw [hsecond]
  exact hfirst

/-! ## Requests -/

/-- The answer to a request in a session. -/
def answerTo (poms : PomService) (c : Configuration) (s : Session) (request : Request) :
    Except Report Request :=
  ((⟨poms, c, s.localModules⟩ : VersionSelector).intercept request s.scopes).answer

/-- Once the session is prepared, settling does not change an answer. -/
theorem answerTo_of_settling (hview : c.view ⊆ watched) (h : Settling poms Set.univ watched s t)
    (request : Request) : answerTo poms c t request = answerTo poms c s request := by
  have hboth : c.view ⊆ Set.univ ∩ watched := Configuration.view_subset_univ_inter hview
  unfold answerTo
  rw [h.localModules]
  exact (Scopes.observes_intercept hboth request).ignores _ _ h.scopes

variable {request : Request} {answer : Except Report Request}

/-- A call to the service is no request. -/
theorem request_not_mem_map_call (calls : List PomCall) :
    .request request answer ∉ calls.map BuildEvent.call := by
  intro h
  rcases List.mem_map.1 h with ⟨call, -, hcall⟩
  exact absurd hcall (by simp)

/-- Deriving exclude rules makes no request. -/
theorem request_not_mem_log_rulesOf (graph : ResolvedGraph) :
    .request request answer ∉ (rulesOf poms c graph s).log := by
  have hpoms (s : Session) : .request request answer ∉ (pomExclusions poms graph s).log := by
    rw [pomExclusions_eq]
    split
    · exact request_not_mem_map_call _
    · exact List.not_mem_nil
  intro h
  rcases Operation.mem_log_bind h with h | ⟨declared, -, h⟩
  · exact request_not_mem_map_call _ h
  · rcases Operation.mem_log_bind h with h | ⟨fromPoms, -, h⟩
    · exact hpoms _ h
    · exact List.not_mem_nil h

/-- The requests of a run get the answers they have at its start. -/
theorem answer_of_mem_log_run (h : .request request answer ∈ (run poms resolver c s).log) :
    answer = answerTo poms c s request := by
  have hview : c.view ⊆ Set.univ ∩ Set.univ :=
    Configuration.view_subset_univ_inter (Set.subset_univ _)
  have hobserves (request : Request) :
      (onScopes ((⟨poms, c, s.localModules⟩ : VersionSelector).intercept request)).Observes
        (Settling poms Set.univ Set.univ) :=
    observes_onScopes (Scopes.observes_intercept hview request)
  have hlog : (run poms resolver c s).log = .run c :: ((resolver c).hold BuildEvent.request
      (fun request => onScopes ((⟨poms, c, s.localModules⟩ : VersionSelector).intercept request))
      s).log := rfl
  rw [hlog, List.mem_cons] at h
  rcases h with h | h
  · exact absurd h (by simp)
  · rcases Operation.of_mem_log_hold hobserves h with ⟨r, t, hr⟩ | ⟨r, hr⟩
    · exact absurd hr (request_not_mem_map_call _)
    · obtain ⟨rfl, rfl⟩ : request = r ∧ answer = _ := by simpa using hr
      rfl

/-- The requests of both passes get the answers they have in the prepared session. -/
theorem answer_of_mem_log_resolve
    (h : .request request answer ∈ (resolve poms resolver c s).log) :
    answer = answerTo poms c (prepare c s) request := by
  have hview : c.view ⊆ Set.univ ∩ Set.univ :=
    Configuration.view_subset_univ_inter (Set.subset_univ _)
  rw [resolve_eq] at h
  rcases Operation.mem_log_bind h with h | ⟨rules, -, h⟩
  · rcases Operation.mem_log_bind h with h | ⟨complete, -, h⟩
    · -- the first pass starts in the prepared session, without exclude rules
      exact answer_of_mem_log_run (c := c.withoutExcludeRules) h
    · exact absurd h (request_not_mem_log_rulesOf complete)
  · rcases Operation.mem_log_bind h with h | ⟨graph, -, h⟩
    · have hanswer : answer = answerTo poms c _ request :=
        answer_of_mem_log_run (c := c.withExcludeRules rules) h
      rw [hanswer]
      exact answerTo_of_settling (Set.subset_univ _) (moves_firstPass hview _) request
    · exact absurd h List.not_mem_nil

end ManagedGraph.Session
