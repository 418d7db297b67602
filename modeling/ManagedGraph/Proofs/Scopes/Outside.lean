import ManagedGraph.Proofs.Scopes.Hierarchy

/-!
# Scopes outside a hierarchy

A run of the scopes of a build takes declarations and queries in any order. If steps that are
addressed to named scopes outside the hierarchy of a configuration are deleted, the scopes that it
draws on are still settled from one state (`Akin`), so it is told the same (`answersFor_reduced`).

Only the time at which scopes settle may differ, since a look-up for another configuration stops
at the first scope that manages the module. A declaration that comes too late in one of the two
runs shows (`answersFor_shielding`). None does if scopes are declared before they are queried
(`undisturbed_of_declaredFirst`).
-/

namespace ManagedGraph.Scopes

/-! ## Runs -/

/-- What the scopes of a build can be asked for. -/
inductive Query where
  | version (configuration : Option Configuration) (id : ModuleId)
  | exclusions (configuration : Option Configuration)
  | hierarchy (configuration : Configuration)
  | scope (name : Option String)
deriving DecidableEq

/-- What they answer with. -/
inductive Answer where
  | version (version : Option String)
  | exclusions (table : Exclusions)
  | versions (table : VersionTable)

namespace Query

/-- The configuration that a query is for. -/
def configuration? : Query → Option Configuration
  | version configuration _ => configuration
  | exclusions configuration => configuration
  | hierarchy configuration => some configuration
  | scope _ => none

/-- The scopes that a query draws on. -/
def view : Query → Set (Option String)
  | version configuration _ => {scope | ∀ name ∈ scope, name ∈ hierarchyOf configuration}
  | exclusions configuration => {scope | ∀ name ∈ scope, name ∈ hierarchyOf configuration}
  | hierarchy configuration => configuration.view
  | scope name => {scope | scope = name}

/-- Puts a query. -/
def run (poms : PomService) : Query → Operation PomCall Scopes Answer
  | version configuration id =>
      managedVersion configuration id poms >>= fun found => pure (.version found)
  | exclusions configuration =>
      Scopes.exclusions configuration poms >>= fun table => pure (.exclusions table)
  | hierarchy configuration =>
      hierarchyVersions configuration poms >>= fun table => pure (.versions table)
  | scope name => scopeVersions name poms >>= fun table => pure (.versions table)

end Query

/-- One operation on the scopes of a build. -/
inductive Step where
  | touch (scope : Option String)
  | declare (scope : Option String) (d : Declaration)
  | ask (query : Query)
deriving DecidableEq

namespace Step

/-- The named scope that a step is addressed to. -/
def addressee? : Step → Option String
  | touch scope => scope
  | declare scope _ => scope
  | ask (.scope name) => name
  | ask _ => none

/-- A step is addressed to a named scope outside the hierarchy of a configuration. -/
def IsOutside (configuration : Configuration) (step : Step) : Prop :=
  ∃ name ∈ step.addressee?, name ∉ configuration.hierarchy

/-- Takes a step. -/
def run (poms : PomService) (c : Scopes) : Step → Scopes
  | touch scope => c.touch scope
  | declare scope d => c.declare scope d
  | ask query => (query.run poms c).state

/-- What a configuration is told at a step. -/
def answerFor? (poms : PomService) (configuration : Configuration) (c : Scopes) :
    Step → Option (Except Report Answer)
  | ask query =>
      if query.configuration? = some configuration then some (query.run poms c).answer else none
  | _ => none

end Step

/-- The scopes after a run. -/
def after (poms : PomService) (c : Scopes) (run : List Step) : Scopes :=
  run.foldl (fun c step => step.run poms c) c

/-- What a configuration is told in a run, in order. -/
def answersFor (poms : PomService) (configuration : Configuration) (c : Scopes) :
    List Step → List (Except Report Answer)
  | [] => []
  | step :: rest =>
      (step.answerFor? poms configuration c).toList ++
        answersFor poms configuration (step.run poms c) rest

/-! ## Deleting steps -/

/-- A run with a mark at each step, which is set at those to delete. -/
abbrev MarkedRun := List (Step × Bool)

namespace MarkedRun

/-- The run with all its steps. -/
def full (run : MarkedRun) : List Step :=
  run.map Prod.fst

/-- The run without the steps to delete. -/
def reduced (run : MarkedRun) : List Step :=
  (run.filter fun step => !step.2).map Prod.fst

end MarkedRun

/-- A scope takes declarations: it is open or there is none of that name yet. -/
def Takes (c : Scopes) (scope : Option String) : Prop :=
  ∀ s ∈ c.get? scope, s.isOpen = true

instance (c : Scopes) (scope : Option String) : Decidable (c.Takes scope) :=
  inferInstanceAs (Decidable (∀ s ∈ c.get? scope, s.isOpen = true))

/-- Each declaration that is kept, in a scope that a configuration draws on, is taken in the full
run exactly if it is in the reduced run. -/
def Undisturbed (poms : PomService) (configuration : Configuration) (c d : Scopes)
    (run : MarkedRun) : Prop :=
  ∀ before scope declaration later, run = before ++ (.declare scope declaration, false) :: later →
    scope ∈ configuration.view →
      ((c.after poms (MarkedRun.full before)).Takes scope ↔
        (d.after poms (MarkedRun.reduced before)).Takes scope)

variable {poms : PomService} {configuration : Configuration} {c d : Scopes} {step : Step}
variable {scope : Option String} {queried watched : Set (Option String)} {run : MarkedRun}

theorem exists_of_not_takes (h : ¬ c.Takes scope) :
    ∃ own, c.get? scope = some own ∧ own.isOpen = false := by
  simpa [Takes] using h

/-- What can be addressed to a named scope. -/
theorem Step.IsOutside.eq_of (h : step.IsOutside configuration) :
    ∃ name, name ∉ configuration.hierarchy ∧
      (step = .touch (some name) ∨ (∃ declaration, step = .declare (some name) declaration) ∨
        step = .ask (.scope (some name))) := by
  obtain ⟨name, hname, hout⟩ := h
  refine ⟨name, hout, ?_⟩
  cases step with
  | touch scope =>
      obtain rfl : scope = some name := hname
      exact Or.inl rfl
  | declare scope declaration =>
      obtain rfl : scope = some name := hname
      exact Or.inr (Or.inl ⟨declaration, rfl⟩)
  | ask q =>
      cases q with
      | scope scope =>
          obtain rfl : scope = some name := hname
          exact Or.inr (Or.inr rfl)
      | version _ _ => exact absurd hname (by simp [Step.addressee?])
      | exclusions _ => exact absurd hname (by simp [Step.addressee?])
      | hierarchy _ => exact absurd hname (by simp [Step.addressee?])

/-! ## Queries -/

/-- Naming the answer settles nothing more. -/
theorem observes_bind_pure {α β : Type} {op : Operation PomCall Scopes α} (f : α → β)
    (h : op.Observes (Settling poms queried watched)) :
    (op >>= fun a => pure (f a)).Observes (Settling poms queried watched) :=
  h.bind fun _ => Operation.observes_pure _

/-- A query settles scopes that it draws on. -/
theorem observes_query (q : Query) (hview : q.view ⊆ queried ∩ watched) :
    (q.run poms).Observes (Settling poms queried watched) := by
  cases q with
  | version configuration id =>
      apply observes_bind_pure
      apply observes_firstVersion id (hview (by simp [Query.view]))
      intro name hname
      exact hview (by simpa [Query.view] using hname)
  | exclusions configuration =>
      apply observes_bind_pure
      apply (observes_askGlobal _ (hview (by simp [Query.view]))).bind
      intro base
      apply (observes_askAll _ _).bind
      · exact fun others => Operation.observes_pure _
      · intro name hname
        exact hview (by simpa [Query.view] using hname)
  | hierarchy configuration =>
      exact observes_bind_pure _ (observes_hierarchyVersions hview)
  | scope name =>
      apply observes_bind_pure
      exact observes_bind_pure _ (observes_ask _ (hview rfl))

/-- A query for a configuration draws on what the configuration draws on. -/
theorem view_of_configuration? {q : Query} (h : q.configuration? = some configuration) :
    q.view = configuration.view := by
  cases q with
  | version _ id =>
      obtain rfl := h
      rfl
  | exclusions _ =>
      obtain rfl := h
      rfl
  | hierarchy _ => rw [← Option.some.inj h]; rfl
  | scope name => exact absurd h (by simp [Query.configuration?])

/-- Whatever is watched, a query settles scopes and does nothing else to them. -/
theorem settling_query (q : Query) (c : Scopes) :
    Settling poms Set.univ watched c (q.run poms c).state := by
  have hobserves : (q.run poms).Observes (Settling poms Set.univ Set.univ) :=
    observes_query q (by simp)
  exact (hobserves.moves c).mono (Set.subset_univ _) (Set.subset_univ _)

/-! ## Declarations in scopes that may have settled -/

/-- There are the same scopes before and after. -/
theorem Settling.get?_eq_none_iff (h : Settling poms queried watched c d)
    (hscope : scope ∈ watched) : d.get? scope = none ↔ c.get? scope = none := by
  rcases h.get? scope hscope with hsame | ⟨-, hsettled⟩
  · rw [hsame]
  · rw [hsettled, Scopes.settled?, Option.map_eq_none_iff]

/-- A scope that still takes declarations has not been settled. -/
theorem Settling.get?_of_takes (h : Settling poms queried watched c d) (hscope : scope ∈ watched)
    (htakes : d.Takes scope) : d.get? scope = c.get? scope := by
  rcases h.get? scope hscope with hsame | ⟨-, hsettled⟩
  · exact hsame
  · unfold Scopes.settled? at hsettled
    cases hc : c.get? scope with
    | none => rw [hsettled, hc, Option.map_none]
    | some s =>
        rw [hc, Option.map_some] at hsettled
        exact absurd (htakes _ hsettled) (by simp)

/-- The same change of a scope that is the same before and after. -/
theorem Settling.change_of_get? (h : Settling poms queried watched c d)
    (hget : d.get? scope = c.get? scope) (f : Scope → Scope) :
    Settling poms queried watched (c.change scope f) (d.change scope f) where
  properties := by simp [h.properties]
  get? := by
    intro other hother
    by_cases heq : scope = other
    · subst heq
      exact Or.inl (by simp [get?_change, hget])
    · have hsettled : (c.change scope f).settled? poms other = c.settled? poms other := by
        simp [Scopes.settled?, get?_change, heq]
      rw [get?_change, get?_change, if_neg heq, if_neg heq, hsettled]
      exact h.get? other hother

/-- A change that leaves the scope as it is. -/
theorem settling_change_of_eq {s : Scope} (hget : c.get? scope = some s) {f : Scope → Scope}
    (hf : f s = s) : Settling poms queried watched c (c.change scope f) where
  properties := properties_change c scope f
  get? := by
    intro other _
    left
    rw [get?_change]
    split
    · rename_i heq
      rw [← heq, hget, Option.getD_some, hf]
    · rfl

/-! ## Two runs -/

/-- Two states of the scopes that a configuration draws on, which were settled from one state. -/
def Akin (poms : PomService) (configuration : Configuration) (c d : Scopes) : Prop :=
  ∃ origin, Settling poms Set.univ configuration.view origin c ∧
    Settling poms Set.univ configuration.view origin d

namespace Akin

theorem refl (c : Scopes) : Akin poms configuration c c :=
  ⟨c, .refl c, .refl c⟩

/-- A configuration is told the same. -/
theorem answer_eq (h : Akin poms configuration c d) {q : Query}
    (hq : q.configuration? = some configuration) :
    (q.run poms c).answer = (q.run poms d).answer := by
  obtain ⟨origin, hc, hd⟩ := h
  have hobserves : (q.run poms).Observes (Settling poms Set.univ configuration.view) := by
    apply observes_query
    rw [view_of_configuration? hq]
    exact Configuration.view_subset_univ_inter (subset_refl _)
  rw [hobserves.ignores _ _ hc, hobserves.ignores _ _ hd]

theorem answerFor?_eq (h : Akin poms configuration c d) (step : Step) :
    step.answerFor? poms configuration c = step.answerFor? poms configuration d := by
  cases step with
  | touch scope => rfl
  | declare scope declaration => rfl
  | ask q =>
      by_cases hq : q.configuration? = some configuration
      · simp only [Step.answerFor?, h.answer_eq hq]
      · simp only [Step.answerFor?, if_neg hq]

/-- Only the first run takes a step. -/
theorem delete (h : Akin poms configuration c d) (hstep : step.IsOutside configuration) :
    Akin poms configuration (step.run poms c) d := by
  obtain ⟨origin, hc, hd⟩ := h
  refine ⟨origin, hc.trans ?_, hd⟩
  obtain ⟨name, hout, hstep⟩ := hstep.eq_of
  have hview : some name ∉ configuration.view := by simpa using hout
  rcases hstep with rfl | ⟨declaration, rfl⟩ | rfl
  · exact settling_change hview fun s => s
  · exact settling_change hview fun s => s.declare declaration
  · exact settling_query _ c

/-- Both runs change a scope, which takes declarations in both. -/
theorem change_of_takes (h : Akin poms configuration c d) (hscope : scope ∈ configuration.view)
    (hc : c.Takes scope) (hd : d.Takes scope) (f : Scope → Scope) :
    Akin poms configuration (c.change scope f) (d.change scope f) := by
  obtain ⟨origin, hoc, hod⟩ := h
  exact ⟨origin.change scope f, hoc.change_of_get? (hoc.get?_of_takes hscope hc) f,
    hod.change_of_get? (hod.get?_of_takes hscope hd) f⟩

/-- Both runs create a scope, if there is none of that name. -/
theorem touch (h : Akin poms configuration c d) (scope : Option String) :
    Akin poms configuration (c.touch scope) (d.touch scope) := by
  obtain ⟨origin, hc, hd⟩ := h
  by_cases hscope : scope ∈ configuration.view
  · -- there is a scope of that name in both or in neither, be it settled or not
    have hnone := (hc.get?_eq_none_iff hscope).trans (hd.get?_eq_none_iff hscope).symm
    cases hget : c.get? scope with
    | none =>
        have htakesC : c.Takes scope := by simp [Takes, hget]
        have htakesD : d.Takes scope := by simp [Takes, hnone.1 hget]
        exact change_of_takes ⟨origin, hc, hd⟩ hscope htakesC htakesD _
    | some s =>
        obtain ⟨t, ht⟩ := Option.ne_none_iff_exists'.1 (mt hnone.2 (by simp [hget]))
        exact ⟨origin, hc.trans (settling_change_of_eq hget rfl),
          hd.trans (settling_change_of_eq ht rfl)⟩
  · exact ⟨origin, hc.trans (settling_change hscope _), hd.trans (settling_change hscope _)⟩

/-- Both runs make a declaration, which is taken in both or in neither. -/
theorem declare (h : Akin poms configuration c d) (declaration : Declaration)
    (htakes : scope ∈ configuration.view → (c.Takes scope ↔ d.Takes scope)) :
    Akin poms configuration (c.declare scope declaration) (d.declare scope declaration) := by
  have hkept {c : Scopes} (hnot : ¬ c.Takes scope) :
      Settling poms Set.univ configuration.view c (c.declare scope declaration) := by
    obtain ⟨s, hget, hclosed⟩ := exists_of_not_takes hnot
    exact settling_change_of_eq hget (Scope.declare_of_not_isOpen hclosed)
  by_cases hscope : scope ∈ configuration.view
  · -- a scope that takes nothing more is left as it is
    by_cases hc : c.Takes scope
    · exact h.change_of_takes hscope hc ((htakes hscope).1 hc) _
    · obtain ⟨origin, hoc, hod⟩ := h
      exact ⟨origin, hoc.trans (hkept hc), hod.trans (hkept (mt (htakes hscope).2 hc))⟩
  · obtain ⟨origin, hoc, hod⟩ := h
    exact ⟨origin, hoc.trans (settling_change hscope _), hod.trans (settling_change hscope _)⟩

/-- Both runs take a step. -/
theorem keep (h : Akin poms configuration c d)
    (htakes : ∀ scope declaration, step = .declare scope declaration →
      scope ∈ configuration.view → (c.Takes scope ↔ d.Takes scope)) :
    Akin poms configuration (step.run poms c) (step.run poms d) := by
  cases step with
  | touch scope => exact h.touch scope
  | declare scope declaration => exact h.declare declaration (htakes scope declaration rfl)
  | ask q =>
      obtain ⟨origin, hc, hd⟩ := h
      exact ⟨origin, hc.trans (settling_query q c), hd.trans (settling_query q d)⟩

end Akin

/-- What is kept of a run goes on from where its first step has led. -/
theorem Undisturbed.of_cons {mark : Bool}
    (h : Undisturbed poms configuration c d ((step, mark) :: run)) :
    Undisturbed poms configuration (step.run poms c) (if mark then d else step.run poms d) run := by
  intro before scope declaration later hrun hscope
  have hsame := h ((step, mark) :: before) scope declaration later (by rw [hrun]; rfl) hscope
  cases mark <;> exact hsame

/-- A step that is addressed to a named scope tells a configuration nothing. -/
theorem answerFor?_of_isOutside (h : step.IsOutside configuration) :
    step.answerFor? poms configuration c = none := by
  obtain ⟨name, -, rfl | ⟨declaration, rfl⟩ | rfl⟩ := h.eq_of <;> rfl

/-- From akin states a configuration is told the same with and without the steps to delete. -/
theorem answersFor_deleted (hakin : Akin poms configuration c d)
    (hout : ∀ step ∈ run, step.2 = true → step.1.IsOutside configuration)
    (h : Undisturbed poms configuration c d run) :
    answersFor poms configuration c run.full = answersFor poms configuration d run.reduced := by
  -- the two states stay akin along the run
  induction run generalizing c d with
  | nil => rfl
  | cons marked rest ih =>
      obtain ⟨step, mark⟩ := marked
      obtain ⟨hstep, hrest⟩ := List.forall_mem_cons.1 hout
      have hundisturbed := h.of_cons
      cases mark with
      | true =>
          have hdeleted := hstep rfl
          have hnone : step.answerFor? poms configuration c = none :=
            answerFor?_of_isOutside hdeleted
          have hrun := ih (hakin.delete hdeleted) hrest hundisturbed
          simpa [MarkedRun.full, MarkedRun.reduced, answersFor, hnone] using hrun
      | false =>
          have hnow := hakin.answerFor?_eq step
          have htakes (scope : Option String) (declaration : Declaration)
              (hdeclare : step = .declare scope declaration)
              (hscope : scope ∈ configuration.view) : c.Takes scope ↔ d.Takes scope :=
            h [] scope declaration rest (by rw [hdeclare]; rfl) hscope
          have hrun := ih (hakin.keep htakes) hrest hundisturbed
          simpa [MarkedRun.full, MarkedRun.reduced, answersFor, hnow] using hrun

/-! ## Failures -/

/-- The failure to import the BOMs of a scope. -/
def FailsWith (poms : PomService) (c : Scopes) (scope : Option String) (report : Report) : Prop :=
  ∃ own, c.settled? poms scope = some own ∧ own.verdict (fun _ => ()) = .error report

/-- An operation fails only as one of some scopes does. -/
def FailsAs {α : Type} (poms : PomService) (scopes : Set (Option String))
    (op : Operation PomCall Scopes α) : Prop :=
  ∀ c report, (op c).answer = .error report → ∃ scope ∈ scopes, c.FailsWith poms scope report

section Failures

variable {α β : Type} {scopes : Set (Option String)} {names : List String}
variable {op : Operation PomCall Scopes α} {next : α → Operation PomCall Scopes β}

theorem failsAs_pure (a : α) : FailsAs poms scopes (pure a : Operation PomCall Scopes α) :=
  fun _ _ h => absurd h (by intro hok; cases hok)

/-- What a first part settles does not change how a scope fails. -/
theorem FailsAs.bind (hop : FailsAs poms scopes op)
    (hmoves : op.Moves (Settling poms Set.univ Set.univ))
    (hnext : ∀ a, FailsAs poms scopes (next a)) : FailsAs poms scopes (op >>= next) := by
  intro c report hfail
  cases hfirst : (op c).answer with
  | error first =>
      rw [Operation.bind_of_error hfirst] at hfail
      obtain rfl := Except.error.inj hfail
      exact hop c first hfirst
  | ok a =>
      rw [Operation.bind_of_ok hfirst] at hfail
      -- the second part fails at a later state, where the scope settles to the same
      obtain ⟨scope, hscope, own, hown, hverdict⟩ := hnext a _ report hfail
      rw [(hmoves c).settled? (Set.mem_univ scope)] at hown
      exact ⟨scope, hscope, own, hown, hverdict⟩

theorem FailsAs.bind_pure (hop : FailsAs poms scopes op) (f : α → β) :
    FailsAs poms scopes (op >>= fun a => pure (f a)) := by
  intro c report hfail
  rw [Operation.answer_bind_pure] at hfail
  cases hanswer : (op c).answer with
  | ok a => simp [hanswer, Except.map] at hfail
  | error cause =>
      rw [hanswer] at hfail
      obtain rfl := Except.error.inj hfail
      exact hop c cause hanswer

/-- How a scope fails does not depend on what is read from it. -/
theorem failsWith_of_verdict {read : Scope → α} {own : Scope} {report : Report}
    (hsettled : c.settled? poms scope = some own) (hfail : own.verdict read = .error report) :
    c.FailsWith poms scope report := by
  refine ⟨own, hsettled, ?_⟩
  rw [← Scope.verdict_map (fun _ => ()) read, hfail]
  rfl

theorem failsAs_ask (read : Scope → α) (hscope : scope ∈ scopes) :
    FailsAs poms scopes (ask poms read scope) := by
  intro c report hfail
  rw [answer_ask] at hfail
  cases hsettled : c.settled? poms scope with
  | none => simp [hsettled] at hfail
  | some own =>
      simp only [hsettled] at hfail
      cases hverdict : own.verdict read with
      | ok a => simp [hverdict, Except.map] at hfail
      | error cause =>
          rw [hverdict] at hfail
          obtain rfl := Except.error.inj hfail
          exact ⟨scope, hscope, failsWith_of_verdict hsettled hverdict⟩

theorem failsAs_askGlobal (read : Scope → α) (hscope : none ∈ scopes) :
    FailsAs poms scopes (askGlobal poms read) := by
  intro c report hfail
  exact ⟨none, hscope, failsWith_of_verdict rfl hfail⟩

theorem failsAs_askAll (read : Scope → α) (hnames : ∀ name ∈ names, some name ∈ scopes) :
    FailsAs poms scopes (askAll poms read names) := by
  induction names with
  | nil => exact failsAs_pure []
  | cons name rest ih =>
      obtain ⟨hname, hrest⟩ := List.forall_mem_cons.1 hnames
      apply (failsAs_ask read hname).bind (observes_ask read (by simp)).moves
      intro here
      exact (ih hrest).bind_pure _

theorem failsAs_firstVersion (id : ModuleId) (hglobal : none ∈ scopes)
    (hnames : ∀ name ∈ names, some name ∈ scopes) :
    FailsAs poms scopes (firstVersion poms id names) := by
  induction names with
  | nil => exact failsAs_askGlobal _ hglobal
  | cons name rest ih =>
      obtain ⟨hname, hrest⟩ := List.forall_mem_cons.1 hnames
      apply (failsAs_ask _ hname).bind (observes_ask _ (by simp)).moves
      intro found
      rcases found with _ | _ | version
      · exact ih hrest
      · exact ih hrest
      · exact failsAs_pure _

theorem failsAs_exclusions {configuration : Option Configuration} (hglobal : none ∈ scopes)
    (hnames : ∀ name ∈ hierarchyOf configuration, some name ∈ scopes) :
    FailsAs poms scopes (exclusions configuration poms) := by
  apply (failsAs_askGlobal _ hglobal).bind (observes_askGlobal _ (by simp)).moves
  intro base
  exact (failsAs_askAll _ hnames).bind_pure _

/-- A query fails only as a scope that it draws on does. -/
theorem failsAs_query (q : Query) : FailsAs poms q.view (q.run poms) := by
  cases q with
  | version configuration id =>
      exact (failsAs_firstVersion id (by simp [Query.view]) (by simp [Query.view])).bind_pure _
  | exclusions configuration =>
      exact (failsAs_exclusions (by simp [Query.view]) (by simp [Query.view])).bind_pure _
  | hierarchy configuration =>
      apply FailsAs.bind_pure
      apply (failsAs_askGlobal _ (by simp [Query.view])).bind (observes_askGlobal _ (by simp)).moves
      intro base
      exact (failsAs_askAll _ (by simp [Query.view])).bind_pure _
  | scope name =>
      apply FailsAs.bind_pure
      exact (failsAs_ask _ (by simp [Query.view])).bind_pure _

end Failures

/-! ## Declaring first -/

/-- Each declaration that is kept, in a scope that a configuration draws on, comes before every
query that draws on this scope. -/
def DeclaredFirst (configuration : Configuration) (run : MarkedRun) : Prop :=
  run.Pairwise fun earlier later => ∀ q scope declaration, earlier.1 = .ask q →
    later = (.declare scope declaration, false) → scope ∈ configuration.view → scope ∉ q.view

/-- A query leaves the scopes that it does not draw on as they are. -/
theorem get?_query {q : Query} (hscope : scope ∉ q.view) (c : Scopes) :
    (q.run poms c).state.get? scope = c.get? scope := by
  have hobserves : (q.run poms).Observes (Settling poms q.view Set.univ) :=
    observes_query q (by simp)
  rcases (hobserves.moves c).get? scope (Set.mem_univ scope) with hsame | ⟨hmem, -⟩
  · exact hsame
  · exact absurd hmem hscope

/-- A step that is addressed to a named scope outside the hierarchy leaves the others. -/
theorem get?_of_isOutside (h : step.IsOutside configuration) (hscope : scope ∈ configuration.view)
    (c : Scopes) : (step.run poms c).get? scope = c.get? scope := by
  obtain ⟨name, hout, hstep⟩ := h.eq_of
  have hne : some name ≠ scope := by
    rintro rfl
    exact hout (by simpa using hscope)
  rcases hstep with rfl | ⟨declaration, rfl⟩ | rfl
  · exact (get?_change c (some name) scope _).trans (if_neg hne)
  · exact (get?_change c (some name) scope _).trans (if_neg hne)
  · exact get?_query (q := .scope (some name)) (fun hmem => hne hmem.symm) c

/-- A step that both runs take leaves a scope the same in both, unless it is a query that draws
on this scope. -/
theorem get?_run_eq (h : c.get? scope = d.get? scope)
    (hstep : ∀ q, step = .ask q → scope ∉ q.view) :
    (step.run poms c).get? scope = (step.run poms d).get? scope := by
  have hchange (other : Option String) (f : Scope → Scope) :
      (c.change other f).get? scope = (d.change other f).get? scope := by
    rw [get?_change, get?_change]
    split
    · rename_i heq
      rw [heq, h]
    · exact h
  cases step with
  | touch other => exact hchange other _
  | declare other declaration => exact hchange other _
  | ask q =>
      have hq := hstep q rfl
      exact (get?_query hq c).trans (h.trans (get?_query hq d).symm)

/-- If scopes are declared first, no declaration comes too late in either run. -/
theorem undisturbed_of_declaredFirst
    (hout : ∀ step ∈ run, step.2 = true → step.1.IsOutside configuration)
    (h : DeclaredFirst configuration run)
    (hsame : ∀ scope declaration, (.declare scope declaration, false) ∈ run →
      scope ∈ configuration.view → c.get? scope = d.get? scope) :
    Undisturbed poms configuration c d run := by
  intro before scope declaration later hrun hscope
  -- by then no query has drawn on a scope with a declaration to come
  induction before generalizing run c d with
  | nil =>
      have hget := hsame scope declaration (by simp [hrun]) hscope
      have htakes : c.Takes scope ↔ d.Takes scope := by
        unfold Takes
        rw [hget]
      exact htakes
  | cons marked before ih =>
      obtain ⟨step, mark⟩ := marked
      obtain ⟨rest, rfl, hrest⟩ : ∃ rest, run = (step, mark) :: rest ∧
          rest = before ++ (.declare scope declaration, false) :: later := ⟨_, hrun, rfl⟩
      obtain ⟨hfirst, hpairs⟩ := List.pairwise_cons.1 h
      obtain ⟨houtFirst, houtRest⟩ := List.forall_mem_cons.1 hout
      have hkept (other : Option String) (e : Declaration) (hmem : (.declare other e, false) ∈ rest)
          (hother : other ∈ configuration.view) : c.get? other = d.get? other :=
        hsame other e (List.mem_cons_of_mem _ hmem) hother
      cases mark with
      | true =>
          apply ih houtRest hpairs _ hrest
          intro other e hmem hother
          exact (get?_of_isOutside (houtFirst rfl) hother c).trans (hkept other e hmem hother)
      | false =>
          apply ih houtRest hpairs _ hrest
          intro other e hmem hother
          apply get?_run_eq (hkept other e hmem hother)
          intro q hq
          exact hfirst _ hmem q other e hq rfl hother

/-- Let steps that are addressed to named scopes outside the hierarchy of a configuration be
deleted from a run, and let each declaration that is kept, in a scope that the configuration draws
on, be taken with them exactly if it is without them. Then the configuration is told the same,
answer by answer. In any state a query for it fails only as a scope that it draws on does. -/
theorem answersFor_reduced (poms : PomService) (configuration : Configuration) (start : Scopes)
    (run : MarkedRun) (hout : ∀ step ∈ run, step.2 = true → step.1.IsOutside configuration)
    (h : Undisturbed poms configuration start start run) :
    answersFor poms configuration start run.full =
        answersFor poms configuration start run.reduced ∧
      ∀ (c : Scopes) (q : Query) (report : Report), q.configuration? = some configuration →
        (q.run poms c).answer = .error report →
          ∃ scope ∈ configuration.view, c.FailsWith poms scope report := by
  refine ⟨answersFor_deleted (.refl start) hout h, ?_⟩
  intro c q report hq hfail
  rw [← view_of_configuration? hq]
  exact failsAs_query q c report hfail

/-! ## Two configurations that extend one -/

def testConfiguration : Configuration :=
  ⟨"test", ["main"], [], [], []⟩

def toolConfiguration : Configuration :=
  ⟨"tool", ["main"], [], [], []⟩

/-- A declaration that is made in the scope of one of them keeps a look-up for this one from
settling the scope that both extend. -/
def shielding : MarkedRun :=
  [(.declare (some "main") (.explicit ⟨"org", "lib"⟩ "1.0" []), false),
    (.declare (some "tool") (.explicit ⟨"org", "util"⟩ "2.0" []), true),
    (.ask (.version (some toolConfiguration) ⟨"org", "util"⟩), false),
    (.declare (some "main") (.explicit ⟨"org", "util"⟩ "3.0" []), false),
    (.ask (.version (some testConfiguration) ⟨"org", "util"⟩), false)]

/-- Without it, a later declaration in this scope comes too late. -/
theorem answersFor_shielding :
    (∀ step ∈ shielding, step.2 = true → step.1.IsOutside testConfiguration) ∧
      answersFor Scope.twoBoms testConfiguration (new ∅) shielding.full =
        [.ok (.version (some "3.0"))] ∧
      answersFor Scope.twoBoms testConfiguration (new ∅) shielding.reduced =
        [.ok (.version none)] ∧
      answersFor Scope.twoBoms testConfiguration (new ∅) shielding.full ≠
        answersFor Scope.twoBoms testConfiguration (new ∅) shielding.reduced := by
  have hfull : answersFor Scope.twoBoms testConfiguration (new ∅) shielding.full =
      [.ok (.version (some "3.0"))] := rfl
  have hreduced : answersFor Scope.twoBoms testConfiguration (new ∅) shielding.reduced =
      [.ok (.version none)] := rfl
  refine ⟨?_, hfull, hreduced, ?_⟩
  · simp [shielding, Step.IsOutside, Step.addressee?, testConfiguration, Configuration.hierarchy]
  · rw [hfull, hreduced]
    simp

/-- A run in which the scope of the other configuration imports a BOM that is not found. -/
def failing : MarkedRun :=
  [(.declare (some "tool") (.bom (.plain ⟨⟨"org", "third"⟩, some "1"⟩)), true),
    (.declare (some "main") (.explicit ⟨"org", "lib"⟩ "1.0" []), false),
    (.ask (.hierarchy toolConfiguration), false),
    (.declare (some "tool") (.explicit ⟨"org", "lib"⟩ "2.0" []), true),
    (.ask (.scope (some "tool")), true),
    (.ask (.version (some testConfiguration) ⟨"org", "lib"⟩), false)]

theorem isOutside_failing :
    ∀ step ∈ failing, step.2 = true → step.1.IsOutside testConfiguration := by
  simp [failing, Step.IsOutside, Step.addressee?, testConfiguration, Configuration.hierarchy]

theorem undisturbed_failing :
    Undisturbed Scope.twoBoms testConfiguration (new ∅) (new ∅) failing := by
  apply undisturbed_of_declaredFirst isOutside_failing _ fun _ _ _ _ => rfl
  simp [DeclaredFirst, failing]

/-- The other configuration is told of the failure, this one is not. -/
theorem answersFor_failing :
    (∃ report, answersFor Scope.twoBoms toolConfiguration (new ∅) failing.full =
        [.error report]) ∧
      answersFor Scope.twoBoms testConfiguration (new ∅) failing.full =
        [.ok (.version (some "1.0"))] ∧
      answersFor Scope.twoBoms testConfiguration (new ∅) failing.reduced =
        [.ok (.version (some "1.0"))] := by
  obtain ⟨hsame, -⟩ := answersFor_reduced Scope.twoBoms testConfiguration (new ∅) failing
    isOutside_failing undisturbed_failing
  exact ⟨⟨_, rfl⟩, rfl, hsame.symm.trans rfl⟩

end ManagedGraph.Scopes
