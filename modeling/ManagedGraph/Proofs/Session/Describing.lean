import ManagedGraph.Proofs.Scope.Listing
import ManagedGraph.Proofs.Session.Independence
import ManagedGraph.Proofs.Session.Matching

/-!
# Descriptors along a run

A run of a session takes declarations, resolves configurations and writes descriptors in any order.
A descriptor lists what its scope has accepted by then, and writing one does not show in the other
answers of the run (`descriptors_only_observe`).

A descriptor call creates its scope if it does not exist. A later query settles it, and then it
takes no declarations, while a scope that does not exist takes them at any time. A declaration that
is lost in this way shows (`describing_loses_declaration`). None is lost if only scopes that exist
are described (`undisturbed_of_existing`).
-/

namespace ManagedGraph.Session

/-! ## Runs -/

/-- The declarations with which a configuration is prepared, if the settings say so. -/
def recorded (settings : Settings) (c : Configuration) : List (Option String × Declaration) :=
  if settings.overriddenByDependencies then c.declarations.map fun d => (some c.name, d) else []

/-- One operation on a session. Each resolution comes with a resolver of its own. -/
inductive Step where
  | declare (scope : Option String) (d : Declaration)
  | resolve (resolver : GraphResolver) (configuration : Configuration)
  | rules (resolver : GraphResolver) (configuration : Configuration)
  | versions (configuration : Configuration)
  | describe (scope : Option String)

/-- What it answers with. -/
inductive Answer where
  | done
  | resolution (resolution : Resolution)
  | rules (rules : List ModuleId)
  | versions (table : VersionTable)
  | descriptor (descriptor : Descriptor)

namespace Step

/-- Takes a step. -/
def run (poms : PomService) : Step → Operation BuildEvent Session Answer
  | declare scope d => do
      Operation.update fun s => { s with scopes := s.scopes.declare scope d }
      pure .done
  | resolve resolver c => do
      let resolution ← Session.resolve poms resolver c
      pure (.resolution resolution)
  | rules resolver c => do
      let rules ← computeRules poms resolver c
      pure (.rules rules)
  | versions c => do
      let table ← managedVersions poms c
      pure (.versions table)
  | describe scope => do
      let descriptor ← Session.descriptor poms scope
      pure (.descriptor descriptor)

/-- The declarations that a step makes, each in its scope. -/
def declarations (settings : Settings) : Step → List (Option String × Declaration)
  | declare scope d => [(scope, d)]
  | resolve _ c | rules _ c => recorded settings c
  | versions _ | describe _ => []

end Step

/-- The session after a run. A step that fails does not keep the next from being taken. -/
def afterSteps (poms : PomService) (s : Session) (steps : List Step) : Session :=
  steps.foldl (fun s step => (step.run poms s).state) s

/-- The answers of a run. -/
def answers (poms : PomService) : Session → List Step → List (Except Report Answer)
  | _, [] => []
  | s, step :: rest =>
      let outcome := step.run poms s
      outcome.answer :: answers poms outcome.state rest

/-- The declarations that a scope accepts in a run: those made in it while it takes any. -/
def accepted (poms : PomService) (scope : Option String) :
    Session → List Step → List Declaration
  | _, [] => []
  | s, step :: rest =>
      (if s.scopes.Takes scope then Scopes.declaredIn scope (step.declarations s.settings) else []) ++
        accepted poms scope (step.run poms s).state rest

/-! ## Runs with further descriptor calls -/

/-- An entry of a run into which descriptor calls are put. -/
inductive Entry where
  /-- A descriptor call that is put in. -/
  | inserted (scope : Option String)
  /-- A step of the run. -/
  | own (step : Step)

/-- The step of the run at an entry. -/
def Entry.own? : Entry → Option Step
  | inserted _ => none
  | own step => some step

/-- The answers of the run itself, while it is taken with the calls put in. -/
def answersAmong (poms : PomService) : Session → List Entry → List (Except Report Answer)
  | _, [] => []
  | s, .inserted scope :: rest => answersAmong poms (descriptor poms scope s).state rest
  | s, .own step :: rest =>
      let outcome := step.run poms s
      outcome.answer :: answersAmong poms outcome.state rest

/-- Each declaration of the run is taken with the calls put in, in the first session, exactly if it
is without them, in the second one. -/
def Undisturbed (poms : PomService) : Session → Session → List Entry → Prop
  | _, _, [] => True
  | s, t, .inserted scope :: rest => Undisturbed poms (descriptor poms scope s).state t rest
  | s, t, .own step :: rest =>
      (∀ entry ∈ step.declarations s.settings, s.scopes.Takes entry.1 ↔ t.scopes.Takes entry.1) ∧
        Undisturbed poms (step.run poms s).state (step.run poms t).state rest

instance decidableUndisturbed (poms : PomService) :
    ∀ s t run, Decidable (Undisturbed poms s t run)
  | _, _, [] => inferInstanceAs (Decidable True)
  | s, t, .inserted scope :: rest =>
      decidableUndisturbed poms (descriptor poms scope s).state t rest
  | s, t, .own step :: rest =>
      have := decidableUndisturbed poms (step.run poms s).state (step.run poms t).state rest
      inferInstanceAs (Decidable (_ ∧ _))

variable {poms : PomService} {s t : Session} {entries : List Entry}
variable {scope : Option String}

/-! ## One step -/

/-- A session after declarations, each made in its scope. -/
def declareAll (s : Session) (entries : List (Option String × Declaration)) : Session :=
  { s with scopes := s.scopes.declareAll entries }

/-- What a step does once its declarations are made. -/
def Step.rest (poms : PomService) : Step → Operation BuildEvent Session Answer
  | declare _ _ => pure .done
  | resolve resolver c =>
      (firstPass poms resolver c >>= secondPass poms resolver c) >>= fun resolution =>
        pure (.resolution resolution)
  | rules resolver c => firstPass poms resolver c >>= fun rules => pure (.rules rules)
  | versions c => managedVersions poms c >>= fun table => pure (.versions table)
  | describe scope => Session.descriptor poms scope >>= fun descriptor => pure (.descriptor descriptor)

theorem prepare_eq_declareAll (c : Configuration) (s : Session) :
    prepare c s = s.declareAll (recorded s.settings c) := by
  unfold prepare recorded
  split
  · rw [recordDirectVersions_eq]
    rfl
  · rfl

/-- A step makes its declarations first. -/
theorem Step.run_eq (poms : PomService) (step : Step) (s : Session) :
    step.run poms s = step.rest poms (s.declareAll (step.declarations s.settings)) := by
  cases step with
  | declare scope d => rfl
  | resolve resolver c =>
      apply Operation.bind_congr
      rw [resolve_eq, prepare_eq_declareAll]
      rfl
  | rules resolver c =>
      apply Operation.bind_congr
      rw [computeRules_eq, prepare_eq_declareAll]
      rfl
  | versions c => rfl
  | describe scope => rfl

theorem inStep_rest (poms : PomService) (step : Step) : (step.rest poms).InStep Matches := by
  have hnamed {α : Type} {op : Operation BuildEvent Session α} (f : α → Answer)
      (hop : op.InStep Matches) : (op >>= fun a => pure (f a)).InStep Matches :=
    hop.bind fun a => Operation.inStep_pure (f a)
  cases step with
  | declare scope d => exact Operation.inStep_pure _
  | resolve resolver c =>
      exact hnamed _ ((inStep_firstPass poms resolver c).bind (inStep_secondPass poms resolver c))
  | rules resolver c => exact hnamed _ (inStep_firstPass poms resolver c)
  | versions c => exact hnamed _ (inStep_managedVersions poms c)
  | describe scope => exact hnamed _ (inStep_descriptor poms scope)

/-- A step whose declarations are taken on both sides or on neither is in step. -/
theorem Matches.run (h : s.Matches t) (step : Step)
    (htakes : ∀ entry ∈ step.declarations s.settings,
      s.scopes.Takes entry.1 ↔ t.scopes.Takes entry.1) :
    (step.run poms s).answer = (step.run poms t).answer ∧
      (step.run poms s).state.Matches (step.run poms t).state := by
  have hdeclared : (s.declareAll (step.declarations s.settings)).Matches
      (t.declareAll (step.declarations s.settings)) :=
    ⟨h.settings, h.localModules, h.catalog, h.scopes.declareAll htakes⟩
  rw [Step.run_eq, Step.run_eq, h.settings]
  exact ⟨(inStep_rest poms step).answer_eq hdeclared, (inStep_rest poms step).state hdeclared⟩

/-! ## Descriptor calls that are put in -/

/-- From sessions that match, a run gets the same answers with and without the calls put in. -/
theorem answersAmong_eq (h : s.Matches t) (hentries : Undisturbed poms s t entries) :
    answersAmong poms s entries = answers poms t (entries.filterMap Entry.own?) := by
  -- the two sessions match along the run
  induction entries generalizing s t with
  | nil => rfl
  | cons entry rest ih =>
      cases entry with
      | inserted scope => exact ih (h.descriptor_left poms scope) hentries
      | own step =>
          obtain ⟨htakes, hrest⟩ := hentries
          obtain ⟨hanswer, hstates⟩ := h.run step htakes
          have hlater := ih hstates hrest
          simp only [answersAmong, List.filterMap_cons, Entry.own?, answers, hanswer, hlater]

/-- Each call that is put in is for a scope that exists by then. -/
def Existing (poms : PomService) : Session → List Entry → Prop
  | _, [] => True
  | s, .inserted scope :: rest =>
      (∃ own, s.scopes.get? scope = some own) ∧ Existing poms (descriptor poms scope s).state rest
  | s, .own step :: rest => Existing poms (step.run poms s).state rest

/-- Calls for scopes that exist change nothing at all. -/
theorem undisturbed_of_existing (h : Existing poms s entries) : Undisturbed poms s s entries := by
  induction entries generalizing s with
  | nil => trivial
  | cons entry rest ih =>
      cases entry with
      | inserted scope =>
          obtain ⟨⟨own, hget⟩, hrest⟩ := h
          have hsame : (descriptor poms scope s).state = s := by
            rw [state_descriptor, Scopes.touch_of_get? hget]
          rw [hsame] at hrest
          unfold Undisturbed
          rw [hsame]
          exact ih hrest
      | own step => exact ⟨fun _ _ => Iff.rfl, ih h⟩

/-! ## What a scope has accepted -/

/-- Once its declarations are made, a step leaves what scopes declare. -/
theorem declaresAlike_rest (poms : PomService) (step : Step) (s : Session) (scope : Option String) :
    ((s.scopes.get? scope).getD .new).DeclaresAlike
      (((step.rest poms s).state.scopes.get? scope).getD .new) := by
  have hsettling {t : Session} (h : Settling poms Set.univ Set.univ s t) :
      ((s.scopes.get? scope).getD .new).DeclaresAlike ((t.scopes.get? scope).getD .new) :=
    h.scopes.declaresAlike (Set.mem_univ scope)
  cases step with
  | declare scope d => exact .refl _
  | resolve resolver c =>
      have hpasses : (firstPass poms resolver c >>= secondPass poms resolver c).Moves
          (Settling poms Set.univ Set.univ) :=
        (moves_firstPass (by simp)).bind fun rules => (observes_secondPass rules (by simp)).moves
      rw [Step.rest, Operation.state_bind_pure]
      exact hsettling (hpasses s)
  | rules resolver c =>
      rw [Step.rest, Operation.state_bind_pure]
      exact hsettling (moves_firstPass (by simp) s)
  | versions c =>
      rw [Step.rest, Operation.state_bind_pure]
      exact hsettling ((observes_onScopes (Scopes.observes_hierarchyVersions (by simp))).moves s)
  | describe other =>
      rw [Step.rest, Operation.state_bind_pure, state_descriptor, Scopes.getD_get?_touch]
      exact .refl _

/-- A scope declares what it has accepted. -/
theorem declaresAlike_afterSteps {declarations : List Declaration}
    (h : (Scope.new.declareAll declarations).DeclaresAlike ((s.scopes.get? scope).getD .new))
    (steps : List Step) :
    (Scope.new.declareAll (declarations ++ accepted poms scope s steps)).DeclaresAlike
      (((afterSteps poms s steps).scopes.get? scope).getD .new) := by
  induction steps generalizing s declarations with
  | nil => simpa [accepted, afterSteps] using h
  | cons step rest ih =>
      let made := Scopes.declaredIn scope (step.declarations s.settings)
      have hmade : (Scope.new.declareAll
          (declarations ++ if s.scopes.Takes scope then made else [])).DeclaresAlike
            (((s.scopes.get? scope).getD .new).declareAll made) := by
        split
        · rename_i htakes
          rw [Scope.declareAll_append]
          exact h.declareAll (Scope.isOpen_declareAll.trans Scope.isOpen_new) htakes.isOpen_getD made
        · rename_i htakes
          obtain ⟨own, hget, hclosed⟩ := Scopes.exists_of_not_takes htakes
          rw [hget, Option.getD_some] at h ⊢
          rw [List.append_nil, Scope.declareAll_of_not_isOpen hclosed]
          exact h
      have hstep : ((s.scopes.get? scope).getD .new).declareAll made =
          ((s.declareAll (step.declarations s.settings)).scopes.get? scope).getD .new :=
        (Scopes.getD_get?_declareAll _ _ _).symm
      have hafter := hmade.trans (hstep ▸ declaresAlike_rest poms step _ scope)
      rw [← Step.run_eq] at hafter
      have hrest := ih hafter
      rw [List.append_assoc] at hrest
      exact hrest

/-! ## Descriptors only observe -/

/-- In a run from a new session let descriptor calls be put in, or taken out, without a declaration
being lost or gained thereby. Then all other answers of the run are the same. In every run, a
descriptor that is written lists what its scope has accepted by then. -/
theorem descriptors_only_observe (poms : PomService) (settings : Settings)
    (localModules : ModuleSet) :
    let start := new settings localModules
    (∀ entries : List Entry, Undisturbed poms start start entries →
        answersAmong poms start entries = answers poms start (entries.filterMap Entry.own?)) ∧
      ∀ (steps : List Step) (scope : Option String) (written : Descriptor),
        (descriptor poms scope (afterSteps poms start steps)).answer = .ok written →
          written.Lists (accepted poms scope start steps) := by
  intro start
  refine ⟨fun entries hentries => answersAmong_eq (.refl start) hentries, ?_⟩
  intro steps scope written hwritten
  have hnew : (start.scopes.get? scope).getD .new = .new := by
    cases scope with
    | none => rfl
    | some name => simp [start, new, Scopes.new, Scopes.get?]
  have hstart : (Scope.new.declareAll []).DeclaresAlike ((start.scopes.get? scope).getD .new) := by
    rw [hnew]
    exact .refl _
  rw [answer_descriptor] at hwritten
  exact Scope.lists_descriptor (declaresAlike_afterSteps hstart steps) hwritten

/-- A configuration with a direct dependency that its scope does not manage. -/
def mainConfiguration : Configuration :=
  ⟨"main", [], [.module ⟨⟨"org", "lib"⟩, none⟩, .module ⟨⟨"org", "util"⟩, some "1.0"⟩], [], []⟩

/-- Calls put in for a scope that does not exist and for one that resolves between them. -/
def describedOften : List Entry :=
  [.own (.declare (some "main") (.bom (.plain Scope.firstBom.coordinates))),
    .inserted (some "absent"),
    .own (.declare (some "main") (.explicit ⟨"org", "lib"⟩ "1.0" [.pattern "org" "extra"])),
    .inserted (some "main"),
    .own (.resolve direct mainConfiguration),
    .own (.declare (some "main") (.explicit ⟨"org", "lib"⟩ "9.9" [])),
    .inserted (some "main"),
    .own (.versions mainConfiguration)]

/-- The declaration that comes too late is in no descriptor. -/
theorem descriptors_only_observe_in_main :
    let start := new .default ∅
    let steps := describedOften.filterMap Entry.own?
    Undisturbed bomAndLib start start describedOften ∧
      answersAmong bomAndLib start describedOften = answers bomAndLib start steps ∧
      ∃ written, (descriptor bomAndLib (some "main") (afterSteps bomAndLib start steps)).answer =
          .ok written ∧
        written.dependencies = [⟨⟨⟨"org", "lib"⟩, some "1.0"⟩, ["org:extra"]⟩] ∧
        written.Lists [.bom (.plain Scope.firstBom.coordinates),
          .explicit ⟨"org", "lib"⟩ "1.0" [.pattern "org" "extra"],
          .implicit ⟨"org", "util"⟩ "1.0"] := by
  have hwritten : (descriptor bomAndLib (some "main") (afterSteps bomAndLib (new .default ∅)
      (describedOften.filterMap Entry.own?))).answer =
        .ok ⟨[Scope.firstBom.coordinates], [⟨⟨⟨"org", "lib"⟩, some "1.0"⟩, ["org:extra"]⟩], []⟩ := by
    rfl
  intro start steps
  obtain ⟨hsame, hlists⟩ := descriptors_only_observe bomAndLib .default ∅
  have hundisturbed : Undisturbed bomAndLib start start describedOften := by decide
  have haccepted : accepted bomAndLib (some "main") start steps =
      [.bom (.plain Scope.firstBom.coordinates),
        .explicit ⟨"org", "lib"⟩ "1.0" [.pattern "org" "extra"],
        .implicit ⟨"org", "util"⟩ "1.0"] := by decide
  refine ⟨hundisturbed, hsame _ hundisturbed, _, hwritten, rfl, ?_⟩
  rw [← haccepted]
  exact hlists steps (some "main") _ hwritten

/-- The version of a module in a table that was asked for. -/
def Answer.version? (id : ModuleId) : Answer → Option String
  | versions table => table[id]?
  | _ => none

/-- A call put in for a scope that does not exist yet, which is then queried and declared in. -/
def describedFirst : List Entry :=
  [.inserted (some "main"),
    .own (.versions (.named "main")),
    .own (.declare (some "main") (.explicit ⟨"org", "lib"⟩ "1.0" [])),
    .own (.versions (.named "main"))]

/-- The query settles the scope that the call has created, and the declaration is lost. -/
theorem describing_loses_declaration :
    let start := new .default ∅
    let steps := describedFirst.filterMap Entry.own?
    let read (answer : Except Report Answer) : Option String :=
      answer.toOption.bind (Answer.version? ⟨"org", "lib"⟩)
    (answersAmong Scope.twoBoms start describedFirst).map read = [none, none, none] ∧
      (answers Scope.twoBoms start steps).map read = [none, none, some "1.0"] ∧
      answersAmong Scope.twoBoms start describedFirst ≠ answers Scope.twoBoms start steps := by
  intro start steps read
  have hwith : (answersAmong Scope.twoBoms start describedFirst).map read =
      [none, none, none] := by decide
  have hwithout : (answers Scope.twoBoms start steps).map read = [none, none, some "1.0"] := by
    decide
  refine ⟨hwith, hwithout, ?_⟩
  intro heq
  rw [heq, hwithout] at hwith
  exact absurd hwith (by decide)

end ManagedGraph.Session
