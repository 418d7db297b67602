import ManagedGraph.Proofs.Scope.Imports

/-!
# The life of a scope

Declarations and queries reach a scope in any order, each query with a service and
properties of its own. The first query settles the scope, and no step changes it after that
(`run_of_settled`). Over a whole run the service is called at most once, for the BOMs that
were declared before the first query (`run_of_isOpen`).
-/

namespace ManagedGraph

namespace Scope

/-! ## Steps -/

/-- What a scope can be asked for. -/
inductive Query where
  | resolve
  | version (id : ModuleId)
  | versions
  | exclusions
  | importedProperties
deriving DecidableEq

/-- What an operation on a scope answers with. -/
inductive Answer where
  | done
  | version (version : Option String)
  | versions (table : VersionTable)
  | exclusions (table : Exclusions)
  | importedProperties (properties : Properties)

namespace Query

/-- Puts a query to a scope. -/
def run (poms : PomService) (properties : Properties) : Query → Operation PomCall Scope Answer
  | resolve => (fun _ => .done) <$> Scope.resolve poms properties
  | version id => .version <$> Scope.managedVersion id poms properties
  | versions => .versions <$> Scope.query Scope.versions poms properties
  | exclusions => .exclusions <$> Scope.query Scope.exclusions poms properties
  | importedProperties =>
      .importedProperties <$> Scope.query Scope.importedProperties poms properties

/-- What a query reads from a settled scope. -/
def read : Query → Scope → Answer
  | resolve, _ => .done
  | version id, s => .version s.versions[id]?
  | versions, s => .versions s.versions
  | exclusions, s => .exclusions s.exclusions
  | importedProperties, s => .importedProperties s.importedProperties

end Query

/-- One operation on a scope. -/
inductive Step where
  | declare (d : Declaration)
  | ask (query : Query) (poms : PomService) (properties : Properties)

/-- Takes a step. -/
def Step.run : Step → Operation PomCall Scope Answer
  | declare d => do
      Operation.update fun s => s.declare d
      pure .done
  | ask query poms properties => query.run poms properties

/-- The scope after some steps. A step that fails does not keep the next from being taken. -/
def after (s : Scope) (steps : List Step) : Scope :=
  steps.foldl (fun s step => (step.run s).state) s

/-- The calls to the service that some steps take. -/
def calls : Scope → List Step → List PomCall
  | _, [] => []
  | s, step :: rest => (step.run s).log ++ calls (step.run s).state rest

/-- Importing the BOMs of a scope has ended, well or not. -/
def Settled (s : Scope) : Prop :=
  s.state = .resolved ∨ ∃ cause, s.state = .failed cause

variable {s : Scope} {step : Step} {steps : List Step}

/-! ## One step -/

theorem map_query {α β : Type} (f : α → β) (read : Scope → α) (poms : PomService)
    (properties : Properties) :
    f <$> query read poms properties = query (fun s => f (read s)) poms properties := by
  funext s
  change Operation.andThen (query read poms properties) (fun a => Operation.answer (f a)) s = _
  unfold Operation.andThen query
  simp only
  rw [← verdict_map f read]
  cases (s.settle poms properties).verdict read with
  | ok a => simp [Operation.answer, Except.map]
  | error report => rfl

/-- Every query settles the scope and reads from it. -/
theorem Query.run_eq (q : Query) (poms : PomService) (properties : Properties) :
    q.run poms properties = Scope.query q.read poms properties := by
  cases q with
  | resolve => exact map_query _ _ poms properties
  | version id => exact map_query _ _ poms properties
  | versions => exact map_query _ _ poms properties
  | exclusions => exact map_query _ _ poms properties
  | importedProperties => exact map_query _ _ poms properties

theorem run_ask (q : Query) (poms : PomService) (properties : Properties) (s : Scope) :
    (Step.ask q poms properties).run s =
      ⟨(s.settle poms properties).verdict q.read, s.settle poms properties,
        s.callsToSettle properties⟩ := by
  have hrun : (Step.ask q poms properties).run = Scope.query q.read poms properties :=
    q.run_eq poms properties
  rw [hrun]
  rfl

theorem Settled.not_isOpen (h : s.Settled) : s.isOpen = false := by
  rcases h with h | ⟨cause, h⟩ <;> simp [isOpen, h]

theorem settled_settle (poms : PomService) (properties : Properties) (h : s.isOpen = true) :
    (s.settle poms properties).Settled := by
  cases hfetch : poms.fetch s.boms properties with
  | ok found => exact Or.inl (state_settle_of_ok h hfetch)
  | error report => exact Or.inr ⟨report.rootCause, by rw [settle_of_error h hfetch]⟩

/-- A settled scope takes no declaration and answers queries as it is. -/
theorem run_step_of_settled (step : Step) (h : s.Settled) :
    (step.run s).state = s ∧ (step.run s).log = [] := by
  cases step with
  | declare d => exact ⟨declare_of_not_isOpen h.not_isOpen, rfl⟩
  | ask q poms properties =>
      rw [run_ask]
      exact ⟨settle_of_not_isOpen h.not_isOpen, callsToSettle_of_not_isOpen h.not_isOpen⟩

/-- A step leaves an open scope open without a call, or it settles the scope with one call
for its BOMs, if there are any. -/
theorem run_step_of_isOpen (step : Step) (h : s.isOpen = true) :
    ((step.run s).state.isOpen = true ∧ (step.run s).log = []) ∨
      ((step.run s).state.Settled ∧
        ((step.run s).log = [] ∨ (step.run s).state.boms ≠ [] ∧
          ∃ properties, (step.run s).log = [.strict (step.run s).state.boms properties])) := by
  cases step with
  | declare d => exact Or.inl ⟨isOpen_declare.trans h, rfl⟩
  | ask q poms properties =>
      rw [run_ask]
      refine Or.inr ⟨settled_settle poms properties h, ?_⟩
      by_cases hboms : s.boms = []
      · exact Or.inl (by simp [callsToSettle, isOpen_iff.1 h, hboms])
      · refine Or.inr ⟨by simpa using hboms, properties, ?_⟩
        simp [callsToSettle, isOpen_iff.1 h, hboms]

/-- A BOM of a scope was there before a step or is declared by it. -/
theorem mem_boms_run {reference : PomReference} (h : reference ∈ (step.run s).state.boms) :
    reference ∈ s.boms ∨ step = .declare (.bom reference) := by
  cases step with
  | declare d =>
      have hmem : reference ∈ (s.declare d).boms := h
      cases ho : s.isOpen with
      | false =>
          rw [declare_of_not_isOpen ho] at hmem
          exact Or.inl hmem
      | true =>
          rw [boms_declare ho, List.mem_append] at hmem
          rcases hmem with hmem | hmem
          · exact Or.inl hmem
          · cases d <;> simp_all [Declaration.reference?]
  | ask q poms properties =>
      rw [run_ask] at h
      exact Or.inl (by simpa using h)

/-! ## Whole runs -/

theorem after_append (s : Scope) (before later : List Step) :
    after s (before ++ later) = after (after s before) later :=
  List.foldl_append

theorem calls_append (s : Scope) (before later : List Step) :
    calls s (before ++ later) = calls s before ++ calls (after s before) later := by
  induction before generalizing s with
  | nil => rfl
  | cons step rest ih =>
      have hrest := ih (step.run s).state
      simp only [List.cons_append, calls, hrest, List.append_assoc]
      rfl

/-- No run changes a settled scope or calls the service for it. -/
theorem run_of_settled (steps : List Step) (h : s.Settled) : after s steps = s ∧ calls s steps = [] := by
  induction steps with
  | nil => exact ⟨rfl, rfl⟩
  | cons step rest ih =>
      obtain ⟨hstate, hlog⟩ := run_step_of_settled step h
      have hafter : after s (step :: rest) = after (step.run s).state rest := rfl
      have hcalls : calls s (step :: rest) =
          (step.run s).log ++ calls (step.run s).state rest := rfl
      rw [hafter, hcalls, hstate, hlog]
      exact ⟨ih.1, ih.2⟩

/-- A run leaves an open scope open without a call, or it settles the scope with at most one
call, which is for the BOMs that the scope ends with. -/
theorem run_of_isOpen (steps : List Step) (h : s.isOpen = true) :
    ((after s steps).isOpen = true ∧ calls s steps = []) ∨
      ((after s steps).Settled ∧
        (calls s steps = [] ∨ (after s steps).boms ≠ [] ∧
          ∃ properties, calls s steps = [.strict (after s steps).boms properties])) := by
  induction steps generalizing s with
  | nil => exact Or.inl ⟨h, rfl⟩
  | cons step rest ih =>
      have hafter : after s (step :: rest) = after (step.run s).state rest := rfl
      have hcalls : calls s (step :: rest) =
          (step.run s).log ++ calls (step.run s).state rest := rfl
      rw [hafter, hcalls]
      rcases run_step_of_isOpen step h with ⟨ho, hlog⟩ | ⟨hsettled, hlog⟩
      · rw [hlog, List.nil_append]
        exact ih ho
      · -- the rest of the run adds nothing
        obtain ⟨hrest, hnone⟩ := run_of_settled rest hsettled
        rw [hrest, hnone, List.append_nil]
        exact Or.inr ⟨hsettled, hlog⟩

theorem mem_boms_after {reference : PomReference} (h : reference ∈ (after s steps).boms) :
    reference ∈ s.boms ∨ .declare (.bom reference) ∈ steps := by
  induction steps generalizing s with
  | nil => exact Or.inl h
  | cons step rest ih =>
      rcases ih h with hmem | hmem
      · rcases mem_boms_run hmem with hmem | rfl
        · exact Or.inl hmem
        · exact Or.inr List.mem_cons_self
      · exact Or.inr (List.mem_cons_of_mem _ hmem)

/-- In every run on a new scope, the scope is never found in the midst of an import, the
service is called at most once, and not at all unless a BOM was imported. Once the scope is
no longer unresolved it stays as it is, and every query reads from it, whatever service and
properties come with it. -/
theorem resolved_once_and_final (before later : List Step) :
    (after new before).state ≠ .resolving ∧
      (calls new before).length ≤ 1 ∧
      ((∀ reference, .declare (.bom reference) ∉ before) → calls new before = []) ∧
      ((after new before).state ≠ .unresolved →
        after new (before ++ later) = after new before ∧
          calls new (before ++ later) = calls new before ∧
          ∀ query poms properties,
            ((Step.ask query poms properties).run (after new (before ++ later))).answer =
              (after new before).verdict query.read) := by
  have hrun := run_of_isOpen before isOpen_new
  have hfinal : (after new before).state ≠ .unresolved → (after new before).Settled := by
    intro hstate
    rcases hrun with ⟨ho, -⟩ | ⟨hsettled, -⟩
    · exact absurd (isOpen_iff.1 ho) hstate
    · exact hsettled
  refine ⟨?_, ?_, ?_, ?_⟩
  · rcases hrun with ⟨ho, -⟩ | ⟨hsettled | ⟨cause, hsettled⟩, -⟩
    · simp [isOpen_iff.1 ho]
    · simp [hsettled]
    · simp [hsettled]
  · rcases hrun with ⟨-, hcalls⟩ | ⟨-, hcalls | ⟨-, properties, hcalls⟩⟩ <;> simp [hcalls]
  · intro hnone
    rcases hrun with ⟨-, hcalls⟩ | ⟨-, hcalls | ⟨hboms, -⟩⟩
    · exact hcalls
    · exact hcalls
    · -- the call would be for a BOM that some step imported
      rcases List.exists_mem_of_ne_nil _ hboms with ⟨reference, hmem⟩
      rcases mem_boms_after hmem with hnew | hstep
      · exact absurd hnew List.not_mem_nil
      · exact absurd hstep (hnone reference)
  · intro hstate
    obtain ⟨hafter, hcalls⟩ := run_of_settled later (hfinal hstate)
    rw [after_append, calls_append, hafter, hcalls, List.append_nil]
    refine ⟨rfl, rfl, ?_⟩
    intro query poms properties
    rw [run_ask, settle_of_not_isOpen (hfinal hstate).not_isOpen]

/-- Declarations and a query, and then steps that come too late: a declaration, and a query
with a service that knows no BOM. -/
theorem late_steps_change_nothing :
    let before := interleaved.map Step.declare ++ [.ask .versions twoBoms ∅]
    let later := [Step.declare (.explicit ⟨"org", "tool"⟩ "9.9" []),
      .ask .resolve (.ofEach fun _ _ => .error (.ofProblem (.external "gone"))) ∅]
    (after new before).state ≠ .unresolved ∧
      after new (before ++ later) = after new before ∧
      calls new (before ++ later) =
        [.strict [.plain firstBom.coordinates, .plain secondBom.coordinates] ∅] := by
  intro before later
  have hstate : (after new before).state ≠ .unresolved := by decide
  rcases resolved_once_and_final before later with ⟨-, -, -, hfinal⟩
  rcases hfinal hstate with ⟨hafter, hcalls, -⟩
  exact ⟨hstate, hafter, hcalls.trans (by decide)⟩

end Scope

end ManagedGraph
