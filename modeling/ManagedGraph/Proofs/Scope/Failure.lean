import ManagedGraph.Proofs.Scope.Lifecycle

/-!
# Failed imports

If the BOMs of a scope cannot be imported, the scope keeps what was declared in it and takes over
nothing. It remembers the root cause of the failure, whatever was wrapped around it, and every
query from then on reports that cause together with all BOMs of the scope, without another call
to the service (`failed_import_is_final`).
-/

namespace ManagedGraph

/-- Contexts do not change the root cause, however many there are. -/
theorem Report.rootCause_foldl_wrap (report : Report) (contexts : List String) :
    (contexts.foldl wrap report).rootCause = report.rootCause := by
  induction contexts generalizing report with
  | nil => rfl
  | cons context rest ih =>
      have hrest : (rest.foldl wrap (report.wrap context)).rootCause =
          (report.wrap context).rootCause := ih _
      exact hrest.trans (report.rootCause_wrap context)

namespace Scope

variable {s : Scope} {poms : PomService} {properties : Properties} {cause : String}

/-- The query that runs into the failure makes the call, leaves everything declared as it is and
reports the failure. -/
theorem run_ask_of_error {report : Report} (q : Query) (ho : s.isOpen = true) (hboms : s.boms ≠ [])
    (hfails : poms.strict s.boms properties = .error report) :
    (Step.ask q poms properties).run s =
      ⟨.error (s.importFailure report.rootCause), { s with state := .failed report.rootCause },
        [.strict s.boms properties]⟩ := by
  have hfetch : poms.fetch s.boms properties = .error report := by
    rw [PomService.fetch, if_neg hboms, hfails]
  have hcalls : s.callsToSettle properties = [.strict s.boms properties] := by
    simp [callsToSettle, isOpen_iff.1 ho, hboms]
  rw [run_ask, settle_of_error ho hfetch, hcalls, verdict_of_failed _ rfl]
  rfl

/-- Every later query reports the same failure. -/
theorem answer_run_ask_of_failed (h : s.state = .failed cause) (q : Query) :
    ((Step.ask q poms properties).run s).answer = .error (s.importFailure cause) := by
  have hsettled : s.Settled := Or.inr ⟨cause, h⟩
  rw [run_ask, settle_of_not_isOpen hsettled.not_isOpen]
  exact verdict_of_failed _ h

/-- Let the service fail to resolve the BOMs declared in a new scope, for a problem of any kind in
any contexts. The query that finds this out makes the only call. It and every query after it, in
every run with any services and properties, report the displays of all declared BOMs and the
text of the deepest error; and nothing in the scope but its state is ever different from what
was declared. -/
theorem failed_import_is_final (declarations : List Declaration) (first : Query)
    (poms : PomService) (properties : Properties) (problem : Problem) (contexts : List String)
    (later : List Step) (hboms : declarations.filterMap Declaration.reference? ≠ [])
    (hfails : poms.strict (declarations.filterMap Declaration.reference?) properties =
      .error (contexts.foldl Report.wrap (.ofProblem problem))) :
    let boms := declarations.filterMap Declaration.reference?
    let declared := new.declareAll declarations
    let failing := (Step.ask first poms properties).run declared
    let failure := Report.ofProblem
      (.bomImport (", ".intercalate (boms.map fun bom => bom.coordinates.display))
        problem.rootCause)
    (contexts.foldl Report.wrap (.ofProblem problem)).chain.getLast? = some problem.rootCause ∧
      failing.answer = .error failure ∧
      failing.log = [.strict boms properties] ∧
      after failing.state later = { declared with state := .failed problem.rootCause } ∧
      calls failing.state later = [] ∧
      ∀ query poms' properties',
        ((Step.ask query poms' properties').run (after failing.state later)).answer =
          .error failure := by
  intro boms declared failing failure
  have hopen : declared.isOpen = true := isOpen_declareAll.trans isOpen_new
  have hdeclared : declared.boms = boms := boms_declareAll isOpen_new
  have hcause : (contexts.foldl Report.wrap (.ofProblem problem)).rootCause = problem.rootCause :=
    Report.rootCause_foldl_wrap _ contexts
  have hfailing : failing =
      ⟨.error failure, { declared with state := .failed problem.rootCause },
        [.strict boms properties]⟩ := by
    have hsome : declared.boms ≠ [] := by
      rw [hdeclared]
      exact hboms
    have hcall : poms.strict declared.boms properties =
        .error (contexts.foldl Report.wrap (.ofProblem problem)) := by
      rw [hdeclared]
      exact hfails
    have hrun := run_ask_of_error first hopen hsome hcall
    have hreport : declared.importFailure problem.rootCause = failure := by
      rw [importFailure, hdeclared]
    rw [hcause, hreport] at hrun
    rw [← hdeclared]
    exact hrun
  have hstate : failing.state.state = .failed problem.rootCause := by rw [hfailing]
  obtain ⟨hafter, hcalls⟩ := run_of_settled later (Or.inr ⟨_, hstate⟩)
  refine ⟨?_, by rw [hfailing], by rw [hfailing], by rw [hafter, hfailing], hcalls, ?_⟩
  · rw [Report.getLast?_chain, hcause]
  · intro query poms' properties'
    rw [hafter, answer_run_ask_of_failed hstate, importFailure, hfailing]
    simp only [hdeclared]
    rfl

/-- A service that knows one BOM. It cannot read the file of any other. -/
def onlyFirstBom : PomService :=
  .ofEach fun reference _ =>
    if reference.coordinates = firstBom.coordinates then .ok firstBom
    else .error (["reading " ++ reference.coordinates.display, "resolving imports"].foldl
      Report.wrap (.ofProblem (.io "no such file")))

/-- Declarations of every kind, with a BOM that is found and one that is not. -/
def withMissingBom : List Declaration :=
  [.explicit ⟨"org", "util"⟩ "3.0" [.pattern "org" "extra"], .bom (.plain firstBom.coordinates),
    .implicit ⟨"org", "lib"⟩ "1.0", .bom (.plain secondBom.coordinates)]

/-- What comes later is a declaration, a query with a service that knows both BOMs, and an import. -/
theorem failed_import_of_missing_bom :
    let failing := (Step.ask .exclusions onlyFirstBom ∅).run (new.declareAll withMissingBom)
    let later := [Step.declare (.explicit ⟨"org", "tool"⟩ "9.9" []), .ask .resolve twoBoms ∅,
      .declare (.bom (.plain ⟨⟨"org", "third"⟩, some "1"⟩))]
    failing.log = [.strict [.plain firstBom.coordinates, .plain secondBom.coordinates] ∅] ∧
      calls failing.state later = [] ∧
      ((Step.ask .versions twoBoms ∅).run (after failing.state later)).answer =
        .error (.ofProblem (.bomImport "org:first:1, org:second:1" "no such file")) := by
  intro failing later
  obtain ⟨-, -, hlog, -, hcalls, hanswer⟩ :=
    failed_import_is_final withMissingBom .exclusions onlyFirstBom ∅ (.io "no such file")
      ["reading org:second:1", "resolving imports"] later (by decide) rfl
  exact ⟨hlog, hcalls, (hanswer .versions twoBoms ∅).trans rfl⟩

end Scope

end ManagedGraph
