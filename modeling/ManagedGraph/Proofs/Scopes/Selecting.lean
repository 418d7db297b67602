import ManagedGraph.Proofs.Scope.Imports
import ManagedGraph.Proofs.Scopes.Declaring

/-!
# Deciding many requests

A selector settles scopes while it works and gathers the direct dependencies of its
configuration, and neither shows in what it decides. At work it does what a single interception
does (`select_spec`), the scopes have done no more than settle by then (`after_spec`), and
so each request is decided as if it were the only one (`decided_alone`).
-/

namespace ManagedGraph.VersionSelector

variable {v : VersionSelector} {s : Selecting} {request : Request} {requests : List Request}

/-! ## Requests that keep what they ask for -/

/-- A request for a project, for a module of the build, or for a module that the configuration
declares directly and at a dynamic version. -/
def Exempt (v : VersionSelector) (request : Request) : Prop :=
  match request.requested with
  | .project _ => True
  | .module c => c.id ∈ v.localModules ∨
      (∃ version, c.version = some version ∧ Version.isDynamic version = true) ∧
        ∃ d ∈ v.configuration.dependencies, d.moduleId? = some c.id

theorem leaves_eq_true_iff {c : Coordinates} (h : request.requested = .module c) :
    v.leaves c = true ↔ v.Exempt request := by
  unfold leaves Exempt Configuration.directIds
  rw [h]
  simp [Std.ExtTreeSet.contains_iff_mem, Option.any_eq_true]

/-- An exempt request is left as it is, and nothing is asked on its behalf. -/
theorem intercept_of_exempt (h : v.Exempt request) (scopes : Scopes) :
    v.intercept request scopes = ⟨.ok request, scopes, []⟩ := by
  unfold intercept
  cases hrequested : request.requested with
  | project path => rfl
  | module c =>
      have hleaves : v.leaves c = true := (leaves_eq_true_iff hrequested).2 h
      simp only [hleaves, if_true]
      rfl

/-- Any other request is forced to the managed version of its module, if there is one. -/
theorem decided_intercept_of_not_exempt {c : Coordinates} (hrequested : request.requested = .module c)
    (h : ¬ v.Exempt request) (scopes : Scopes) :
    request.decided (v.intercept request scopes).answer =
      match (Scopes.managedVersion (some v.configuration) c.id v.poms scopes).answer with
      | .ok (some version) => ⟨{ request with forced := some version }, none⟩
      | .ok none => ⟨request, none⟩
      | .error report => ⟨request, some report⟩ := by
  have hleaves : v.leaves c = false := by
    rw [← Bool.not_eq_true, leaves_eq_true_iff hrequested]
    exact h
  rw [Scopes.answer_intercept hrequested hleaves]
  rcases (Scopes.managedVersion (some v.configuration) c.id v.poms scopes).answer with
    report | _ | version <;> rfl

/-- What is asked for is never changed. -/
theorem requested_decided_intercept (v : VersionSelector) (request : Request) (scopes : Scopes) :
    (request.decided (v.intercept request scopes).answer).request.requested =
      request.requested := by
  by_cases hexempt : v.Exempt request
  · rw [intercept_of_exempt hexempt]
    rfl
  · cases hrequested : request.requested with
    | project path =>
        -- a request for a project is exempt
        have : v.Exempt request := by simp [Exempt, hrequested]
        exact absurd this hexempt
    | module c =>
        rw [decided_intercept_of_not_exempt hrequested hexempt, ← hrequested]
        rcases (Scopes.managedVersion (some v.configuration) c.id v.poms scopes).answer with
          report | _ | version <;> rfl

/-! ## A selector at work -/

/-- Direct dependencies that were gathered are those of the configuration. -/
def Remembers (v : VersionSelector) (s : Selecting) : Prop :=
  ∀ ids, s.directIds = some ids → ids = v.configuration.directIds

theorem remembers_start (scopes : Scopes) : v.Remembers (.start scopes) := by
  intro ids h
  exact absurd h (by simp [Selecting.start])

/-- Whether an edge keeps its version does not hang on what was gathered before. -/
theorem keeps_spec (h : v.Remembers s) (c : Coordinates) :
    ∃ t, v.keeps c s = ⟨.ok (v.leaves c), t, []⟩ ∧ t.scopes = s.scopes ∧ v.Remembers t := by
  have hids : s.directIds.getD v.configuration.directIds = v.configuration.directIds := by
    cases hgathered : s.directIds with
    | none => rfl
    | some ids => exact h ids hgathered
  cases hlocal : v.localModules.contains c.id with
  | true =>
      have hkeeps : v.keeps c = pure true := by simp [keeps, hlocal]
      have hleaves : v.leaves c = true := by simp [leaves, hlocal]
      rw [hkeeps, hleaves]
      exact ⟨s, rfl, rfl, h⟩
  | false =>
      cases hdynamic : c.version.any Version.isDynamic with
      | false =>
          have hkeeps : v.keeps c = pure false := by simp [keeps, hlocal, hdynamic]
          have hleaves : v.leaves c = false := by simp [leaves, hlocal, hdynamic]
          rw [hkeeps, hleaves]
          exact ⟨s, rfl, rfl, h⟩
      | true =>
          -- only here are the direct dependencies gathered
          have hkeeps : v.keeps c = v.isDirect c.id := by simp [keeps, hlocal, hdynamic]
          have hleaves : v.leaves c = v.configuration.directIds.contains c.id := by
            simp [leaves, hlocal, hdynamic]
          rw [hkeeps, hleaves]
          refine ⟨⟨s.scopes, some v.configuration.directIds⟩, ?_, rfl, ?_⟩
          · simp [isDirect, hids]
          · intro ids hgathered
            exact (Option.some.inj hgathered).symm

/-- At work a selector does what it does for one request on its own. -/
theorem select_spec (h : v.Remembers s) (request : Request) :
    ∃ t, v.select request s =
        ⟨(v.intercept request s.scopes).answer, t, (v.intercept request s.scopes).log⟩ ∧
      t.scopes = (v.intercept request s.scopes).state ∧ v.Remembers t := by
  cases hrequested : request.requested with
  | project path =>
      have hselect : v.select request = pure request := by simp [select, hrequested]
      have hintercept : v.intercept request = pure request := by simp [intercept, hrequested]
      rw [hselect, hintercept]
      exact ⟨s, rfl, rfl, h⟩
  | module c =>
      obtain ⟨t, hkeeps, hscopes, hremembers⟩ := keeps_spec h c
      have hselect : v.select request = v.keeps c >>= fun keeps =>
          if keeps then pure request
          else (Scopes.managedVersion (some v.configuration) c.id v.poms).within Selecting.scopes
            (fun s scopes => { s with scopes := scopes }) >>= fun version =>
              pure (version.elim request request.force) := by
        simp only [select, hrequested]
      have hkept : (v.keeps c s).answer = .ok (v.leaves c) := by rw [hkeeps]
      rw [hselect, Operation.bind_of_ok hkept, hkeeps]
      cases hleaves : v.leaves c with
      | true =>
          have hexempt : v.Exempt request := (leaves_eq_true_iff hrequested).1 hleaves
          rw [intercept_of_exempt hexempt]
          exact ⟨t, rfl, hscopes, hremembers⟩
      | false =>
          rw [Scopes.intercept_of_leaves_eq_false hrequested hleaves]
          simp only [Bool.false_eq_true, if_false, Operation.within_bind_pure, List.nil_append]
          rw [← hscopes]
          exact ⟨_, rfl, rfl, hremembers⟩

/-- Whatever was decided, what was gathered is right and the scopes have at most settled. -/
theorem after_spec (h : v.Remembers s) (requests : List Request) :
    v.Remembers (v.after s requests) ∧
      Scopes.Settling v.poms Set.univ Set.univ s.scopes (v.after s requests).scopes := by
  induction requests generalizing s with
  | nil => exact ⟨h, .refl s.scopes⟩
  | cons request rest ih =>
      obtain ⟨t, hselect, hscopes, hremembers⟩ := select_spec h request
      have hstate : (v.select request s).state = t := by rw [hselect]
      have hafter : v.after s (request :: rest) = v.after t rest := by
        rw [← hstate]
        rfl
      have hsettled : Scopes.Settling v.poms Set.univ Set.univ s.scopes t.scopes := by
        have hobserves : (v.intercept request).Observes
            (Scopes.Settling v.poms Set.univ Set.univ) :=
          Scopes.observes_intercept (by simp) request
        rw [hscopes]
        exact hobserves.moves s.scopes
      rw [hafter]
      exact ⟨(ih hremembers).1, hsettled.trans (ih hremembers).2⟩

/-- In a course of requests each one is decided as it would be as the first and only one. What it
asks for is never changed. An exempt request stays as it was and calls no service; any other is
forced to the managed version of its module, stays as it was if there is none, and stays as it was
with the failure of the look-up if that fails. -/
theorem decided_alone (v : VersionSelector) (scopes : Scopes) (earlier : List Request)
    (request : Request) :
    let here := v.select request (v.after (.start scopes) earlier)
    let decision := request.decided (v.select request (.start scopes)).answer
    request.decided here.answer = decision ∧
      decision.request.requested = request.requested ∧
      (v.Exempt request → decision = ⟨request, none⟩ ∧ here.log = []) ∧
      ∀ c, request.requested = .module c → ¬ v.Exempt request →
        decision =
          match (Scopes.managedVersion (some v.configuration) c.id v.poms scopes).answer with
          | .ok (some version) => ⟨{ request with forced := some version }, none⟩
          | .ok none => ⟨request, none⟩
          | .error report => ⟨request, some report⟩ := by
  intro here decision
  have hstart := remembers_start (v := v) scopes
  obtain ⟨hremembers, hsettled⟩ := after_spec hstart earlier
  obtain ⟨t, hhere, -, -⟩ := select_spec hremembers request
  obtain ⟨u, halone, -, -⟩ := select_spec hstart request
  have hdecision : decision = request.decided (v.intercept request scopes).answer :=
    congrArg (fun outcome => request.decided outcome.answer) halone
  have hobserves : (v.intercept request).Observes (Scopes.Settling v.poms Set.univ Set.univ) :=
    Scopes.observes_intercept (by simp) request
  rw [hdecision]
  refine ⟨?_, requested_decided_intercept v request scopes, ?_, ?_⟩
  · -- what was settled before does not show in the answer
    have hanswer : here.answer = (v.intercept request scopes).answer :=
      (congrArg Outcome.answer hhere).trans (hobserves.ignores _ _ hsettled)
    rw [hanswer]
  · intro hexempt
    have hlog : here.log = (v.intercept request (v.after (.start scopes) earlier).scopes).log :=
      congrArg Outcome.log hhere
    rw [hlog, intercept_of_exempt hexempt, intercept_of_exempt hexempt]
    exact ⟨rfl, rfl⟩
  · intro c hrequested hexempt
    exact decided_intercept_of_not_exempt hrequested hexempt scopes

/-- A build whose global scope imports a BOM that is not found. -/
def brokenBuild : Scopes :=
  (Scopes.new ∅).declareAll
    [(none, .bom (.plain ⟨⟨"org", "third"⟩, some "1"⟩)),
      (some "test", .explicit ⟨"org", "util"⟩ "3.0" [])]

/-- A selector for a configuration that declares a module at a dynamic version. -/
def testSelector : VersionSelector :=
  ⟨Scope.twoBoms, ⟨"test", [], [.module ⟨⟨"org", "lib"⟩, some "latest.release"⟩], [], []⟩, ∅⟩

/-- The first look-up fails, which the others do not notice. -/
theorem decided_alone_after_failure :
    let request (artifact version : String) :=
      Request.ofSelector (.module ⟨⟨"org", artifact⟩, some version⟩)
    let decision (request : Request) (earlier : List Request) :=
      request.decided
        (testSelector.select request (testSelector.after (.start brokenBuild) earlier)).answer
    (decision (request "tool" "1.0") []).failure.isSome ∧
      decision (request "util" "1.0") [request "tool" "1.0"] =
        ⟨{ request "util" "1.0" with forced := some "3.0" }, none⟩ ∧
      decision (request "lib" "2.+") [request "tool" "1.0", request "util" "1.0"] =
        ⟨request "lib" "2.+", none⟩ := by
  intro request decision
  obtain ⟨hutil, -, -, -⟩ :=
    decided_alone testSelector brokenBuild [request "tool" "1.0"] (request "util" "1.0")
  obtain ⟨hlib, -, -, -⟩ := decided_alone testSelector brokenBuild
    [request "tool" "1.0", request "util" "1.0"] (request "lib" "2.+")
  exact ⟨by rfl, hutil.trans rfl, hlib.trans rfl⟩

end ManagedGraph.VersionSelector
