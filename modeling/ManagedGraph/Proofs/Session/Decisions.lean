import ManagedGraph.Proofs.Scopes.Selecting
import ManagedGraph.Proofs.Session.Independence

/-!
# The decisions of both passes

Each pass of a resolution has a selector of its own, which starts from the scopes as the pass
finds them and decides the requests of the pass in turn. Between the passes the scopes settle
further and exclude rules are added to the configuration, and neither shows in a decision: for
every request, both selectors decide as the prepared session answers (`decision_eq`).
-/

namespace ManagedGraph.Session

variable {poms : PomService} {resolver : GraphResolver} {c : Configuration} {s t : Session}
variable {earlier : List Request} {request : Request}

/-- What the selector of a pass decides about a request after some others. The pass is one
through the graph of a configuration and starts in a session. -/
def decision (poms : PomService) (c : Configuration) (s : Session) (earlier : List Request)
    (request : Request) : Decision :=
  let v : VersionSelector := ⟨poms, c, s.localModules⟩
  request.decided (v.select request (v.after (.start s.scopes) earlier)).answer

/-- Earlier requests do not show in a decision. -/
theorem decision_eq : decision poms c s earlier request = request.decided (answerTo poms c s request) := by
  let v : VersionSelector := ⟨poms, c, s.localModules⟩
  obtain ⟨hremembers, hsettled⟩ := v.after_spec (v.remembers_start s.scopes) earlier
  obtain ⟨_, hselect, -, -⟩ := v.select_spec hremembers request
  have hanswer : (v.select request (v.after (.start s.scopes) earlier)).answer =
      (v.intercept request (v.after (.start s.scopes) earlier).scopes).answer :=
    congrArg Outcome.answer hselect
  have hobserves : (v.intercept request).Observes (Scopes.Settling poms Set.univ Set.univ) :=
    Scopes.observes_intercept (by simp) request
  exact congrArg request.decided (hanswer.trans (hobserves.ignores _ _ hsettled))

/-- Deriving the exclude rules does no more than settle scopes of the prepared session. -/
theorem settling_computeRules (s : Session) :
    Settling poms Set.univ Set.univ (prepare c s) (computeRules poms resolver c s).state := by
  rw [computeRules_eq]
  exact moves_firstPass (by simp) (prepare c s)

/-- If a resolution gets to its final pass, which starts where the exclude rules were derived, the
selectors of both passes decide every request alike, whatever other requests each of them has
decided before. All requests that the resolution makes are decided in this way. -/
theorem passes_decide_alike (poms : PomService) (resolver : GraphResolver) (c : Configuration)
    (s : Session) (rules : List ModuleId)
    (hfinal : (computeRules poms resolver c s).answer = .ok rules)
    (earlier later : List Request) (request : Request) :
    let derived := computeRules poms resolver c s
    let inTrial := decision poms c.withoutExcludeRules (prepare c s)
    let inFinal := decision poms (c.withExcludeRules rules) derived.state
    (resolve poms resolver c s).log =
        derived.log ++ (run poms resolver (c.withExcludeRules rules) derived.state).log ∧
      inTrial earlier request = inFinal later request ∧
      ∀ answer, .request request answer ∈ (resolve poms resolver c s).log →
        request.decided answer = inTrial earlier request := by
  intro derived inTrial inFinal
  have htrial : inTrial earlier request =
      request.decided (answerTo poms c (prepare c s) request) := decision_eq
  have hsettled : answerTo poms c derived.state request =
      answerTo poms c (prepare c s) request :=
    answerTo_of_settling (Set.subset_univ _) (settling_computeRules s) request
  refine ⟨?_, ?_, ?_⟩
  · unfold resolve
    rw [Operation.bind_of_ok hfinal, Operation.log_bind_pure]
  · calc inTrial earlier request
        = request.decided (answerTo poms c (prepare c s) request) := htrial
      _ = request.decided (answerTo poms c derived.state request) := by rw [hsettled]
      _ = inFinal later request := decision_eq.symm
  · intro answer hlog
    rw [htrial, answer_of_mem_log_resolve hlog]

/-- A session in which a BOM is imported globally and a module is excluded below the root. -/
def withExcludedUtil : Session :=
  let root : ModuleId := ⟨"org", "root"⟩
  { withGlobalBom with
    scopes := withGlobalBom.scopes.addExplicit none root "1.0" [.pattern "org" "util"] }

/-- The excluded module is in the complete graph, so the final pass has a rule for it. Before and
after, a module of the BOM is forced to its version, which the request for the excluded one asked
before does not change. -/
theorem passes_decide_lib_alike :
    let request (artifact : String) := Request.ofSelector (.module ⟨⟨"org", artifact⟩, none⟩)
    let derived := computeRules bomAndLib direct compileClasspath withExcludedUtil
    let rules : List ModuleId := [⟨"org", "util"⟩]
    derived.answer = .ok rules ∧
      decision bomAndLib compileClasspath.withoutExcludeRules
          (prepare compileClasspath withExcludedUtil) [request "util"] (request "lib") =
        ⟨(request "lib").force "2.0", none⟩ ∧
      decision bomAndLib (compileClasspath.withExcludeRules rules) derived.state []
          (request "lib") = ⟨(request "lib").force "2.0", none⟩ := by
  intro request derived rules
  have hfinal : derived.answer = .ok rules := by decide +kernel
  obtain ⟨-, hagree, -⟩ := passes_decide_alike bomAndLib direct compileClasspath withExcludedUtil
    rules hfinal [request "util"] [] (request "lib")
  exact ⟨hfinal, rfl, hagree.symm.trans rfl⟩

end ManagedGraph.Session
