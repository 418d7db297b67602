import Mathlib.Data.List.Basic
import Mathlib.Data.List.Induction
import ManagedGraph.Proofs.Scopes.Declaring

/-!
# The scope that decides

A look-up of a module goes through the scopes of a hierarchy and then to the global one. A scope
decides it by failing to import its BOMs or by managing the module, and the first one that does
ends it (`decided_by_first`). By then the scopes on the way have resolved. A scope that only comes
later is as it was and has caused no call, so nothing that is wrong with it shows.
-/

namespace ManagedGraph

/-- One more entry at the end of a list is a repetition if it is there already. -/
theorem eraseDups_snoc {α : Type} [BEq α] [LawfulBEq α] (l : List α) (a : α) :
    (l ++ [a]).eraseDups = l.eraseDups ++ if a ∈ l then [] else [a] := by
  rw [List.eraseDups_append]
  by_cases ha : a ∈ l <;> simp [List.removeAll, List.eraseDups_cons, ha]

namespace Scopes

variable {poms : PomService} {id : ModuleId} {c d : Scopes} {scope : Option String}
variable {asked before later : List (Option String)} {log : List PomCall}
variable {α : Type} {read : Scope → α} {decision : Except Report String}

/-! ## Single scopes -/

/-- How a scope decides on a module once it has settled: with its failure, or with the version
it manages. If it resolves and does not manage the module, or does not exist, the next decides. -/
def decision? (poms : PomService) (c : Scopes) (id : ModuleId) (scope : Option String) :
    Option (Except Report String) :=
  (c.settled? poms scope).bind fun s =>
    match s.state with
    | .failed cause => some (.error (s.importFailure cause))
    | .resolving => some (.error Scope.reentry)
    | .unresolved | .resolved => s.versions[id]?.map .ok

/-- The calls that settling a scope takes, if it exists. -/
def callsFor (c : Scopes) (scope : Option String) : List PomCall :=
  (c.get? scope).elim [] (Scope.callsToSettle c.properties)

/-- What a scope decides hangs on nothing but that scope and the properties. -/
theorem decision?_congr (hproperties : d.properties = c.properties)
    (hscope : d.get? scope = c.get? scope) :
    d.decision? poms id scope = c.decision? poms id scope := by
  simp [decision?, settled?, hproperties, hscope]

/-- A scope that leaves the decision to the next one resolves, if it exists. -/
theorem state_of_decision?_eq_none (h : c.decision? poms id scope = none) {s : Scope}
    (hs : c.settled? poms scope = some s) : s.state = .resolved := by
  -- a settled scope is no longer open, which rules the unresolved state out
  have hopen : s.isOpen = false := by
    obtain ⟨own, -, rfl⟩ := Option.map_eq_some_iff.1 hs
    exact Scope.isOpen_settle
  rw [decision?, hs, Option.bind_some] at h
  cases hstate : s.state with
  | unresolved => exact absurd (Scope.isOpen_iff.2 hstate) (by simp [hopen])
  | resolving => simp [hstate] at h
  | resolved => rfl
  | failed cause => simp [hstate] at h

theorem log_ask (c : Scopes) : (ask poms read scope c).log = c.callsFor scope := by
  unfold ask callsFor
  cases c.get? scope <;> rfl

/-! ## Scopes that were asked -/

/-- What has become of a build when some of its scopes were asked, and which calls that took:
these scopes have settled, at the first time that each was asked, and nothing else has happened. -/
structure AskedOnly (poms : PomService) (c : Scopes) (asked : List (Option String)) (d : Scopes)
    (log : List PomCall) : Prop where
  properties : d.properties = c.properties
  settled : ∀ scope ∈ asked, d.get? scope = c.settled? poms scope
  untouched : ∀ scope, scope ∉ asked → d.get? scope = c.get? scope
  log : log = asked.eraseDups.flatMap c.callsFor

namespace AskedOnly

theorem nil (c : Scopes) : AskedOnly poms c [] c [] :=
  ⟨rfl, by simp, fun _ _ => rfl, rfl⟩

theorem settling (h : AskedOnly poms c asked d log) :
    Settling poms Set.univ Set.univ c d where
  properties := h.properties
  get? := by
    intro scope _
    by_cases hasked : scope ∈ asked
    · exact Or.inr ⟨Set.mem_univ scope, h.settled scope hasked⟩
    · exact Or.inl (h.untouched scope hasked)

/-- No scope decides differently because some were asked before. -/
theorem decision? (h : AskedOnly poms c asked d log) (id : ModuleId) (scope : Option String) :
    d.decision? poms id scope = c.decision? poms id scope := by
  unfold Scopes.decision?
  rw [h.settling.settled? (Set.mem_univ scope)]

/-- A scope that was asked and decides nothing has resolved, if it exists. -/
theorem resolved (h : AskedOnly poms c asked d log) (hscope : scope ∈ asked)
    (hpass : c.decision? poms id scope = none) : ∀ s ∈ d.get? scope, s.state = .resolved := by
  intro s hs
  rw [h.settled scope hscope] at hs
  exact state_of_decision?_eq_none hpass hs

/-- The calls hang on nothing but the scopes that are asked. -/
theorem log_eq {c' d' : Scopes} {log' : List PomCall} (h' : AskedOnly poms c' asked d' log')
    (h : AskedOnly poms c asked d log) (hproperties : c'.properties = c.properties)
    (hsame : ∀ scope ∈ asked, c'.get? scope = c.get? scope) : log' = log := by
  rw [h'.log, h.log]
  apply List.flatMap_congr
  intro scope hscope
  rw [Scopes.callsFor, Scopes.callsFor, hproperties, hsame scope (List.mem_eraseDups.1 hscope)]

/-- A scope calls for its BOMs only when it is asked for the first time. -/
theorem callsFor (h : AskedOnly poms c asked d log) (scope : Option String) :
    d.callsFor scope = if scope ∈ asked then [] else c.callsFor scope := by
  unfold Scopes.callsFor
  by_cases hasked : scope ∈ asked
  · rw [if_pos hasked, h.settled scope hasked, settled?]
    cases c.get? scope with
    | none => rfl
    | some own => exact Scope.callsToSettle_of_not_isOpen Scope.isOpen_settle
  · rw [if_neg hasked, h.untouched scope hasked, h.properties]

/-- One more scope is asked. -/
theorem snoc (h : AskedOnly poms c asked d log) (read : Scope → α) (scope : Option String) :
    AskedOnly poms c (asked ++ [scope]) (ask poms read scope d).state
      (log ++ (ask poms read scope d).log) where
  properties := (properties_ask read scope d).trans h.properties
  settled := by
    intro other hother
    rw [get?_ask, h.settling.settled? (Set.mem_univ scope)]
    by_cases heq : scope = other
    · rw [if_pos heq, heq]
    · rw [if_neg heq]
      rcases List.mem_append.1 hother with hasked | hlast
      · exact h.settled other hasked
      · exact absurd (List.mem_singleton.1 hlast).symm heq
  untouched := by
    intro other hother
    have hne : scope ≠ other := by
      rintro rfl
      exact hother List.mem_concat_self
    have hasked : other ∉ asked := by
      intro hmem
      exact hother (List.mem_append_left _ hmem)
    rw [get?_ask, if_neg hne, h.untouched other hasked]
  log := by
    rw [log_ask, h.callsFor scope, eraseDups_snoc, List.flatMap_append, ← h.log]
    by_cases hasked : scope ∈ asked <;> simp [hasked]

end AskedOnly

/-! ## A path of scopes -/

/-- The version of a module that a scope manages, if it exists and does so. -/
def lookIn (poms : PomService) (id : ModuleId) (scope : Option String) :
    Operation PomCall Scopes (Option String) := do
  let found ← ask poms (fun s => s.versions[id]?) scope
  pure found.join

/-- The look-up of a module in some scopes, up to the first that decides. -/
def search (poms : PomService) (id : ModuleId) :
    List (Option String) → Operation PomCall Scopes (Option String)
  | [] => pure none
  | scope :: rest => do
      let found ← lookIn poms id scope
      found.elim (search poms id rest) fun version => pure (some version)

/-- The scopes that a look-up goes through: those of a hierarchy and then the global one. -/
def path (configuration : Option Configuration) : List (Option String) :=
  (hierarchyOf configuration).map some ++ [none]

/-- To look in a scope is to ask it, and it answers with what it decides or with nothing. -/
theorem lookIn_eq (poms : PomService) (id : ModuleId) (scope : Option String) (c : Scopes) :
    lookIn poms id scope c =
      let here := ask poms (fun s => s.versions[id]?) scope c
      ⟨(c.decision? poms id scope).elim (.ok none) fun decision => decision.map some,
        here.state, here.log⟩ := by
  have hanswer : (ask poms (fun s => s.versions[id]?) scope c).answer.map Option.join =
      (c.decision? poms id scope).elim (.ok none) fun decision => decision.map some := by
    rw [answer_ask, decision?]
    cases c.settled? poms scope with
    | none => rfl
    | some s =>
        simp only [Option.bind_some, Scope.verdict]
        cases s.state with
        | failed cause => rfl
        | resolving => rfl
        | unresolved => cases s.versions[id]? <;> rfl
        | resolved => cases s.versions[id]? <;> rfl
  rw [lookIn, Operation.outcome_bind_pure Option.join, hanswer]

/-- The global scope always exists, so it is asked like any other. -/
theorem lookIn_none (poms : PomService) (id : ModuleId) :
    lookIn poms id none = askGlobal poms fun s => s.versions[id]? := by
  have hask : ask poms (fun s => s.versions[id]?) none =
      askGlobal poms (fun s => s.versions[id]?) >>= fun found => pure (some found) := by
    funext c
    rw [Operation.outcome_bind_pure some]
    rfl
  rw [lookIn, hask, bind_assoc]
  simp only [pure_bind, Option.join_some]
  exact bind_pure _

/-- The look-up for a hierarchy searches its path. -/
theorem firstVersion_eq_search (poms : PomService) (id : ModuleId) (names : List String) :
    firstVersion poms id names = search poms id (names.map some ++ [none]) := by
  induction names with
  | nil =>
      have hlast (found : Option String) :
          (found.elim (search poms id []) fun version => pure (some version)) = pure found := by
        cases found <;> rfl
      rw [firstVersion, List.map_nil, List.nil_append, search, lookIn_none]
      simp only [hlast, bind_pure]
  | cons name rest ih =>
      rw [firstVersion, ih, List.map_cons, List.cons_append, search, lookIn, bind_assoc]
      simp only [pure_bind]
      congr 1
      funext found
      -- a scope that does not exist is passed like one that does not manage the module
      rcases found with _ | _ | version <;> rfl

/-- A scope that decides nothing leaves the search to the rest of the path. -/
theorem search_cons_of_none (rest : List (Option String)) (h : d.decision? poms id scope = none) :
    search poms id (scope :: rest) d =
      let here := ask poms (fun s => s.versions[id]?) scope d
      let others := search poms id rest here.state
      ⟨others.answer, others.state, here.log ++ others.log⟩ := by
  have hanswer : (lookIn poms id scope d).answer = .ok none := by
    rw [lookIn_eq, h]
    rfl
  rw [search, Operation.bind_of_ok hanswer, lookIn_eq]
  rfl

/-- A scope that decides ends the search. -/
theorem search_cons_of_some (rest : List (Option String))
    (h : d.decision? poms id scope = some decision) :
    search poms id (scope :: rest) d =
      let here := ask poms (fun s => s.versions[id]?) scope d
      ⟨decision.map some, here.state, here.log⟩ := by
  have hanswer : (lookIn poms id scope d).answer = decision.map some := by
    rw [lookIn_eq, h]
    rfl
  rw [search]
  cases decision with
  | error report =>
      rw [Operation.bind_of_error hanswer, lookIn_eq]
      rfl
  | ok version =>
      have hlog (log : List PomCall) : log ++ [] = log := List.append_nil log
      rw [Operation.bind_of_ok hanswer, lookIn_eq]
      exact congrArg (Outcome.mk _ _) (hlog _)

/-- The search passes the scopes that decide nothing. They are asked on the way. -/
theorem search_append (before rest : List (Option String))
    (hpass : ∀ scope ∈ before, c.decision? poms id scope = none) :
    ∃ d log, AskedOnly poms c before d log ∧
      search poms id (before ++ rest) c =
        let others := search poms id rest d
        ⟨others.answer, others.state, log ++ others.log⟩ := by
  -- from the end: the next scope is asked when all before it were asked
  induction before using List.reverseRecOn generalizing rest with
  | nil => exact ⟨c, [], .nil c, rfl⟩
  | append_singleton before scope ih =>
      have hbefore : ∀ other ∈ before, c.decision? poms id other = none := by
        intro other hother
        exact hpass other (List.mem_append_left _ hother)
      obtain ⟨d, log, hasked, hsearch⟩ := ih (scope :: rest) hbefore
      have hscope : d.decision? poms id scope = none := by
        rw [hasked.decision?]
        exact hpass scope List.mem_concat_self
      refine ⟨_, _, hasked.snoc (fun s => s.versions[id]?) scope, ?_⟩
      rw [List.append_assoc, List.singleton_append, hsearch, search_cons_of_none rest hscope]
      simp only [List.append_assoc]

/-- The scope that decides ends a look-up. The scopes on the way were asked, and no others. -/
theorem managedVersion_of_decision {configuration : Option Configuration}
    (hpath : path configuration = before ++ scope :: later)
    (hpass : ∀ earlier ∈ before, c.decision? poms id earlier = none)
    (hdecides : c.decision? poms id scope = some decision) :
    let outcome := managedVersion configuration id poms c
    outcome.answer = decision.map some ∧
      AskedOnly poms c (before ++ [scope]) outcome.state outcome.log := by
  intro outcome
  obtain ⟨d, log, hasked, hsearch⟩ := search_append before (scope :: later) hpass
  have hscope : d.decision? poms id scope = some decision := by
    rw [hasked.decision?, hdecides]
  rw [search_cons_of_some later hscope, ← hpath, path, ← firstVersion_eq_search] at hsearch
  have houtcome : outcome = _ := hsearch
  rw [houtcome]
  exact ⟨rfl, hasked.snoc _ scope⟩

/-- If no scope decides, there is no managed version, and all scopes were asked. -/
theorem managedVersion_of_no_decision {configuration : Option Configuration}
    (hpass : ∀ scope ∈ path configuration, c.decision? poms id scope = none) :
    let outcome := managedVersion configuration id poms c
    outcome.answer = .ok none ∧
      AskedOnly poms c (path configuration) outcome.state outcome.log := by
  intro outcome
  obtain ⟨d, log, hasked, hsearch⟩ := search_append (path configuration) [] hpass
  have hend : search poms id [] d = ⟨.ok none, d, []⟩ := rfl
  rw [hend, List.append_nil, path, ← firstVersion_eq_search] at hsearch
  have houtcome : outcome = ⟨.ok none, d, log ++ []⟩ := hsearch
  rw [houtcome, List.append_nil]
  exact ⟨rfl, hasked⟩

/-- The first scope on the path of a look-up that decides ends it. The look-up answers with the
failure or the version of that scope, and the scopes before it have resolved. A scope that only
comes later is as it was and has caused no call, so the look-up does not depend on it. If no scope
decides, all have resolved, and there is no managed version. -/
theorem decided_by_first (configuration : Option Configuration) (poms : PomService)
    (id : ModuleId) (c : Scopes) :
    let lookUp := managedVersion configuration id poms
    (∀ before scope later decision, path configuration = before ++ scope :: later →
      (∀ earlier ∈ before, c.decision? poms id earlier = none) →
      c.decision? poms id scope = some decision →
        (lookUp c).answer = decision.map some ∧
        (∀ earlier ∈ before, ∀ s ∈ (lookUp c).state.get? earlier, s.state = .resolved) ∧
        AskedOnly poms c (before ++ [scope]) (lookUp c).state (lookUp c).log ∧
        ∀ d : Scopes, d.properties = c.properties →
          (∀ other ∈ before ++ [scope], d.get? other = c.get? other) →
            (lookUp d).answer = (lookUp c).answer ∧ (lookUp d).log = (lookUp c).log) ∧
    ((∀ scope ∈ path configuration, c.decision? poms id scope = none) →
        (lookUp c).answer = .ok none ∧
        (∀ scope ∈ path configuration, ∀ s ∈ (lookUp c).state.get? scope, s.state = .resolved) ∧
        AskedOnly poms c (path configuration) (lookUp c).state (lookUp c).log) := by
  intro lookUp
  constructor
  · intro before scope later decision hpath hpass hdecides
    obtain ⟨hanswer, hasked⟩ := managedVersion_of_decision hpath hpass hdecides
    refine ⟨hanswer, ?_, hasked, ?_⟩
    · intro earlier hearlier
      exact hasked.resolved (List.mem_append_left _ hearlier) (hpass earlier hearlier)
    · -- in the other build the same scope decides in the same way
      intro d hproperties hsame
      have hpass' : ∀ earlier ∈ before, d.decision? poms id earlier = none := by
        intro earlier hearlier
        rw [decision?_congr hproperties (hsame earlier (List.mem_append_left _ hearlier))]
        exact hpass earlier hearlier
      have hdecides' : d.decision? poms id scope = some decision := by
        rw [decision?_congr hproperties (hsame scope List.mem_concat_self), hdecides]
      obtain ⟨hanswer', hasked'⟩ := managedVersion_of_decision hpath hpass' hdecides'
      exact ⟨hanswer'.trans hanswer.symm, hasked'.log_eq hasked hproperties hsame⟩
  · intro hpass
    obtain ⟨hanswer, hasked⟩ := managedVersion_of_no_decision hpass
    refine ⟨hanswer, ?_, hasked⟩
    intro scope hscope
    exact hasked.resolved hscope (hpass scope hscope)

/-- A build in which one scope manages a module and less specific ones import a BOM that is not
found. -/
def sheltered : Scopes :=
  (new ∅).declareAll
    [(some "test", .bom (.plain Scope.secondBom.coordinates)),
      (some "main", .explicit ⟨"org", "lib"⟩ "1.0" []),
      (some "base", .bom (.plain ⟨⟨"org", "third"⟩, some "1"⟩)),
      (none, .bom (.plain ⟨⟨"org", "third"⟩, some "1"⟩))]

/-- A configuration that names one scope twice and one that does not exist. -/
def shelteredTest : Configuration :=
  ⟨"test", ["absent", "main", "test", "base"], [], [], []⟩

/-- The broken BOM shows only where no scope before it decides. -/
theorem decided_by_first_sheltered :
    let lookUp (artifact : String) :=
      managedVersion (some shelteredTest) ⟨"org", artifact⟩ Scope.twoBoms sheltered
    (lookUp "lib").answer = .ok (some "1.0") ∧
      (lookUp "lib").log = [.strict [.plain Scope.secondBom.coordinates] ∅] ∧
      (lookUp "lib").state.get? (some "base") = sheltered.get? (some "base") ∧
      (lookUp "util").answer =
        .error (.ofProblem (.bomImport "org:third:1" "no POM for org:third:1")) := by
  intro lookUp
  have hfirst (id : ModuleId) := decided_by_first (some shelteredTest) Scope.twoBoms id sheltered
  obtain ⟨hlib, -⟩ := hfirst ⟨"org", "lib"⟩
  obtain ⟨hutil, -⟩ := hfirst ⟨"org", "util"⟩
  obtain ⟨hanswer, -, hasked, -⟩ := hlib [some "test", some "absent"] (some "main")
    [some "test", some "base", none] (.ok "1.0") (by decide) (by decide) (by decide)
  obtain ⟨hfailure, -⟩ := hutil [some "test", some "absent", some "main", some "test"]
    (some "base") [none] (.error (.ofProblem (.bomImport "org:third:1" "no POM for org:third:1")))
    (by decide) (by decide) (by decide)
  exact ⟨hanswer, hasked.log.trans (by decide), hasked.untouched _ (by decide), hfailure⟩

end Scopes

end ManagedGraph
