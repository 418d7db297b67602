import ManagedGraph.Proofs.Scope.Gathering
import ManagedGraph.Proofs.Scopes.Hierarchy

/-!
# Merged exclusions

The exclusions of a configuration are those of the global scope and of all scopes of its hierarchy,
taken together. There are such exclusions exactly when all of these scopes resolve, and none of the
scopes takes anything away from another, so that the order in which the scopes are named, and how
often they are, makes no difference (`exclusions_merged`).
-/

namespace ManagedGraph

namespace Scope

variable {s : Scope} {poms : PomService} {properties : Properties}

theorem answer_resolve_eq_ok_iff :
    (Scope.resolve poms properties s).answer = .ok () ↔
      (s.settle poms properties).state = .resolved := by
  have hanswer : (Scope.resolve poms properties s).answer =
      (s.settle poms properties).verdict fun _ => () := rfl
  rw [hanswer, verdict_eq_ok_iff isOpen_settle, and_iff_left rfl]

/-- Resolving a scope fails exactly if the scope has not resolved then. -/
theorem exists_error_resolve_iff :
    (∃ report, (Scope.resolve poms properties s).answer = .error report) ↔
      (s.settle poms properties).state ≠ .resolved := by
  rw [ne_eq, ← answer_resolve_eq_ok_iff]
  cases (Scope.resolve poms properties s).answer <;> simp

end Scope

namespace Scopes

variable {poms : PomService} {c : Scopes} {configuration other : Option Configuration}
variable {s : Scope} {table : Exclusions} {owner : ModuleId} {p : Exclusion}

/-- The scopes of the hierarchy of a configuration, as far as they exist. -/
def namedFor (c : Scopes) (configuration : Option Configuration) : List Scope :=
  (hierarchyOf configuration).filterMap fun name => c.named[name]?

/-- The scopes that a configuration draws on. -/
def scopesFor (c : Scopes) (configuration : Option Configuration) : List Scope :=
  c.global :: c.namedFor configuration

/-- The exclusions of the scopes that a configuration draws on, once they have settled. -/
def exclusionsFor (poms : PomService) (c : Scopes) (configuration : Option Configuration) :
    Exclusions :=
  (c.namedFor configuration).foldl
    (fun table s => table.merge (s.settle poms c.properties).exclusions)
    (c.global.settle poms c.properties).exclusions

theorem forall_mem_scopesFor {holds : Scope → Prop} :
    (∀ s ∈ c.scopesFor configuration, holds s) ↔
      (∀ s ∈ c.get? none, holds s) ∧
        ∀ name ∈ hierarchyOf configuration, ∀ s ∈ c.get? (some name), holds s := by
  have hglobal : (∀ s ∈ c.get? none, holds s) ↔ holds c.global := by simp [get?]
  rw [scopesFor, List.forall_mem_cons, hglobal]
  refine and_congr_right fun _ => ?_
  simp only [namedFor, List.mem_filterMap, get?, Option.mem_def]
  constructor
  · intro h name hname s hs
    exact h s ⟨name, hname, hs⟩
  · rintro h s ⟨name, hname, hs⟩
    exact h name hname s hs

/-- What is registered for a configuration is what some scope registers on which it draws. -/
theorem mem_exclusionsFor :
    p ∈ (c.exclusionsFor poms configuration).patterns owner ↔
      ∃ s ∈ c.scopesFor configuration,
        p ∈ (s.settle poms c.properties).exclusions.patterns owner := by
  rw [scopesFor, List.exists_mem_cons_iff]
  apply gathers_foldl (fun table : Exclusions => p ∈ table.patterns owner) fun _ => True
  · intro _ _ h
    exact h
  · intro _ _ _
    exact Exclusions.mem_patterns_merge
  · trivial

/-- There are exclusions for a configuration exactly when all scopes resolve on which it draws. -/
theorem answer_exclusions_eq_ok_iff_exclusionsFor :
    (exclusions configuration poms c).answer = .ok table ↔
      (∀ s ∈ c.scopesFor configuration, (s.settle poms c.properties).state = .resolved) ∧
        table = c.exclusionsFor poms configuration := by
  have hresolve (scope : Option String) : c.Resolves poms scope ↔
      ∀ s ∈ c.get? scope, (s.settle poms c.properties).state = .resolved := by
    simp [Resolves, settled?]
  have hread : ((hierarchyOf configuration).filterMap fun name =>
      c.reading poms Scope.exclusions (some name)) =
        (c.namedFor configuration).map fun s => (s.settle poms c.properties).exclusions := by
    simp [namedFor, List.map_filterMap, reading, settled?, get?, Function.comp_def]
  rw [answer_exclusions_eq_ok_iff, forall_mem_scopesFor, hread, List.foldl_map, ← and_assoc]
  simp only [hresolve]
  rfl

/-- A configuration whose hierarchy has the same names draws on the same scopes. -/
theorem mem_scopesFor_congr
    (hsame : ∀ name, name ∈ hierarchyOf other ↔ name ∈ hierarchyOf configuration) :
    s ∈ c.scopesFor other ↔ s ∈ c.scopesFor configuration := by
  simp only [scopesFor, namedFor, List.mem_cons, List.mem_filterMap, hsame]

theorem exclusionsFor_congr
    (hsame : ∀ name, name ∈ hierarchyOf other ↔ name ∈ hierarchyOf configuration) :
    c.exclusionsFor poms other = c.exclusionsFor poms configuration := by
  -- a fold over another list, but neither table has anything that no scope registers
  apply Exclusions.ext_patterns
  intro owner
  apply Std.ExtTreeSet.ext_mem
  intro p
  simp only [mem_exclusionsFor, mem_scopesFor_congr hsame]

/-- Merging the exclusions of a configuration fails exactly if one of the scopes fails to resolve on
which the configuration draws, be it the global one or one of the hierarchy. Otherwise the merged
exclusions register for each owner what these scopes register once they have resolved, and an owner
for which none of them registers anything has no entry. With the names of the hierarchy in another
order, or repeated, they are the same. -/
theorem exclusions_merged (configuration : Option Configuration) (poms : PomService)
    (c : Scopes) :
    let resolved := Scope.resolve poms c.properties
    let merged := (exclusions configuration poms c).answer
    ((∃ report, merged = .error report) ↔
      ∃ s ∈ c.scopesFor configuration, ∃ report, (resolved s).answer = .error report) ∧
    (∀ table, merged = .ok table → ∀ owner,
      (∀ p, p ∈ table.patterns owner ↔
        ∃ s ∈ c.scopesFor configuration, p ∈ (resolved s).state.exclusions.patterns owner) ∧
      (table.get? owner = none ↔
        ∀ s ∈ c.scopesFor configuration, (resolved s).state.exclusions.patterns owner = ∅)) ∧
    ∀ other, (∀ name, name ∈ hierarchyOf other ↔ name ∈ hierarchyOf configuration) →
      ∀ table, (exclusions other poms c).answer = .ok table ↔ merged = .ok table := by
  intro resolved merged
  refine ⟨?failure, ?union, ?order⟩
  case failure =>
    have hfailure : (∃ report, merged = .error report) ↔ ¬ ∃ table, merged = .ok table := by
      cases merged <;> simp
    rw [hfailure]
    simp only [merged, resolved, answer_exclusions_eq_ok_iff_exclusionsFor,
      Scope.exists_error_resolve_iff, exists_and_left, exists_eq, and_true, not_forall, exists_prop]
  case union =>
    intro table htable owner
    obtain ⟨-, rfl⟩ := answer_exclusions_eq_ok_iff_exclusionsFor.1 htable
    refine ⟨fun p => mem_exclusionsFor, ?_⟩
    rw [Exclusions.get?_eq_none_iff]
    simp only [Std.ExtTreeSet.eq_empty_iff_forall_not_mem, mem_exclusionsFor]
    constructor
    · intro h s hs p hp
      exact h p ⟨s, hs, hp⟩
    · rintro h p ⟨s, hs, hp⟩
      exact h s hs p hp
  case order =>
    intro other hsame table
    simp only [merged, answer_exclusions_eq_ok_iff_exclusionsFor, mem_scopesFor_congr hsame,
      exclusionsFor_congr hsame]

/-- A build in which the global scope, two others and a BOM register exclusions below `org:lib`. Yet
another scope has a BOM that is not found. -/
def excluding : Scopes :=
  (new ∅).declareAll
    [(none, .explicit ⟨"org", "lib"⟩ "1.0" [.pattern "com" "x"]),
      (some "main", .bom (.plain ⟨⟨"org", "base"⟩, some "1"⟩)),
      (some "main", .explicit ⟨"org", "tool"⟩ "1.0" []),
      (some "test", .explicit ⟨"org", "lib"⟩ "1.0" [.pattern "com" "x", .pattern "com" "y"]),
      (some "broken", .bom (.plain ⟨⟨"org", "absent"⟩, some "1"⟩))]

/-- A configuration that extends a scope of this build and one that does not exist. -/
def excludingTest : Configuration :=
  ⟨"test", ["main", "absent"], [], [], []⟩

/-- The same configuration with its scopes in another order, some of them more than once. -/
def excludingTestAgain : Configuration :=
  ⟨"test", ["absent", "main", "test", "main"], [], [], []⟩

theorem exclusions_merged_of_excluding :
    ∃ table,
      (exclusions (some excludingTest) Scope.excludingPoms excluding).answer = .ok table ∧
      (exclusions (some excludingTestAgain) Scope.excludingPoms excluding).answer = .ok table ∧
      (∀ p ∈ [.pattern "com" "x", .pattern "com" "y", .pattern "com" "a"],
        p ∈ table.patterns ⟨"org", "lib"⟩) ∧
      .pattern "com" "b" ∉ table.patterns ⟨"org", "lib"⟩ ∧
      table.get? ⟨"org", "tool"⟩ = none := by
  have hmerged :
      (exclusions (some excludingTest) Scope.excludingPoms excluding).answer.isOk = true := by
    decide
  have hsame : ∀ name, name ∈ hierarchyOf (some excludingTestAgain) ↔
      name ∈ hierarchyOf (some excludingTest) := by
    intro name
    simp only [hierarchyOf, Configuration.hierarchy, excludingTest, excludingTestAgain,
      List.mem_cons, List.not_mem_nil]
    grind
  obtain ⟨-, hunion, horder⟩ :=
    exclusions_merged (some excludingTest) Scope.excludingPoms excluding
  cases htable : (exclusions (some excludingTest) Scope.excludingPoms excluding).answer with
  | error report => simp [htable, Except.isOk, Except.toBool] at hmerged
  | ok table =>
      obtain ⟨hlib, -⟩ := hunion table htable ⟨"org", "lib"⟩
      obtain ⟨-, htool⟩ := hunion table htable ⟨"org", "tool"⟩
      refine ⟨table, rfl, (horder _ hsame table).2 htable, ?_, ?_, htool.2 (by decide)⟩
      · simp only [hlib]
        decide
      · rw [hlib]
        decide

end Scopes

end ManagedGraph
