import ManagedGraph.Proofs.Scopes.Declaring

/-!
# The tables of a hierarchy

A configuration draws on the scopes of its hierarchy, most specific first, and on the global
scope. A look-up of one module stops at the first scope that manages it, while the merged
table lays the tables of all scopes over each other, the most specific on top. The merged
table exists exactly when all of these scopes resolve (`answer_hierarchyVersions_eq_ok_iff`),
and it then holds what the look-ups answer (`managedVersion_agrees_with_hierarchyVersions`).
-/

namespace ManagedGraph

/-- Of several tables laid over another, the last one that has an entry is read. -/
theorem getElem?_foldl_union (base : VersionTable) (tables : List VersionTable) (id : ModuleId) :
    (tables.foldl (· ∪ ·) base)[id]? =
      (tables.reverse.findSome? fun table => table[id]?).or base[id]? := by
  have hlast : (tables.foldl (· ∪ ·) base)[id]? =
      (tables.filterMap fun table => table[id]?).getLast?.or base[id]? := by
    apply view_foldl (fun table : VersionTable => table[id]?) fun _ => True
    · intro _ _ h
      exact h
    · intro table upper _
      simp [Std.ExtTreeMap.getElem?_union]
    · trivial
  rw [hlast, ← List.head?_reverse, ← List.filterMap_reverse, List.head?_filterMap]

namespace Scopes

variable {poms : PomService} {scope : Option String} {c : Scopes} {configuration : Configuration}
variable {queried watched : Set (Option String)} {names : List String} {id : ModuleId}
variable {α : Type} {read : Scope → α}

/-- The BOMs of a scope are imported without failure, if there is a scope of that name. -/
def Resolves (poms : PomService) (c : Scopes) (scope : Option String) : Prop :=
  ∀ s ∈ c.settled? poms scope, s.state = .resolved

/-- What is read from a scope once it has settled. -/
def reading (poms : PomService) (c : Scopes) (read : Scope → α) (scope : Option String) :
    Option α :=
  (c.settled? poms scope).map read

/-! ## Queries of several scopes -/

/-- A query of one scope succeeds exactly when the scope resolves. -/
theorem answer_ask_eq_ok_iff {found : Option α} :
    (ask poms read scope c).answer = .ok found ↔
      c.Resolves poms scope ∧ found = c.reading poms read scope := by
  rw [answer_ask]
  unfold Resolves reading
  cases hsettled : c.settled? poms scope with
  | none => simp [eq_comm]
  | some s =>
      have hopen : s.isOpen = false := by
        obtain ⟨before, -, rfl⟩ := Option.map_eq_some_iff.1 hsettled
        exact Scope.isOpen_settle
      simp [Scope.verdict_map, Scope.verdict_eq_ok_iff hopen]

/-- A query of several scopes succeeds exactly when all of them resolve, and reads from those
that exist. -/
theorem answer_askAll_eq_ok_iff {found : List α} :
    (askAll poms read names c).answer = .ok found ↔
      (∀ name ∈ names, c.Resolves poms (some name)) ∧
        found = names.filterMap fun name => c.reading poms read (some name) := by
  induction names generalizing found with
  | nil =>
      have hnone : (askAll poms read [] c).answer = .ok [] := rfl
      simp [hnone, eq_comm]
  | cons name rest ih =>
      have hmoves : (ask poms read (some name)).Moves (Settling poms Set.univ Set.univ) :=
        (observes_ask read (by simp)).moves
      have hrest : (askAll poms read rest).Ignores (Settling poms Set.univ Set.univ) :=
        (observes_askAll read (by simp)).ignores
      rw [askAll, Operation.answer_both_eq_ok_iff hmoves hrest]
      constructor
      · rintro ⟨here, others, hhere, hothers, rfl⟩
        obtain ⟨hname, rfl⟩ := answer_ask_eq_ok_iff.1 hhere
        obtain ⟨hresolve, rfl⟩ := ih.1 hothers
        refine ⟨List.forall_mem_cons.2 ⟨hname, hresolve⟩, ?_⟩
        rw [List.filterMap_cons]
        cases c.reading poms read (some name) <;> rfl
      · rintro ⟨hresolve, rfl⟩
        obtain ⟨hname, hresolve⟩ := List.forall_mem_cons.1 hresolve
        refine ⟨_, _, answer_ask_eq_ok_iff.2 ⟨hname, rfl⟩, ih.2 ⟨hresolve, rfl⟩, ?_⟩
        rw [List.filterMap_cons]
        cases c.reading poms read (some name) <;> rfl

/-! ## Look-ups and the merged table -/

/-- The tables of the scopes of some names, in order. -/
def tables (poms : PomService) (c : Scopes) (names : List String) : List VersionTable :=
  names.filterMap fun name => c.reading poms Scope.versions (some name)

/-- The table of the global scope. -/
def globalTable (poms : PomService) (c : Scopes) : VersionTable :=
  (c.global.settle poms c.properties).versions

theorem answer_askGlobal_eq_ok_iff {found : α} :
    (askGlobal poms read c).answer = .ok found ↔
      c.Resolves poms none ∧ found = read (c.global.settle poms c.properties) := by
  have hresolves : c.Resolves poms none ↔
      (c.global.settle poms c.properties).state = .resolved := by
    simp [Resolves, settled?, get?]
  rw [hresolves]
  exact Scope.verdict_eq_ok_iff Scope.isOpen_settle

/-- If all scopes resolve, a look-up answers from the first table that has an entry. -/
theorem answer_firstVersion_of_resolves (hglobal : c.Resolves poms none)
    (hnames : ∀ name ∈ names, c.Resolves poms (some name)) :
    (firstVersion poms id names c).answer =
      .ok (((c.tables poms names).findSome? fun table => table[id]?).or
        (c.globalTable poms)[id]?) := by
  induction names with
  | nil => exact answer_askGlobal_eq_ok_iff.2 ⟨hglobal, rfl⟩
  | cons name rest ih =>
      obtain ⟨hname, hrest⟩ := List.forall_mem_cons.1 hnames
      have hasked : (ask poms (fun s => s.versions[id]?) (some name) c).answer =
          .ok (c.reading poms (fun s => s.versions[id]?) (some name)) :=
        answer_ask_eq_ok_iff.2 ⟨hname, rfl⟩
      -- the rest of the look-up does not see that this scope has settled
      have hmoves : (ask poms (fun s => s.versions[id]?) (some name)).Moves
          (Settling poms Set.univ Set.univ) :=
        (observes_ask _ (by simp)).moves
      have hignores : (firstVersion poms id rest).Ignores (Settling poms Set.univ Set.univ) :=
        (observes_firstVersion id (by simp) (by simp)).ignores
      have hmoved := hignores c _ (hmoves c)
      rw [answer_firstVersion_cons, hasked, hmoved, ih hrest]
      cases hsettled : c.settled? poms (some name) with
      | none => simp [tables, reading, hsettled]
      | some s => cases hversion : s.versions[id]? <;> simp [tables, reading, hsettled, hversion]

/-- There is a merged table exactly when all scopes resolve. The most specific one is on top. -/
theorem answer_hierarchyVersions_eq_ok_iff {table : VersionTable} :
    (hierarchyVersions configuration poms c).answer = .ok table ↔
      c.Resolves poms none ∧ (∀ name ∈ configuration.hierarchy, c.Resolves poms (some name)) ∧
        table = (c.tables poms configuration.hierarchy).reverse.foldl (· ∪ ·)
          (c.globalTable poms) := by
  have hmoves : (askGlobal poms Scope.versions).Moves (Settling poms Set.univ Set.univ) :=
    (observes_askGlobal _ (by simp)).moves
  have hothers : (askAll poms Scope.versions configuration.hierarchy.reverse).Ignores
      (Settling poms Set.univ Set.univ) :=
    (observes_askAll _ (by simp)).ignores
  have hreversed : (c.tables poms configuration.hierarchy).reverse =
      configuration.hierarchy.reverse.filterMap fun name =>
        c.reading poms Scope.versions (some name) :=
    List.filterMap_reverse.symm
  rw [hierarchyVersions, Operation.answer_both_eq_ok_iff hmoves hothers, hreversed]
  constructor
  · rintro ⟨base, others, hbase, hothers, rfl⟩
    obtain ⟨hglobal, rfl⟩ := answer_askGlobal_eq_ok_iff.1 hbase
    obtain ⟨hnames, rfl⟩ := answer_askAll_eq_ok_iff.1 hothers
    exact ⟨hglobal, fun name hname => hnames name (List.mem_reverse.2 hname), rfl⟩
  · rintro ⟨hglobal, hnames, rfl⟩
    refine ⟨_, _, answer_askGlobal_eq_ok_iff.2 ⟨hglobal, rfl⟩,
      answer_askAll_eq_ok_iff.2 ⟨?_, rfl⟩, rfl⟩
    intro name hname
    exact hnames name (List.mem_reverse.1 hname)

/-- There are merged exclusions exactly when all scopes resolve. -/
theorem answer_exclusions_eq_ok_iff {configuration : Option Configuration} {table : Exclusions} :
    (exclusions configuration poms c).answer = .ok table ↔
      c.Resolves poms none ∧ (∀ name ∈ hierarchyOf configuration, c.Resolves poms (some name)) ∧
        table = ((hierarchyOf configuration).filterMap fun name =>
          c.reading poms Scope.exclusions (some name)).foldl Exclusions.merge
            (c.global.settle poms c.properties).exclusions := by
  have hmoves : (askGlobal poms Scope.exclusions).Moves (Settling poms Set.univ Set.univ) :=
    (observes_askGlobal _ (by simp)).moves
  have hothers : (askAll poms Scope.exclusions (hierarchyOf configuration)).Ignores
      (Settling poms Set.univ Set.univ) :=
    (observes_askAll _ (by simp)).ignores
  rw [exclusions, Operation.answer_both_eq_ok_iff hmoves hothers]
  constructor
  · rintro ⟨base, others, hbase, hothers, rfl⟩
    obtain ⟨hglobal, rfl⟩ := answer_askGlobal_eq_ok_iff.1 hbase
    obtain ⟨hnames, rfl⟩ := answer_askAll_eq_ok_iff.1 hothers
    exact ⟨hglobal, hnames, rfl⟩
  · rintro ⟨hglobal, hnames, rfl⟩
    exact ⟨_, _, answer_askGlobal_eq_ok_iff.2 ⟨hglobal, rfl⟩,
      answer_askAll_eq_ok_iff.2 ⟨hnames, rfl⟩, rfl⟩

section View

variable (hview : configuration.view ⊆ queried ∩ watched)

include hview

theorem observes_managedVersion (id : ModuleId) :
    (managedVersion (some configuration) id poms).Observes (Settling poms queried watched) := by
  apply observes_firstVersion id (hview Configuration.none_mem_view)
  intro name hname
  exact hview (Configuration.some_mem_view.2 hname)

theorem observes_hierarchyVersions :
    (hierarchyVersions configuration poms).Observes (Settling poms queried watched) := by
  apply (observes_askGlobal _ (hview Configuration.none_mem_view)).bind
  intro base
  apply Operation.Observes.bind
  · apply observes_askAll
    intro name hname
    exact hview (Configuration.some_mem_view.2 (List.mem_reverse.1 hname))
  · intro others
    exact Operation.observes_pure _

end View

/-- A look-up for a configuration and its merged table do not disturb each other, whichever is
asked for first, and if there is a merged table, the look-up answers with the entry of the
module in it. -/
theorem managedVersion_agrees_with_hierarchyVersions (poms : PomService) (c : Scopes)
    (configuration : Configuration) (id : ModuleId) :
    let lookUp := managedVersion (some configuration) id poms
    let merge := hierarchyVersions configuration poms
    (lookUp (merge c).state).answer = (lookUp c).answer ∧
      (merge (lookUp c).state).answer = (merge c).answer ∧
      ∀ table, (merge c).answer = .ok table → (lookUp c).answer = .ok table[id]? := by
  intro lookUp merge
  have hview : configuration.view ⊆ Set.univ ∩ Set.univ := by simp
  have hlookUp : lookUp.Observes (Settling poms Set.univ Set.univ) :=
    observes_managedVersion hview id
  have hmerge : merge.Observes (Settling poms Set.univ Set.univ) :=
    observes_hierarchyVersions hview
  refine ⟨hlookUp.ignores _ _ (hmerge.moves c), hmerge.ignores _ _ (hlookUp.moves c), ?_⟩
  intro table htable
  obtain ⟨hglobal, hnames, rfl⟩ := answer_hierarchyVersions_eq_ok_iff.1 htable
  rw [getElem?_foldl_union, List.reverse_reverse]
  exact answer_firstVersion_of_resolves hglobal hnames

/-- A build in which three scopes manage modules, the last of which has settled. -/
def layered : Scopes :=
  let declared := (new ∅).declareAll
    [(none, .bom (.plain Scope.firstBom.coordinates)),
      (some "test", .explicit ⟨"org", "lib"⟩ "1.0" []),
      (some "main", .explicit ⟨"org", "util"⟩ "3.0" []),
      (some "main", .bom (.plain Scope.secondBom.coordinates))]
  (scopeVersions (some "main") Scope.twoBoms declared).state

/-- A configuration that names one scope twice, itself, and one that does not exist. -/
def layeredTest : Configuration :=
  ⟨"test", ["main", "absent", "test", "main"], [], [], []⟩

theorem managedVersion_agrees_in_layers :
    ∃ table, (hierarchyVersions layeredTest Scope.twoBoms layered).answer = .ok table ∧
      table[(⟨"org", "lib"⟩ : ModuleId)]? = some "1.0" ∧
      table[(⟨"org", "tool"⟩ : ModuleId)]? = some "0.9" ∧
      table[(⟨"org", "extra"⟩ : ModuleId)]? = none := by
  have hmerged : (hierarchyVersions layeredTest Scope.twoBoms layered).answer.isOk = true := by
    decide
  cases htable : (hierarchyVersions layeredTest Scope.twoBoms layered).answer with
  | error report => simp [htable, Except.isOk, Except.toBool] at hmerged
  | ok table =>
      have hagrees (id : ModuleId) (version : Option String)
          (hversion : (managedVersion (some layeredTest) id Scope.twoBoms layered).answer =
            .ok version) : table[id]? = version := by
        obtain ⟨-, -, hlookUp⟩ :=
          managedVersion_agrees_with_hierarchyVersions Scope.twoBoms layered layeredTest id
        exact Except.ok.inj ((hlookUp table htable).symm.trans hversion)
      exact ⟨table, rfl, hagrees _ _ (by decide), hagrees _ _ (by decide), hagrees _ _ (by decide)⟩

end Scopes

end ManagedGraph
