import ManagedGraph.Proofs.Scope.Declarations

/-!
# Importing BOMs

Settling an open scope fetches its BOMs once and takes over what they manage, below what was
declared: a table entry comes from the last declaration of its module, or else from the last
entry for it in the BOMs, in order (`precedence_of_declarations`). A scope that is not open
stays as it is, so settling twice is settling once (`settle_settle`).
-/

namespace ManagedGraph

/-- The version that a dependency managed by a BOM states for a module. It counts if the
dependency has no classifier and the version is concrete. -/
def Dependency.managed? (id : ModuleId) (d : Dependency) : Option String :=
  if d.id = id ∧ d.classifier = none then
    d.coordinates.version.filter Version.isConcrete
  else none

/-- The version that the last entry of some BOMs states for a module, the BOMs and the
entries of each taken in order. -/
def lastManaged (poms : List EffectivePom) (id : ModuleId) : Option String :=
  ((poms.flatMap EffectivePom.managed).filterMap (Dependency.managed? id)).getLast?

theorem concrete_of_lastManaged {poms : List EffectivePom} {id : ModuleId} {version : String}
    (h : lastManaged poms id = some version) : Version.isConcrete version = true := by
  rcases List.mem_filterMap.1 (List.mem_of_getLast? h) with ⟨d, -, hd⟩
  unfold Dependency.managed? at hd
  split at hd
  · exact (Option.filter_eq_some_iff.1 hd).2
  · exact absurd hd (by simp)

/-- The POMs of some BOMs. Without BOMs the service is not asked. -/
def PomService.fetch (poms : PomService) (boms : List PomReference) (properties : Properties) :
    Except Report (List EffectivePom) :=
  if boms = [] then .ok [] else poms.strict boms properties

/-- A service that answers each reference on its own finds nothing where there are no BOMs. -/
theorem PomService.fetch_ofEach (resolve : PomReference → Properties → Except Report EffectivePom)
    (boms : List PomReference) (properties : Properties) :
    (PomService.ofEach resolve).fetch boms properties =
      (PomService.ofEach resolve).strict boms properties := by
  unfold PomService.fetch
  split
  · rename_i hboms
    rw [hboms]
    rfl
  · rfl

namespace Scope

variable {s : Scope} {poms : PomService} {properties : Properties} {found : List EffectivePom}

/-! ## What BOMs contribute -/

theorem versions_contribute (d : Dependency) (id : ModuleId) :
    (s.contribute d).versions[id]? = (d.managed? id).or s.versions[id]? := by
  have hinsert (version : String) :
      (s.versions.insert d.id version)[id]? = if d.id = id then some version else s.versions[id]? := by
    simp [Std.ExtTreeMap.getElem?_insert]
  unfold contribute contribution? Dependency.managed?
  cases hclassifier : d.classifier with
  | some classifier => simp
  | none =>
      cases hversion : d.coordinates.version with
      | none => simp
      | some version =>
          by_cases hv : Version.isConcrete version = true <;> by_cases hid : d.id = id <;>
            simp [hv, hid, hinsert, Option.filter]

theorem versions_importPom (pom : EffectivePom) (id : ModuleId) :
    (s.importPom pom).versions[id]? =
      (pom.managed.filterMap (Dependency.managed? id)).getLast?.or s.versions[id]? :=
  view_foldl (fun s : Scope => s.versions[id]?) (fun _ => True) (fun _ _ h => h)
    (fun _ d _ => versions_contribute d id) pom.managed trivial

/-- What was declared goes on top of what BOMs contribute. -/
theorem versions_importPoms (id : ModuleId) :
    (s.importPoms found).versions[id]? = s.versions[id]?.or (lastManaged found id) := by
  have himported : (found.foldl importPom s).versions[id]? =
      (lastManaged found id).or s.versions[id]? := by
    induction found generalizing s with
    | nil => simp [lastManaged]
    | cons pom rest ih =>
        have hlast : lastManaged (pom :: rest) id = (lastManaged rest id).or
            (pom.managed.filterMap (Dependency.managed? id)).getLast? := by
          simp [lastManaged, List.filterMap_append, List.getLast?_append]
        rw [List.foldl_cons, ih, versions_importPom, hlast, Option.or_assoc]
  unfold importPoms
  rw [Std.ExtTreeMap.getElem?_union, himported]
  cases s.versions[id]? <;> simp

/-- The same declarations stand in both scopes, beside tables that may differ. -/
structure DeclaresAlike (s t : Scope) : Prop where
  boms : t.boms = s.boms
  explicitVersions : t.explicitVersions = s.explicitVersions
  explicitExclusions : t.explicitExclusions = s.explicitExclusions

theorem DeclaresAlike.refl (s : Scope) : s.DeclaresAlike s :=
  ⟨rfl, rfl, rfl⟩

theorem DeclaresAlike.trans {t u : Scope} (h : s.DeclaresAlike t) (h' : t.DeclaresAlike u) :
    s.DeclaresAlike u :=
  ⟨h'.boms.trans h.boms, h'.explicitVersions.trans h.explicitVersions,
    h'.explicitExclusions.trans h.explicitExclusions⟩

/-- Open scopes that declare the same take the same declarations. -/
theorem DeclaresAlike.declare {t : Scope} (h : s.DeclaresAlike t) (hs : s.isOpen = true)
    (ht : t.isOpen = true) (d : Declaration) : (s.declare d).DeclaresAlike (t.declare d) := by
  cases d with
  | implicit id version =>
      simp only [Scope.declare, addImplicit, hs, ht]
      split <;> exact ⟨h.boms, h.explicitVersions, h.explicitExclusions⟩
  | explicit id version exclusions =>
      simp only [Scope.declare, addExplicit, hs, ht, if_true]
      exact ⟨h.boms, by rw [h.explicitVersions], by rw [h.explicitExclusions]⟩
  | bom reference =>
      simp only [Scope.declare, importBom, hs, ht, if_true]
      exact ⟨by rw [h.boms], h.explicitVersions, h.explicitExclusions⟩

theorem DeclaresAlike.declareAll {t : Scope} (h : s.DeclaresAlike t) (hs : s.isOpen = true)
    (ht : t.isOpen = true) (declarations : List Declaration) :
    (s.declareAll declarations).DeclaresAlike (t.declareAll declarations) := by
  induction declarations generalizing s t with
  | nil => exact h
  | cons d rest ih =>
      exact ih (h.declare hs ht d) (isOpen_declare.trans hs) (isOpen_declare.trans ht)

theorem declaresAlike_contribute (d : Dependency) : s.DeclaresAlike (s.contribute d) := by
  unfold contribute
  split
  · exact ⟨rfl, rfl, rfl⟩
  · exact .refl s

theorem declaresAlike_foldl {α : Type} {write : Scope → α → Scope}
    (hwrite : ∀ s a, DeclaresAlike s (write s a)) (entries : List α) :
    s.DeclaresAlike (entries.foldl write s) := by
  induction entries generalizing s with
  | nil => exact .refl s
  | cons a rest ih => exact (hwrite s a).trans ih

theorem declaresAlike_importPom (s : Scope) (pom : EffectivePom) :
    s.DeclaresAlike (s.importPom pom) := by
  have hfold := declaresAlike_foldl (fun _ d => declaresAlike_contribute d) pom.managed
    (s := { s with importedProperties := s.importedProperties ∪ pom.properties })
  exact ⟨hfold.boms, hfold.explicitVersions, hfold.explicitExclusions⟩

theorem declaresAlike_importPoms (s : Scope) (found : List EffectivePom) :
    s.DeclaresAlike (s.importPoms found) := by
  have hfold : s.DeclaresAlike (found.foldl importPom s) :=
    declaresAlike_foldl declaresAlike_importPom found
  exact ⟨hfold.boms, hfold.explicitVersions, hfold.explicitExclusions⟩

/-! ## Settling -/

/-- A scope that is not open is settled. -/
theorem settle_of_not_isOpen (h : s.isOpen = false) : s.settle poms properties = s := by
  have hstate : s.state ≠ .unresolved := by simpa [isOpen] using h
  unfold settle
  split
  · rename_i hunresolved
    exact absurd hunresolved hstate
  · rfl

/-- Nor does it take a call. -/
theorem callsToSettle_of_not_isOpen (h : s.isOpen = false) : s.callsToSettle properties = [] := by
  have hstate : s.state ≠ .unresolved := by simpa [isOpen] using h
  unfold callsToSettle
  split
  · rename_i hunresolved
    exact absurd hunresolved hstate
  · rfl

theorem settle_of_error {report : Report} (h : s.isOpen = true)
    (hfetch : poms.fetch s.boms properties = .error report) :
    s.settle poms properties = { s with state := .failed report.rootCause } := by
  unfold PomService.fetch at hfetch
  split at hfetch
  · exact absurd hfetch (by simp)
  · rename_i hboms
    simp [settle, conclude, isOpen_iff.1 h, hboms, hfetch]

theorem state_settle_of_ok (h : s.isOpen = true)
    (hfetch : poms.fetch s.boms properties = .ok found) :
    (s.settle poms properties).state = .resolved := by
  unfold PomService.fetch at hfetch
  split at hfetch
  · rename_i hboms
    simp [settle, isOpen_iff.1 h, hboms]
  · rename_i hboms
    simp [settle, conclude, isOpen_iff.1 h, hboms, hfetch]

theorem versions_settle_of_ok (h : s.isOpen = true)
    (hfetch : poms.fetch s.boms properties = .ok found) (id : ModuleId) :
    (s.settle poms properties).versions[id]? = s.versions[id]?.or (lastManaged found id) := by
  unfold PomService.fetch at hfetch
  split at hfetch
  · rename_i hboms
    obtain rfl : [] = found := by simpa using hfetch
    simp [settle, isOpen_iff.1 h, hboms, lastManaged]
  · rename_i hboms
    simp [settle, conclude, isOpen_iff.1 h, hboms, hfetch, versions_importPoms]

/-- Settling leaves what was declared as it is, whether or not the BOMs are found. -/
theorem declaresAlike_settle (s : Scope) (poms : PomService) (properties : Properties) :
    s.DeclaresAlike (s.settle poms properties) := by
  unfold settle
  split
  · split
    · exact ⟨rfl, rfl, rfl⟩
    · cases poms.strict s.boms properties with
      | ok found =>
          have himport := declaresAlike_importPoms { s with state := .resolving } found
          exact ⟨himport.boms, himport.explicitVersions, himport.explicitExclusions⟩
      | error report => exact ⟨rfl, rfl, rfl⟩
  · exact .refl s

/-- Settling imports the BOMs that were declared and no others. -/
@[simp] theorem boms_settle : (s.settle poms properties).boms = s.boms :=
  (declaresAlike_settle s poms properties).boms

/-- After settling, the scope is no longer open. -/
@[simp] theorem isOpen_settle : (s.settle poms properties).isOpen = false := by
  cases ho : s.isOpen with
  | false => rw [settle_of_not_isOpen ho, ho]
  | true =>
      cases hfetch : poms.fetch s.boms properties with
      | ok found => simp [isOpen, state_settle_of_ok ho hfetch]
      | error report => simp [isOpen, settle_of_error ho hfetch]

/-- Settling twice is settling once, whatever the second import would find. -/
@[simp] theorem settle_settle (poms' : PomService) (properties' : Properties) :
    (s.settle poms properties).settle poms' properties' = s.settle poms properties :=
  settle_of_not_isOpen isOpen_settle

/-! ## Queries -/

variable {α : Type}

theorem verdict_of_resolved (read : Scope → α) (h : s.state = .resolved) : s.verdict read = .ok (read s) := by
  simp [verdict, h]

theorem verdict_of_failed {cause : String} (read : Scope → α) (h : s.state = .failed cause) :
    s.verdict read = .error (s.importFailure cause) := by
  simp [verdict, h]

theorem verdict_map {β : Type} (f : α → β) (read : Scope → α) :
    (s.verdict read).map f = s.verdict fun s => f (read s) := by
  unfold verdict
  cases s.state <;> rfl

/-- A settled scope answers exactly when it has resolved. -/
theorem verdict_eq_ok_iff {read : Scope → α} {a : α} (h : s.isOpen = false) :
    s.verdict read = .ok a ↔ s.state = .resolved ∧ a = read s := by
  cases hstate : s.state with
  | unresolved => exact absurd (isOpen_iff.2 hstate) (by simp [h])
  | resolving => simp [verdict, hstate]
  | failed cause => simp [verdict, hstate]
  | resolved => simp [verdict, hstate, eq_comm]

/-- A new scope resolves when its BOMs are found. Its table then gives each module the
version of the last declaration that states one, or else the version of the last entry of
the BOMs that states one; a version that was not declared explicitly is concrete. -/
theorem precedence_of_declarations (declarations : List Declaration) (poms : PomService)
    (properties : Properties) (found : List EffectivePom)
    (hfound : poms.fetch (declarations.filterMap Declaration.reference?) properties = .ok found) :
    let outcome := Scope.resolve poms properties (new.declareAll declarations)
    outcome.answer = .ok () ∧
      (∀ id, outcome.state.versions[id]? =
        (lastDeclared declarations id).or (lastManaged found id)) ∧
      ∀ id version, outcome.state.versions[id]? = some version →
        (∀ exclusions, .explicit id version exclusions ∉ declarations) →
          Version.isConcrete version = true := by
  intro outcome
  have hopen : (new.declareAll declarations).isOpen = true :=
    isOpen_declareAll.trans isOpen_new
  have hfetch : poms.fetch (new.declareAll declarations).boms properties = .ok found := by
    rw [boms_declareAll isOpen_new]
    exact hfound
  have hversions (id : ModuleId) : outcome.state.versions[id]? =
      (lastDeclared declarations id).or (lastManaged found id) := by
    have hdeclared := versions_declareAll declarations isOpen_new id
    have hnew : new.versions[id]? = none := by simp [new]
    rw [hnew, Option.or_none] at hdeclared
    rw [← hdeclared]
    exact versions_settle_of_ok hopen hfetch id
  have hanswer : outcome.answer = .ok () :=
    verdict_of_resolved (fun _ => ()) (state_settle_of_ok hopen hfetch)
  refine ⟨hanswer, hversions, ?_⟩
  intro id version hversion hinferred
  rw [hversions, Option.or_eq_some_iff] at hversion
  rcases hversion with hdeclared | ⟨-, hmanaged⟩
  · rcases concrete_of_lastDeclared hdeclared with ⟨exclusions, hexplicit⟩ | hconcrete
    · exact absurd hexplicit (hinferred exclusions)
    · exact hconcrete
  · exact concrete_of_lastManaged hmanaged

/-- A BOM of the group `org` that manages artifacts of that group at versions, each perhaps
for a classifier only. -/
def bomOf (artifact : String) (entries : List (String × String × Option String)) : EffectivePom :=
  ⟨⟨⟨"org", artifact⟩, some "1"⟩,
    entries.map fun (name, version, classifier) =>
      ⟨⟨⟨"org", name⟩, some version⟩, none, classifier, none, false, []⟩, [], ∅⟩

/-- Two BOMs that manage the same modules. -/
def firstBom : EffectivePom := bomOf "first" [("lib", "2.0", none), ("tool", "0.8", none)]

def secondBom : EffectivePom :=
  bomOf "second" [("tool", "0.9", none), ("tool", "1.+", none), ("tool", "0.1", some "sources")]

/-- A service that knows the two BOMs. -/
def twoBoms : PomService :=
  .ofEach fun reference _ =>
    if reference.coordinates = firstBom.coordinates then .ok firstBom
    else if reference.coordinates = secondBom.coordinates then .ok secondBom
    else .error (.ofProblem (.external ("no POM for " ++ reference.coordinates.display)))

/-- Declarations before, between and after the imports of the two BOMs. -/
def interleaved : List Declaration :=
  [.explicit ⟨"org", "util"⟩ "3.+" [], .bom (.plain firstBom.coordinates),
    .implicit ⟨"org", "lib"⟩ "1.0", .bom (.plain secondBom.coordinates),
    .implicit ⟨"org", "lib"⟩ "latest.release"]

theorem precedence_of_interleaved :
    twoBoms.fetch (interleaved.filterMap Declaration.reference?) ∅ = .ok [firstBom, secondBom] ∧
      let outcome := Scope.resolve twoBoms ∅ (new.declareAll interleaved)
      outcome.answer = .ok () ∧
        outcome.state.versions[(⟨"org", "util"⟩ : ModuleId)]? = some "3.+" ∧
        outcome.state.versions[(⟨"org", "lib"⟩ : ModuleId)]? = some "1.0" ∧
        outcome.state.versions[(⟨"org", "tool"⟩ : ModuleId)]? = some "0.9" := by
  rcases precedence_of_declarations interleaved twoBoms ∅ [firstBom, secondBom] rfl with
    ⟨hanswer, hversions, -⟩
  refine ⟨rfl, hanswer, ?_, ?_, ?_⟩
  · exact (hversions _).trans (by decide)
  · exact (hversions _).trans (by decide)
  · exact (hversions _).trans (by decide)

end Scope

end ManagedGraph
