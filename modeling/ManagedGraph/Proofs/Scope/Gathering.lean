import ManagedGraph.Proofs.Scope.Listing

/-!
# What a scope gathers

While versions overwrite each other, exclusions add up: below a module apply all exclusions that
were ever declared for it, and those of every entry of a BOM that manages it, whether or not its
version lasts. Properties of BOMs overwrite each other as versions do. What is kept apart as
declared explicitly takes nothing over from a BOM (`gathered_by_resolve`).
-/

namespace ManagedGraph

/-- An entry of a BOM counts for a module if it is for that module, has no classifier and is at a
concrete version. -/
def Dependency.CountsFor (id : ModuleId) (d : Dependency) : Prop :=
  d.id = id ∧ d.classifier = none ∧
    ∃ version ∈ d.coordinates.version, Version.isConcrete version = true

/-- Some entry of some BOM that counts for a module states an exclusion. -/
def ManagedBelow (found : List EffectivePom) (id : ModuleId) (p : Exclusion) : Prop :=
  ∃ pom ∈ found, ∃ d ∈ pom.managed, d.CountsFor id ∧ p ∈ d.exclusions

instance (d : Dependency) (id : ModuleId) : Decidable (d.CountsFor id) :=
  inferInstanceAs (Decidable (d.id = id ∧ d.classifier = none ∧
    ∃ version ∈ d.coordinates.version, Version.isConcrete version = true))

instance (found : List EffectivePom) (id : ModuleId) (p : Exclusion) :
    Decidable (ManagedBelow found id p) :=
  inferInstanceAs (Decidable (∃ pom ∈ found, ∃ d ∈ pom.managed, d.CountsFor id ∧ p ∈ d.exclusions))

/-- The value that the last of some BOMs gives to a property. -/
def lastProperty (found : List EffectivePom) (key : String) : Option String :=
  (found.filterMap fun pom => pom.properties[key]?).getLast?

namespace Scope

variable {s : Scope} {poms : PomService} {properties : Properties} {found : List EffectivePom}
variable {id : ModuleId} {p : Exclusion}

/-! ## Exclusions add up -/

theorem mem_exclusions_declare (h : s.isOpen = true) (d : Declaration) (id : ModuleId)
    (p : Exclusion) :
    p ∈ (s.declare d).exclusions.patterns id ↔
      p ∈ s.exclusions.patterns id ∨ p ∈ d.explicitExclusions id := by
  cases d with
  | implicit owner version =>
      simp only [declare, addImplicit]
      split <;> simp [Declaration.explicitExclusions]
  | explicit owner version exclusions =>
      by_cases ho : owner = id <;>
        simp [declare, addExplicit, Declaration.explicitExclusions, Exclusions.mem_patterns_add, h, ho]
  | bom reference => simp [declare, importBom, Declaration.explicitExclusions, h]

theorem mem_exclusions_declareAll (declarations : List Declaration) (id : ModuleId)
    (p : Exclusion) :
    p ∈ (new.declareAll declarations).exclusions.patterns id ↔ p ∈ allExplicit declarations id := by
  have hall : p ∈ (new.declareAll declarations).exclusions.patterns id ↔
      p ∈ new.exclusions.patterns id ∨ ∃ d ∈ declarations, p ∈ d.explicitExclusions id := by
    apply gathers_foldl (fun s : Scope => p ∈ s.exclusions.patterns id) (fun s => s.isOpen = true)
    · intro s d hs
      rw [isOpen_declare, hs]
    · intro s d hs
      exact mem_exclusions_declare hs d id p
    · exact isOpen_new
  have hnew : new.exclusions.patterns id = ∅ := Exclusions.patterns_empty id
  rw [hall, hnew]
  simp [allExplicit, Std.ExtTreeSet.mem_ofList]

/-- An entry of a BOM adds its exclusions if it counts. -/
theorem mem_exclusions_contribute (d : Dependency) :
    p ∈ (s.contribute d).exclusions.patterns id ↔
      p ∈ s.exclusions.patterns id ∨ d.CountsFor id ∧ p ∈ d.exclusions := by
  unfold contribute contribution? Dependency.CountsFor
  cases hclassifier : d.classifier with
  | some classifier => simp
  | none =>
      cases hversion : d.coordinates.version with
      | none => simp
      | some version =>
          by_cases hv : Version.isConcrete version = true
          · simp [hv, Exclusions.mem_patterns_add]
          · simp [hv]

theorem mem_exclusions_importPom (pom : EffectivePom) :
    p ∈ (s.importPom pom).exclusions.patterns id ↔
      p ∈ s.exclusions.patterns id ∨ ∃ d ∈ pom.managed, d.CountsFor id ∧ p ∈ d.exclusions :=
  gathers_foldl (fun s : Scope => p ∈ s.exclusions.patterns id) (fun _ => True) (fun _ _ h => h)
    (fun _ d _ => mem_exclusions_contribute d) pom.managed trivial

/-- No BOM takes away what an earlier one or a declaration has added. -/
theorem mem_exclusions_importPoms :
    p ∈ (s.importPoms found).exclusions.patterns id ↔
      p ∈ s.exclusions.patterns id ∨ ManagedBelow found id p :=
  gathers_foldl (fun s : Scope => p ∈ s.exclusions.patterns id) (fun _ => True) (fun _ _ h => h)
    (fun _ pom _ => mem_exclusions_importPom pom) found trivial

/-! ## Properties overwrite each other -/

theorem importedProperties_contribute (d : Dependency) :
    (s.contribute d).importedProperties = s.importedProperties := by
  unfold contribute
  split <;> rfl

theorem importedProperties_importPom (pom : EffectivePom) (key : String) :
    (s.importPom pom).importedProperties[key]? =
      pom.properties[key]?.or s.importedProperties[key]? := by
  have hentries (t : Scope) :
      (pom.managed.foldl contribute t).importedProperties = t.importedProperties := by
    induction pom.managed generalizing t with
    | nil => rfl
    | cons d rest ih => rw [List.foldl_cons, ih, importedProperties_contribute]
  rw [importPom, hentries]
  exact Std.ExtTreeMap.getElem?_union

theorem importedProperties_importPoms (key : String) :
    (s.importPoms found).importedProperties[key]? =
      (lastProperty found key).or s.importedProperties[key]? :=
  view_foldl (fun s : Scope => s.importedProperties[key]?) (fun _ => True) (fun _ _ h => h)
    (fun _ pom _ => importedProperties_importPom pom key) found trivial

/-- Before an import a scope has no properties of BOMs. -/
theorem importedProperties_declareAll (declarations : List Declaration) :
    (s.declareAll declarations).importedProperties = s.importedProperties := by
  induction declarations generalizing s with
  | nil => rfl
  | cons d rest ih =>
      have hrest : s.declareAll (d :: rest) = (s.declare d).declareAll rest := rfl
      rw [hrest, ih]
      cases d with
      | implicit id version => simp only [declare, addImplicit]; split <;> rfl
      | explicit id version exclusions => simp only [declare, addExplicit]; split <;> rfl
      | bom reference => simp only [declare, importBom]; split <;> rfl

/-! ## Resolving -/

/-- What a scope takes over when its BOMs are found. -/
theorem settle_of_ok (h : s.isOpen = true) (hfetch : poms.fetch s.boms properties = .ok found) :
    (∀ id p, p ∈ (s.settle poms properties).exclusions.patterns id ↔
        p ∈ s.exclusions.patterns id ∨ ManagedBelow found id p) ∧
      ∀ key, (s.settle poms properties).importedProperties[key]? =
        (lastProperty found key).or s.importedProperties[key]? := by
  unfold PomService.fetch at hfetch
  split at hfetch
  · rename_i hboms
    obtain rfl : [] = found := by simpa using hfetch
    simp [settle, isOpen_iff.1 h, hboms, ManagedBelow, lastProperty]
  · rename_i hboms
    simp [settle, conclude, isOpen_iff.1 h, hboms, hfetch, mem_exclusions_importPoms,
      importedProperties_importPoms]

/-- A new scope resolves when its BOMs are found. Below a module then apply the exclusions of all
explicit declarations for it and of all entries of the BOMs that count for it; a module without
any has no entry. A property has its value in the last BOM that gives it one. What was declared
explicitly, and the list of BOMs, are as the declarations have them. -/
theorem gathered_by_resolve (declarations : List Declaration) (poms : PomService)
    (properties : Properties) (found : List EffectivePom)
    (hfound : poms.fetch (declarations.filterMap Declaration.reference?) properties = .ok found) :
    let outcome := Scope.resolve poms properties (new.declareAll declarations)
    outcome.answer = .ok () ∧
      (∀ id p, p ∈ outcome.state.exclusions.patterns id ↔
        p ∈ allExplicit declarations id ∨ ManagedBelow found id p) ∧
      (∀ id, outcome.state.exclusions.get? id = none ↔
        ∀ p, p ∉ allExplicit declarations id ∧ ¬ ManagedBelow found id p) ∧
      (∀ key, outcome.state.importedProperties[key]? = lastProperty found key) ∧
      (∀ id, outcome.state.explicitVersions[id]? = lastExplicit declarations id) ∧
      (∀ id, outcome.state.explicitExclusions.patterns id = allExplicit declarations id) ∧
      outcome.state.boms = declarations.filterMap Declaration.reference? := by
  intro outcome
  let declared := new.declareAll declarations
  have hopen : declared.isOpen = true := isOpen_declareAll.trans isOpen_new
  have hboms : declared.boms = declarations.filterMap Declaration.reference? :=
    boms_declareAll isOpen_new
  have hfetch : poms.fetch declared.boms properties = .ok found := by
    rw [hboms]
    exact hfound
  have hstate : outcome.state = declared.settle poms properties := rfl
  have halike : declared.DeclaresAlike outcome.state := declaresAlike_settle declared poms properties
  obtain ⟨hexclusions, hproperties⟩ := settle_of_ok hopen hfetch
  have hgathered (id : ModuleId) (p : Exclusion) : p ∈ outcome.state.exclusions.patterns id ↔
      p ∈ allExplicit declarations id ∨ ManagedBelow found id p := by
    rw [hstate, hexclusions, mem_exclusions_declareAll]
  refine ⟨?_, hgathered, ?_, ?_, ?_, ?_, ?_⟩
  · exact verdict_of_resolved (fun _ => ()) (state_settle_of_ok hopen hfetch)
  · intro id
    have hentry : outcome.state.exclusions.get? id = none ↔
        outcome.state.exclusions.patterns id = ∅ := by
      rw [Exclusions.get?_eq]
      split <;> simp_all
    rw [hentry, Std.ExtTreeSet.eq_empty_iff_forall_not_mem]
    simp only [hgathered, not_or]
  · intro key
    rw [hstate, hproperties, importedProperties_declareAll]
    simp [new]
  · intro id
    rw [halike.explicitVersions, explicitVersions_declareAll]
  · intro id
    rw [halike.explicitExclusions, patterns_explicitExclusions_declareAll]
  · rw [halike.boms, hboms]

/-- A BOM with one property that manages `org:lib`, each entry with a version, perhaps a classifier,
and an exclusion. -/
def excludingBom (artifact : String) (entries : List (String × Option String × Exclusion)) :
    EffectivePom :=
  ⟨⟨⟨"org", artifact⟩, some "1"⟩,
    entries.map fun (version, classifier, p) =>
      ⟨⟨⟨"org", "lib"⟩, some version⟩, none, classifier, none, false, [p]⟩,
    [], (∅ : Properties).insert "from" artifact⟩

/-- One BOM with entries that do not count, and another with an entry that overwrites the version
of the first. -/
def excludingBoms : List EffectivePom :=
  [excludingBom "base" [("1.0", none, .pattern "com" "a"), ("1.+", none, .pattern "com" "b"),
      ("1.0", some "tests", .pattern "com" "c")],
    excludingBom "extra" [("2.0", none, .malformed "com.d")]]

/-- A service that knows these BOMs. -/
def excludingPoms : PomService :=
  .ofEach fun reference _ =>
    match excludingBoms.find? fun bom => bom.coordinates == reference.coordinates with
    | some bom => .ok bom
    | none => .error (.ofProblem (.external ("no POM for " ++ reference.coordinates.display)))

/-- Two explicit declarations of `org:lib`, of which the second overwrites the version, and one
without exclusions. -/
def excludingDeclarations : List Declaration :=
  [.explicit ⟨"org", "lib"⟩ "3.0" [.pattern "com" "x"],
    .bom (.plain ⟨⟨"org", "base"⟩, some "1"⟩), .explicit ⟨"org", "lib"⟩ "4.0" [.pattern "com" "y"],
    .bom (.plain ⟨⟨"org", "extra"⟩, some "1"⟩), .explicit ⟨"org", "tool"⟩ "1.0" []]

theorem gathered_by_excluding :
    excludingPoms.fetch (excludingDeclarations.filterMap Declaration.reference?) ∅ =
        .ok excludingBoms ∧
      let outcome := Scope.resolve excludingPoms ∅ (new.declareAll excludingDeclarations)
      (∀ p ∈ [.pattern "com" "x", .pattern "com" "y", .pattern "com" "a", .malformed "com.d"],
        p ∈ outcome.state.exclusions.patterns ⟨"org", "lib"⟩) ∧
      (∀ p ∈ [.pattern "com" "b", .pattern "com" "c"],
        p ∉ outcome.state.exclusions.patterns ⟨"org", "lib"⟩) ∧
      outcome.state.exclusions.get? ⟨"org", "tool"⟩ = none ∧
      outcome.state.importedProperties["from"]? = some "extra" ∧
      outcome.state.explicitVersions[(⟨"org", "lib"⟩ : ModuleId)]? = some "4.0" := by
  have hfound : excludingPoms.fetch (excludingDeclarations.filterMap Declaration.reference?) ∅ =
      .ok excludingBoms := rfl
  obtain ⟨-, hexclusions, hentry, hproperties, hversions, -, -⟩ :=
    gathered_by_resolve excludingDeclarations excludingPoms ∅ excludingBoms hfound
  have hstated : ∀ p ∈ [.pattern "com" "x", .pattern "com" "y", .pattern "com" "a", .malformed "com.d"],
      p ∈ allExplicit excludingDeclarations ⟨"org", "lib"⟩ ∨
        ManagedBelow excludingBoms ⟨"org", "lib"⟩ p := by decide
  have hskipped : ∀ p ∈ [.pattern "com" "b", .pattern "com" "c"],
      ¬ (p ∈ allExplicit excludingDeclarations ⟨"org", "lib"⟩ ∨
        ManagedBelow excludingBoms ⟨"org", "lib"⟩ p) := by decide
  refine ⟨hfound, ?_, ?_, ?_, ?_, ?_⟩
  · intro p hp
    exact (hexclusions ⟨"org", "lib"⟩ p).2 (hstated p hp)
  · intro p hp hmem
    exact hskipped p hp ((hexclusions ⟨"org", "lib"⟩ p).1 hmem)
  · apply (hentry ⟨"org", "tool"⟩).2
    intro p
    simp [allExplicit, excludingDeclarations, Declaration.explicitExclusions, ManagedBelow,
      excludingBoms, excludingBom, Dependency.CountsFor, Dependency.id]
  · exact (hproperties "from").trans (by decide)
  · exact (hversions ⟨"org", "lib"⟩).trans (by decide)

end Scope

end ManagedGraph
