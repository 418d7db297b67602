import ManagedGraph.Proofs.Scope.Descriptor

/-!
# What a descriptor lists

The imports and the dependencies of a descriptor are read off the declarations that its scope has
taken (`Descriptor.Lists`). What was inferred, what BOMs manage and how far the scope is make no
difference: they are the same for scopes that declare the same (`lists_descriptor`).
-/

namespace ManagedGraph

namespace Declaration

/-- The version that a declaration states explicitly for a module. -/
def explicitVersion? (id : ModuleId) : Declaration → Option String
  | explicit owner version _ => if owner = id then some version else none
  | _ => none

/-- The exclusions that a declaration states explicitly below a module. -/
def explicitExclusions (id : ModuleId) : Declaration → List Exclusion
  | explicit owner _ exclusions => if owner = id then exclusions else []
  | _ => []

end Declaration

/-- The explicit version that the last of some declarations states for a module. -/
def lastExplicit (declarations : List Declaration) (id : ModuleId) : Option String :=
  (declarations.filterMap (Declaration.explicitVersion? id)).getLast?

/-- All exclusions that some declarations state explicitly below a module. -/
def allExplicit (declarations : List Declaration) (id : ModuleId) : ExclusionSet :=
  .ofList (declarations.flatMap (Declaration.explicitExclusions id))

/-- The imports of a descriptor are the BOMs of some declarations, last one first. Its
dependencies are the modules declared explicitly, in ascending order and each once, at its last
version and with all its exclusions. -/
structure Descriptor.Lists (d : Descriptor) (declarations : List Declaration) : Prop where
  imports : d.imports =
    ((declarations.filterMap Declaration.reference?).map PomReference.coordinates).reverse
  ascending : d.dependencies.Pairwise fun a b => compare a.coordinates.id b.coordinates.id = .lt
  mem_dependencies : ∀ entry, entry ∈ d.dependencies ↔
    ∃ id version, lastExplicit declarations id = some version ∧
      entry = ⟨⟨id, some version⟩, (allExplicit declarations id).toList.map Exclusion.display⟩

namespace Scope

variable {s t : Scope} {d : Declaration} {declarations : List Declaration} {id : ModuleId}

/-! ## What was declared explicitly -/

theorem explicitVersions_declare (h : s.isOpen = true) (d : Declaration) (id : ModuleId) :
    (s.declare d).explicitVersions[id]? = (d.explicitVersion? id).or s.explicitVersions[id]? := by
  cases d with
  | implicit owner version =>
      simp only [declare, addImplicit]
      split <;> simp [Declaration.explicitVersion?]
  | explicit owner version exclusions =>
      by_cases ho : owner = id <;>
        simp [declare, addExplicit, Declaration.explicitVersion?, Std.ExtTreeMap.getElem?_insert, h, ho]
  | bom reference => simp [declare, importBom, Declaration.explicitVersion?, h]

theorem mem_explicitExclusions_declare (h : s.isOpen = true) (d : Declaration) (id : ModuleId)
    (p : Exclusion) :
    p ∈ (s.declare d).explicitExclusions.patterns id ↔
      p ∈ s.explicitExclusions.patterns id ∨ p ∈ d.explicitExclusions id := by
  cases d with
  | implicit owner version =>
      simp only [declare, addImplicit]
      split <;> simp [Declaration.explicitExclusions]
  | explicit owner version exclusions =>
      by_cases ho : owner = id <;>
        simp [declare, addExplicit, Declaration.explicitExclusions, Exclusions.mem_patterns_add, h, ho]
  | bom reference => simp [declare, importBom, Declaration.explicitExclusions, h]

theorem explicitVersions_declareAll (declarations : List Declaration) (id : ModuleId) :
    (new.declareAll declarations).explicitVersions[id]? = lastExplicit declarations id := by
  have hall : (new.declareAll declarations).explicitVersions[id]? =
      (lastExplicit declarations id).or new.explicitVersions[id]? := by
    apply view_foldl (fun s : Scope => s.explicitVersions[id]?) (fun s => s.isOpen = true)
    · intro s d hs
      rw [isOpen_declare, hs]
    · intro s d hs
      exact explicitVersions_declare hs d id
    · exact isOpen_new
  rw [hall]
  simp [new]

theorem mem_explicitExclusions_declareAll (h : s.isOpen = true) (declarations : List Declaration)
    (id : ModuleId) (p : Exclusion) :
    p ∈ (s.declareAll declarations).explicitExclusions.patterns id ↔
      p ∈ s.explicitExclusions.patterns id ∨ ∃ d ∈ declarations, p ∈ d.explicitExclusions id := by
  apply gathers_foldl (fun s : Scope => p ∈ s.explicitExclusions.patterns id)
    (fun s => s.isOpen = true)
  · intro s d hs
    rw [isOpen_declare, hs]
  · intro s d hs
    exact mem_explicitExclusions_declare hs d id p
  · exact h

theorem patterns_explicitExclusions_declareAll (declarations : List Declaration) (id : ModuleId) :
    (new.declareAll declarations).explicitExclusions.patterns id = allExplicit declarations id := by
  apply Std.ExtTreeSet.ext_mem
  intro p
  have hnew : new.explicitExclusions.patterns id = ∅ := Exclusions.patterns_empty id
  rw [mem_explicitExclusions_declareAll isOpen_new, hnew]
  simp [allExplicit, Std.ExtTreeSet.mem_ofList]

/-! ## Descriptors -/

/-- A descriptor lists what its scope declares. -/
theorem eq_of_answer_descriptor {poms : PomService} {properties : Properties}
    {written : Descriptor} (h : (descriptor poms properties s).answer = .ok written) :
    written.imports = s.descriptorImports ∧ written.dependencies = s.descriptorDependencies := by
  unfold descriptor at h
  cases hoverrides : (overridden poms properties s).answer with
  | error report =>
      rw [Operation.bind_of_error hoverrides] at h
      cases h
  | ok overrides =>
      rw [Operation.bind_of_ok hoverrides, state_overridden] at h
      cases h
      exact ⟨rfl, rfl⟩

theorem lists_descriptor {poms : PomService} {properties : Properties} {written : Descriptor}
    (hdeclared : (new.declareAll declarations).DeclaresAlike s)
    (h : (descriptor poms properties s).answer = .ok written) : written.Lists declarations := by
  obtain ⟨himports, hdependencies⟩ := eq_of_answer_descriptor h
  have hboms : s.boms = declarations.filterMap Declaration.reference? :=
    hdeclared.boms.trans (boms_declareAll isOpen_new)
  constructor
  · rw [himports, descriptorImports, hboms]
  · rw [hdependencies, descriptorDependencies, List.pairwise_map]
    exact Std.ExtTreeMap.ordered_keys_toList
  · intro entry
    have hentry : entry ∈ s.descriptorDependencies ↔
        ∃ id version, s.explicitVersions[id]? = some version ∧
          entry = ⟨⟨id, some version⟩,
            (s.explicitExclusions.patterns id).toList.map Exclusion.display⟩ := by
      simp only [descriptorDependencies, List.mem_map, Prod.exists,
        Std.ExtTreeMap.mem_toList_iff_getElem?_eq_some, eq_comm]
    simp only [hdependencies, hentry, hdeclared.explicitVersions, hdeclared.explicitExclusions,
      explicitVersions_declareAll, patterns_explicitExclusions_declareAll]

end Scope

end ManagedGraph
