import Mathlib.Data.List.Basic
import ManagedGraph.Proofs.Operation.Observation
import ManagedGraph.Proofs.Operation.Success
import ManagedGraph.Proofs.Scope.Imports
import ManagedGraph.Scope.Descriptor

/-!
# Reading descriptors

Whoever reads a descriptor takes the version of a module from its dependencies, else from its
overrides, else from the first of its imports that manages the module. Imports are read without
the properties of the build; the overrides make up for that (`version_of_changed_or_default`).
What is read for a module of the table is what the scope resolved it to
(`descriptor_reproduces_table`).
-/

namespace ManagedGraph

/-! ## Tables and lists -/

/-- A table lists one entry for a module, or none. -/
theorem filter_toList {α : Type} (table : Std.ExtTreeMap ModuleId α) (id : ModuleId) :
    (table.toList.filter fun entry => entry.1 = id) =
      (table[id]?.map fun a => (id, a)).toList := by
  have hmem (entry : ModuleId × α) : (entry ∈ table.toList.filter fun entry => entry.1 = id) ↔
      entry ∈ (table[id]?.map fun a => (id, a)).toList := by
    obtain ⟨owner, a⟩ := entry
    simp only [List.mem_filter, Std.ExtTreeMap.mem_toList_iff_getElem?_eq_some, decide_eq_true_eq,
      Option.mem_toList, Option.map_eq_some_iff, Prod.mk.injEq]
    constructor
    · rintro ⟨hentry, rfl⟩
      exact ⟨a, hentry, rfl, rfl⟩
    · rintro ⟨a, hentry, rfl, rfl⟩
      exact ⟨hentry, rfl⟩
  have hnodup : table.toList.Nodup := by
    apply table.distinct_keys_toList.imp
    rintro ⟨owner, a⟩ b hkeys rfl
    exact hkeys Std.ReflCmp.compare_self
  have hperm := (List.perm_ext_iff_of_nodup (hnodup.filter _) (by cases table[id]? <;> simp)).2 hmem
  cases hentry : table[id]? with
  | none =>
      rw [hentry] at hperm
      exact List.perm_nil.1 hperm
  | some a =>
      rw [hentry] at hperm
      exact List.perm_singleton.1 hperm

/-- Among the values that the entries of a table give rise to, at most one for each entry, the
one for a module comes from its own entry. -/
theorem filter_filterMap_toList {α β : Type} {table : Std.ExtTreeMap ModuleId α}
    {f : ModuleId × α → Option β} (key : β → ModuleId)
    (hkey : ∀ id a b, table[id]? = some a → f (id, a) = some b → key b = id) (id : ModuleId) :
    ((table.toList.filterMap f).filter fun b => key b = id) =
      (table[id]?.bind fun a => f (id, a)).toList := by
  have hown : ((table.toList.filterMap f).filter fun b => key b = id) =
      (table.toList.filter fun entry => entry.1 = id).filterMap f := by
    rw [List.filter_filterMap, List.filterMap_filter]
    apply List.filterMap_congr
    rintro ⟨owner, a⟩ hentry
    cases hf : f (owner, a) with
    | none => simp
    | some b =>
        have hb : key b = owner :=
          hkey owner a b (Std.ExtTreeMap.mem_toList_iff_getElem?_eq_some.1 hentry) hf
        simp [Option.filter, hb]
  rw [hown, filter_toList]
  cases table[id]? with
  | none => rfl
  | some a => cases hf : f (id, a) <;> simp [hf]

theorem find?_filterMap_toList {α β : Type} {table : Std.ExtTreeMap ModuleId α}
    {f : ModuleId × α → Option β} (key : β → ModuleId)
    (hkey : ∀ id a b, table[id]? = some a → f (id, a) = some b → key b = id) (id : ModuleId) :
    ((table.toList.filterMap f).find? fun b => key b = id) =
      table[id]?.bind fun a => f (id, a) := by
  rw [← List.head?_filter, filter_filterMap_toList key hkey]
  cases table[id]?.bind fun a => f (id, a) <;> rfl

/-! ## What a reader finds -/

/-- Whether a dependency manages a module, without classifier. -/
def Dependency.manages (id : ModuleId) (d : Dependency) : Bool :=
  d.id = id && d.classifier.isNone

/-- The entry with which a BOM manages a module: the last one without classifier. -/
def EffectivePom.entry? (pom : EffectivePom) (id : ModuleId) : Option Dependency :=
  (pom.managed.filter (Dependency.manages id)).getLast?

/-- All dependencies that a BOM manages without classifier have concrete versions. -/
def EffectivePom.ManagesConcretely (pom : EffectivePom) : Prop :=
  ∀ d ∈ pom.managed, d.classifier = none → d.coordinates.version.any Version.isConcrete = true

instance (pom : EffectivePom) : Decidable pom.ManagesConcretely :=
  inferInstanceAs (Decidable (∀ d ∈ pom.managed, d.classifier = none →
    d.coordinates.version.any Version.isConcrete = true))

/-- The coordinates listed for a module. -/
def DescriptorEntry.listed? (entries : List DescriptorEntry) (id : ModuleId) :
    Option Coordinates :=
  (entries.find? fun entry => entry.coordinates.id = id).map DescriptorEntry.coordinates

/-- The version that a descriptor gives a module, for a reader who finds BOMs by their
coordinates. The first import that manages the module wins. -/
def Descriptor.version? (find : Coordinates → Option EffectivePom) (d : Descriptor)
    (id : ModuleId) : Option String :=
  let imported := d.imports.findSome? fun bom => (find bom).bind fun pom => pom.entry? id
  ((DescriptorEntry.listed? d.dependencies id).or
    ((DescriptorEntry.listed? d.overrides id).or (imported.map Dependency.coordinates))).bind
      Coordinates.version

namespace Scope

variable {s : Scope} {poms : PomService} {properties : Properties}
variable {defaults live found : List EffectivePom} {id : ModuleId}

theorem listed?_descriptorDependencies (s : Scope) (id : ModuleId) :
    DescriptorEntry.listed? s.descriptorDependencies id =
      s.explicitVersions[id]?.map fun version => ⟨id, some version⟩ := by
  let entry : ModuleId × String → DescriptorEntry := fun e =>
    ⟨⟨e.1, some e.2⟩, (s.explicitExclusions.patterns e.1).toList.map Exclusion.display⟩
  have hlist : s.descriptorDependencies = s.explicitVersions.toList.filterMap (some ∘ entry) := by
    rw [List.filterMap_eq_map]
    rfl
  rw [DescriptorEntry.listed?, hlist,
    find?_filterMap_toList fun e : DescriptorEntry => e.coordinates.id]
  · cases s.explicitVersions[id]? <;> rfl
  · rintro owner version e - ⟨⟩
    rfl

/-! ## Dependencies by module -/

theorem getElem?_managedById (found : List EffectivePom) (id : ModuleId) :
    (managedById found)[id]? =
      ((found.flatMap EffectivePom.managed).filter (Dependency.manages id)).getLast? := by
  let unclassified := (found.flatMap EffectivePom.managed).filter fun d => d.classifier.isNone
  have hwrite (table : Std.ExtTreeMap ModuleId Dependency) (d : Dependency) (_ : True) :
      (table.insert d.id d)[id]? = (Option.guard (fun d => d.id = id) d).or table[id]? := by
    by_cases hid : d.id = id <;> simp [Option.guard, Std.ExtTreeMap.getElem?_insert, hid]
  have hlast : (managedById found)[id]? =
      (unclassified.filterMap (Option.guard fun d => d.id = id)).getLast?.or none :=
    view_foldl (fun table : Std.ExtTreeMap ModuleId Dependency => table[id]?) (fun _ => True)
      (fun _ _ h => h) hwrite unclassified (s := ∅) trivial
  rw [hlast, List.filterMap_eq_filter, List.filter_filter, Option.or_none]
  rfl

/-- The last of all entries is the one of the last BOM that has one. -/
theorem getElem?_managedById_eq_findSome? (found : List EffectivePom) (id : ModuleId) :
    (managedById found)[id]? = found.reverse.findSome? fun pom => pom.entry? id := by
  rw [getElem?_managedById, List.filter_flatMap, List.getLast?_flatMap]
  rfl

/-- The version of the last entry for a module counts if it is concrete. -/
theorem lastManaged_of_concrete
    (hconcrete : ∀ d ∈ (managedById found)[id]?,
      d.coordinates.version.any Version.isConcrete = true) :
    lastManaged found id = (managedById found)[id]?.bind fun d => d.coordinates.version := by
  have hmanaged : (found.flatMap EffectivePom.managed).filterMap (Dependency.managed? id) =
      ((found.flatMap EffectivePom.managed).filter (Dependency.manages id)).filterMap
        fun d => d.coordinates.version.filter Version.isConcrete := by
    rw [List.filterMap_filter]
    apply List.filterMap_congr
    intro d _
    by_cases hid : d.id = id <;> cases hclassifier : d.classifier <;>
      simp [Dependency.managed?, Dependency.manages, hid, hclassifier]
  unfold lastManaged
  rw [getElem?_managedById] at hconcrete ⊢
  rw [hmanaged]
  rcases ((found.flatMap EffectivePom.managed).filter (Dependency.manages id)).eq_nil_or_concat with
    hnone | ⟨rest, d, hlast⟩
  · rw [hnone]
    rfl
  · rw [hlast] at hconcrete ⊢
    obtain ⟨version, hversion, hv⟩ := (Option.any_eq_true _ _).1 (hconcrete d (by simp))
    simp [List.filterMap_append, hversion, hv, Option.filter]

/-- BOMs with concrete versions contribute the version of the last entry for a module. -/
theorem lastManaged_eq (hconcrete : ∀ pom ∈ found, pom.ManagesConcretely) (id : ModuleId) :
    lastManaged found id = (managedById found)[id]?.bind fun d => d.coordinates.version := by
  apply lastManaged_of_concrete
  intro d hd
  rw [getElem?_managedById] at hd
  obtain ⟨hmem, hmanages⟩ := List.mem_filter.1 (List.mem_of_getLast? hd)
  obtain ⟨pom, hpom, hd⟩ := List.mem_flatMap.1 hmem
  exact hconcrete pom hpom d hd (by simp_all [Dependency.manages])

/-! ## Overrides -/

/-- The dependencies that BOMs manage at another version than they do by default. -/
def changed (defaults live : List EffectivePom) : List Dependency :=
  (managedById live).toList.filterMap fun entry =>
    match (managedById defaults)[entry.1]? with
    | some d =>
        if d.coordinates.version = entry.2.coordinates.version then none else some entry.2
    | none => some entry.2

theorem answer_overridden (hlive : poms.fetch s.boms properties = .ok live)
    (hdefaults : poms.fetch (s.boms.map fun b => .plain b.coordinates) ∅ = .ok defaults) :
    (overridden poms properties s).answer = .ok (changed defaults live) := by
  unfold PomService.fetch at hlive hdefaults
  unfold overridden
  rw [Operation.read_bind]
  by_cases hboms : s.boms = []
  · obtain rfl : [] = live := by simpa [hboms] using hlive
    have hnone : changed defaults [] = [] := by
      simp [changed, managedById]
    rw [hnone, hboms]
    rfl
  · have hsome : s.boms.isEmpty = false := by simpa using hboms
    rw [if_neg hboms] at hlive
    rw [if_neg (by simpa using hboms)] at hdefaults
    rw [hsome]
    have hfirst : (strictCall poms (s.boms.map fun b => .plain b.coordinates) ∅ s).answer =
        .ok defaults := hdefaults
    have hsecond : (strictCall poms s.boms properties s).answer = .ok live := hlive
    simp only [Bool.false_eq_true, if_false]
    rw [Operation.bind_of_ok hfirst, Operation.answer_bind_pure]
    exact congrArg (Except.map (changed defaults)) hsecond

theorem id_of_managedById {d : Dependency} (h : (managedById found)[id]? = some d) : d.id = id := by
  rw [getElem?_managedById] at h
  have hmanages := (List.mem_filter.1 (List.mem_of_getLast? h)).2
  simp [Dependency.manages] at hmanages
  exact hmanages.1

/-- A managed dependency is overridden if by default it has another version or is not managed. -/
theorem filter_changed (defaults live : List EffectivePom) (id : ModuleId) :
    ((changed defaults live).filter fun d => d.id = id) =
      ((managedById live)[id]?.filter fun d =>
        (managedById defaults)[id]?.map (fun d => d.coordinates.version) ≠
          some d.coordinates.version).toList := by
  unfold changed
  rw [filter_filterMap_toList Dependency.id]
  · cases (managedById live)[id]? with
    | none => rfl
    | some d =>
        cases hdefault : (managedById defaults)[id]? with
        | none => simp [hdefault, Option.filter]
        | some e =>
            by_cases h : e.coordinates.version = d.coordinates.version <;>
              simp [hdefault, h, Option.filter]
  · intro owner d e hd he
    obtain rfl : d = e := by grind
    exact id_of_managedById hd

theorem find?_changed (defaults live : List EffectivePom) (id : ModuleId) :
    ((changed defaults live).find? fun d => d.id = id) =
      (managedById live)[id]?.filter fun d =>
        (managedById defaults)[id]?.map (fun d => d.coordinates.version) ≠
          some d.coordinates.version := by
  rw [← List.head?_filter, filter_changed]
  cases ((managedById live)[id]?.filter fun d =>
    (managedById defaults)[id]?.map (fun d => d.coordinates.version) ≠
      some d.coordinates.version) <;> rfl

/-- With the overrides, the versions that BOMs manage are read off what they manage by default. -/
theorem version_of_changed_or_default {d : Dependency} (hd : (managedById live)[id]? = some d) :
    (((changed defaults live).find? fun d => d.id = id).or (managedById defaults)[id]?).bind
      (fun d => d.coordinates.version) = d.coordinates.version := by
  rw [find?_changed, hd]
  -- a default of the same version is not overridden, and a reader takes it
  cases hdefault : (managedById defaults)[id]? with
  | none => simp [Option.filter]
  | some e =>
      by_cases h : e.coordinates.version = d.coordinates.version <;> simp [h, Option.filter]

/-! ## Descriptors -/

/-- What is overridden depends on the BOMs of a scope alone. -/
theorem observes_overridden {R : Scope → Scope → Prop} [IsPreorder Scope R]
    (hR : ∀ s t, R s t → t.boms = s.boms) (poms : PomService) (properties : Properties) :
    (overridden poms properties).Observes R := by
  apply Operation.Observes.bind (Operation.observes_read hR)
  intro boms
  split
  · exact Operation.observes_pure _
  · apply Operation.Observes.bind (Operation.observes_consult _ _)
    intro defaults
    apply Operation.Observes.bind (Operation.observes_consult _ _)
    intro live
    exact Operation.observes_pure _

/-- A look at what is overridden leaves the scope as it is. -/
@[simp] theorem state_overridden (poms : PomService) (properties : Properties) (s : Scope) :
    (overridden poms properties s).state = s :=
  ((observes_overridden (R := Eq) (fun _ _ h => h ▸ rfl) poms properties).moves s).symm

instance : IsPreorder Scope DeclaresAlike where
  refl := .refl
  trans _ _ _ := .trans

/-- Scopes with the same declarations have the same descriptor. -/
theorem observes_descriptor {R : Scope → Scope → Prop} [IsPreorder Scope R]
    (hR : ∀ s t, R s t → s.DeclaresAlike t) (poms : PomService) (properties : Properties) :
    (descriptor poms properties).Observes R := by
  apply Operation.Observes.bind (observes_overridden (fun s t h => (hR s t h).boms) poms properties)
  intro overrides
  apply Operation.Observes.bind
  · apply Operation.observes_read
    intro s t h
    rw [descriptorImports, (hR s t h).boms, descriptorImports]
  · intro imports
    apply Operation.Observes.bind
    · apply Operation.observes_read
      intro s t h
      rw [descriptorDependencies, (hR s t h).explicitVersions, (hR s t h).explicitExclusions,
        descriptorDependencies]
    · intro dependencies
      exact Operation.observes_pure _

theorem answer_descriptor_of_declaresAlike {t : Scope} (h : s.DeclaresAlike t) :
    (descriptor poms properties t).answer = (descriptor poms properties s).answer :=
  (observes_descriptor (fun _ _ h => h) poms properties).ignores s t h

/-- Writing a descriptor leaves the scope as it is. -/
@[simp] theorem state_descriptor (poms : PomService) (properties : Properties) (s : Scope) :
    (descriptor poms properties s).state = s :=
  ((observes_descriptor (R := Eq) (fun s _ h => h ▸ .refl s) poms properties).moves s).symm

theorem answer_descriptor_settle (poms' : PomService) (properties' : Properties) :
    (descriptor poms properties (s.settle poms' properties')).answer =
      (descriptor poms properties s).answer :=
  answer_descriptor_of_declaresAlike (declaresAlike_settle s poms' properties')

/-- The descriptor of a scope whose BOMs are these by default and with properties. -/
def described (s : Scope) (defaults live : List EffectivePom) : Descriptor where
  imports := s.descriptorImports
  dependencies := s.descriptorDependencies
  overrides := (changed defaults live).map fun d =>
    ⟨d.coordinates, d.exclusions.map Exclusion.display⟩

theorem answer_descriptor (hlive : poms.fetch s.boms properties = .ok live)
    (hdefaults : poms.fetch (s.boms.map fun b => .plain b.coordinates) ∅ = .ok defaults) :
    (descriptor poms properties s).answer = .ok (s.described defaults live) := by
  unfold descriptor
  rw [Operation.bind_of_ok (answer_overridden hlive hdefaults), state_overridden]
  rfl

/-- A reader who finds the default BOMs takes what was declared, else what was overridden or is
managed by default. -/
theorem version?_described {find : Coordinates → Option EffectivePom}
    (himports : (s.descriptorImports.findSome? fun bom =>
      (find bom).bind fun pom => pom.entry? id) = (managedById defaults)[id]?) :
    (s.described defaults live).version? find id =
      s.explicitVersions[id]?.or
        ((((changed defaults live).find? fun d => d.id = id).or (managedById defaults)[id]?).bind
          fun d => d.coordinates.version) := by
  have hoverrides : DescriptorEntry.listed? (s.described defaults live).overrides id =
      ((changed defaults live).find? fun d => d.id = id).map Dependency.coordinates := by
    rw [DescriptorEntry.listed?, described, List.find?_map, Option.map_map]
    rfl
  have hdependencies : DescriptorEntry.listed? (s.described defaults live).dependencies id =
      s.explicitVersions[id]?.map fun version => ⟨id, some version⟩ :=
    listed?_descriptorDependencies s id
  have hread : ((s.described defaults live).imports.findSome? fun bom =>
      (find bom).bind fun pom => pom.entry? id) = (managedById defaults)[id]? := himports
  unfold Descriptor.version?
  rw [hdependencies, hoverrides, hread]
  cases s.explicitVersions[id]? with
  | some version => rfl
  | none =>
      cases (changed defaults live).find? fun d => d.id = id with
      | some d => rfl
      | none => cases (managedById defaults)[id]? <;> rfl

end Scope

/-! ## Services that answer each reference on its own -/

namespace Scope

variable {resolve : PomReference → Properties → Except Report EffectivePom}

/-- In a descriptor written for a service that answers each reference on its own, the first import
that manages a module by default is the last BOM that does. -/
theorem imported_eq_managedById {s : Scope} {defaults : List EffectivePom}
    (hdefaults : (PomService.ofEach resolve).strict
      (s.boms.map fun bom => .plain bom.coordinates) ∅ = .ok defaults) (id : ModuleId) :
    (s.descriptorImports.findSome? fun bom =>
      (resolve (.plain bom) ∅).toOption.bind fun pom => pom.entry? id) =
      (managedById defaults)[id]? := by
  have hpoms : (s.boms.map fun bom => (resolve (.plain bom.coordinates) ∅).toOption) =
      defaults.map some := by
    have hmap := mapM_eq_ok_iff_map_toOption.1 hdefaults
    rw [List.map_map] at hmap
    exact hmap
  have hreverse := congrArg (fun l => l.reverse.findSome? fun pom? : Option EffectivePom =>
    pom?.bind fun pom => pom.entry? id) hpoms
  simp only [← List.map_reverse, List.findSome?_map] at hreverse
  rw [getElem?_managedById_eq_findSome?, descriptorImports, ← List.map_reverse, List.findSome?_map]
  exact hreverse

/-- Let a service that answers each reference on its own resolve the BOMs declared in a new scope,
both with the properties of a build and plainly, and let the dependencies that it then finds
managed with those properties have concrete versions. Then the scope resolves, its descriptor is
the same before and after, and for every module of the table it gives the version of the table
to a reader who resolves its imports plainly. -/
theorem descriptor_reproduces_table (declarations : List Declaration)
    (resolve : PomReference → Properties → Except Report EffectivePom) (properties : Properties)
    (live defaults : List EffectivePom)
    (hexplicit : ∀ id version, .implicit id version ∉ declarations)
    (hlive : (PomService.ofEach resolve).strict (declarations.filterMap Declaration.reference?)
      properties = .ok live)
    (hdefaults : (PomService.ofEach resolve).strict
      ((declarations.filterMap Declaration.reference?).map fun bom => .plain bom.coordinates) ∅ =
        .ok defaults)
    (hconcrete : ∀ pom ∈ live, pom.ManagesConcretely) :
    let poms := PomService.ofEach resolve
    let declared := new.declareAll declarations
    let outcome := Scope.resolve poms properties declared
    outcome.answer = .ok () ∧
      ∃ written, (descriptor poms properties declared).answer = .ok written ∧
        (descriptor poms properties outcome.state).answer = .ok written ∧
        ∀ id version, outcome.state.versions[id]? = some version →
          written.version? (fun bom => (resolve (.plain bom) ∅).toOption) id = some version := by
  intro poms declared outcome
  have hopen : declared.isOpen = true := isOpen_declareAll.trans isOpen_new
  have hboms : declared.boms = declarations.filterMap Declaration.reference? :=
    boms_declareAll isOpen_new
  rw [← hboms] at hlive hdefaults
  have hfetch : poms.fetch declared.boms properties = .ok live := (PomService.fetch_ofEach _ _ _).trans hlive
  have hplain : poms.fetch (declared.boms.map fun bom => .plain bom.coordinates) ∅ = .ok defaults :=
    (PomService.fetch_ofEach _ _ _).trans hdefaults
  have hwritten := answer_descriptor hfetch hplain
  refine ⟨verdict_of_resolved (fun _ => ()) (state_settle_of_ok hopen hfetch), _, hwritten,
    (answer_descriptor_settle poms properties).trans hwritten, ?_⟩
  intro id version hversion
  have htable : outcome.state.versions[id]? =
      declared.explicitVersions[id]?.or (lastManaged live id) := by
    rw [← versions_declareAll_of_explicit rfl hexplicit]
    exact versions_settle_of_ok hopen hfetch id
  rw [version?_described (imported_eq_managedById hdefaults id)]
  rw [hversion] at htable
  -- what was declared is listed as it is; everything else comes from the BOMs
  cases hdeclared : declared.explicitVersions[id]? with
  | some declaredVersion =>
      rw [hdeclared] at htable
      exact htable.symm
  | none =>
      rw [hdeclared, Option.none_or, lastManaged_eq hconcrete] at htable
      obtain ⟨d, hd, hmanaged⟩ := Option.bind_eq_some_iff.1 htable.symm
      rw [Option.none_or, version_of_changed_or_default hd, hmanaged]

/-- A service that knows two BOMs. What the second one manages depends on properties. -/
def withProperties (reference : PomReference) (properties : Properties) :
    Except Report EffectivePom :=
  let value (name : String) := reference.properties[name]?.or properties[name]?
  if reference.coordinates = firstBom.coordinates then .ok firstBom
  else if reference.coordinates = secondBom.coordinates then
    .ok (bomOf "second" (("tool", (value "tool.version").getD "0.9", none) ::
      (value "plugin.version").toList.map fun version => ("plugin", version, none)))
  else .error (.ofProblem (.external ("no POM for " ++ reference.coordinates.display)))

/-- Imports of the two BOMs, the second one with a property of its own. -/
def withOwnProperty : List Declaration :=
  [.bom (.plain firstBom.coordinates), .explicit ⟨"org", "util"⟩ "3.+" [],
    .bom ⟨secondBom.coordinates, Std.ExtTreeMap.ofList [("tool.version", "1.1")]⟩]

theorem descriptor_reproduces_overridden_table :
    let poms := PomService.ofEach withProperties
    let properties : Properties := Std.ExtTreeMap.ofList [("plugin.version", "4.0")]
    let declared := new.declareAll withOwnProperty
    let table := (Scope.resolve poms properties declared).state.versions
    let find bom := (withProperties (.plain bom) ∅).toOption
    ∃ written, (descriptor poms properties declared).answer = .ok written ∧
      ∀ entry ∈ [("util", "3.+"), ("lib", "2.0"), ("tool", "1.1"), ("plugin", "4.0")],
        table[(⟨"org", entry.1⟩ : ModuleId)]? = some entry.2 ∧
          written.version? find ⟨"org", entry.1⟩ = some entry.2 := by
  intro poms properties declared table find
  obtain ⟨-, written, hwritten, -, hread⟩ := descriptor_reproduces_table withOwnProperty
    withProperties properties
    [firstBom, bomOf "second" [("tool", "1.1", none), ("plugin", "4.0", none)]]
    [firstBom, bomOf "second" [("tool", "0.9", none)]] (by simp [withOwnProperty]) rfl rfl
    (by decide)
  have htable : ∀ entry ∈ [("util", "3.+"), ("lib", "2.0"), ("tool", "1.1"), ("plugin", "4.0")],
      table[(⟨"org", entry.1⟩ : ModuleId)]? = some entry.2 := by decide
  refine ⟨written, hwritten, ?_⟩
  intro entry hentry
  exact ⟨htable entry hentry, hread _ _ (htable entry hentry)⟩

end Scope

end ManagedGraph
