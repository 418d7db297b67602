import ManagedGraph.Proofs.Pom.Building
import ManagedGraph.Proofs.Scope.Imports

/-!
# Own management and that of parents

A scope that imports one BOM takes for a module the last version that the merged and interpolated
document of the BOM states (`Parts.lastManaged_pom`). The document of the BOM itself stands first
there, so its version counts as long as the parents write the module as it does
(`own_management_wins`). Inheritance compares what is written and not what it comes to: an entry
of a parent that is written differently stays, behind the own one, and wins
(`parent_wins_by_spelling`).
-/

namespace ManagedGraph

namespace Pom

variable {id : ModuleId}

/-- Whether a declaration manages a module: it is no import and has no classifier. -/
def Declaration.manages (id : ModuleId) (e : Declaration) : Bool :=
  !e.isBomImport && e.id = id && e.classifier = none

/-- The concrete versions that declarations state for a module, in order. -/
def statedVersions (id : ModuleId) (declarations : List Declaration) : List String :=
  (declarations.filter (Declaration.manages id)).filterMap fun e =>
    e.version.filter Version.isConcrete

theorem statedVersions_append (declarations more : List Declaration) :
    statedVersions id (declarations ++ more) =
      statedVersions id declarations ++ statedVersions id more := by
  simp [statedVersions]

theorem mem_statedVersions {declarations : List Declaration} {version : String} :
    version ∈ statedVersions id declarations ↔ ∃ e ∈ declarations, e.manages id = true ∧
      e.version = some version ∧ Version.isConcrete version = true := by
  simp [statedVersions, Option.filter_eq_some_iff, and_assoc]

/-- What a scope takes from the entries of a document are the versions that they state. -/
theorem Document.filterMap_managed (d : Document) :
    d.managed.filterMap (Dependency.managed? id) = statedVersions id d.management := by
  unfold Document.managed statedVersions
  rw [List.filterMap_map, List.filterMap_filter, List.filterMap_filter]
  apply List.filterMap_congr
  intro e _
  have hid : e.dependency.id = e.id := rfl
  have hclassifier : e.dependency.classifier = e.classifier := rfl
  have hversion : e.dependency.coordinates.version = e.version := rfl
  simp only [Function.comp_apply, Dependency.managed?, hid, hclassifier, hversion]
  cases himport : e.isBomImport <;> simp [Declaration.manages, himport]

/-- A document states its own versions first, and then those of entries of its parents that are
written differently from its own. -/
theorem statedVersions_effective (d : Document) (ancestors : List Document)
    (overrides : Properties) (id : ModuleId) :
    ∃ inherited, statedVersions id (d.effective ancestors overrides).management =
        statedVersions id (d.management.map
          (Declaration.mapTexts (d.merged ancestors overrides).interpolate)) ++ inherited ∧
      ∀ version ∈ inherited, ∃ parent ∈ ancestors, ∃ e ∈ parent.management,
        e.key ∉ d.management.map Declaration.key ∧ version ∈ statedVersions id
          [e.mapTexts (d.merged ancestors overrides).interpolate] := by
  obtain ⟨inherited, hunder, hinherited⟩ := Document.management_under d ancestors
  refine ⟨statedVersions id
    (inherited.map (Declaration.mapTexts (d.merged ancestors overrides).interpolate)), ?_, ?_⟩
  · rw [Document.management_effective, hunder, List.map_append, statedVersions_append]
  · intro version hversion
    obtain ⟨read, hread, hstates⟩ := mem_statedVersions.1 hversion
    obtain ⟨e, he, rfl⟩ := List.mem_map.1 hread
    obtain ⟨hnew, parent, hparent, hdeclared⟩ := hinherited e he
    exact ⟨parent, hparent, e, hdeclared, hnew,
      mem_statedVersions.2 ⟨_, List.mem_singleton_self _, hstates⟩⟩

/-- What BOMs contribute states nothing for a module that is managed already. -/
theorem filterMap_firsts_of_mem {own : List Dependency} (more : List Dependency)
    (h : (id, none) ∈ own.map Dependency.key) :
    (firsts Dependency.key own more).filterMap (Dependency.managed? id) = [] := by
  rw [List.filterMap_eq_nil_iff]
  intro e he
  obtain ⟨-, hnew⟩ := mem_firsts he
  unfold Dependency.managed?
  split
  · rename_i hkey
    have hsame : e.key = (id, none) := Prod.ext hkey.1 hkey.2
    exact absurd h (hsame ▸ hnew)
  · rfl

end Pom

/-- A scope with nothing but one BOM resolves if the BOM is found, and has the versions that the
BOM manages last. -/
theorem Scope.versions_of_bom {poms : PomService} {reference : PomReference}
    {properties : Properties} {whole : EffectivePom}
    (h : poms.strict [reference] properties = .ok [whole]) :
    let outcome := Scope.resolve poms properties (new.importBom reference)
    outcome.answer = .ok () ∧ ∀ id, outcome.state.versions[id]? = lastManaged [whole] id := by
  intro outcome
  have hopen : (new.importBom reference).isOpen = true := rfl
  have hfetch : poms.fetch (new.importBom reference).boms properties = .ok [whole] := h
  refine ⟨verdict_of_resolved (fun _ => ()) (state_settle_of_ok hopen hfetch), ?_⟩
  intro id
  have hnone : (new.importBom reference).versions[id]? = none := Std.ExtTreeMap.getElem?_empty
  have hversions : outcome.state.versions[id]? = _ := versions_settle_of_ok hopen hfetch id
  rw [hversions, hnone, Option.none_or]

namespace Repository

open Pom

variable {r : Repository} {overrides : Properties} {m : ModuleVersion} {id : ModuleId}

/-- If the merged and interpolated document manages a module, the last version that it states
counts, whatever its BOMs contribute. -/
theorem Parts.lastManaged_pom (parts : r.Parts overrides m)
    (h : ∃ e ∈ parts.effective.management, e.manages id = true) :
    lastManaged [parts.pom] id = (statedVersions id parts.effective.management).getLast? := by
  obtain ⟨e, he, hmanages⟩ := h
  simp only [Declaration.manages, Bool.and_eq_true, decide_eq_true_eq] at hmanages
  obtain ⟨⟨hkept, hid⟩, hclassifier⟩ := hmanages
  have hmem : e.dependency ∈ parts.effective.managed :=
    List.mem_map.2 ⟨e, List.mem_filter.2 ⟨he, hkept⟩, rfl⟩
  have hkey : e.dependency.key = (id, none) := Prod.ext hid hclassifier
  have hcontributed := filterMap_firsts_of_mem parts.contributed
    (List.mem_map.2 ⟨_, hmem, hkey⟩)
  have hmanaged : lastManaged [parts.pom] id =
      (parts.pom.managed.filterMap (Dependency.managed? id)).getLast? := by
    simp [lastManaged]
  rw [hmanaged, parts.managed_pom, List.filterMap_append, hcontributed, List.append_nil,
    Document.filterMap_managed]

/-- If a POM that is the only BOM of a scope manages a module by exactly one entry of its own, at
a concrete version, the scope has that version for the module. The entries of the parents make no
difference, as long as those that come to the module at another version are written as an entry of
the POM is. -/
theorem own_management_wins (r : Repository) (reference : PomReference) (properties : Properties)
    (whole : EffectivePom) (m : ModuleVersion) (d : Document) (ancestors : List Document)
    (id : ModuleId) (own : Pom.Declaration) (version : String)
    (hresolve : r.resolve reference properties = .ok whole)
    (hreference : reference.coordinates = m.coordinates) (hlineage : r.Lineage m d ancestors)
    (hown : (d.management.map (Declaration.mapTexts
      (d.merged ancestors (properties ∪ reference.properties)).interpolate)).filter
        (Declaration.manages id) = [own])
    (hversion : own.version = some version) (hconcrete : Version.isConcrete version = true)
    (hspelling : ∀ parent ∈ ancestors, ∀ e ∈ parent.management, ∀ other ∈ statedVersions id
      [e.mapTexts (d.merged ancestors (properties ∪ reference.properties)).interpolate],
        other ≠ version → e.key ∈ d.management.map Declaration.key) :
    let outcome := Scope.resolve r.service properties (Scope.new.importBom reference)
    outcome.answer = .ok () ∧ outcome.state.versions[id]? = some version := by
  have hstrict : r.service.strict [reference] properties = .ok [whole] :=
    strict_service_eq_ok_iff.2 (.cons hresolve .nil)
  obtain ⟨hanswer, hversions⟩ := Scope.versions_of_bom hstrict
  refine ⟨hanswer, ?_⟩
  rw [hversions]
  obtain ⟨m', hm', parts, rfl⟩ := exists_parts hresolve (Nat.le_refl _)
  obtain rfl := ModuleVersion.coordinates_injective (hreference.symm.trans hm')
  obtain ⟨rfl, rfl⟩ := parts.lineage.unique hlineage
  -- own entries stand first, and what is inherited states no other version
  obtain ⟨inherited, hstated, hinherited⟩ := statedVersions_effective parts.document
    parts.ancestors (properties ∪ reference.properties) id
  have hmem : own ∈ parts.effective.management ∧ own.manages id = true := by
    have hfiltered := List.mem_filter.1 (hown ▸ List.mem_singleton_self own)
    obtain ⟨rest, hunder, -⟩ := Document.management_under parts.document parts.ancestors
    refine ⟨?_, hfiltered.2⟩
    rw [Parts.effective, Document.management_effective, hunder, List.map_append]
    exact List.mem_append_left _ hfiltered.1
  have hrest : ∀ other ∈ inherited, other = version := by
    intro other hother
    obtain ⟨parent, hparent, e, he, hnew, hstates⟩ := hinherited other hother
    by_contra hne
    exact hnew (hspelling parent hparent e he other hstates hne)
  have hfirst : statedVersions id (parts.document.management.map (Declaration.mapTexts
      (parts.document.merged parts.ancestors (properties ∪ reference.properties)).interpolate)) =
        [version] := by
    rw [statedVersions, hown]
    simp [hversion, hconcrete, Option.filter]
  rw [parts.lastManaged_pom ⟨own, hmem⟩, Parts.effective, hstated, hfirst, List.getLast?_append]
  cases hlast : inherited.getLast? with
  | none => rfl
  | some other =>
      rw [hrest other (List.mem_of_getLast? hlast)]
      rfl

namespace Sample

/-- The parent manages the library too, and writes it as the application does. -/
theorem own_management_of_app :
    repository.resolve appReference caller = .ok appPom ∧
      let outcome := Scope.resolve repository.service caller (Scope.new.importBom appReference)
      outcome.answer = .ok () ∧
        outcome.state.versions[(⟨"org", "lib"⟩ : ModuleId)]? = some "2.0" := by
  have htexts : app.management.map (Declaration.mapTexts (app.merged [base] given).interpolate) =
      [dependency "org" "lib" "2.0", bomImport "org" "bom" "1"] := by
    rw [← management_app, Document.management_effective, management_app_under]
    rfl
  refine ⟨resolve_app, own_management_wins repository appReference caller appPom (first "app") app
    [base] ⟨"org", "lib"⟩ (dependency "org" "lib" "2.0") "2.0" resolve_app rfl lineage_app
    ((congrArg (List.filter (Declaration.manages ⟨"org", "lib"⟩)) htexts).trans (by decide))
    rfl (by decide) ?_⟩
  intro parent hparent e he other _ _
  obtain rfl := List.mem_singleton.1 hparent
  obtain rfl := List.mem_singleton.1 he
  decide

def otherReference : PomReference :=
  ⟨(first "other").coordinates, appReference.properties⟩

def otherPom : EffectivePom :=
  assemble (first "other") (other.effective [base] given) []

theorem resolve_other : repository.resolve otherReference caller = .ok otherPom := by
  have himports : (other.effective [base] given).imports = [] := by
    rw [Document.imports, management_other]
    rfl
  exact build_of_lineage lineage_other (by decide) himports .nil

/-- The only entry that the other child has of its own manages the library at a concrete version.
The scope has the version of the parent, which writes the group through a project variable. -/
theorem parent_wins_by_spelling :
    repository.resolve otherReference caller = .ok otherPom ∧
      repository.Lineage (first "other") other [base] ∧
      (other.management.map
        (Declaration.mapTexts (other.merged [base] given).interpolate)).filter
          (Declaration.manages ⟨"org", "lib"⟩) = [dependency "org" "lib" "2.0"] ∧
      Version.isConcrete "2.0" = true ∧
      let outcome := Scope.resolve repository.service caller (Scope.new.importBom otherReference)
      outcome.answer = .ok () ∧
        outcome.state.versions[(⟨"org", "lib"⟩ : ModuleId)]? = some "1.0" := by
  have htexts : other.management.map
      (Declaration.mapTexts (other.merged [base] given).interpolate) =
        [dependency "org" "lib" "2.0"] := by
    have hall := management_other
    rw [Document.management_effective, management_other_under] at hall
    exact congrArg (List.take 1) hall
  have hmanaged : lastManaged [otherPom] ⟨"org", "lib"⟩ = some "1.0" := by
    have hpom : otherPom.managed =
        appendNew Dependency.key (other.effective [base] given).managed [] := rfl
    rw [lastManaged, List.flatMap_singleton, hpom, Document.managed, management_other]
    decide
  obtain ⟨hanswer, hversions⟩ :=
    Scope.versions_of_bom (strict_service_eq_ok_iff.2 (.cons resolve_other .nil))
  exact ⟨resolve_other, lineage_other,
    (congrArg (List.filter (Declaration.manages ⟨"org", "lib"⟩)) htexts).trans (by decide),
    by decide, hanswer, (hversions _).trans hmanaged⟩

end Sample

end Repository

end ManagedGraph
