import ManagedGraph.Proofs.Scope.Descriptor

/-!
# Overrides and tables

The overrides of a scope are read off the BOM entries by module, while its table is built entry
by entry, without those whose version is not concrete. For a module whose last entries have
concrete versions the two agree: it is overridden exactly when the table of the scope gives it
another version than the table of a scope that imports the same BOMs plainly
(`overridden_agrees_with_tables`). An entry without a concrete version that comes last counts for
the overrides and not for the tables, and then an override may be missing
(`overridden_misses_shadowed`).
-/

namespace ManagedGraph.Scope

variable {poms : PomService} {properties : Properties} {boms : List PomReference}
variable {live defaults found : List EffectivePom} {id : ModuleId}

/-- A scope in which nothing is declared but BOMs. -/
def importing (boms : List PomReference) : Scope :=
  new.declareAll (boms.map Declaration.bom)

/-- The last entry for a module without classifier, if BOMs have one, has a concrete version. -/
def EndsConcretely (found : List EffectivePom) (id : ModuleId) : Prop :=
  ∀ d ∈ ((found.flatMap EffectivePom.managed).filter (Dependency.manages id)).getLast?,
    d.coordinates.version.any Version.isConcrete = true

instance : Decidable (EndsConcretely found id) :=
  inferInstanceAs (Decidable (∀ d ∈
    ((found.flatMap EffectivePom.managed).filter (Dependency.manages id)).getLast?,
      d.coordinates.version.any Version.isConcrete = true))

/-! ## Scopes of BOMs alone -/

theorem isOpen_importing : (importing boms).isOpen = true :=
  isOpen_declareAll.trans isOpen_new

@[simp] theorem boms_importing (boms : List PomReference) : (importing boms).boms = boms := by
  have hreferences : (boms.map Declaration.bom).filterMap Declaration.reference? = boms := by
    rw [List.filterMap_map]
    exact List.filterMap_some
  have hboms : (importing boms).boms =
      new.boms ++ (boms.map Declaration.bom).filterMap Declaration.reference? :=
    boms_declareAll isOpen_new
  rw [hboms, hreferences]
  rfl

theorem answer_resolve_importing (hfound : poms.fetch boms properties = .ok found) :
    (Scope.resolve poms properties (importing boms)).answer = .ok () := by
  have hfetch : poms.fetch (importing boms).boms properties = .ok found := by
    rwa [boms_importing]
  exact verdict_of_resolved (fun _ => ()) (state_settle_of_ok isOpen_importing hfetch)

/-- The table of such a scope is what its BOMs contribute. -/
theorem versions_resolve_importing (hfound : poms.fetch boms properties = .ok found)
    (id : ModuleId) :
    (Scope.resolve poms properties (importing boms)).state.versions[id]? =
      lastManaged found id := by
  have hfetch : poms.fetch (importing boms).boms properties = .ok found := by
    rwa [boms_importing]
  have hnone : lastDeclared (boms.map Declaration.bom) id = none := by
    simp [lastDeclared, List.filterMap_map, Function.comp_def, Declaration.version?]
  have hdeclared : (importing boms).versions[id]? = none := by
    have hall := versions_declareAll (boms.map Declaration.bom) isOpen_new id
    rw [hnone] at hall
    exact hall
  have hversions := versions_settle_of_ok isOpen_importing hfetch id
  rw [hdeclared, Option.none_or] at hversions
  exact hversions

/-! ## One module -/

theorem lastManaged_of_endsConcretely (h : EndsConcretely found id) :
    lastManaged found id = (managedById found)[id]?.bind fun d => d.coordinates.version := by
  apply lastManaged_of_concrete
  rwa [getElem?_managedById]

/-- If the last entries for a module have concrete versions, it is overridden when they differ. -/
theorem coordinates_changed (hlive : EndsConcretely live id)
    (hdefaults : EndsConcretely defaults id) :
    ((changed defaults live).filter fun d => d.id = id).map Dependency.coordinates =
      (((lastManaged live id).filter fun version =>
        lastManaged defaults id ≠ some version).map fun version => ⟨id, some version⟩).toList := by
  rw [filter_changed, lastManaged_of_endsConcretely hlive, lastManaged_of_endsConcretely hdefaults]
  unfold EndsConcretely at hlive hdefaults
  rw [← getElem?_managedById] at hlive hdefaults
  cases hentry : (managedById live)[id]? with
  | none => rfl
  | some d =>
      obtain ⟨version, hversion, -⟩ := (Option.any_eq_true _ _).1 (hlive d hentry)
      have hcoordinates : d.coordinates = ⟨id, some version⟩ := by
        rw [← hversion, ← id_of_managedById hentry]
        rfl
      cases hdefault : (managedById defaults)[id]? with
      | none => simp [Option.filter, hcoordinates]
      | some e =>
          obtain ⟨other, hother, -⟩ := (Option.any_eq_true _ _).1 (hdefaults e hdefault)
          by_cases h : other = version <;> simp [Option.filter, hcoordinates, hother, h]

/-! ## All modules -/

/-- Let a service resolve some BOMs, both with the properties of a build and plainly. Then a scope
that declares nothing else resolves with these properties, a scope that imports the BOMs plainly
resolves without any, and the first one has the same overrides before and after. For each module
whose last entries have concrete versions, these are one dependency at the version of the first
table, if that is another one than in the second table, and none otherwise. -/
theorem overridden_agrees_with_tables (boms : List PomReference) (poms : PomService)
    (properties : Properties) (live defaults : List EffectivePom)
    (hlive : poms.fetch boms properties = .ok live)
    (hdefaults : poms.fetch (boms.map fun bom => .plain bom.coordinates) ∅ = .ok defaults) :
    let resolved := Scope.resolve poms properties (importing boms)
    let plain := Scope.resolve poms ∅ (importing (boms.map fun bom => .plain bom.coordinates))
    resolved.answer = .ok () ∧ plain.answer = .ok () ∧
      ∃ overrides, (overridden poms properties (importing boms)).answer = .ok overrides ∧
        (overridden poms properties resolved.state).answer = .ok overrides ∧
        ∀ id, EndsConcretely live id → EndsConcretely defaults id →
          (overrides.filter fun d => d.id = id).map Dependency.coordinates =
            ((resolved.state.versions[id]?.filter fun version =>
              plain.state.versions[id]? ≠ some version).map fun version =>
                ⟨id, some version⟩).toList := by
  intro resolved plain
  have hoverrides (s : Scope) (hboms : s.boms = boms) :
      (overridden poms properties s).answer = .ok (changed defaults live) := by
    apply answer_overridden <;> rwa [hboms]
  refine ⟨answer_resolve_importing hlive, answer_resolve_importing hdefaults, changed defaults live,
    hoverrides _ (boms_importing boms), hoverrides _ (boms_settle.trans (boms_importing boms)), ?_⟩
  intro id hconcrete hplain
  rw [versions_resolve_importing hlive id, versions_resolve_importing hdefaults id]
  exact coordinates_changed hconcrete hplain

/-- Two modules of the second BOM are managed at versions that properties change, and one module
of the first BOM is not. -/
theorem overridden_agrees_with_tables_of_properties :
    let poms := PomService.ofEach withProperties
    let properties : Properties := Std.ExtTreeMap.ofList [("plugin.version", "4.0")]
    let boms : List PomReference := [.plain firstBom.coordinates,
      ⟨secondBom.coordinates, Std.ExtTreeMap.ofList [("tool.version", "1.1")]⟩]
    ∃ overrides, (overridden poms properties (importing boms)).answer = .ok overrides ∧
      ∀ entry ∈ [("tool", ["1.1"]), ("plugin", ["4.0"]), ("lib", [])],
        (overrides.filter fun d => d.id = ⟨"org", entry.1⟩).map Dependency.coordinates =
          entry.2.map fun version => ⟨⟨"org", entry.1⟩, some version⟩ := by
  intro poms properties boms
  let live := [firstBom, bomOf "second" [("tool", "1.1", none), ("plugin", "4.0", none)]]
  let defaults := [firstBom, bomOf "second" [("tool", "0.9", none)]]
  obtain ⟨-, -, overrides, hoverrides, -, hagree⟩ :=
    overridden_agrees_with_tables boms poms properties live defaults rfl rfl
  refine ⟨overrides, hoverrides, ?_⟩
  simp only [List.forall_mem_cons]
  exact ⟨(hagree _ (by decide) (by decide)).trans (by decide),
    (hagree _ (by decide) (by decide)).trans (by decide),
    (hagree _ (by decide) (by decide)).trans (by decide), by simp⟩

/-- A service that knows two BOMs for one module. The version that the first one manages depends on
a property, and the second one selects from all versions. -/
def shadowing (reference : PomReference) (properties : Properties) : Except Report EffectivePom :=
  if reference.coordinates = firstBom.coordinates then
    .ok (bomOf "first" [("lib", (properties["lib.version"]?).getD "1.0", none)])
  else if reference.coordinates = secondBom.coordinates then
    .ok (bomOf "second" [("lib", "latest.release", none)])
  else .error (.ofProblem (.external ("no POM for " ++ reference.coordinates.display)))

/-- The tables differ in the module, and still nothing is overridden: the entry of the second BOM,
which no table takes, is the same in both. -/
theorem overridden_misses_shadowed :
    let poms := PomService.ofEach shadowing
    let properties : Properties := Std.ExtTreeMap.ofList [("lib.version", "2.0")]
    let boms : List PomReference := [.plain firstBom.coordinates, .plain secondBom.coordinates]
    let resolved := Scope.resolve poms properties (importing boms)
    let plain := Scope.resolve poms ∅ (importing (boms.map fun bom => .plain bom.coordinates))
    resolved.answer = .ok () ∧ plain.answer = .ok () ∧
      resolved.state.versions[(⟨"org", "lib"⟩ : ModuleId)]? = some "2.0" ∧
      plain.state.versions[(⟨"org", "lib"⟩ : ModuleId)]? = some "1.0" ∧
      (overridden poms properties (importing boms)).answer = .ok [] :=
  ⟨rfl, rfl, by decide, by decide, by decide⟩

end ManagedGraph.Scope
