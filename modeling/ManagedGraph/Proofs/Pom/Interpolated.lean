import ManagedGraph.Proofs.Pom.Building
import ManagedGraph.Proofs.Pom.Scanning

/-!
# References in effective POMs

A text is settled in a document if each of its references is unknown there or refers to itself in
its value. Interpolation settles what the merged document declares, and so is what the effective
POM takes from the declarations; only a version that is missing there may come from a BOM
(`settled_of_resolve`). The coordinates of the POM and the values of its properties are those of
the merged document as they are written, with all their references
(`coordinates_keep_references`).
-/

namespace ManagedGraph

/-- All texts of some coordinates. -/
def Coordinates.texts (c : Coordinates) : List String :=
  [c.id.group, c.id.artifact] ++ c.version.toList

/-- All texts of an exclusion. -/
def Exclusion.texts : Exclusion → List String
  | pattern group artifact => [group, artifact]
  | malformed raw => [raw]

/-- All texts of a dependency. -/
def Dependency.texts (d : Dependency) : List String :=
  d.coordinates.texts ++ d.type.toList ++ d.classifier.toList ++ d.scope.toList ++
    d.exclusions.flatMap Exclusion.texts

namespace Pom

open Interpolation

/-! ## Settled texts -/

theorem DeclaredExclusion.texts_pattern_subset (e : DeclaredExclusion) :
    e.pattern.texts ⊆ Exclusion.wildcard :: e.group :: e.artifact.toList := by
  obtain ⟨group, artifact | artifact⟩ := e
  · simp [pattern, Exclusion.texts]
  · simp [pattern, Exclusion.texts]

/-- A dependency has no texts but those of its declaration and, for an exclusion that states no
artifact, the wildcard. -/
theorem Declaration.texts_dependency_subset (d : Declaration) :
    d.dependency.texts ⊆ Exclusion.wildcard :: d.interpolands := by
  intro s hs
  rcases List.mem_append.1 hs with hs | hs
  · -- apart from the exclusions the texts are the same in another order
    apply List.mem_cons_of_mem
    apply List.mem_append_left
    simp only [dependency, Coordinates.texts, coordinates, id, List.mem_append] at hs ⊢
    grind
  · obtain ⟨pattern, hpattern, hs⟩ := List.mem_flatMap.1 hs
    obtain ⟨e, he, rfl⟩ := List.mem_map.1 hpattern
    rcases List.mem_cons.1 (e.texts_pattern_subset hs) with rfl | hs
    · exact List.mem_cons_self
    · exact List.mem_cons_of_mem _ (List.mem_append_right _ (List.mem_flatMap.2 ⟨e, he, hs⟩))

namespace Document

variable {d : Document} {s : String}

/-- Interpolating a text changes nothing: each of its references is unknown, or its value refers to
it. -/
def Settled (d : Document) (s : String) : Prop :=
  d.interpolate s = s ∧ ∀ p ∈ (split s.toList).parts, Stays d.valueOf p.name

theorem settled_interpolate (h : d.EndsInTime s) : d.Settled (d.interpolate s) :=
  ⟨interpolate_interpolate h, stays_of_endsInTime h⟩

theorem settled_of_plain (h : firstReference s.toList = none) : d.Settled s := by
  refine ⟨interpolate_of_plain d h, ?_⟩
  rw [split_of_none h]
  simp

/-- What becomes of a declaration is settled, if its interpolation ends before the limit. -/
theorem settled_of_mapTexts {e : Declaration} (h : ∀ s ∈ e.interpolands, d.EndsInTime s) :
    ∀ s ∈ (e.mapTexts d.interpolate).dependency.texts, d.Settled s := by
  intro s hs
  rcases List.mem_cons.1 (Declaration.texts_dependency_subset _ hs) with rfl | hs
  · exact settled_of_plain (by decide)
  · rw [Declaration.interpolands_mapTexts] at hs
    obtain ⟨written, hwritten, rfl⟩ := List.mem_map.1 hs
    exact settled_interpolate (h written hwritten)

/-- The direct dependencies that a document declares. -/
def direct (d : Document) : List Dependency :=
  d.dependencies.map Declaration.dependency

/-- All that an interpolated document manages and depends on is settled in the document that it
was, if no text came to the limit. -/
theorem settled_of_resolveProperties (h : ∀ s ∈ d.interpolands, d.EndsInTime s) {e : Dependency}
    (he : e ∈ d.resolveProperties.managed ++ d.resolveProperties.direct) :
    ∀ s ∈ e.texts, d.Settled s := by
  -- imports are left out, and all others are what became of a declaration
  have hdeclared : ∃ declared ∈ d.dependencies ++ d.management,
      e = (declared.mapTexts d.interpolate).dependency := by
    simp only [managed, direct, resolveProperties, List.mem_append, List.mem_map,
      List.mem_filter] at he ⊢
    rcases he with ⟨_, ⟨⟨declared, hdeclared, rfl⟩, -⟩, rfl⟩ | ⟨_, ⟨declared, hdeclared, rfl⟩, rfl⟩
    · exact ⟨declared, Or.inr hdeclared, rfl⟩
    · exact ⟨declared, Or.inl hdeclared, rfl⟩
  obtain ⟨declared, hmem, rfl⟩ := hdeclared
  exact settled_of_mapTexts fun s hs => h s (List.mem_flatMap.2 ⟨declared, hmem, hs⟩)

end Document

end Pom

namespace Repository

open Pom

variable {r : Repository} {overrides : Properties} {m : ModuleVersion}

/-- A direct dependency stays as it is, or it has no version and takes that of an entry for its
module and classifier. -/
theorem withManagedVersion_cases (managed : List Dependency) (d : Dependency) :
    withManagedVersion managed d = d ∨ d.coordinates.version = none ∧ ∃ e ∈ managed,
      e.key = d.key ∧ withManagedVersion managed d = { d with coordinates := e.coordinates } := by
  cases hversion : d.coordinates.version with
  | some version =>
      left
      simp only [withManagedVersion, hversion]
  | none =>
      have hmanaged : withManagedVersion managed d = { d with coordinates :=
          ⟨d.id, (managed.find? fun e => e.key = d.key).bind (·.coordinates.version)⟩ } := by
        simp only [withManagedVersion, hversion]
      rw [hmanaged]
      cases hfind : managed.find? fun e => e.key = d.key with
      | none =>
          left
          rw [Option.bind_none, ← hversion]
          rfl
      | some e =>
          right
          have hkey : e.key = d.key := by simpa using List.find?_some hfind
          have hid : e.coordinates.id = d.id := congrArg Prod.fst hkey
          refine ⟨rfl, e, List.mem_of_find?_eq_some hfind, hkey, ?_⟩
          rw [← hid]
          rfl

/-- With the coordinates of an entry for the same module only the version may be another text. -/
theorem mem_texts_of_key_eq {d given : Dependency} {s : String} (hkey : given.key = d.key)
    (h : s ∈ { d with coordinates := given.coordinates }.texts) :
    s ∈ d.texts ∨ given.coordinates.version = some s := by
  have hid : given.coordinates.id = d.coordinates.id := congrArg Prod.fst hkey
  simp only [Dependency.texts, Coordinates.texts, hid, List.mem_append, Option.mem_toList] at h ⊢
  grind

namespace Parts

/-- The merged document. -/
def merged (parts : r.Parts overrides m) : Document :=
  parts.document.merged parts.ancestors overrides

theorem dependencies_pom (parts : r.Parts overrides m) :
    parts.pom.dependencies =
      parts.effective.direct.map (withManagedVersion parts.pom.managed) := by
  rw [Document.direct, List.map_map]
  rfl

end Parts

/-- What becomes of a repository's POM. If no text of the merged document comes to the limit when
it is interpolated, all texts of the entries that it declares itself and of its direct dependencies
are settled in it, except for versions that direct dependencies take from an entry of a BOM. The
coordinates and the values of the properties are not interpolated: they are those of the merged
document as they are written. -/
theorem settled_of_resolve (r : Repository) (reference : PomReference) (properties : Properties)
    (whole : EffectivePom) (h : r.resolve reference properties = .ok whole) :
    ∃ m, reference.coordinates = m.coordinates ∧
      ∃ parts : r.Parts (properties ∪ reference.properties) m,
        (whole.coordinates = ⟨⟨parts.merged.effectiveGroup.getD m.id.group,
            parts.merged.artifact.getD m.id.artifact⟩,
          some (parts.merged.effectiveVersion.getD m.version)⟩ ∧
          whole.properties = parts.merged.properties) ∧
        ((∀ s ∈ parts.merged.interpolands, parts.merged.EndsInTime s) →
          (∃ declared, whole.managed =
              declared ++ firsts Dependency.key declared parts.contributed ∧
            ∀ e ∈ declared, ∀ s ∈ e.texts, parts.merged.Settled s) ∧
          ∀ e ∈ whole.dependencies, ∀ s ∈ e.texts, parts.merged.Settled s ∨
            ∃ direct ∈ parts.effective.direct, direct.coordinates.version = none ∧
              ∃ given ∈ parts.contributed, given.key = direct.key ∧
                given.coordinates.version = some s ∧
                e = { direct with coordinates := given.coordinates }) := by
  obtain ⟨m, hm, parts, rfl⟩ := exists_parts h (Nat.le_refl _)
  refine ⟨m, hm, parts, ⟨rfl, rfl⟩, ?_⟩
  intro hends
  have hsettled : ∀ e ∈ parts.effective.managed ++ parts.effective.direct, ∀ s ∈ e.texts,
      parts.merged.Settled s :=
    fun e he => Document.settled_of_resolveProperties hends he
  refine ⟨⟨parts.effective.managed, parts.managed_pom,
    fun e he => hsettled e (List.mem_append_left _ he)⟩, ?_⟩
  intro e he s hs
  rw [parts.dependencies_pom] at he
  obtain ⟨direct, hdirect, rfl⟩ := List.mem_map.1 he
  have hown : ∀ s ∈ direct.texts, parts.merged.Settled s :=
    hsettled direct (List.mem_append_right _ hdirect)
  rcases withManagedVersion_cases parts.pom.managed direct with
    hsame | ⟨hnone, given, hgiven, hkey, hversion⟩
  · rw [hsame] at hs
    exact Or.inl (hown s hs)
  · rw [hversion] at hs ⊢
    rcases mem_texts_of_key_eq hkey hs with hs | hs
    · exact Or.inl (hown s hs)
    · -- the version is settled if the document declares the entry, and else a BOM gives it
      rw [parts.managed_pom] at hgiven
      rcases List.mem_append.1 hgiven with hgiven | hgiven
      · have htext : s ∈ given.texts := by simp [Dependency.texts, Coordinates.texts, hs]
        exact Or.inl (hsettled given (List.mem_append_left _ hgiven) s htext)
      · exact Or.inr ⟨direct, hdirect, hnone, given, (mem_firsts hgiven).1, hkey, hs, rfl⟩

namespace Sample

/-- The application states its version through a property, and so does another property of it,
through which it states the version of a library. -/
def revisions : Repository := .ofTexts
  [(first "app", element "project" (coordinatesText "org" "app" "${revision}" ++
    element "properties" (element "revision" ["1"] ++ element "lib.version" ["${revision}.0"]) ++
    element "dependencies" (dependencyText "org" "lib" "${lib.version}" [])))]

def revised : Document :=
  ⟨some "org", some "app", some "${revision}", none, none,
    Std.ExtTreeMap.ofList [("revision", "1"), ("lib.version", "${revision}.0")],
    [dependency "org" "lib" "${lib.version}"], []⟩

theorem lineage_revised : revisions.Lineage (first "app") revised [] :=
  .root (read_ofTexts rfl (by decide) (by decide +kernel)) rfl

/-- The merged document of the application. It inherits nothing, and no values are given. -/
def revisedMerged : Document :=
  revised.merged [] (∅ ∪ ∅)

def revisedPom : EffectivePom :=
  assemble (first "app") revisedMerged.resolveProperties []

theorem resolve_revised :
    revisions.resolve (.plain (first "app").coordinates) ∅ = .ok revisedPom :=
  build_eq_ok_iff.2 ⟨_, _, _, [], rfl, lineage_revised, by decide, .nil, rfl⟩

theorem scan_revised : revisedMerged.scan "${lib.version}" = ⟨[], "1.0".toList, 2⟩ := by
  unfold Document.scan
  rw [Interpolation.Scan.finish_of_some rfl, Interpolation.Scan.finish_of_some rfl,
    Interpolation.Scan.finish_of_none rfl]
  rfl

theorem endsInTime_revised : ∀ s ∈ revisedMerged.interpolands, revisedMerged.EndsInTime s := by
  intro s hs
  obtain rfl | rfl | rfl : s = "org" ∨ s = "lib" ∨ s = "${lib.version}" := by
    simpa [Document.interpolands, revisedMerged, Document.merged, Document.under, Document.override,
      revised, Declaration.interpolands, dependency] using hs
  · exact Document.endsInTime_of_plain rfl
  · exact Document.endsInTime_of_plain rfl
  · rw [Document.EndsInTime, scan_revised]
    decide

theorem settled_of_resolve_revised :
    revisions.resolve (.plain (first "app").coordinates) ∅ = .ok revisedPom ∧
      (∀ s ∈ revisedMerged.interpolands, revisedMerged.EndsInTime s) ∧
      revisedPom.dependencies = [(dependency "org" "lib" "1.0").dependency] ∧
      ∀ e ∈ revisedPom.dependencies, ∀ s ∈ e.texts, revisedMerged.Settled s := by
  have hversion : revisedMerged.interpolate "${lib.version}" = "1.0" := by
    rw [← String.toList_inj, ← Document.text_scan, scan_revised]
    rfl
  have htexts : (dependency "org" "lib" "${lib.version}").mapTexts revisedMerged.interpolate =
      dependency "org" "lib" "1.0" := by
    simp (disch := decide) [dependency, Declaration.mapTexts, hversion,
      Document.interpolate_of_plain]
  have hdependencies : revisedPom.dependencies = [(dependency "org" "lib" "1.0").dependency] := by
    have hdeclared : revisedPom.dependencies = [withManagedVersion revisedPom.managed
        ((dependency "org" "lib" "${lib.version}").mapTexts
          revisedMerged.interpolate).dependency] := rfl
    rw [hdeclared, htexts]
    rfl
  obtain ⟨m, hm, parts, -, hsettled⟩ := settled_of_resolve revisions
    (.plain (first "app").coordinates) ∅ revisedPom resolve_revised
  obtain rfl := ModuleVersion.coordinates_injective hm
  have hmerged : parts.merged = revisedMerged := by
    obtain ⟨hdocument, hancestors⟩ := parts.lineage.unique lineage_revised
    rw [Parts.merged, hdocument, hancestors]
    rfl
  have hcontributed : parts.contributed = [] := by
    have himports : parts.effective.imports = [] := by
      have heffective : parts.effective = parts.merged.resolveProperties := rfl
      rw [heffective, hmerged]
      rfl
    have hboms : parts.boms = [] := List.forall₂_nil_left_iff.1 (himports ▸ parts.resolved)
    rw [Parts.contributed, hboms, List.flatMap_nil]
  rw [hmerged, hcontributed] at hsettled
  refine ⟨resolve_revised, endsInTime_revised, hdependencies, ?_⟩
  intro e he s hs
  simpa using (hsettled endsInTime_revised).2 e he s hs

/-- The application has a version and a property that interpolation would change. -/
theorem coordinates_keep_references :
    revisions.resolve (.plain (first "app").coordinates) ∅ = .ok revisedPom ∧
      revisions.Lineage (first "app") revised [] ∧
      (∀ s ∈ "${revision}" :: "${revision}.0" :: revisedMerged.interpolands,
        revisedMerged.EndsInTime s) ∧
      revisedPom.coordinates.version = some "${revision}" ∧
      revisedMerged.interpolate "${revision}" = "1" ∧
      revisedPom.properties["lib.version"]? = some "${revision}.0" ∧
      revisedMerged.interpolate "${revision}.0" = "1.0" := by
  have hversion : revisedMerged.scan "${revision}" = ⟨[], ['1'], 1⟩ := by
    unfold Document.scan
    rw [Interpolation.Scan.finish_of_some rfl, Interpolation.Scan.finish_of_none rfl]
    rfl
  have hproperty : revisedMerged.scan "${revision}.0" = ⟨[], "1.0".toList, 1⟩ := by
    unfold Document.scan
    rw [Interpolation.Scan.finish_of_some rfl, Interpolation.Scan.finish_of_none rfl]
    rfl
  refine ⟨resolve_revised, lineage_revised, ?_, rfl, ?_, rfl, ?_⟩
  · simp only [List.forall_mem_cons]
    refine ⟨?_, ?_, endsInTime_revised⟩
    · rw [Document.EndsInTime, hversion]
      decide
    · rw [Document.EndsInTime, hproperty]
      decide
  · rw [← String.toList_inj, ← Document.text_scan, hversion]
    rfl
  · rw [← String.toList_inj, ← Document.text_scan, hproperty]
    rfl

end Sample

end Repository

end ManagedGraph
