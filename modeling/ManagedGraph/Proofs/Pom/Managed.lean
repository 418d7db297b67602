import ManagedGraph.Proofs.Pom.Building

/-!
# What an effective POM manages

An effective POM manages first what its merged and interpolated document manages itself, each
entry with all that the document says about it, and then what its BOMs contribute, in the order
of the imports. Of several entries for a module and classifier a contributed one stays only if it
is the first (`managed_of_build`). Imports are replaced by what they contribute at every depth
(`not_import_of_build`).
-/

namespace ManagedGraph

namespace Pom.Declaration

/-- A managed declaration imports a BOM. -/
def IsImport (d : Declaration) : Prop :=
  d.scope = some "import" ∧ d.type = some "pom"

instance : DecidablePred IsImport := fun d =>
  inferInstanceAs (Decidable (d.scope = some "import" ∧ d.type = some "pom"))

/-- An entry says of a dependency what a declaration says of it. An exclusion without an artifact
is one of the whole group. -/
structure KeptAs (d : Declaration) (e : Dependency) : Prop where
  group : e.coordinates.id.group = d.group
  artifact : e.coordinates.id.artifact = d.artifact
  version : e.coordinates.version = d.version
  type : e.type = d.type
  classifier : e.classifier = d.classifier
  scope : e.scope = d.scope
  optional : e.optional = d.optional
  exclusions : List.Forall₂ (fun x p => p = Exclusion.pattern x.group (x.artifact.getD "*"))
    d.exclusions e.exclusions

theorem isBomImport_eq (d : Declaration) : d.isBomImport = decide d.IsImport := by
  rw [Bool.eq_iff_iff, decide_eq_true_iff]
  simp [isBomImport, IsImport]

theorem keptAs_dependency (d : Declaration) : d.KeptAs d.dependency where
  group := rfl
  artifact := rfl
  version := rfl
  type := rfl
  classifier := rfl
  scope := rfl
  optional := rfl
  exclusions := List.forall₂_map_right_iff.2 (List.forall₂_same.2 fun _ _ => rfl)

end Pom.Declaration

namespace Pom.Document

/-- A document keeps what it manages, imports apart. -/
theorem forall₂_keptAs_managed (d : Document) :
    List.Forall₂ Declaration.KeptAs (d.management.filter fun e => ¬ e.IsImport) d.managed := by
  simp only [managed, Declaration.isBomImport_eq, ← decide_not]
  exact List.forall₂_map_right_iff.2 (List.forall₂_same.2 fun e _ => e.keptAs_dependency)

theorem imports_eq (d : Document) :
    d.imports = (d.management.filter fun e => e.IsImport).map Declaration.coordinates := by
  rw [imports, funext Declaration.isBomImport_eq]

end Pom.Document

namespace Repository

open Pom

/-- Some dependencies are what a POM manages. First come those that its document manages when it
is merged with its parents and interpolated under the given property values. Behind them come
those that the BOMs it imports manage when they are resolved on their own, one BOM after the
other, without those for whose module and classifier there is an entry before. -/
def Manages (r : Repository) (overrides : Properties) (c : Coordinates)
    (managed : List Dependency) : Prop :=
  ∃ m d ancestors, c = m.coordinates ∧ r.Lineage m d ancestors ∧
    let merged : Document := d.under ancestors
    let declared : List Pom.Declaration :=
      { merged with properties := merged.properties ∪ overrides }.resolveProperties.management
    ∃ (own : List Dependency) (boms : List EffectivePom),
      List.Forall₂ Declaration.KeptAs (declared.filter fun e => ¬ e.IsImport) own ∧
      List.Forall₂ (fun e bom =>
          r.resolve (.plain ⟨⟨e.group, e.artifact⟩, e.version⟩) overrides = .ok bom)
        (declared.filter fun e => e.IsImport) boms ∧
      managed = own ++
        firsts (fun e => (e.coordinates.id, e.classifier)) own (boms.flatMap EffectivePom.managed)

variable {r : Repository} {overrides : Properties} {depth : Nat} {c : Coordinates}
  {whole : EffectivePom}

/-- What an effective POM manages is never an import. -/
theorem not_import_of_build (h : r.build overrides depth c = .ok whole) {e : Dependency}
    (he : e ∈ whole.managed) : ¬ (e.scope = some "import" ∧ e.type = some "pom") := by
  induction depth generalizing c whole with
  | zero => exact absurd h not_build_zero
  | succ depth ih =>
      obtain ⟨m, d, ancestors, boms, -, -, -, hboms, rfl⟩ := build_eq_ok_iff.1 h
      rcases mem_appendNew he with hown | hcontributed
      · obtain ⟨declared, hdeclared, hkept : declared.KeptAs e⟩ :=
          exists_of_forall₂ (Document.forall₂_keptAs_managed _).flip hown
        have hother : ¬ declared.IsImport := by simpa using (List.mem_filter.1 hdeclared).2
        rwa [hkept.scope, hkept.type]
      · -- the POM of a BOM was built with one level less
        obtain ⟨bom, hbom, hmanaged⟩ := List.mem_flatMap.1 hcontributed
        obtain ⟨import', -, hbuild⟩ := exists_of_forall₂ hboms.flip hbom
        exact ih hbuild hmanaged

/-- The parts that a POM is made of show what it manages. -/
theorem Parts.manages {m : ModuleVersion} (parts : r.Parts overrides m) :
    r.Manages overrides m.coordinates parts.pom.managed := by
  refine ⟨m, parts.document, parts.ancestors, rfl, parts.lineage, parts.effective.managed,
    parts.boms, Document.forall₂_keptAs_managed parts.effective, ?_, parts.managed_pom⟩
  exact List.forall₂_map_left_iff.1 (Document.imports_eq parts.effective ▸ parts.resolved)

/-- Whatever is built, at whatever level, manages what its merged and interpolated document
manages, and after that the entries that its BOMs contribute, each without those whose module and
classifier stand on an earlier entry. A BOM contributes what it manages when it is resolved on its
own under the same property values. No import is left. -/
theorem managed_of_build (r : Repository) (overrides : Properties) (depth : Nat) (c : Coordinates)
    (whole : EffectivePom) (hdepth : depth ≤ chainLimit + 1)
    (h : r.build overrides depth c = .ok whole) :
    r.Manages overrides c whole.managed ∧
      ∀ e ∈ whole.managed, ¬ (e.scope = some "import" ∧ e.type = some "pom") := by
  obtain ⟨m, rfl, parts, rfl⟩ := exists_parts h hdepth
  exact ⟨parts.manages, fun e he => not_import_of_build h he⟩

namespace Sample

/-- A platform imports a BOM and manages the tests of a library, whose version the caller sets.
The BOM imports another one and manages the same tests and the library itself. -/
def platforms : Repository := .ofTexts
  [(first "platform", pomText (element "properties" (element "lib" ["1.0"]))
      [importText "org" "catalog" "1",
        dependencyText "org" "lib" "${lib}"
          (element "type" ["jar"] ++ element "classifier" ["tests"] ++
            element "scope" ["test"] ++ element "optional" ["true"] ++
            element "exclusions" (element "exclusion" (element "groupId" ["net"]) ++
              element "exclusion" (element "groupId" ["org"] ++ element "artifactId" ["util"])))]),
    (first "catalog", pomText []
      [dependencyText "org" "lib" "9.0" (element "classifier" ["tests"]),
        importText "org" "kit" "1", dependencyText "org" "lib" "9.0" []]),
    (first "kit", pomText [] [dependencyText "org" "tool" "0.4" []])]

/-- What the tests of the library are read as. -/
def libTests (version : String) : Pom.Declaration :=
  ⟨"org", "lib", some version, some "test", true, some "tests", some "jar",
    [⟨"net", none⟩, ⟨"org", some "util"⟩]⟩

def platform : Document :=
  ⟨none, none, none, none, none, Std.ExtTreeMap.ofList [("lib", "1.0")], [],
    [bomImport "org" "catalog" "1", libTests "${lib}"]⟩

def catalog : Document :=
  ⟨none, none, none, none, none, ∅, [],
    [{ dependency "org" "lib" "9.0" with classifier := some "tests" }, bomImport "org" "kit" "1",
      dependency "org" "lib" "9.0"]⟩

def kit : Document :=
  ⟨none, none, none, none, none, ∅, [], [dependency "org" "tool" "0.4"]⟩

theorem read_platforms :
    platforms.read (first "platform") = .ok platform ∧
      platforms.read (first "catalog") = .ok catalog ∧ platforms.read (first "kit") = .ok kit :=
  ⟨read_ofTexts rfl (by decide) (by decide +kernel),
    read_ofTexts rfl (by decide) (by decide +kernel),
    read_ofTexts rfl (by decide) (by decide +kernel)⟩

/-- The version of the library that the caller sets. -/
def libOfCaller : Properties :=
  Std.ExtTreeMap.ofList [("lib", "2.0")]

theorem management_platform : (platform.effective [] libOfCaller).management =
    [bomImport "org" "catalog" "1", libTests "2.0"] := by
  have hlib : (platform.merged [] libOfCaller).interpolate "${lib}" = "2.0" :=
    Document.interpolate_of_reference "lib" rfl rfl rfl rfl
  have hdeclared : (platform.under []).management =
      [bomImport "org" "catalog" "1", libTests "${lib}"] := rfl
  rw [Document.management_effective, hdeclared]
  simp (disch := decide) [bomImport, libTests, Declaration.mapTexts, hlib,
    Document.interpolate_of_plain]

theorem management_catalog :
    (catalog.effective [] libOfCaller).management = catalog.management := by
  rw [Document.management_effective, Document.under]
  simp (disch := decide) [catalog, bomImport, dependency, Declaration.mapTexts,
    Document.interpolate_of_plain]

theorem management_kit : (kit.effective [] libOfCaller).management = kit.management := by
  rw [Document.management_effective, Document.under]
  simp (disch := decide) [kit, dependency, Declaration.mapTexts, Document.interpolate_of_plain]

def kitPom : EffectivePom :=
  assemble (first "kit") (kit.effective [] libOfCaller) []

def catalogPom : EffectivePom :=
  assemble (first "catalog") (catalog.effective [] libOfCaller) kitPom.managed

def platformPom : EffectivePom :=
  assemble (first "platform") (platform.effective [] libOfCaller) catalogPom.managed

theorem build_kit (depth : Nat) :
    platforms.build libOfCaller (depth + 1) (first "kit").coordinates = .ok kitPom := by
  have himports : (kit.effective [] libOfCaller).imports = [] := by
    rw [Document.imports, management_kit]
    rfl
  exact build_of_lineage (.root read_platforms.2.2 rfl) (Nat.zero_le depth) himports .nil

theorem build_catalog (depth : Nat) :
    platforms.build libOfCaller (depth + 2) (first "catalog").coordinates = .ok catalogPom := by
  have himports : (catalog.effective [] libOfCaller).imports = [(first "kit").coordinates] := by
    rw [Document.imports, management_catalog]
    rfl
  simpa [catalogPom] using build_of_lineage (.root read_platforms.2.1 rfl) (Nat.zero_le _)
    himports (.cons (build_kit depth) .nil)

theorem build_platform (depth : Nat) :
    platforms.build libOfCaller (depth + 3) (first "platform").coordinates = .ok platformPom := by
  have himports :
      (platform.effective [] libOfCaller).imports = [(first "catalog").coordinates] := by
    rw [Document.imports, management_platform]
    rfl
  simpa [platformPom] using build_of_lineage (.root read_platforms.1 rfl) (Nat.zero_le _)
    himports (.cons (build_catalog depth) .nil)

theorem managed_platform : platformPom.managed =
    [⟨⟨⟨"org", "lib"⟩, some "2.0"⟩, some "jar", some "tests", some "test", true,
        [.pattern "net" "*", .pattern "org" "util"]⟩,
      ⟨⟨⟨"org", "lib"⟩, some "9.0"⟩, none, none, none, false, []⟩,
      ⟨⟨⟨"org", "tool"⟩, some "0.4"⟩, none, none, none, false, []⟩] := by
  have hkit : kitPom.managed =
      appendNew Dependency.key (kit.effective [] libOfCaller).managed [] := rfl
  have hcatalog : catalogPom.managed =
      appendNew Dependency.key (catalog.effective [] libOfCaller).managed kitPom.managed := rfl
  have hplatform : platformPom.managed = appendNew Dependency.key
      (platform.effective [] libOfCaller).managed catalogPom.managed := rfl
  rw [hplatform, hcatalog, hkit]
  simp only [Document.managed, management_platform, management_catalog, management_kit]
  decide

/-- The tests of the library are managed as the platform says, in the version of the caller, and
of the BOMs only the library itself and a tool are left. -/
theorem managed_of_platform :
    platforms.build libOfCaller (chainLimit + 1) ⟨⟨"org", "platform"⟩, some "1"⟩ =
        .ok platformPom ∧
      platformPom.managed =
        [⟨⟨⟨"org", "lib"⟩, some "2.0"⟩, some "jar", some "tests", some "test", true,
            [.pattern "net" "*", .pattern "org" "util"]⟩,
          ⟨⟨⟨"org", "lib"⟩, some "9.0"⟩, none, none, none, false, []⟩,
          ⟨⟨⟨"org", "tool"⟩, some "0.4"⟩, none, none, none, false, []⟩] ∧
      platforms.Manages libOfCaller ⟨⟨"org", "platform"⟩, some "1"⟩ platformPom.managed ∧
      ∀ e ∈ platformPom.managed, ¬ (e.scope = some "import" ∧ e.type = some "pom") :=
  ⟨build_platform 14, managed_platform, managed_of_build platforms libOfCaller (chainLimit + 1)
    ⟨⟨"org", "platform"⟩, some "1"⟩ platformPom (Nat.le_refl _) (build_platform 14)⟩

end Sample

end Repository

end ManagedGraph
