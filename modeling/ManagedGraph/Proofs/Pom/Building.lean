import ManagedGraph.Proofs.Pom.Lineage

/-!
# Building effective POMs

Building succeeds exactly when the module version has a lineage that is short enough and all BOMs
that the merged and interpolated document imports can be built one level further down
(`build_eq_ok_iff`). The number of levels decides only whether there is a POM (`build_mono`): what
a BOM contributes is what it manages when it is resolved on its own (`exists_parts`).
-/

namespace ManagedGraph

theorem ModuleVersion.coordinates_injective {m m' : ModuleVersion}
    (h : m.coordinates = m'.coordinates) : m = m' := by
  cases m
  cases m'
  simpa [coordinates] using h

namespace Pom.Document

/-- The coordinates of the BOMs that a document imports. -/
def imports (d : Document) : List Coordinates :=
  (d.management.filter Declaration.isBomImport).map Declaration.coordinates

/-- What a document manages apart from its imports. -/
def managed (d : Document) : List Dependency :=
  (d.management.filter fun e => !e.isBomImport).map Declaration.dependency

end Pom.Document

namespace Repository

open Pom

variable {r : Repository} {overrides : Properties} {depth : Nat} {c : Coordinates}
  {whole : EffectivePom}

/-! ## One level -/

theorem build_of_no_version (h : c.version = none) :
    r.build overrides depth c = .error (.noVersion c) := by
  cases depth <;> simp [build, h]

theorem build_coordinates (m : ModuleVersion) :
    r.build overrides (depth + 1) m.coordinates =
      r.effective overrides (depth + 1) m >>= fun document =>
        document.imports.mapM (r.build overrides depth) >>= fun boms =>
          pure (assemble m document (boms.flatMap EffectivePom.managed)) := by
  simp only [Document.imports, List.mapM_map]
  rw [build]
  rfl

/-- What an effective POM is built from. -/
theorem build_eq_ok_iff :
    r.build overrides depth c = .ok whole ↔
      ∃ m d ancestors boms, c = m.coordinates ∧ r.Lineage m d ancestors ∧
        ancestors.length < depth ∧
        List.Forall₂ (fun bom pom => r.build overrides (depth - 1) bom = .ok pom)
          (d.effective ancestors overrides).imports boms ∧
        whole = assemble m (d.effective ancestors overrides)
          (boms.flatMap EffectivePom.managed) := by
  constructor
  · intro h
    obtain ⟨id, version | version⟩ := c
    · exact absurd (h.symm.trans (build_of_no_version rfl)) (by simp)
    · cases depth with
      | zero => exact absurd h (by simp [build])
      | succ depth =>
          rw [show (⟨id, some version⟩ : Coordinates) = ModuleVersion.coordinates ⟨id, version⟩
            from rfl, build_coordinates] at h
          obtain ⟨document, hdocument, h⟩ := bind_eq_ok_iff.1 h
          obtain ⟨boms, hboms, h⟩ := bind_eq_ok_iff.1 h
          obtain ⟨d, ancestors, hlineage, hlength, rfl⟩ := effective_eq_ok_iff.1 hdocument
          exact ⟨⟨id, version⟩, d, ancestors, boms, rfl, hlineage, hlength,
            mapM_eq_ok_iff.1 hboms, (Except.ok.inj h).symm⟩
  · rintro ⟨m, d, ancestors, boms, rfl, hlineage, hlength, hboms, rfl⟩
    obtain ⟨depth, rfl⟩ := Nat.exists_eq_add_one.2 (Nat.zero_lt_of_lt hlength)
    have hdocument : r.effective overrides (depth + 1) m = .ok (d.effective ancestors overrides) :=
      effective_eq_ok_iff.2 ⟨d, ancestors, hlineage, hlength, rfl⟩
    rw [build_coordinates]
    exact bind_eq_ok_iff.2 ⟨_, hdocument, bind_eq_ok_iff.2 ⟨boms, mapM_eq_ok_iff.2 hboms, rfl⟩⟩

/-- A lineage is built on the POMs of the BOMs that it imports. -/
theorem build_of_lineage {m : ModuleVersion} {d : Document} {ancestors : List Document}
    {imports : List Coordinates} {boms : List EffectivePom} (hlineage : r.Lineage m d ancestors)
    (hlength : ancestors.length ≤ depth)
    (himports : (d.effective ancestors overrides).imports = imports)
    (hboms : List.Forall₂ (fun bom pom => r.build overrides depth bom = .ok pom) imports boms) :
    r.build overrides (depth + 1) m.coordinates =
      .ok (assemble m (d.effective ancestors overrides) (boms.flatMap EffectivePom.managed)) :=
  build_eq_ok_iff.2
    ⟨m, d, ancestors, boms, rfl, hlineage, Nat.lt_succ_of_le hlength, himports ▸ hboms, rfl⟩

/-- Without levels nothing is built. -/
theorem not_build_zero : r.build overrides 0 c ≠ .ok whole := by
  intro h
  obtain ⟨_, _, _, _, -, -, hlength, -⟩ := build_eq_ok_iff.1 h
  exact absurd hlength (Nat.not_lt_zero _)

/-- With more levels there is the same POM. -/
theorem build_mono {depth' : Nat} (h : r.build overrides depth c = .ok whole)
    (hle : depth ≤ depth') : r.build overrides depth' c = .ok whole := by
  induction depth generalizing depth' c whole with
  | zero => exact absurd h not_build_zero
  | succ depth ih =>
      obtain ⟨m, d, ancestors, boms, hc, hlineage, hlength, hboms, hwhole⟩ := build_eq_ok_iff.1 h
      -- the lineage fits as before, and so do the BOMs one level down
      refine build_eq_ok_iff.2 ⟨m, d, ancestors, boms, hc, hlineage, by omega, ?_, hwhole⟩
      apply hboms.imp
      intro bom pom hbom
      exact ih hbom (by omega)

/-! ## Resolving -/

theorem resolve_plain (c : Coordinates) :
    r.resolve (.plain c) overrides = r.build overrides (chainLimit + 1) c := by
  have hunion : overrides ∪ ∅ = overrides := by
    apply Std.ExtTreeMap.ext_getElem?
    simp [Std.ExtTreeMap.getElem?_union]
  rw [resolve, PomReference.plain, hunion]

/-- A reference resolves as its coordinates do under the properties of both, those of the
reference first. -/
theorem resolve_eq_resolve_plain (reference : PomReference) (properties : Properties) :
    r.resolve reference properties =
      r.resolve (.plain reference.coordinates) (properties ∪ reference.properties) := by
  rw [resolve_plain, resolve]

/-- A repository resolves references in order, each on its own. -/
theorem strict_service_eq_ok_iff {references : List PomReference} {properties : Properties}
    {poms : List EffectivePom} :
    r.service.strict references properties = .ok poms ↔
      List.Forall₂ (fun reference pom => r.resolve reference properties = .ok pom)
        references poms := by
  have hreport (reference : PomReference) (pom : EffectivePom) :
      (r.resolve reference properties).mapError Fault.report = .ok pom ↔
        r.resolve reference properties = .ok pom := by
    cases r.resolve reference properties <;> simp [Except.mapError]
  have hstrict : r.service.strict references properties =
      references.mapM fun reference => (r.resolve reference properties).mapError Fault.report := rfl
  rw [hstrict, mapM_eq_ok_iff]
  simp only [hreport]

/-! ## The parts of an effective POM -/

/-- A lineage, and the POMs to which the BOMs that it imports resolve on their own. -/
structure Parts (r : Repository) (overrides : Properties) (m : ModuleVersion) where
  document : Document
  ancestors : List Document
  boms : List EffectivePom
  lineage : r.Lineage m document ancestors
  resolved : List.Forall₂ (fun bom pom => r.resolve (.plain bom) overrides = .ok pom)
    (document.effective ancestors overrides).imports boms

namespace Parts

variable {m : ModuleVersion}

/-- The merged and interpolated document. -/
def effective (parts : r.Parts overrides m) : Document :=
  parts.document.effective parts.ancestors overrides

/-- What the imported BOMs manage, in the order of the imports. -/
def contributed (parts : r.Parts overrides m) : List Dependency :=
  parts.boms.flatMap EffectivePom.managed

/-- The POM that is made of the parts. -/
def pom (parts : r.Parts overrides m) : EffectivePom :=
  assemble m parts.effective parts.contributed

theorem managed_pom (parts : r.Parts overrides m) :
    parts.pom.managed = parts.effective.managed ++
      firsts Dependency.key parts.effective.managed parts.contributed :=
  appendNew_eq_append_firsts

end Parts

/-- What is built is made of what the imported BOMs resolve to on their own, under the same
property values. -/
theorem exists_parts (h : r.build overrides depth c = .ok whole) (hdepth : depth ≤ chainLimit + 1) :
    ∃ m, c = m.coordinates ∧ ∃ parts : r.Parts overrides m, whole = parts.pom := by
  obtain ⟨m, d, ancestors, boms, hc, hlineage, -, hboms, hwhole⟩ := build_eq_ok_iff.1 h
  -- a BOM was built with fewer levels than it has when it is resolved on its own
  have hresolved : List.Forall₂ (fun bom pom => r.resolve (.plain bom) overrides = .ok pom)
      (d.effective ancestors overrides).imports boms := by
    apply hboms.imp
    intro bom pom hbom
    rw [resolve_plain]
    exact build_mono hbom (by omega)
  exact ⟨m, hc, ⟨d, ancestors, boms, hlineage, hresolved⟩, hwhole⟩

namespace Sample

/-! ### A POM with nested imports -/

def toolsPom : EffectivePom :=
  assemble (first "tools") (tools.effective [] given) []

def bomPom : EffectivePom :=
  assemble (first "bom") (bom.effective [] given) toolsPom.managed

def appPom : EffectivePom :=
  assemble (first "app") (app.effective [base] given) bomPom.managed

theorem build_tools (depth : Nat) :
    repository.build given (depth + 1) (first "tools").coordinates = .ok toolsPom := by
  have himports : (tools.effective [] given).imports = [] := by
    rw [Document.imports, management_tools]
    rfl
  exact build_of_lineage lineage_tools (Nat.zero_le depth) himports .nil

theorem imports_bom : (bom.effective [] given).imports = [(first "tools").coordinates] := by
  rw [Document.imports, management_bom]
  rfl

theorem build_bom (depth : Nat) :
    repository.build given (depth + 2) (first "bom").coordinates = .ok bomPom := by
  simpa [bomPom] using
    build_of_lineage lineage_bom (Nat.zero_le _) imports_bom (.cons (build_tools depth) .nil)

theorem imports_app : (app.effective [base] given).imports = [(first "bom").coordinates] := by
  rw [Document.imports, management_app]
  rfl

theorem build_app (depth : Nat) :
    repository.build given (depth + 3) (first "app").coordinates = .ok appPom := by
  simpa [appPom] using
    build_of_lineage lineage_app (by simp) imports_app (.cons (build_bom depth) .nil)

theorem resolve_app : repository.resolve appReference caller = .ok appPom :=
  build_app 14

theorem strict_app : repository.service.strict [appReference] caller = .ok [appPom] :=
  strict_service_eq_ok_iff.2 (.cons resolve_app .nil)

end Sample

end Repository

end ManagedGraph
