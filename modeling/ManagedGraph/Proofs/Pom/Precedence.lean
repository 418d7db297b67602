import ManagedGraph.Proofs.Pom.Chains

/-!
# Precedence of properties

A property of an effective POM has the value that the reference gives it, or else the caller, or
else the nearest document of the lineage that has it (`properties_take_precedence`). The BOMs that
are imported, however deep, are resolved under the values of the reference and the caller alone
(`Chain.exists_parts`), and the POMs on the way to them have no part in what they resolve to.
-/

namespace ManagedGraph

namespace Repository

open Pom

variable {r : Repository} {overrides : Properties} {m bom : ModuleVersion} {n : Nat}
  {whole : EffectivePom}

/-- The value of a name in the first of some layers that has it. -/
def valueIn (layers : List Properties) (name : String) : Option String :=
  layers.findSome? fun layer => layer[name]?

theorem valueIn_cons (layer : Properties) (layers : List Properties) (name : String) :
    valueIn (layer :: layers) name = layer[name]?.or (valueIn layers name) := by
  rw [valueIn, List.findSome?_cons]
  cases layer[name]? <;> rfl

/-- A union is one layer on top of another. -/
theorem valueIn_union (lower upper : Properties) (layers : List Properties) (name : String) :
    valueIn ((lower ∪ upper) :: layers) name = valueIn (upper :: lower :: layers) name := by
  have hunion : (lower ∪ upper)[name]? = upper[name]?.or lower[name]? :=
    Std.ExtTreeMap.getElem?_union
  simp only [valueIn_cons, hunion, Option.or_assoc]

namespace Parts

/-- The properties of the documents of the lineage, the nearest ones first. -/
def layers (parts : r.Parts overrides m) : List Properties :=
  (parts.document :: parts.ancestors).map Document.properties

/-- Given values win over all documents, and a nearer document over a farther one. -/
theorem properties_pom (parts : r.Parts overrides m) (name : String) :
    parts.pom.properties[name]? = valueIn (overrides :: parts.layers) name := by
  have hlayers : (parts.document :: parts.ancestors).findSome? (fun d => d.properties[name]?) =
      valueIn parts.layers name := by
    rw [valueIn, layers, List.findSome?_map]
    rfl
  have hpom : parts.pom.properties[name]? = overrides[name]?.or
      ((parts.document :: parts.ancestors).findSome? fun d => d.properties[name]?) :=
    Document.properties_effective name
  rw [hpom, hlayers, valueIn_cons]

end Parts

/-! ## Imports at any depth -/

theorem exists_parts_of_resolve
    (h : r.resolve (.plain m.coordinates) overrides = .ok whole) :
    ∃ parts : r.Parts overrides m, whole = parts.pom := by
  rw [resolve_plain] at h
  obtain ⟨m', hm, parts, hwhole⟩ := exists_parts h (Nat.le_refl _)
  obtain rfl := ModuleVersion.coordinates_injective hm
  exact ⟨parts, hwhole⟩

/-- From a parent no import is followed. -/
theorem not_chain_parent_build : ¬ r.Chain overrides n (.parent m) (.build bom) := by
  intro h
  induction n generalizing m with
  | zero => cases h
  | succ n ih =>
      cases h with
      | link hlink hrest =>
          cases hlink with
          | parent => exact ih hrest

/-- What is imported at any depth is resolved on its own, under the same property values. -/
theorem Chain.exists_parts (h : r.Chain overrides n (.build m) (.build bom))
    (hwhole : r.resolve (.plain m.coordinates) overrides = .ok whole) :
    ∃ parts : r.Parts overrides bom,
      r.resolve (.plain bom.coordinates) overrides = .ok parts.pom := by
  obtain ⟨parts, rfl⟩ := exists_parts_of_resolve hwhole
  induction n generalizing m with
  | zero =>
      cases h
      exact ⟨parts, hwhole⟩
  | succ n ih =>
      cases h with
      | link hlink hrest =>
          cases hlink with
          | parent => exact absurd hrest not_chain_parent_build
          | bom hlineage hbom =>
              obtain ⟨hdocument, hancestors⟩ := parts.lineage.unique hlineage
              rw [← hdocument, ← hancestors] at hbom
              -- the next import resolves on its own, which starts the rest of the chain
              obtain ⟨pom, -, hpom⟩ := exists_of_forall₂ parts.resolved hbom
              obtain ⟨parts', rfl⟩ := exists_parts_of_resolve hpom
              exact ih hrest parts' hpom

/-- What a reference resolves to has, for each name, the value of the reference, or else of the
caller, or else of the nearest document of the lineage, and no other property. The BOMs that it
imports at any depth are resolved on their own, with the values of the reference and the caller
over those of their own documents. What they resolve to is settled by their own parents and
imports, so the POMs that import them have no part in it. -/
theorem properties_take_precedence (r : Repository) (references : List PomReference)
    (properties : Properties) (poms : List EffectivePom)
    (h : r.service.strict references properties = .ok poms) :
    List.Forall₂
      (fun reference pom =>
        let overrides := properties ∪ reference.properties
        ∃ m, reference.coordinates = m.coordinates ∧
          (∃ parts : r.Parts overrides m, pom = parts.pom ∧ ∀ name, pom.properties[name]? =
            valueIn (reference.properties :: properties :: parts.layers) name) ∧
          ∀ n bom, r.Chain overrides n (.build m) (.build bom) →
            (∃ parts : r.Parts overrides bom,
              r.resolve (.plain bom.coordinates) overrides = .ok parts.pom ∧
              ∀ name, parts.pom.properties[name]? =
                valueIn (reference.properties :: properties :: parts.layers) name) ∧
            r.ReadsOnly
              (fun path => ∃ k t, r.Chain overrides k (.build bom) t ∧
                path = pomPath r.root t.module)
              (fun r => r.resolve (.plain bom.coordinates) overrides))
      references poms := by
  apply (strict_service_eq_ok_iff.1 h).imp
  intro reference pom hpom overrides
  have hlayers {m : ModuleVersion} (parts : r.Parts overrides m) (name : String) :
      parts.pom.properties[name]? =
        valueIn (reference.properties :: properties :: parts.layers) name := by
    rw [parts.properties_pom]
    exact valueIn_union properties reference.properties parts.layers name
  obtain ⟨m, hm, parts, rfl⟩ := exists_parts hpom (Nat.le_refl _)
  refine ⟨m, hm, ⟨parts, rfl, hlayers parts⟩, ?_⟩
  intro n bom hchain
  rw [resolve_eq_resolve_plain, hm] at hpom
  obtain ⟨parts', hparts'⟩ := hchain.exists_parts hpom
  refine ⟨⟨parts', hparts', hlayers parts'⟩, ?_⟩
  -- the build of a BOM follows chains from there, whatever led to it
  simp only [resolve_plain]
  apply readsOnly_build
  intro bom' k t hbom hchain' _
  obtain rfl := ModuleVersion.coordinates_injective hbom
  exact ⟨k, t, hchain', rfl⟩

namespace Sample

/-- The application imports a BOM, and that one the BOM of tools. -/
theorem chain_tools :
    repository.Chain given 2 (.build (first "app")) (.build (first "tools")) := by
  have hbom : repository.Link given (.build (first "app")) (.build (first "bom")) := by
    apply Link.bom lineage_app
    rw [imports_app]
    exact List.mem_singleton_self _
  have htools : repository.Link given (.build (first "bom")) (.build (first "tools")) := by
    apply Link.bom lineage_bom
    rw [imports_bom]
    exact List.mem_singleton_self _
  exact .link hbom (.link htools .here)

/-- The reference wins over the caller, the application over its parent, and the BOM of tools has
its own value of what the application defines as well. -/
theorem properties_of_app :
    repository.service.strict [appReference] caller = .ok [appPom] ∧
      (["util", "extra", "tool", "bom", "lib"].map fun name => appPom.properties[name]?) =
        [some "reference", some "caller", some "0.2", some "1", none] ∧
      ∃ parts : repository.Parts given (first "tools"),
        repository.resolve (.plain (first "tools").coordinates) given = .ok parts.pom ∧
          (["util", "extra", "tool", "bom"].map fun name => parts.pom.properties[name]?) =
            [some "reference", some "caller", some "0.4", none] := by
  unfold given
  cases properties_take_precedence repository [appReference] caller [appPom] strict_app with
  | cons happ _ =>
      obtain ⟨m, hm, ⟨parts, -, hvalues⟩, himports⟩ := happ
      obtain rfl : first "app" = m := ModuleVersion.coordinates_injective hm
      obtain ⟨hdocument, hancestors⟩ := parts.lineage.unique lineage_app
      obtain ⟨⟨parts', hparts', hvalues'⟩, -⟩ := himports 2 (first "tools") chain_tools
      obtain ⟨hdocument', hancestors'⟩ := parts'.lineage.unique lineage_tools
      refine ⟨strict_app, ?_, parts', hparts', ?_⟩
      · simp only [hvalues, Parts.layers, hdocument, hancestors]
        rfl
      · simp only [hvalues', Parts.layers, hdocument', hancestors']
        rfl

end Sample

end Repository

end ManagedGraph
