import ManagedGraph.Proofs.Pom.Building

/-!
# Strict and lenient resolution

Resolved leniently, references have a slot each, in order, and a slot holds the POM to which its
reference resolves strictly on its own. Strict resolution of all of them succeeds exactly when no
slot is empty, with the POMs of the slots, and it fails as the first reference does whose slot is
empty (`strict_agrees_with_slots`). So no reference has a part in what becomes of another.
-/

namespace ManagedGraph

namespace PomService

/-- The slot of a reference has the last of the POMs to which it resolves on its own. -/
theorem lenient_ofStrict
    (strict : List PomReference → Properties → Except Report (List EffectivePom))
    (references : List PomReference) (properties : Properties) :
    (ofStrict strict).lenient references properties =
      references.map fun reference =>
        (strict [reference] properties).toOption.bind List.getLast? := by
  refine List.map_congr_left fun reference _ => ?_
  cases strict [reference] properties <;> rfl

section OfEach

variable {resolve : PomReference → Properties → Except Report EffectivePom}
variable {reference : PomReference} {references : List PomReference} {properties : Properties}
  {poms : List EffectivePom}

theorem strict_ofEach :
    (ofEach resolve).strict references properties =
      references.mapM fun reference => resolve reference properties :=
  rfl

/-- A service that answers each reference on its own resolves a single one as it stands. -/
theorem strict_ofEach_singleton :
    (ofEach resolve).strict [reference] properties =
      (resolve reference properties).map fun pom => [pom] := by
  rw [strict_ofEach, List.mapM_cons]
  cases resolve reference properties <;> rfl

theorem strict_ofEach_singleton_eq_ok_iff :
    (ofEach resolve).strict [reference] properties = .ok poms ↔
      ∃ pom ∈ (resolve reference properties).toOption, poms = [pom] := by
  rw [strict_ofEach_singleton]
  cases resolve reference properties <;> simp [Except.map, Except.toOption, eq_comm]

theorem strict_ofEach_singleton_eq_error_iff {report : Report} :
    (ofEach resolve).strict [reference] properties = .error report ↔
      resolve reference properties = .error report := by
  rw [strict_ofEach_singleton]
  cases resolve reference properties <;> simp [Except.map]

/-- A single reference resolves to one POM at most, and that one is the last. -/
theorem lenient_ofEach :
    (ofEach resolve).lenient references properties =
      references.map fun reference => (resolve reference properties).toOption := by
  calc (ofEach resolve).lenient references properties
    _ = references.map fun reference =>
          ((ofEach resolve).strict [reference] properties).toOption.bind List.getLast? :=
        lenient_ofStrict _ references properties
    _ = references.map fun reference => (resolve reference properties).toOption := by
        refine List.map_congr_left fun reference _ => ?_
        rw [strict_ofEach_singleton]
        cases resolve reference properties <;> rfl

theorem length_lenient_ofEach :
    ((ofEach resolve).lenient references properties).length = references.length := by
  rw [lenient_ofEach, List.length_map]

theorem lenient_ofEach_append_cons {before after : List PomReference} :
    (ofEach resolve).lenient (before ++ reference :: after) properties =
      (ofEach resolve).lenient before properties ++
        (resolve reference properties).toOption :: (ofEach resolve).lenient after properties := by
  simp only [lenient_ofEach, List.map_append, List.map_cons]

/-- The POMs of all references are those of the slots. -/
theorem strict_ofEach_eq_ok_iff :
    (ofEach resolve).strict references properties = .ok poms ↔
      (ofEach resolve).lenient references properties = poms.map some := by
  rw [lenient_ofEach]
  exact mapM_eq_ok_iff_map_toOption

/-- No slot is empty if each reference resolves. -/
theorem none_notMem_lenient_ofEach :
    none ∉ (ofEach resolve).lenient references properties ↔
      ∀ reference ∈ references, ∃ pom, resolve reference properties = .ok pom := by
  have hslot (reference : PomReference) : (resolve reference properties).toOption ≠ none ↔
      ∃ pom, resolve reference properties = .ok pom := by
    cases resolve reference properties <;> simp [Except.toOption]
  simp only [lenient_ofEach, List.mem_map, not_exists, not_and, ← hslot, ne_eq]

/-- References whose slots are all filled resolve together. -/
theorem exists_strict_ofEach_iff :
    (∃ poms, (ofEach resolve).strict references properties = .ok poms) ↔
      none ∉ (ofEach resolve).lenient references properties := by
  constructor
  · rintro ⟨poms, hpoms⟩
    rw [strict_ofEach_eq_ok_iff.1 hpoms]
    simp
  · intro hslots
    cases hstrict : (ofEach resolve).strict references properties with
    | ok poms => exact ⟨poms, rfl⟩
    | error report =>
        obtain ⟨before, reference, after, rfl, -, hreference⟩ := mapM_eq_error_iff.1 hstrict
        obtain ⟨pom, hpom⟩ := none_notMem_lenient_ofEach.1 hslots reference (by simp)
        exact absurd (hreference.symm.trans hpom) (by simp)

/-- All references fail together as the first one does whose slot is empty. -/
theorem strict_ofEach_eq_error_iff {report : Report} :
    (ofEach resolve).strict references properties = .error report ↔
      ∃ before reference after, references = before ++ reference :: after ∧
        none ∉ ((ofEach resolve).lenient references properties).take before.length ∧
        ((ofEach resolve).lenient references properties)[before.length]? = some none ∧
        (ofEach resolve).strict [reference] properties = .error report := by
  rw [strict_ofEach, mapM_eq_error_iff]
  refine exists_congr fun before => exists_congr fun reference => exists_congr fun after =>
    and_congr_right fun hreferences => ?_
  subst hreferences
  have hlength : before.length = ((ofEach resolve).lenient before properties).length :=
    length_lenient_ofEach.symm
  rw [lenient_ofEach_append_cons, List.take_left' hlength.symm, none_notMem_lenient_ofEach,
    strict_ofEach_singleton_eq_error_iff]
  refine and_congr_right fun _ => ?_
  -- behind the slots of those before it comes the one of the reference itself
  rw [hlength, List.getElem?_append_right (Nat.le_refl _), Nat.sub_self, List.getElem?_cons_zero]
  refine (and_iff_right_of_imp fun hreference => ?_).symm
  rw [hreference, Except.toOption]

end OfEach

end PomService

namespace Repository

/-- For any repository, references and properties, there is one slot for each reference, in order,
which holds exactly the POM to which this reference resolves strictly on its own. Strict resolution
of all references succeeds if no slot is empty, with the POMs of the slots. Otherwise it fails as
the first reference with an empty slot does on its own. -/
theorem strict_agrees_with_slots (r : Repository) (references : List PomReference)
    (properties : Properties) :
    let slots := r.service.lenient references properties
    List.Forall₂ (fun reference slot => ∀ poms,
        r.service.strict [reference] properties = .ok poms ↔ ∃ pom ∈ slot, poms = [pom])
      references slots ∧
    ((∃ poms, r.service.strict references properties = .ok poms) ↔ none ∉ slots) ∧
    (∀ poms, r.service.strict references properties = .ok poms ↔ slots = poms.map some) ∧
    (∀ report, r.service.strict references properties = .error report ↔
      ∃ before reference after, references = before ++ reference :: after ∧
        none ∉ slots.take before.length ∧ slots[before.length]? = some none ∧
        r.service.strict [reference] properties = .error report) := by
  let resolve (reference : PomReference) (properties : Properties) :=
    (r.resolve reference properties).mapError Pom.Fault.report
  have hservice : r.service = .ofEach resolve := rfl
  rw [hservice]
  refine ⟨?_, PomService.exists_strict_ofEach_iff, fun _ => PomService.strict_ofEach_eq_ok_iff,
    fun _ => PomService.strict_ofEach_eq_error_iff⟩
  rw [PomService.lenient_ofEach, List.forall₂_map_right_iff, List.forall₂_same]
  exact fun reference _ poms => PomService.strict_ofEach_singleton_eq_ok_iff

end Repository

end ManagedGraph
