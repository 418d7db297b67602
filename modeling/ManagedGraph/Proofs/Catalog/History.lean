import ManagedGraph.Proofs.Catalog.Lookup

/-!
# The history of a catalog

Look-ups follow one another, each with a service of its own, and an answer to one may differ from
that to the next. A look-up asks for the modules that are not known yet, and the POM in the slot
of a module, found once, is what is known of it from then on (`get?_after_eq_some_iff`). What a
look-up answers with hangs on nothing else (`known_by_first_slot`).
-/

namespace ManagedGraph

/-- Of the dependencies of a POM, managed and direct, those that are followed by others: one of
them is the given module and excludes a pattern. -/
def EffectivePom.Excludes (pom : EffectivePom) (owner : ModuleId) (p : Exclusion) : Prop :=
  ∃ d ∈ pom.managed ++ pom.dependencies, d.id = owner ∧ d.optional = false ∧
    d.scope ≠ some "provided" ∧ d.scope ≠ some "test" ∧ p ∈ d.exclusions

/-- A look-up of modules and the service it asks. -/
structure LookUp where
  poms : PomService
  modules : List ModuleVersion

namespace Catalog

variable {c : Catalog} {modules : List ModuleVersion} {m : ModuleVersion} {id owner : ModuleId}
variable {p : Exclusion} {call : LookUp} {calls : List LookUp} {pom : EffectivePom}
variable {entry : Exclusions}

/-- The modules of a list that are not known, each where it stands first. -/
def wanted (c : Catalog) (modules : List ModuleVersion) : List ModuleVersion :=
  (modules.zipIdx.filter fun listed => c.get? listed.1.id = none ∧
    listed.1.id ∉ (modules.take listed.2).map ModuleVersion.id).map Prod.fst

/-- What is asked for some modules, reference by reference. -/
def references (modules : List ModuleVersion) : List PomReference :=
  modules.map fun m : ModuleVersion => .plain m.coordinates

/-- A look-up asks for a module and gets a POM in the slot of the module. -/
def SlotHolds (c : Catalog) (call : LookUp) (id : ModuleId) (pom : EffectivePom) : Prop :=
  ∃ (i : Nat) (m : ModuleVersion), (c.wanted call.modules)[i]? = some m ∧ m.id = id ∧
    (call.poms.lenient (references (c.wanted call.modules)) ∅)[i]? = some (some pom)

/-- Looks modules up. -/
def lookUpAll (call : LookUp) : Operation PomCall Catalog Exclusions :=
  resolve call.poms call.modules

/-- The catalog after some look-ups. -/
def after (c : Catalog) (calls : List LookUp) : Catalog :=
  calls.foldl (fun c call => (lookUpAll call c).state) c

/-- At one of some look-ups the slot of a module holds a POM. -/
def Found (c : Catalog) (calls : List LookUp) (id : ModuleId) (pom : EffectivePom) : Prop :=
  ∃ before call later, calls = before ++ call :: later ∧ (c.after before).SlotHolds call id pom

/-! ## Exclusions of POMs -/

/-- If each entry of a list registers something, a table holds afterwards what was there and what
some entry registers. -/
theorem mem_patterns_foldl {α : Type} {write : Exclusions → α → Exclusions}
    (registers : α → Prop)
    (hwrite : ∀ table a, p ∈ (write table a).patterns owner ↔
      p ∈ table.patterns owner ∨ registers a) (entries : List α) (table : Exclusions) :
    p ∈ (entries.foldl write table).patterns owner ↔
      p ∈ table.patterns owner ∨ ∃ a ∈ entries, registers a := by
  apply gathers_foldl (fun table : Exclusions => p ∈ table.patterns owner) fun _ => True
  · intro _ _ h
    exact h
  · intro table a _
    exact hwrite table a
  · trivial

theorem isTransitive_iff {d : Dependency} :
    d.isTransitive = true ↔
      d.optional = false ∧ d.scope ≠ some "provided" ∧ d.scope ≠ some "test" := by
  simp [Dependency.isTransitive, and_assoc]

theorem mem_patterns_exclusionsOf :
    p ∈ (exclusionsOf pom).patterns owner ↔ pom.Excludes owner p := by
  unfold exclusionsOf EffectivePom.Excludes
  rw [mem_patterns_foldl (fun d : Dependency => d.id = owner ∧ p ∈ d.exclusions)
    fun _ _ => Exclusions.mem_patterns_add]
  simp only [Exclusions.patterns_empty, Std.ExtTreeSet.not_mem_empty, false_or, List.mem_filter,
    isTransitive_iff]
  constructor
  · rintro ⟨d, ⟨hd, hoptional, hprovided, htest⟩, howner, hp⟩
    exact ⟨d, hd, howner, hoptional, hprovided, htest, hp⟩
  · rintro ⟨d, hd, howner, hoptional, hprovided, htest, hp⟩
    exact ⟨d, ⟨hd, hoptional, hprovided, htest⟩, howner, hp⟩

/-- What is merged is what is known of the modules listed. -/
theorem mem_patterns_merged :
    p ∈ (c.merged modules).patterns owner ↔
      ∃ m ∈ modules, ∃ entry, c.get? m.id = some entry ∧ p ∈ entry.patterns owner := by
  unfold merged
  rw [mem_patterns_foldl
    fun m : ModuleVersion => ∃ entry, c.get? m.id = some entry ∧ p ∈ entry.patterns owner]
  · simp only [Exclusions.patterns_empty, Std.ExtTreeSet.not_mem_empty, false_or]
    constructor
    · rintro ⟨m, hm, hentry⟩
      exact ⟨m, mem_firstVersions hm, hentry⟩
    · rintro ⟨m, hm, hentry⟩
      obtain ⟨first, hfirst, hid⟩ := exists_firstVersion hm
      exact ⟨first, hfirst, hid ▸ hentry⟩
  · intro table m
    cases hknown : c.get? m.id with
    | none => simp
    | some entry => simp [Exclusions.mem_patterns_merge]

/-! ## One look-up -/

/-- What is looked up are the first versions of the modules that are not known. -/
theorem missing_eq_wanted : c.missing modules = c.wanted modules := by
  unfold missing firstVersions wanted
  rw [appendNew_eq_append_firsts, firsts, List.nil_append, List.filter_map, List.filter_filter]
  congr 1
  apply List.filter_congr
  intro listed _
  rw [Bool.eq_iff_iff]
  simp

theorem nodup_wanted : ((c.wanted modules).map ModuleVersion.id).Nodup := by
  rw [← missing_eq_wanted]
  exact (nodup_firstVersions modules).sublist (List.filter_sublist.map _)

/-- A module is asked for if it is listed and not known. -/
theorem mem_map_id_wanted :
    id ∈ (c.wanted modules).map ModuleVersion.id ↔
      c.get? id = none ∧ ∃ m ∈ modules, m.id = id := by
  rw [← missing_eq_wanted, List.mem_map]
  constructor
  · rintro ⟨m, hm, rfl⟩
    obtain ⟨hfirst, hunknown⟩ := List.mem_filter.1 hm
    exact ⟨Option.isNone_iff_eq_none.1 hunknown, m, mem_firstVersions hfirst, rfl⟩
  · rintro ⟨hunknown, m, hm, rfl⟩
    obtain ⟨first, hfirst, hid⟩ := exists_firstVersion hm
    exact ⟨first, List.mem_filter.2 ⟨hfirst, by simp [hid, hunknown]⟩, hid⟩

theorem log_lookUpAll :
    (lookUpAll call c).log =
      if c.wanted call.modules = [] then []
      else [.lenient (references (c.wanted call.modules)) ∅] := by
  unfold lookUpAll resolve
  simp only [missing_eq_wanted, List.isEmpty_iff]
  split <;> rfl

theorem state_lookUpAll :
    (lookUpAll call c).state =
      c.record (c.wanted call.modules)
        (call.poms.lenient (references (c.wanted call.modules)) ∅) := by
  unfold lookUpAll resolve
  simp only [missing_eq_wanted, List.isEmpty_iff]
  split
  · rename_i hnone
    rw [hnone]
    rfl
  · rfl

/-- Slots and modules are taken in step, so a module with one slot is remembered by that slot. -/
theorem getLast?_found_eq_some_iff {slots : List (Option EffectivePom)}
    (hnodup : (modules.map ModuleVersion.id).Nodup) :
    ((modules.zip slots).filterMap (found? id)).getLast? = some entry ↔
      ∃ (i : Nat) (m : ModuleVersion) (pom : EffectivePom), modules[i]? = some m ∧ m.id = id ∧
        slots[i]? = some (some pom) ∧ entry = exclusionsOf pom := by
  constructor
  · intro h
    obtain ⟨⟨m, slot⟩, hmem, hfound⟩ := List.mem_filterMap.1 (List.mem_of_getLast? h)
    obtain ⟨i, hi⟩ := List.mem_iff_getElem?.1 hmem
    obtain ⟨hm, hslot⟩ := List.getElem?_zip_eq_some.1 hi
    unfold found? at hfound
    split at hfound
    · rename_i hid
      obtain ⟨pom, rfl, hentry⟩ := Option.map_eq_some_iff.1 hfound
      exact ⟨i, m, pom, hm, hid, hslot, hentry.symm⟩
    · exact absurd hfound (by simp)
  · rintro ⟨i, m, pom, hm, hid, hslot, rfl⟩
    have hmem : (m, some pom) ∈ modules.zip slots :=
      List.mem_of_getElem? (List.getElem?_zip_eq_some.2 ⟨hm, hslot⟩)
    have hother : ∀ y ∈ modules.zip slots, y = (m, some pom) ∨ found? id y = none := by
      rintro ⟨m', slot⟩ hy
      by_cases hid' : m'.id = id
      · -- another slot of the module would stand at the same place
        left
        obtain ⟨j, hj⟩ := List.mem_iff_getElem?.1 hy
        obtain ⟨hm', hslot'⟩ := List.getElem?_zip_eq_some.1 hj
        have hlt : i < (modules.map ModuleVersion.id).length := by
          rw [List.length_map]
          exact (List.getElem?_eq_some_iff.1 hm).1
        have hplace : i = j := by
          apply (List.getElem?_inj hlt hnodup).1
          rw [List.getElem?_map, List.getElem?_map, hm, hm']
          simp [hid, hid']
        subst hplace
        simp_all
      · exact Or.inr (if_neg hid')
    rw [getLast?_filterMap_of_unique hmem hother]
    simp [found?, hid]

theorem get?_eq_none_of_slotHolds (h : c.SlotHolds call id pom) : c.get? id = none := by
  obtain ⟨i, m, hm, rfl, -⟩ := h
  exact (mem_map_id_wanted.1 (List.mem_map_of_mem (List.mem_of_getElem? hm))).1

/-- What is known stays known, and what was not known is known by its slot. -/
theorem get?_lookUpAll_eq_some_iff :
    (lookUpAll call c).state.get? id = some entry ↔
      c.get? id = some entry ∨ ∃ pom, c.SlotHolds call id pom ∧ entry = exclusionsOf pom := by
  let slots := call.poms.lenient (references (c.wanted call.modules)) ∅
  have hslot : (((c.wanted call.modules).zip slots).filterMap (found? id)).getLast? = some entry ↔
      ∃ pom, c.SlotHolds call id pom ∧ entry = exclusionsOf pom := by
    rw [getLast?_found_eq_some_iff nodup_wanted]
    constructor
    · rintro ⟨i, m, pom, hm, hid, hpom, hentry⟩
      exact ⟨pom, ⟨i, m, hm, hid, hpom⟩, hentry⟩
    · rintro ⟨pom, ⟨i, m, hm, hid, hpom⟩, hentry⟩
      exact ⟨i, m, pom, hm, hid, hpom, hentry⟩
  rw [state_lookUpAll, get?_record, Option.or_eq_some_iff, hslot]
  constructor
  · rintro (hfound | ⟨-, hknown⟩)
    · exact Or.inr hfound
    · exact Or.inl hknown
  · rintro (hknown | hfound)
    · right
      refine ⟨?_, hknown⟩
      cases hlast : (((c.wanted call.modules).zip slots).filterMap (found? id)).getLast? with
      | none => rfl
      | some other =>
          -- a module that is known is not asked for
          obtain ⟨i, m, pom, hm, hid, hpom, -⟩ := (getLast?_found_eq_some_iff nodup_wanted).1 hlast
          have hunknown := get?_eq_none_of_slotHolds ⟨i, m, hm, hid, hpom⟩
          exact absurd (hunknown.symm.trans hknown) (by simp)
    · exact Or.inl hfound

/-! ## Many look-ups -/

theorem found_cons_iff {rest : List LookUp} :
    Found c (call :: rest) id pom ↔
      c.SlotHolds call id pom ∨ Found (lookUpAll call c).state rest id pom := by
  constructor
  · rintro ⟨before, here, later, hsplit, hslot⟩
    cases before with
    | nil =>
        obtain ⟨rfl, rfl⟩ := List.cons.inj hsplit
        exact Or.inl hslot
    | cons first more =>
        obtain ⟨rfl, hrest⟩ := List.cons.inj hsplit
        exact Or.inr ⟨more, here, later, hrest, hslot⟩
  · rintro (hslot | ⟨before, here, later, rfl, hslot⟩)
    · exact ⟨[], call, rest, rfl, hslot⟩
    · exact ⟨call :: before, here, later, rfl, hslot⟩

/-- What is known after some look-ups was known before or was found at one of them. -/
theorem get?_after_eq_some_iff :
    (after c calls).get? id = some entry ↔
      c.get? id = some entry ∨ ∃ pom, Found c calls id pom ∧ entry = exclusionsOf pom := by
  induction calls generalizing c with
  | nil =>
      have hnone : ∀ pom, ¬ Found c [] id pom := by
        rintro pom ⟨before, here, later, hsplit, -⟩
        exact absurd hsplit (by simp)
      simp [after, hnone]
  | cons call rest ih =>
      have hafter : after c (call :: rest) = after (lookUpAll call c).state rest := rfl
      rw [hafter, ih, get?_lookUpAll_eq_some_iff]
      simp only [found_cons_iff]
      constructor
      · rintro ((hknown | ⟨pom, hslot, hentry⟩) | ⟨pom, hfound, hentry⟩)
        · exact Or.inl hknown
        · exact Or.inr ⟨pom, Or.inl hslot, hentry⟩
        · exact Or.inr ⟨pom, Or.inr hfound, hentry⟩
      · rintro (hknown | ⟨pom, hslot | hfound, hentry⟩)
        · exact Or.inl (Or.inl hknown)
        · exact Or.inl (Or.inr ⟨pom, hslot, hentry⟩)
        · exact Or.inr ⟨pom, hfound, hentry⟩

theorem after_append (before later : List LookUp) :
    after c (before ++ later) = after (after c before) later :=
  List.foldl_append

/-- Consider any look-up of a run that begins with an empty catalog. It makes one call, for the
modules listed that are not known by then, each where it stands first, and none if there are no
such modules. Afterwards a module is known exactly if its own slot has held a POM, which was then
not asked for again, and what is known are the exclusions of that POM; and this stays so whatever
is looked up later. The answer merges what is known of the modules listed. -/
theorem known_by_first_slot (before later : List LookUp) (call : LookUp) :
    let c := after .empty before
    let outcome := lookUpAll call c
    outcome.log = (if c.wanted call.modules = [] then []
        else [.lenient (references (c.wanted call.modules)) ∅]) ∧
      (∀ id, id ∈ (c.wanted call.modules).map ModuleVersion.id ↔
        c.get? id = none ∧ ∃ m ∈ call.modules, m.id = id) ∧
      (∀ id entry, outcome.state.get? id = some entry ↔
        ∃ pom, Found .empty (before ++ [call]) id pom ∧
          ∀ owner p, p ∈ entry.patterns owner ↔ pom.Excludes owner p) ∧
      (∀ id entry, outcome.state.get? id = some entry →
        (after outcome.state later).get? id = some entry) ∧
      ∃ table, outcome.answer = .ok table ∧
        ∀ owner p, p ∈ table.patterns owner ↔
          ∃ m ∈ call.modules, ∃ entry, outcome.state.get? m.id = some entry ∧
            p ∈ entry.patterns owner := by
  intro c outcome
  have hstate : outcome.state = after .empty (before ++ [call]) := (after_append before [call]).symm
  have hentry (entry : Exclusions) (pom : EffectivePom) :
      entry = exclusionsOf pom ↔ ∀ owner p, p ∈ entry.patterns owner ↔ pom.Excludes owner p := by
    constructor
    · rintro rfl owner p
      exact mem_patterns_exclusionsOf
    · intro h
      apply Exclusions.ext_patterns
      intro owner
      apply Std.ExtTreeSet.ext_mem
      intro p
      rw [h, mem_patterns_exclusionsOf]
  refine ⟨log_lookUpAll, fun id => mem_map_id_wanted, ?_, ?_, ?_⟩
  · intro id entry
    have hnew : (Catalog.empty.get? id) = none := by simp [Catalog.empty, Catalog.get?]
    rw [hstate, get?_after_eq_some_iff, hnew]
    simp [hentry]
  · intro id entry hknown
    exact get?_after_eq_some_iff.2 (Or.inl hknown)
  · exact ⟨_, answer_resolve call.poms call.modules c, fun owner p => mem_patterns_merged⟩

end Catalog

end ManagedGraph
