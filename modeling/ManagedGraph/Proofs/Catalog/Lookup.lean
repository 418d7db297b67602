import Mathlib.Data.List.Nodup
import ManagedGraph.Catalog
import ManagedGraph.Proofs.Scope.Declarations

/-!
# Looking up exclusions

A look-up asks once for each module that is not known, at the first of its versions, and
remembers what it finds (`get?_state_resolve`). If the service answers each reference on its
own, a look-up of some modules before does not change the answer for others, as long as both
agree on the versions of the modules they share (`answer_resolve_resolve`).
-/

namespace ManagedGraph

namespace PomService

/-- The lenient calls of a service answer each reference on its own. -/
def Finds (poms : PomService) (find : PomReference → Properties → Option EffectivePom) : Prop :=
  ∀ references properties,
    poms.lenient references properties = references.map fun reference => find reference properties

/-- A service whose lenient calls answer each reference on its own. -/
def Separate (poms : PomService) : Prop :=
  ∃ find, poms.Finds find

/-- A service that resolves each reference on its own answers each on its own. -/
theorem separate_ofEach (resolve : PomReference → Properties → Except Report EffectivePom) :
    (ofEach resolve).Separate :=
  ⟨_, fun _ _ => rfl⟩

end PomService

namespace Catalog

variable {c d : Catalog} {modules : List ModuleVersion} {m : ModuleVersion} {id : ModuleId}

/-! ## First versions -/

/-- Each module is looked up at one version. -/
theorem nodup_firstVersions (modules : List ModuleVersion) :
    ((firstVersions modules).map ModuleVersion.id).Nodup :=
  nodup_map_key_appendNew List.nodup_nil

theorem mem_firstVersions (h : m ∈ firstVersions modules) : m ∈ modules := by
  rcases mem_appendNew h with h | h
  · exact absurd h List.not_mem_nil
  · exact h

/-- No module of a list is forgotten. -/
theorem exists_firstVersion (h : m ∈ modules) : ∃ first ∈ firstVersions modules, first.id = m.id := by
  have hkey : m.id ∈ (firstVersions modules).map ModuleVersion.id :=
    mem_map_key_appendNew.2 (Or.inr (List.mem_map_of_mem h))
  exact List.mem_map.1 hkey

/-! ## One look-up -/

/-- The last value written is the one that stands for an entry if no other entry writes. -/
theorem getLast?_filterMap_of_unique {α β : Type} {f : α → Option β} {entries : List α} {x : α}
    (hx : x ∈ entries) (hother : ∀ y ∈ entries, y = x ∨ f y = none) :
    (entries.filterMap f).getLast? = f x := by
  have hvalue : ∀ b ∈ entries.filterMap f, f x = some b := by
    intro b hb
    rcases List.mem_filterMap.1 hb with ⟨y, hy, hfy⟩
    rcases hother y hy with rfl | hnone
    · exact hfy
    · exact absurd (hfy.symm.trans hnone) (by simp)
  cases hlast : (entries.filterMap f).getLast? with
  | some b => exact (hvalue b (List.mem_of_getLast? hlast)).symm
  | none =>
      have hnil : entries.filterMap f = [] := List.getLast?_eq_none_iff.1 hlast
      exact (List.filterMap_eq_nil_iff.1 hnil x hx).symm

/-- What a slot of a lenient answer says about a module. -/
def found? (id : ModuleId) (slot : ModuleVersion × Option EffectivePom) : Option Exclusions :=
  if slot.1.id = id then slot.2.map exclusionsOf else none

/-- The last slot of a module that holds a POM is remembered. -/
theorem get?_record (c : Catalog) (modules : List ModuleVersion)
    (slots : List (Option EffectivePom)) (id : ModuleId) :
    (c.record modules slots).get? id =
      ((modules.zip slots).filterMap (found? id)).getLast?.or (c.get? id) := by
  simp only [record, get?]
  apply view_foldl (fun cache : Std.ExtTreeMap ModuleId Exclusions compare => cache[id]?)
    fun _ => True
  · intro _ _ h
    exact h
  · intro cache slot _
    obtain ⟨m, pom⟩ := slot
    cases pom with
    | none => simp [found?]
    | some pom =>
        by_cases hid : m.id = id <;> simp [found?, Std.ExtTreeMap.getElem?_insert, hid]
  · trivial

variable {find : PomReference → Properties → Option EffectivePom} {poms : PomService}

/-- What a look-up of a module on its own finds. -/
def lookUp (find : PomReference → Properties → Option EffectivePom) (m : ModuleVersion) :
    Option Exclusions :=
  (find (.plain m.coordinates) ∅).map exclusionsOf

variable (hfind : poms.Finds find)

include hfind

/-- After a look-up of some modules, a module is known by the last of those that were missing
and are found now, or else as before. -/
theorem get?_resolve (c : Catalog) (modules : List ModuleVersion) (id : ModuleId) :
    (resolve poms modules c).state.get? id =
      ((c.missing modules).filterMap fun m =>
        if m.id = id then lookUp find m else none).getLast?.or (c.get? id) := by
  unfold resolve
  simp only
  split
  · rename_i hempty
    rw [List.isEmpty_iff.1 hempty]
    rfl
  · have hslots : (c.missing modules).zip
        (poms.lenient ((c.missing modules).map fun m => .plain m.coordinates) ∅) =
          (c.missing modules).map fun m => (m, find (.plain m.coordinates) ∅) := by
      rw [hfind, List.map_map]
      exact List.map_prod_left_eq_zip.symm
    simp only [get?_record, hslots, List.filterMap_map]
    rfl

/-- A module that was listed is known as before, or else as it is found now. -/
theorem get?_resolve_of_mem (c : Catalog) (hm : m ∈ firstVersions modules) :
    (resolve poms modules c).state.get? m.id = (c.get? m.id).or (lookUp find m) := by
  rw [get?_resolve hfind]
  cases hknown : c.get? m.id with
  | some known =>
      have hnone : ((c.missing modules).filterMap fun other =>
          if other.id = m.id then lookUp find other else none) = [] := by
        apply List.filterMap_eq_nil_iff.2
        intro other hother
        have hunknown := (List.mem_filter.1 hother).2
        by_cases hid : other.id = m.id
        · exact absurd hunknown (by simp [hid, hknown])
        · exact if_neg hid
      rw [hnone]
      rfl
  | none =>
      have hmissing : m ∈ c.missing modules := List.mem_filter.2 ⟨hm, by simp [hknown]⟩
      have hunique : ∀ other ∈ c.missing modules,
          other = m ∨ (if other.id = m.id then lookUp find other else none) = none := by
        intro other hother
        by_cases hid : other.id = m.id
        · have hmem := (List.mem_filter.1 hother).1
          exact Or.inl (List.inj_on_of_nodup_map (nodup_firstVersions modules) hmem hm hid)
        · exact Or.inr (if_neg hid)
      rw [getLast?_filterMap_of_unique hmissing hunique]
      simp

/-- A module that was not listed is known as before. -/
theorem get?_resolve_of_not_mem (c : Catalog) (hid : ∀ m ∈ modules, m.id ≠ id) :
    (resolve poms modules c).state.get? id = c.get? id := by
  have hnone : ((c.missing modules).filterMap fun m =>
      if m.id = id then lookUp find m else none) = [] := by
    apply List.filterMap_eq_nil_iff.2
    intro m hm
    exact if_neg (hid m (mem_firstVersions (List.mem_filter.1 hm).1))
  rw [get?_resolve hfind, hnone]
  rfl

omit hfind

theorem answer_resolve (poms : PomService) (modules : List ModuleVersion) (c : Catalog) :
    (resolve poms modules c).answer = .ok ((resolve poms modules c).state.merged modules) := by
  unfold resolve
  simp only
  split <;> rfl

/-- What is merged hangs on what is known of the modules listed. -/
theorem merged_congr (h : ∀ m ∈ firstVersions modules, d.get? m.id = c.get? m.id) :
    d.merged modules = c.merged modules := by
  unfold merged
  apply List.foldl_ext
  intro table m hm
  rw [h m hm]

/-- Looking up some modules first does not change what a look-up of others answers, as long as
the versions of the modules they share agree. -/
theorem answer_resolve_resolve {before : List ModuleVersion} (h : poms.Separate)
    (hversions : ∀ x ∈ before, ∀ y ∈ modules, x.id = y.id → x.version = y.version) :
    (resolve poms modules (resolve poms before c).state).answer =
      (resolve poms modules c).answer := by
  obtain ⟨find, hfind⟩ := h
  rw [answer_resolve, answer_resolve]
  congr 1
  apply merged_congr
  intro m hm
  rw [get?_resolve_of_mem hfind _ hm, get?_resolve_of_mem hfind _ hm]
  by_cases hlisted : ∃ x ∈ before, x.id = m.id
  · obtain ⟨x, hx, hxm⟩ := hlisted
    obtain ⟨first, hfirst, hid⟩ := exists_firstVersion hx
    -- the module was looked up before at the version that is asked for now
    have hsame : first = m := by
      have hidm : first.id = m.id := hid.trans hxm
      have hversion := hversions first (mem_firstVersions hfirst) m (mem_firstVersions hm) hidm
      cases first
      cases m
      simp_all
    rw [← hsame, get?_resolve_of_mem hfind c hfirst, Option.or_assoc, Option.or_self]
  · have hunlisted : ∀ x ∈ before, x.id ≠ m.id := by
      intro x hx hxm
      exact hlisted ⟨x, hx, hxm⟩
    rw [get?_resolve_of_not_mem hfind c hunlisted]

end Catalog

end ManagedGraph
