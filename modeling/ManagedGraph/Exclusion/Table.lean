import ManagedGraph.Exclusion

/-!
# Exclusions by the module that declares them

The patterns registered for `g:a` apply to the dependencies of `g:a`, never to `g:a`
itself. A table holds no empty entry, so two tables are equal when they register the same
patterns for every owner (`ext_patterns`), and `mem_patterns_add` and `mem_patterns_merge`
say all there is to know about the two operations.
-/

namespace ManagedGraph

/-- Exclusions keyed by the module whose dependencies they apply to. -/
structure Exclusions where
  entries : Std.ExtTreeMap ModuleId ExclusionSet
  /-- No owner has an empty entry. -/
  entries_nonempty : ∀ (owner : ModuleId) (patterns : ExclusionSet),
    entries[owner]? = some patterns → patterns ≠ ∅

namespace Exclusions

/-- The table without entries. -/
def empty : Exclusions := ⟨∅, by simp⟩

instance : EmptyCollection Exclusions := ⟨empty⟩

instance : Inhabited Exclusions := ⟨empty⟩

/-- The entry of an owner. -/
def get? (table : Exclusions) (owner : ModuleId) : Option ExclusionSet :=
  table.entries[owner]?

/-- All patterns registered for an owner. -/
def patterns (table : Exclusions) (owner : ModuleId) : ExclusionSet :=
  (table.get? owner).getD ∅

/-- The entries, by owner. -/
def toList (table : Exclusions) : List (ModuleId × ExclusionSet) :=
  table.entries.toList

/-- The number of owners. -/
def size (table : Exclusions) : Nat :=
  table.entries.size

/-- Whether no owner has an entry. -/
def isEmpty (table : Exclusions) : Bool :=
  table.entries.isEmpty

/-- Registers further patterns for an owner; registering none changes nothing. -/
def addSet (table : Exclusions) (owner : ModuleId) (more : ExclusionSet) : Exclusions :=
  if h : more = ∅ then table
  else
    { entries := table.entries.insert owner (table.patterns owner ∪ more)
      entries_nonempty := by
        intro o ps hps
        rw [Std.ExtTreeMap.getElem?_insert] at hps
        split at hps
        · simp only [Option.some.injEq] at hps
          subst hps
          intro hempty
          apply h
          rw [Std.ExtTreeSet.eq_empty_iff_forall_not_mem] at hempty ⊢
          intro p hp
          exact hempty p (Std.ExtTreeSet.mem_union_iff.2 (Or.inr hp))
        · exact table.entries_nonempty o ps hps }

/-- Registers a list of patterns for an owner. -/
def add (table : Exclusions) (owner : ModuleId) (more : List Exclusion) : Exclusions :=
  table.addSet owner (Std.ExtTreeSet.ofList more)

/-- Registers every entry of another table. -/
def merge (table other : Exclusions) : Exclusions :=
  other.toList.foldl (fun acc entry => acc.addSet entry.1 entry.2) table

/-! ## Laws -/

@[simp] theorem patterns_empty (owner : ModuleId) : (∅ : Exclusions).patterns owner = ∅ := by
  change (((∅ : Std.ExtTreeMap ModuleId ExclusionSet))[owner]?).getD ∅ = ∅
  simp

theorem ext_entries {a b : Exclusions} (h : a.entries = b.entries) : a = b := by
  cases a
  cases b
  simp_all

/-- An owner has an entry exactly when some pattern is registered for it. -/
theorem get?_eq (table : Exclusions) (owner : ModuleId) :
    table.get? owner = if table.patterns owner = ∅ then none else some (table.patterns owner) := by
  cases h : table.get? owner with
  | none => simp [patterns, h]
  | some ps => simp [patterns, h, table.entries_nonempty owner ps h]

/-- An owner for which no pattern is registered has no entry. -/
theorem get?_eq_none_iff {table : Exclusions} {owner : ModuleId} :
    table.get? owner = none ↔ table.patterns owner = ∅ := by
  rw [get?_eq]
  split <;> simp_all

/-- Tables that register the same patterns for every owner are equal. -/
theorem ext_patterns {a b : Exclusions} (h : ∀ owner, a.patterns owner = b.patterns owner) :
    a = b := by
  apply ext_entries
  apply Std.ExtTreeMap.ext_getElem?
  intro owner
  change a.get? owner = b.get? owner
  rw [get?_eq, get?_eq, h]

theorem patterns_addSet (table : Exclusions) (owner o : ModuleId) (more : ExclusionSet) :
    (table.addSet owner more).patterns o =
      if owner = o then table.patterns o ∪ more else table.patterns o := by
  unfold addSet
  split
  · rename_i h
    subst h
    split
    · apply Std.ExtTreeSet.ext_mem
      intro p
      simp
    · rfl
  · by_cases ho : owner = o
    · subst ho
      simp [patterns, get?]
    · simp [patterns, get?, Std.ExtTreeMap.getElem?_insert, ho]

/-- What is registered for an owner after registering more. -/
theorem mem_patterns_add {table : Exclusions} {owner o : ModuleId} {more : List Exclusion}
    {p : Exclusion} :
    p ∈ (table.add owner more).patterns o ↔ p ∈ table.patterns o ∨ (owner = o ∧ p ∈ more) := by
  rw [add, patterns_addSet]
  split <;> simp_all [Std.ExtTreeSet.mem_union_iff, Std.ExtTreeSet.mem_ofList]

/-- What is registered for an owner stands in an entry of that owner. -/
theorem mem_patterns_iff_mem_toList {table : Exclusions} {o : ModuleId} {p : Exclusion} :
    p ∈ table.patterns o ↔ ∃ entry ∈ table.toList, entry.1 = o ∧ p ∈ entry.2 := by
  constructor
  · intro hp
    cases hget : table.get? o with
    | none => simp [patterns, hget] at hp
    | some ps =>
        refine ⟨(o, ps), Std.ExtTreeMap.mem_toList_iff_getElem?_eq_some.2 hget, rfl, ?_⟩
        simpa [patterns, hget] using hp
  · rintro ⟨⟨owner, ps⟩, hmem, rfl, hp⟩
    have hget : table.get? owner = some ps := Std.ExtTreeMap.mem_toList_iff_getElem?_eq_some.1 hmem
    simpa [patterns, hget] using hp

/-- A merge registers what either table registers. -/
theorem mem_patterns_merge {a b : Exclusions} {o : ModuleId} {p : Exclusion} :
    p ∈ (a.merge b).patterns o ↔ p ∈ a.patterns o ∨ p ∈ b.patterns o := by
  have fold (l : List (ModuleId × ExclusionSet)) (acc : Exclusions) :
      p ∈ (l.foldl (fun acc entry => acc.addSet entry.1 entry.2) acc).patterns o ↔
        p ∈ acc.patterns o ∨ ∃ entry ∈ l, entry.1 = o ∧ p ∈ entry.2 := by
    induction l generalizing acc with
    | nil => simp
    | cons entry rest ih =>
        rw [List.foldl_cons, ih, patterns_addSet]
        by_cases ho : entry.1 = o
        · simp [ho, Std.ExtTreeSet.mem_union_iff, or_assoc]
        · simp [ho]
  rw [merge, fold, ← mem_patterns_iff_mem_toList]

end Exclusions

end ManagedGraph
