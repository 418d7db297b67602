import ManagedGraph.Exclusion.Table
import Mathlib.Order.BoundedOrder.Lattice

/-!
# What a table of exclusions was made from

Under merging the tables are a join-semilattice, ordered by what they register. They are made from
the empty one by registering patterns and by merging other tables that were made in the same way. Of
such a history a table shows one thing only, namely which patterns were contributed for which owner
(`History.table_eq_table_iff`), and every table has a history (`History.exists_history`).
-/

namespace ManagedGraph.Exclusions

/-! ## Merging -/

/-- Tables with the same patterns for every owner are equal. -/
theorem ext_mem_patterns {a b : Exclusions}
    (h : ∀ owner p, p ∈ a.patterns owner ↔ p ∈ b.patterns owner) : a = b :=
  ext_patterns fun owner => Std.ExtTreeSet.ext_mem fun {p} => h owner p

/-- A table is below one that registers all its patterns. -/
instance : PartialOrder Exclusions where
  le a b := ∀ owner p, p ∈ a.patterns owner → p ∈ b.patterns owner
  le_refl _ _ _ hp := hp
  le_trans _ _ _ hab hbc owner p hp := hbc owner p (hab owner p hp)
  le_antisymm _ _ hab hba := ext_mem_patterns fun owner p => ⟨hab owner p, hba owner p⟩

instance : SemilatticeSup Exclusions where
  sup := merge
  le_sup_left _ _ _ _ hp := mem_patterns_merge.2 (Or.inl hp)
  le_sup_right _ _ _ _ hp := mem_patterns_merge.2 (Or.inr hp)
  sup_le _ _ _ hac hbc owner p hp := (mem_patterns_merge.1 hp).elim (hac owner p) (hbc owner p)

instance : OrderBot Exclusions where
  bot := ∅
  bot_le _ _ _ hp := by simp at hp

/-! ## Histories -/

/-- How a table was made. -/
inductive History where
  /-- A new table, without entries. -/
  | new
  /-- Patterns were registered for an owner; there may be none. -/
  | add (before : History) (owner : ModuleId) (more : List Exclusion)
  /-- Another table was merged into the table. -/
  | merge (before other : History)

namespace History

/-- The table that was made. -/
def table : History → Exclusions
  | new => ∅
  | add before owner more => before.table.add owner more
  | merge before other => before.table.merge other.table

/-- The patterns contributed for an owner, in the order of the calls. -/
def contributed (owner : ModuleId) : History → List Exclusion
  | new => []
  | add before o more => before.contributed owner ++ if o = owner then more else []
  | merge before other => before.contributed owner ++ other.contributed owner

variable {h k : History} {owner : ModuleId} {p : Exclusion}

/-- The patterns of an owner are those contributed for it. -/
theorem mem_patterns_table : p ∈ h.table.patterns owner ↔ p ∈ h.contributed owner := by
  induction h with
  | new => simp [table, contributed]
  | add before o more ih =>
      rw [table, mem_patterns_add, ih, contributed, List.mem_append]
      by_cases ho : o = owner <;> simp [ho]
  | merge before other ih ih' =>
      rw [table, mem_patterns_merge, ih, ih', contributed, List.mem_append]

/-- What is registered for an owner is the set of what was contributed for it. -/
theorem patterns_table : h.table.patterns owner = .ofList (h.contributed owner) :=
  Std.ExtTreeSet.ext_mem fun {p} => by
    rw [mem_patterns_table, Std.ExtTreeSet.mem_ofList, List.contains_iff_mem]

/-- There is an entry exactly if something was contributed. -/
theorem get?_table :
    h.table.get? owner =
      if h.contributed owner = [] then none else some (.ofList (h.contributed owner)) := by
  have hempty : h.table.patterns owner = ∅ ↔ h.contributed owner = [] := by
    rw [Std.ExtTreeSet.eq_empty_iff_forall_not_mem, List.eq_nil_iff_forall_not_mem]
    simp only [mem_patterns_table]
  rw [get?_eq, patterns_table]
  simp only [← patterns_table, hempty]

/-- Two histories have made the same table exactly if the same patterns were contributed. -/
theorem table_eq_table_iff :
    h.table = k.table ↔ ∀ owner p, p ∈ h.contributed owner ↔ p ∈ k.contributed owner := by
  simp only [← mem_patterns_table]
  constructor
  · rintro heq owner p
    rw [heq]
  · exact ext_mem_patterns

/-- One call for each of some entries. -/
def addAll (h : History) (entries : List (ModuleId × ExclusionSet)) : History :=
  entries.foldl (fun h entry => h.add entry.1 entry.2.toList) h

theorem mem_contributed_addAll {entries : List (ModuleId × ExclusionSet)} :
    p ∈ (h.addAll entries).contributed owner ↔
      p ∈ h.contributed owner ∨ ∃ entry ∈ entries, entry.1 = owner ∧ p ∈ entry.2 := by
  induction entries generalizing h with
  | nil => simp [addAll]
  | cons entry rest ih =>
      have hcons : h.addAll (entry :: rest) = (h.add entry.1 entry.2.toList).addAll rest := rfl
      rw [hcons, ih, contributed]
      by_cases ho : entry.1 = owner <;> simp [ho, Std.ExtTreeSet.mem_toList, or_assoc]

/-- Every table has a history. -/
theorem exists_history (table : Exclusions) : ∃ h : History, h.table = table := by
  refine ⟨new.addAll table.toList, ext_mem_patterns fun owner p => ?_⟩
  rw [mem_patterns_table, mem_contributed_addAll, mem_patterns_iff_mem_toList]
  simp [contributed]

end History

/-- In a table that was made by calls, an owner has an entry exactly if some pattern was contributed
for it, and the entry is the set of all patterns that were. Two such tables are equal exactly if the
same patterns were contributed for each owner, in whatever order, grouping and number. All tables
are such tables, and for them merging is commutative, associative and idempotent, and the empty
table is neutral. -/
theorem tables_of_contributions :
    (∀ (h : History) (owner : ModuleId), h.table.get? owner =
      if h.contributed owner = [] then none else some (.ofList (h.contributed owner))) ∧
    (∀ h k : History, h.table = k.table ↔
      ∀ owner p, p ∈ h.contributed owner ↔ p ∈ k.contributed owner) ∧
    (∀ a : Exclusions, ∃ h : History, h.table = a) ∧
    ∀ a b c : Exclusions,
      a.merge b = b.merge a ∧ (a.merge b).merge c = a.merge (b.merge c) ∧ a.merge a = a ∧
        a.merge ∅ = a ∧ (∅ : Exclusions).merge a = a :=
  ⟨fun _ _ => History.get?_table, fun _ _ => History.table_eq_table_iff, History.exists_history,
    fun a b c => ⟨sup_comm a b, sup_assoc a b c, sup_idem a, sup_bot_eq a, bot_sup_eq a⟩⟩

end ManagedGraph.Exclusions
