import ManagedGraph.Coordinates

/-!
# Exclusions

An exclusion suppresses transitive dependencies below the module that declares it. It is
a pattern over groups and artifacts, either side of which may be the wildcard. Text that
is no pattern is kept, so that it can be shown, and matches nothing.
-/

namespace ManagedGraph

/-- A declared exclusion. -/
inductive Exclusion where
  /-- Matches the modules with this group and artifact; the wildcard matches any. -/
  | pattern (group artifact : String)
  /-- A declaration that was not of the form `group:artifact`; matches nothing. -/
  | malformed (raw : String)
deriving DecidableEq, Repr

namespace Exclusion

/-- Stands for any group or any artifact. -/
def wildcard : String := "*"

/-- Whether one side of a pattern accepts a name. -/
def accepts (side name : String) : Bool :=
  side == wildcard || side == name

/-- Whether an exclusion suppresses a module. -/
def suppresses : Exclusion → ModuleId → Bool
  | pattern group artifact, id => accepts group id.group && accepts artifact id.artifact
  | malformed _, _ => false

/-- Reads a declaration, which is divided at its first colon. It is malformed unless both parts
are non-empty and the artifact has no colon of its own. -/
def parse (s : String) : Exclusion :=
  match Text.breakOn [':'] s.toList with
  | some (group, artifact) =>
      if !group.isEmpty && !artifact.isEmpty && !artifact.contains ':' then
        pattern (String.ofList group) (String.ofList artifact)
      else malformed s
  | none => malformed s

/-- The written form; a malformed declaration is shown as it was written. -/
def display : Exclusion → String
  | pattern group artifact => group ++ ":" ++ artifact
  | malformed raw => raw

/-! ## Order -/

/-- Whether a declaration could not be read. -/
def isMalformed : Exclusion → Bool
  | pattern _ _ => false
  | malformed _ => true

/-- The group, or the raw text. -/
def major : Exclusion → String
  | pattern group _ => group
  | malformed raw => raw

/-- The artifact; a malformed declaration has none. -/
def minor : Exclusion → String
  | pattern _ artifact => artifact
  | malformed _ => ""

/-- Patterns come first, by group and artifact, then malformed declarations by their text. -/
instance : Ord Exclusion where
  compare := compareLex (compareOn isMalformed) (compareLex (compareOn major) (compareOn minor))

theorem compare_def (a b : Exclusion) :
    compare a b = (compare a.isMalformed b.isMalformed).then
      ((compare a.major b.major).then (compare a.minor b.minor)) := rfl

instance : Std.TransOrd Exclusion :=
  inferInstanceAs (Std.TransCmp
    (compareLex (compareOn isMalformed) (compareLex (compareOn major) (compareOn minor))))

instance : Std.LawfulEqOrd Exclusion where
  compare_self := by simp
  eq_of_compare := by
    intro a b h
    cases a <;> cases b <;>
      simp_all [compare_def, Ordering.then_eq_eq, isMalformed, major, minor]

end Exclusion

/-- A set of exclusions. -/
abbrev ExclusionSet := Std.ExtTreeSet Exclusion

namespace ExclusionSet

/-- Whether some exclusion of the set suppresses a module. -/
def suppresses (patterns : ExclusionSet) (id : ModuleId) : Bool :=
  patterns.toList.any fun pattern => pattern.suppresses id

/-- A set suppresses a module when one of its members does. -/
theorem suppresses_eq_true_iff {patterns : ExclusionSet} {id : ModuleId} :
    patterns.suppresses id = true ↔ ∃ p ∈ patterns, p.suppresses id = true := by
  simp [suppresses, List.any_eq_true, Std.ExtTreeSet.mem_toList]

theorem suppresses_eq_false_iff {patterns : ExclusionSet} {id : ModuleId} :
    patterns.suppresses id = false ↔ ∀ p ∈ patterns, p.suppresses id = false := by
  simp [suppresses, List.any_eq_false, Std.ExtTreeSet.mem_toList]

end ExclusionSet

end ManagedGraph
