import ManagedGraph.Pom.Document
import ManagedGraph.Text.Search

/-!
# Interpolation

A reference is a name between a dollar sign with an opening brace and the next closing
brace. References are replaced from left to right; what replaces one is searched again
from where the search stood. A reference stays as it is if its name is unknown or if its
value refers to it. At most twenty references of a text are replaced.
-/

namespace ManagedGraph.Pom

namespace Interpolation

/-- What starts a reference. -/
def opener : List Char := ['$', '\x7b']

/-- What ends a reference. -/
def closer : List Char := ['\x7d']

/-- A name written as a reference. -/
def reference (name : List Char) : List Char :=
  opener ++ name ++ closer

/-- The first reference of a text: the text before it, its name, and the text after it. -/
def firstReference (s : List Char) : Option (List Char × List Char × List Char) :=
  match Text.breakOn opener s with
  | none => none
  | some (before, rest) =>
      match Text.breakOn closer rest with
      | none => none
      | some (name, after) => some (before, name, after)

theorem length_lt_of_firstReference {s before name after : List Char}
    (h : firstReference s = some (before, name, after)) : after.length < s.length := by
  unfold firstReference at h
  split at h
  · simp at h
  · rename_i hb
    split at h
    · simp at h
    · rename_i hc
      simp only [Option.some.injEq, Prod.mk.injEq] at h
      rcases h with ⟨-, -, rfl⟩
      have h1 := Text.length_lt_of_breakOn (by simp [opener]) hb
      have h2 := Text.length_lt_of_breakOn (by simp [closer]) hc
      omega

/-- A text with its references replaced by their values, at most `budget` of them. -/
def substitute (value? : List Char → Option (List Char)) (budget : Nat) (s : List Char) :
    List Char :=
  match budget with
  | 0 => s
  | budget + 1 =>
      match _h : firstReference s with
      | none => s
      | some (before, name, after) =>
          match value? name with
          -- a reference that stays costs nothing, and the search goes on after it
          | none => before ++ reference name ++ substitute value? (budget + 1) after
          | some value =>
              if Text.occurs (reference name) value then
                before ++ reference name ++ substitute value? (budget + 1) after
              -- the value may hold references, so it is searched in turn
              else substitute value? budget (before ++ value ++ after)
termination_by (budget, s.length)
decreasing_by
  · exact Prod.Lex.right _ (length_lt_of_firstReference _h)
  · exact Prod.Lex.right _ (length_lt_of_firstReference _h)
  · exact Prod.Lex.left _ _ (Nat.lt_succ_self _)

@[simp] theorem substitute_zero {value? : List Char → Option (List Char)} {s : List Char} :
    substitute value? 0 s = s := by
  rw [substitute]

/-- A text without references stays as it is. -/
theorem substitute_of_none {value? : List Char → Option (List Char)} {budget : Nat}
    {s : List Char} (h : firstReference s = none) : substitute value? budget s = s := by
  cases budget with
  | zero => exact substitute_zero
  | succ budget =>
      rw [substitute]
      split
      · rfl
      · rename_i hsome
        rw [h] at hsome
        simp at hsome

/-- A reference whose name is unknown, or whose value refers to it, stays as it is. -/
theorem substitute_of_kept {value? : List Char → Option (List Char)} {budget : Nat}
    {s before name after : List Char} (h : firstReference s = some (before, name, after))
    (hkept : ∀ value, value? name = some value → Text.occurs (reference name) value = true) :
    substitute value? (budget + 1) s =
      before ++ reference name ++ substitute value? (budget + 1) after := by
  rw [substitute]
  split
  · rename_i hnone
    rw [h] at hnone
    simp at hnone
  · rename_i hsome
    rw [h] at hsome
    simp only [Option.some.injEq, Prod.mk.injEq] at hsome
    rcases hsome with ⟨rfl, rfl, rfl⟩
    split
    · rfl
    · rename_i value hvalue
      rw [if_pos (hkept value hvalue)]

/-- Another reference is replaced by its value, at the cost of one from the budget. -/
theorem substitute_of_value {value? : List Char → Option (List Char)} {budget : Nat}
    {s before name after value : List Char} (h : firstReference s = some (before, name, after))
    (hvalue : value? name = some value) (hfree : Text.occurs (reference name) value = false) :
    substitute value? (budget + 1) s = substitute value? budget (before ++ value ++ after) := by
  rw [substitute]
  split
  · rename_i hnone
    rw [h] at hnone
    simp at hnone
  · rename_i hsome
    rw [h] at hsome
    simp only [Option.some.injEq, Prod.mk.injEq] at hsome
    rcases hsome with ⟨rfl, rfl, rfl⟩
    simp [hvalue, hfree]

/-- How many references of one text are replaced at most. -/
def limit : Nat := 20

end Interpolation

namespace Declaration

/-- A declaration with a function applied to each of its texts. -/
def mapTexts (f : String → String) (d : Declaration) : Declaration :=
  { d with
    group := f d.group
    artifact := f d.artifact
    version := d.version.map f
    scope := d.scope.map f
    classifier := d.classifier.map f
    type := d.type.map f
    exclusions := d.exclusions.map fun e => ⟨f e.group, e.artifact.map f⟩ }

end Declaration

namespace Document

/-- The value of a name: that of a project variable, or else of a property. -/
def value? (d : Document) (name : String) : Option String :=
  match name with
  | "project.groupId" | "pom.groupId" => d.effectiveGroup
  | "project.artifactId" | "pom.artifactId" => d.artifact
  | "project.version" | "pom.version" => d.effectiveVersion
  | "project.packaging" | "pom.packaging" => d.packaging
  | "project.parent.groupId" => d.parent.map ParentReference.group
  | "project.parent.version" => d.parent.map ParentReference.version
  | _ => d.properties[name]?

/-- A text with its references replaced by the values they have in a document. -/
def interpolate (d : Document) (s : String) : String :=
  String.ofList (Interpolation.substitute
    (fun name => (d.value? (String.ofList name)).map String.toList) Interpolation.limit s.toList)

/-- A text without references is not changed. -/
theorem interpolate_of_plain (d : Document) {s : String}
    (h : Interpolation.firstReference s.toList = none) : d.interpolate s = s := by
  rw [interpolate, Interpolation.substitute_of_none h, String.ofList_toList]

/-- A text that is one reference becomes its value, if that holds no references. -/
theorem interpolate_of_reference {d : Document} {s value : String} (name : String)
    (h : Interpolation.firstReference s.toList = some ([], name.toList, []))
    (hvalue : d.value? name = some value)
    (hfree : Text.occurs (Interpolation.reference name.toList) value.toList = false)
    (hplain : Interpolation.firstReference value.toList = none) : d.interpolate s = value := by
  have hlookup : (d.value? (String.ofList name.toList)).map String.toList = some value.toList := by
    rw [String.ofList_toList, hvalue]
    rfl
  rw [interpolate, Interpolation.limit, Interpolation.substitute_of_value h hlookup hfree,
    List.nil_append, List.append_nil, Interpolation.substitute_of_none hplain, String.ofList_toList]

/-- A document whose declarations are interpolated. Its properties stay as they are. -/
def resolveProperties (d : Document) : Document :=
  { d with
    dependencies := d.dependencies.map (Declaration.mapTexts d.interpolate)
    management := d.management.map (Declaration.mapTexts d.interpolate) }

end Document

end ManagedGraph.Pom
