import Mathlib.Data.List.Basic
import Mathlib.Data.List.Infix
import ManagedGraph.Text.Search

/-!
# Texts of several parts

A text is divided at each occurrence of a character, or at the first one. Either way it is the
parts with the divider between them, and it determines them: they are the only parts without a
divider of which the text is made (`splitOn_eq_iff`, `breakOn_singleton_eq_some_iff`).
-/

namespace ManagedGraph.Text

variable {divider : Char} {s part before after : List Char} {parts : List (List Char)}

/-- No part has a divider in it. -/
theorem not_mem_of_mem_splitOn (h : part ∈ s.splitOn divider) : divider ∉ part := by
  induction s generalizing part with
  | nil =>
      obtain rfl : part = [] := by simpa using h
      exact List.not_mem_nil
  | cons c rest ih =>
      rw [List.splitOn_cons_eq_if_modifyHead] at h
      split at h
      · rcases List.mem_cons.1 h with rfl | hrest
        · exact List.not_mem_nil
        · exact ih hrest
      · rename_i hc
        obtain ⟨first, others, hrest⟩ :=
          List.exists_cons_of_ne_nil (List.splitOn_ne_nil divider rest)
        rw [hrest] at h ih
        rcases List.mem_cons.1 h with rfl | hmem
        · -- the character goes to the front of the first part
          intro hmem
          rcases List.mem_cons.1 hmem with rfl | hfirst
          · exact hc (beq_self_eq_true _)
          · exact ih List.mem_cons_self hfirst
        · exact ih (List.mem_cons_of_mem _ hmem)

/-- There is one way to divide a text into parts without a divider. -/
theorem splitOn_eq_iff (hparts : parts ≠ []) :
    s.splitOn divider = parts ↔
      (∀ part ∈ parts, divider ∉ part) ∧ s = [divider].intercalate parts := by
  constructor
  · rintro rfl
    refine ⟨?_, (List.intercalate_splitOn divider).symm⟩
    intro part hpart
    exact not_mem_of_mem_splitOn hpart
  · rintro ⟨hfree, rfl⟩
    exact List.splitOn_intercalate divider hfree hparts

/-- The first part ends at the first divider. -/
theorem breakOn_singleton_eq_some_iff :
    breakOn [divider] s = some (before, after) ↔
      divider ∉ before ∧ s = before ++ divider :: after := by
  rw [breakOn_eq_some_iff (List.cons_ne_nil divider []), List.dropLast_singleton, List.append_nil,
    List.singleton_infix_iff, List.append_assoc, List.singleton_append, and_comm]

/-- To put another divider between the parts is to replace the divider. -/
theorem intercalate_splitOn_eq_map (divider other : Char) (s : List Char) :
    [other].intercalate (s.splitOn divider) = s.map fun c => if c = divider then other else c := by
  induction s with
  | nil => rfl
  | cons c rest ih =>
      obtain ⟨first, others, hrest⟩ :=
        List.exists_cons_of_ne_nil (List.splitOn_ne_nil divider rest)
      rw [hrest] at ih
      rw [List.splitOn_cons_eq_if_modifyHead, hrest, List.map_cons, ← ih]
      by_cases hc : c = divider
      · simp [hc]
      · simp [hc]

/-! ## Texts as strings -/

/-- A text can be a part of others if it is not empty and has no divider of its own. -/
def IsPart (divider : Char) (text : String) : Prop :=
  text ≠ "" ∧ divider ∉ text.toList

instance (divider : Char) (text : String) : Decidable (IsPart divider text) :=
  inferInstanceAs (Decidable (text ≠ "" ∧ divider ∉ text.toList))

theorem isPart_ofList_iff : IsPart divider (String.ofList s) ↔ s ≠ [] ∧ divider ∉ s := by
  simp [IsPart]

/-- The parts of a text between the occurrences of a character. -/
def partsOf (divider : Char) (text : String) : List String :=
  (text.toList.splitOn divider).map String.ofList

theorem partsOf_ne_nil (divider : Char) (text : String) : partsOf divider text ≠ [] := by
  simp [partsOf]

/-- There is one way to divide a text into parts without a divider. -/
theorem partsOf_eq_iff {text : String} {parts : List String} (hparts : parts ≠ []) :
    partsOf divider text = parts ↔
      (∀ part ∈ parts, divider ∉ part.toList) ∧
        text = (String.singleton divider).intercalate parts := by
  have hlists : partsOf divider text = parts ↔
      text.toList.splitOn divider = parts.map String.toList := by
    unfold partsOf
    constructor
    · rintro rfl
      simp [Function.comp_def]
    · intro h
      simp [h, Function.comp_def]
  rw [hlists, splitOn_eq_iff (by simpa using hparts), ← String.toList_inj,
    String.toList_intercalate]
  simp

/-- The parts make up the text, so they determine it. -/
theorem partsOf_injective {text text' : String} (h : partsOf divider text = partsOf divider text') :
    text = text' := by
  have hjoined (text : String) :
      text = (String.singleton divider).intercalate (partsOf divider text) :=
    ((partsOf_eq_iff (partsOf_ne_nil divider text)).1 rfl).2
  rw [hjoined text, hjoined text', h]

end ManagedGraph.Text
