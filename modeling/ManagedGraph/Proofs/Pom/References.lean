import ManagedGraph.Pom.Interpolation

/-!
# The references of a text

From left to right, a reference goes from the next opener to the first closer after it, and what
is left over is literal text, an opener that is never closed included. There is exactly one way to
take a text apart like this (`split_eq_iff`), and all that interpolation does to a text is said in
terms of it.
-/

namespace ManagedGraph.Pom.Interpolation

/-- A reference in a text, by its name, with the literal text before it. -/
structure Part where
  literal : List Char
  name : List Char
deriving DecidableEq

/-- A part as it is written. -/
def Part.text (p : Part) : List Char :=
  p.literal ++ reference p.name

/-- The reference begins at the first opener of its part and ends at the first closer after
that. -/
structure Part.IsNext (p : Part) : Prop where
  opens : ¬ opener <:+: p.literal ++ opener.dropLast
  closes : ¬ closer <:+: p.name

/-- A text taken apart: its references, and the literal text after the last of them. -/
structure Split where
  parts : List Part
  rest : List Char
deriving DecidableEq

namespace Split

/-- The text that was taken apart. -/
def text (x : Split) : List Char :=
  x.parts.flatMap Part.text ++ x.rest

/-- From left to right each reference is the next one, and no opener that is left is closed. -/
structure LeftToRight (x : Split) : Prop where
  next : ∀ p ∈ x.parts, p.IsNext
  rest : ∀ before after, x.rest = before ++ opener ++ after → ¬ closer <:+: after

/-- One more reference in front. -/
def cons (p : Part) (x : Split) : Split :=
  ⟨p :: x.parts, x.rest⟩

end Split

/-- A text taken apart from left to right. -/
def split (s : List Char) : Split :=
  match _h : firstReference s with
  | none => ⟨[], s⟩
  | some (before, name, after) => (split after).cons ⟨before, name⟩
termination_by s.length
decreasing_by exact length_lt_of_firstReference _h

variable {s before name after : List Char} {p : Part} {x y : Split}

/-! ## The first reference -/

theorem opener_ne_nil : opener ≠ [] := by simp [opener]

theorem closer_ne_nil : closer ≠ [] := by simp [closer]

/-- There is no reference exactly if no opener is closed. -/
theorem firstReference_eq_none_iff :
    firstReference s = none ↔
      ∀ before after, s = before ++ opener ++ after → ¬ closer <:+: after := by
  unfold firstReference
  cases hopens : Text.breakOn opener s with
  | none =>
      simp only [true_iff]
      intro before after hs
      exact absurd ⟨before, after, hs.symm⟩ (Text.breakOn_eq_none_iff.1 hopens)
  | some parts =>
      obtain ⟨first, rest⟩ := parts
      constructor
      · intro h before after hs
        rw [hs] at hopens
        have hlater : after <:+ rest := Text.suffix_of_breakOn opener_ne_nil hopens
        have hrest : ¬ closer <:+: rest := by
          rw [← Text.breakOn_eq_none_iff]
          cases hcloses : Text.breakOn closer rest with
          | none => rfl
          | some parts => simp [hcloses] at h
        intro hcloser
        exact hrest (hcloser.trans hlater.isInfix)
      · intro h
        have hrest : ¬ closer <:+: rest := h first rest (Text.eq_append_of_breakOn hopens)
        simp [Text.breakOn_eq_none_iff.2 hrest]

/-- The first reference of a text is its next part. -/
theorem firstReference_eq_some_iff :
    firstReference s = some (before, name, after) ↔
      (⟨before, name⟩ : Part).IsNext ∧ s = before ++ reference name ++ after := by
  have hname : name ++ closer.dropLast = name := List.append_nil name
  constructor
  · intro h
    unfold firstReference at h
    split at h
    · simp at h
    · rename_i hopens
      split at h
      · simp at h
      · rename_i hcloses
        obtain ⟨rfl, rfl, rfl⟩ := by simpa using h
        obtain ⟨rfl, hopener⟩ := (Text.breakOn_eq_some_iff opener_ne_nil).1 hopens
        obtain ⟨rfl, hcloser⟩ := (Text.breakOn_eq_some_iff closer_ne_nil).1 hcloses
        rw [hname] at hcloser
        exact ⟨⟨hopener, hcloser⟩, by simp [reference]⟩
  · rintro ⟨⟨hopener, hcloser⟩, rfl⟩
    rw [← hname] at hcloser
    have hopens : Text.breakOn opener (before ++ reference name ++ after) =
        some (before, name ++ closer ++ after) :=
      (Text.breakOn_eq_some_iff opener_ne_nil).2 ⟨by simp [reference], hopener⟩
    have hcloses : Text.breakOn closer (name ++ closer ++ after) = some (name, after) :=
      (Text.breakOn_eq_some_iff closer_ne_nil).2 ⟨rfl, hcloser⟩
    simp only [firstReference, hopens, hcloses]

/-! ## Taking apart -/

theorem split_of_none (h : firstReference s = none) : split s = ⟨[], s⟩ := by
  rw [split]
  split
  · rfl
  · rename_i hsome
    exact absurd (h.symm.trans hsome) (by simp)

theorem split_of_some (h : firstReference s = some (before, name, after)) :
    split s = (split after).cons ⟨before, name⟩ := by
  rw [split]
  split
  · rename_i hnone
    exact absurd (h.symm.trans hnone) (by simp)
  · rename_i hsome
    obtain ⟨rfl, rfl, rfl⟩ := by simpa using h.symm.trans hsome
    rfl

@[simp] theorem Split.text_cons : (x.cons p).text = p.text ++ x.text := by
  simp [Split.text, Split.cons]

theorem Split.leftToRight_cons_iff : (x.cons p).LeftToRight ↔ p.IsNext ∧ x.LeftToRight := by
  constructor
  · intro h
    obtain ⟨hp, hnext⟩ := List.forall_mem_cons.1 h.next
    exact ⟨hp, hnext, h.rest⟩
  · rintro ⟨hp, hnext, hrest⟩
    exact ⟨List.forall_mem_cons.2 ⟨hp, hnext⟩, hrest⟩

/-- The parts make up the text. -/
theorem text_split (s : List Char) : (split s).text = s := by
  induction s using split.induct with
  | case1 s hnone => simp [split_of_none hnone, Split.text]
  | case2 s before name after hsome ih =>
      obtain ⟨-, hs⟩ := firstReference_eq_some_iff.1 hsome
      rw [split_of_some hsome, Split.text_cons, ih, hs, Part.text]

theorem leftToRight_split (s : List Char) : (split s).LeftToRight := by
  induction s using split.induct with
  | case1 s hnone =>
      rw [split_of_none hnone]
      exact ⟨by simp, firstReference_eq_none_iff.1 hnone⟩
  | case2 s before name after hsome ih =>
      obtain ⟨hnext, -⟩ := firstReference_eq_some_iff.1 hsome
      rw [split_of_some hsome]
      exact Split.leftToRight_cons_iff.2 ⟨hnext, ih⟩

theorem Split.LeftToRight.split_text (h : x.LeftToRight) : split x.text = x := by
  obtain ⟨parts, rest⟩ := x
  induction parts with
  | nil =>
      have hnone : firstReference rest = none := firstReference_eq_none_iff.2 h.rest
      exact split_of_none hnone
  | cons p parts ih =>
      obtain ⟨hp, hrest⟩ := Split.leftToRight_cons_iff (x := ⟨parts, rest⟩).1 h
      have hfirst : firstReference (Split.mk (p :: parts) rest).text =
          some (p.literal, p.name, (Split.mk parts rest).text) :=
        firstReference_eq_some_iff.2 ⟨hp, Split.text_cons (x := ⟨parts, rest⟩)⟩
      rw [split_of_some hfirst, ih hrest]
      rfl

/-- There is exactly one way to take a text apart from left to right. -/
theorem split_eq_iff : split s = x ↔ x.text = s ∧ x.LeftToRight := by
  constructor
  · rintro rfl
    exact ⟨text_split s, leftToRight_split s⟩
  · rintro ⟨rfl, h⟩
    exact h.split_text

end ManagedGraph.Pom.Interpolation
