/-!
# Searching a text

`breakOn` splits a text at the first occurrence of a needle. Nothing is lost
(`eq_append_of_breakOn`), and the needle does not begin before (`breakOn_eq_some_iff`).
-/

namespace ManagedGraph.Text

/-- The parts of a text before and after the first occurrence of `needle`. -/
def breakOn (needle : List Char) : List Char → Option (List Char × List Char)
  | [] => if needle.isEmpty then some ([], []) else none
  | c :: rest =>
      if needle.isPrefixOf (c :: rest) then
        some ([], (c :: rest).drop needle.length)
      else
        (breakOn needle rest).map fun parts => (c :: parts.1, parts.2)

/-- Whether `needle` occurs in a text. -/
def occurs (needle s : List Char) : Bool :=
  (breakOn needle s).isSome

/-- The two parts and the needle between them are the whole text. -/
theorem eq_append_of_breakOn {needle s before after : List Char}
    (h : breakOn needle s = some (before, after)) : s = before ++ needle ++ after := by
  induction s generalizing before after with
  | nil =>
      cases needle <;> simp_all [breakOn]
  | cons c rest ih =>
      unfold breakOn at h
      split at h
      · rename_i hp
        simp only [Option.some.injEq, Prod.mk.injEq] at h
        rcases h with ⟨rfl, rfl⟩
        rw [List.isPrefixOf_iff_prefix] at hp
        rcases hp with ⟨tail, ht⟩
        rw [← ht]
        simp
      · simp only [Option.map_eq_some_iff, Prod.mk.injEq, Prod.exists] at h
        rcases h with ⟨b, a, hba, rfl, rfl⟩
        rw [ih hba]
        simp

/-- What follows a non-empty needle is shorter than the whole text. -/
theorem length_lt_of_breakOn {needle s before after : List Char} (hn : needle ≠ [])
    (h : breakOn needle s = some (before, after)) : after.length < s.length := by
  have hs := eq_append_of_breakOn h
  have hpos : 0 < needle.length := List.length_pos_iff.2 hn
  rw [hs]
  simp only [List.length_append]
  omega

/-! ## The first occurrence -/

variable {needle s before after : List Char}

/-- Nothing is split exactly if the needle does not occur. -/
theorem breakOn_eq_none_iff : breakOn needle s = none ↔ ¬ needle <:+: s := by
  induction s with
  | nil => cases needle <;> simp [breakOn]
  | cons c rest ih =>
      rw [breakOn, List.infix_cons_iff, not_or, ← ih]
      by_cases hp : needle <+: c :: rest
      · simp [List.isPrefixOf_iff_prefix.2 hp, hp]
      · simp [mt List.isPrefixOf_iff_prefix.1 hp, hp]

/-- Where a needle begins before another one, it does so before the end of that one. -/
theorem append_dropLast_prefix : before ++ needle.dropLast <+: before ++ needle ++ after := by
  rw [List.append_assoc, List.prefix_append_right_inj]
  exact (List.dropLast_prefix needle).trans (List.prefix_append needle after)

/-- A text is split at a needle before which no other begins. -/
theorem breakOn_append (hn : needle ≠ []) (hfirst : ¬ needle <:+: before ++ needle.dropLast) :
    breakOn needle (before ++ needle ++ after) = some (before, after) := by
  induction before with
  | nil =>
      obtain ⟨c, rest, rfl⟩ := List.exists_cons_of_ne_nil hn
      simp [breakOn]
  | cons c before ih =>
      have hfits : needle.length ≤ (c :: before ++ needle.dropLast).length := by
        simp only [List.length_cons, List.length_append, List.length_dropLast]
        omega
      have hhere : ¬ needle <+: c :: before ++ needle ++ after := by
        intro h
        exact hfirst (List.prefix_of_prefix_length_le h append_dropLast_prefix hfits).isInfix
      have hlater : ¬ needle <:+: before ++ needle.dropLast := by
        rw [List.cons_append, List.infix_cons_iff, not_or] at hfirst
        exact hfirst.2
      rw [List.cons_append, List.cons_append] at hhere ⊢
      rw [breakOn, if_neg (mt List.isPrefixOf_iff_prefix.1 hhere), ih hlater]
      rfl

/-- No needle begins before the one at which a text is split. -/
theorem not_infix_of_breakOn (hn : needle ≠ []) (h : breakOn needle s = some (before, after)) :
    ¬ needle <:+: before ++ needle.dropLast := by
  induction s generalizing before with
  | nil => cases needle <;> simp_all [breakOn]
  | cons c rest ih =>
      have hpos := List.length_pos_iff.2 hn
      rw [breakOn] at h
      split at h
      · obtain ⟨rfl, -⟩ : [] = before ∧ _ := by simpa using h
        intro hwithin
        have hle := hwithin.length_le
        rw [List.nil_append, List.length_dropLast] at hle
        omega
      · rename_i hhere
        simp only [Option.map_eq_some_iff, Prod.mk.injEq, Prod.exists] at h
        obtain ⟨b, a, hbreak, rfl, rfl⟩ := h
        rw [eq_append_of_breakOn hbreak] at hhere
        rw [List.cons_append, List.infix_cons_iff, not_or]
        refine ⟨?_, ih hbreak⟩
        intro hearly
        have hpart : c :: b ++ needle.dropLast <+: c :: b ++ needle ++ a := append_dropLast_prefix
        exact hhere (List.isPrefixOf_iff_prefix.2 (hearly.trans hpart))

/-- A text is split at the first occurrence of the needle. -/
theorem breakOn_eq_some_iff (hn : needle ≠ []) :
    breakOn needle s = some (before, after) ↔
      s = before ++ needle ++ after ∧ ¬ needle <:+: before ++ needle.dropLast := by
  constructor
  · intro h
    exact ⟨eq_append_of_breakOn h, not_infix_of_breakOn hn h⟩
  · rintro ⟨rfl, hfirst⟩
    exact breakOn_append hn hfirst

/-- What follows any occurrence of the needle follows the first one. -/
theorem suffix_of_breakOn {b a : List Char} (hn : needle ≠ [])
    (h : breakOn needle (b ++ needle ++ a) = some (before, after)) : a <:+ after := by
  obtain ⟨hs, hfirst⟩ := (breakOn_eq_some_iff hn).1 h
  have hlengths := congrArg List.length hs
  simp only [List.length_append] at hlengths
  have hlater : before.length ≤ b.length := by
    apply Nat.le_of_not_lt
    intro hearlier
    -- the occurrence would end before the first one does
    have hshort : (b ++ needle).length ≤ (before ++ needle.dropLast).length := by
      simp only [List.length_append, List.length_dropLast]
      omega
    have hwithin : b ++ needle <+: before ++ needle.dropLast :=
      List.prefix_of_prefix_length_le (hs ▸ List.prefix_append _ a) append_dropLast_prefix hshort
    exact hfirst ((List.suffix_append b needle).isInfix.trans hwithin.isInfix)
  exact List.suffix_of_suffix_length_le (List.suffix_append _ a)
    (hs ▸ List.suffix_append _ after) (by omega)

end ManagedGraph.Text
