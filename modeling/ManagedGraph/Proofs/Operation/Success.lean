import Mathlib.Data.List.Forall2

/-!
# Computations that succeed

A computation of several steps succeeds exactly when each of them does. Its parts can then be
taken from its success, without following the failures that each step could end in. It fails as the
first of its steps that does (`mapM_eq_error_iff`).
-/

namespace ManagedGraph

/-- A computation of two steps succeeds if both do. -/
theorem bind_eq_ok_iff {ε α β : Type} {first : Except ε α} {next : α → Except ε β} {b : β} :
    first >>= next = .ok b ↔ ∃ a, first = .ok a ∧ next a = .ok b := by
  cases first with
  | error e => simp [bind, Except.bind]
  | ok a => simp [bind, Except.bind]

/-- The results of a list are those of its entries, if each of them has one. -/
theorem mapM_eq_ok_iff {ε α β : Type} {f : α → Except ε β} {l : List α} {found : List β} :
    l.mapM f = .ok found ↔ List.Forall₂ (fun a b => f a = .ok b) l found := by
  induction l generalizing found with
  | nil => cases found <;> simp [pure, Except.pure]
  | cons a rest ih =>
      rw [List.mapM_cons, bind_eq_ok_iff]
      constructor
      · rintro ⟨b, hb, hrest⟩
        obtain ⟨more, hmore, hfound⟩ := bind_eq_ok_iff.1 hrest
        obtain rfl := Except.ok.inj hfound
        exact .cons hb (ih.1 hmore)
      · intro h
        cases h with
        | cons hb hmore => exact ⟨_, hb, bind_eq_ok_iff.2 ⟨_, ih.2 hmore, rfl⟩⟩

/-- There are results exactly if every entry still has its own once failures are dropped. -/
theorem mapM_eq_ok_iff_map_toOption {ε α β : Type} {f : α → Except ε β} {l : List α}
    {found : List β} :
    l.mapM f = .ok found ↔ l.map (fun a => (f a).toOption) = found.map some := by
  have hentry (a : α) (b : β) : f a = .ok b ↔ (f a).toOption = some b := by
    cases f a <;> simp [Except.toOption]
  rw [mapM_eq_ok_iff, ← List.forall₂_eq_eq_eq, List.forall₂_map_left_iff,
    List.forall₂_map_right_iff]
  simp only [hentry]

/-- A computation of two steps fails as the first does, or as the second does after it. -/
theorem bind_eq_error_iff {ε α β : Type} {first : Except ε α} {next : α → Except ε β} {e : ε} :
    first >>= next = .error e ↔ first = .error e ∨ ∃ a, first = .ok a ∧ next a = .error e := by
  cases first with
  | error e => simp [bind, Except.bind]
  | ok a => simp [bind, Except.bind]

/-- A list without results fails as the first of its entries that has none. -/
theorem mapM_eq_error_iff {ε α β : Type} {f : α → Except ε β} {l : List α} {e : ε} :
    l.mapM f = .error e ↔
      ∃ before a after, l = before ++ a :: after ∧ (∀ b ∈ before, ∃ c, f b = .ok c) ∧
        f a = .error e := by
  induction l with
  | nil => simp [pure, Except.pure]
  | cons a rest ih =>
      rw [List.mapM_cons, bind_eq_error_iff]
      constructor
      · rintro (ha | ⟨c, hc, hrest⟩)
        · exact ⟨[], a, rest, rfl, by simp, ha⟩
        · have hrest : rest.mapM f = .error e := by
            rcases bind_eq_error_iff.1 hrest with hrest | ⟨_, -, hpure⟩
            · exact hrest
            · exact absurd hpure (by simp [pure, Except.pure])
          obtain ⟨before, b, after, rfl, hbefore, hb⟩ := ih.1 hrest
          exact ⟨a :: before, b, after, rfl, List.forall_mem_cons.2 ⟨⟨c, hc⟩, hbefore⟩, hb⟩
      · rintro ⟨before, b, after, heq, hbefore, hb⟩
        cases before with
        | nil =>
            obtain ⟨rfl, -⟩ := List.cons.inj heq
            exact Or.inl hb
        | cons b' before =>
            obtain ⟨rfl, rfl⟩ := List.cons.inj heq
            obtain ⟨⟨c, hc⟩, hbefore⟩ := List.forall_mem_cons.1 hbefore
            have hrest := ih.2 ⟨before, b, after, rfl, hbefore, hb⟩
            exact Or.inr ⟨c, hc, bind_eq_error_iff.2 (Or.inl hrest)⟩

theorem exists_of_forall₂ {α β : Type} {R : α → β → Prop} {l : List α} {found : List β}
    (h : List.Forall₂ R l found) {a : α} (ha : a ∈ l) : ∃ b ∈ found, R a b := by
  induction h with
  | nil => exact absurd ha List.not_mem_nil
  | cons hb _ ih =>
      rcases List.mem_cons.1 ha with rfl | ha
      · exact ⟨_, List.mem_cons_self, hb⟩
      · obtain ⟨b, hmem, hab⟩ := ih ha
        exact ⟨b, List.mem_cons_of_mem _ hmem, hab⟩

end ManagedGraph
