import ManagedGraph.Graph.Walk
import ManagedGraph.Proofs.Graph.Reach

/-!
# The entries of a walk

What a walk finds is read off its entries: `mem_included` and `mem_excluded` say how, and
`mem_patterns`, `mem_targets` and `mem_attempts` say what an entry contributes. Two facts
about the whole walk carry the theorems on paths and levels: a property that the root has
and that entries hand on holds of every entry (`entries_induction`), and no component that
an entry leads to is forgotten (`exists_entry_of_mem_targets`).
-/

namespace ManagedGraph

namespace Walk

/-- An exclusion is registered, in either table, for the module of a component. -/
def Registers (g : ResolvedGraph) (sources : ExclusionSources) (i : Nat) (p : Exclusion) : Prop :=
  ∃ owner, g.moduleId? i = some owner ∧
    (p ∈ sources.declared.patterns owner ∨ p ∈ sources.fromPoms.patterns owner)

variable {g : ResolvedGraph} {sources : ExclusionSources}

/-! ## One entry -/

/-- Below an entry are in force the exclusions it inherits and those registered for it. -/
theorem mem_patterns {e : Entry} {p : Exclusion} :
    p ∈ e.patterns g sources ↔ p ∈ e.inherited ∨ Registers g sources e.component p := by
  unfold Entry.patterns Registers
  cases hid : g.moduleId? e.component with
  | none => simp
  | some id => simp [ExclusionSources.registered, Std.ExtTreeSet.mem_union_iff]

/-- An entry leads on over the resolved edges whose modules are not suppressed below it. -/
theorem mem_targets {e : Entry} {t : Nat} :
    t ∈ e.targets g sources ↔
      g.Leads e.component t ∧
        ∃ id, g.moduleId? t = some id ∧ (e.patterns g sources).suppresses id = false := by
  unfold Entry.targets ResolvedGraph.Leads
  rw [List.mem_filterMap]
  constructor
  · rintro ⟨edge, hedge, h⟩
    cases hu : edge.target? with
    | none => simp [hu] at h
    | some u =>
        cases hid : g.moduleId? u with
        | none => simp [hu, hid] at h
        | some id =>
            obtain ⟨hspared, rfl⟩ : (e.patterns g sources).suppresses id = false ∧ u = t := by
              simpa [hu, hid] using h
            exact ⟨⟨edge, hedge, hu⟩, id, hid, hspared⟩
  · rintro ⟨⟨edge, hedge, ht⟩, id, hid, hspared⟩
    exact ⟨edge, hedge, by simp [ht, hid, hspared]⟩

/-- An entry attempts what its unresolved edges asked for and is not suppressed below it. -/
theorem mem_attempts {e : Entry} {id : ModuleId} :
    id ∈ e.attempts g sources ↔
      g.Attempts e.component id ∧ (e.patterns g sources).suppresses id = false := by
  unfold Entry.attempts ResolvedGraph.Attempts
  rw [List.mem_filterMap]
  constructor
  · rintro ⟨edge, hedge, h⟩
    cases hu : edge.attempted? with
    | none => simp [hu] at h
    | some u =>
        obtain ⟨hspared, rfl⟩ : (e.patterns g sources).suppresses u = false ∧ u = id := by
          simpa [hu] using h
        exact ⟨⟨edge, hedge, hu⟩, hspared⟩
  · rintro ⟨⟨edge, hedge, h⟩, hspared⟩
    exact ⟨edge, hedge, by simp [h, hspared]⟩

/-! ## What a walk finds -/

/-- The included modules are those of the entries and those the entries attempted. -/
theorem mem_included {id : ModuleId} :
    id ∈ (outcome g sources).included ↔
      ∃ e ∈ entries g sources,
        g.moduleId? e.component = some id ∨ id ∈ e.attempts g sources := by
  simp [outcome, included, Std.ExtTreeSet.mem_ofList, Option.mem_toList]

theorem mem_candidates {id : ModuleId} : id ∈ candidates g ↔ g.Candidate id := by
  have hedges {i : Nat} {edge : Edge} :
      edge ∈ g.edges i ↔ ∃ c, g.components[i]? = some c ∧ edge ∈ c.edges := by
    cases h : g.components[i]? <;> simp [ResolvedGraph.edges, h]
  simp only [candidates, Std.ExtTreeSet.mem_ofList, List.contains_iff_mem, List.mem_flatMap,
    List.mem_filterMap]
  constructor
  · rintro ⟨c, hc, edge, hedge, hid⟩
    rcases List.mem_iff_getElem?.1 hc with ⟨i, hi⟩
    have hmem : edge ∈ g.edges i := hedges.2 ⟨c, hi, hedge⟩
    cases ht : edge.target? with
    | some t => exact ⟨i, Or.inl ⟨t, ⟨edge, hmem, ht⟩, by simpa [ht] using hid⟩⟩
    | none => exact ⟨i, Or.inr ⟨edge, hmem, by simpa [ht] using hid⟩⟩
  · rintro ⟨i, ⟨t, ⟨edge, hmem, ht⟩, hid⟩ | ⟨edge, hmem, hid⟩⟩
    · rcases hedges.1 hmem with ⟨c, hi, hedge⟩
      exact ⟨c, List.mem_of_getElem? hi, edge, hedge, by simpa [ht] using hid⟩
    · rcases hedges.1 hmem with ⟨c, hi, hedge⟩
      -- an edge that asked for a module leads nowhere
      have ht : edge.target? = none := by cases edge <;> simp_all [Edge.attempted?, Edge.target?]
      exact ⟨c, List.mem_of_getElem? hi, edge, hedge, by simpa [ht] using hid⟩

/-- The excluded modules are the candidates that are not included. -/
theorem mem_excluded {id : ModuleId} :
    id ∈ (outcome g sources).excluded ↔
      g.Candidate id ∧ id ∉ (outcome g sources).included := by
  rw [← mem_candidates]
  simp [outcome, Std.ExtTreeSet.mem_diff_iff]

/-! ## All entries -/

/-- What waits in the queue is taken. -/
theorem mem_visit_of_mem {seen : List Nat} {queue : List Entry} {e : Entry} (he : e ∈ queue) :
    e ∈ visit g sources seen queue := by
  induction seen, queue using visit.induct g sources with
  | case1 seen => exact absurd he List.not_mem_nil
  | case2 seen a rest joining patterns ih =>
      rw [visit_cons]
      rcases List.mem_cons.1 he with rfl | he
      · exact List.mem_cons_self
      · exact List.mem_cons_of_mem _ (ih (List.mem_append_left _ he))

/-- What joins at an entry is taken later. -/
theorem mem_visit_of_mem_joining {seen : List Nat} {a : Entry} {rest : List Entry} {t : Nat}
    (ht : t ∈ a.joining g sources seen) :
    ⟨t, a.patterns g sources⟩ ∈ visit g sources (a.joining g sources seen ++ seen)
      (rest ++ (a.joining g sources seen).map fun t => ⟨t, a.patterns g sources⟩) := by
  apply mem_visit_of_mem
  exact List.mem_append_right _ (List.mem_map.2 ⟨t, ht, rfl⟩)

/-- One step keeps a property of all that waits, when the components that join at the entry
taken have it. The property may speak of the components seen, as long as it stays when more
are seen. -/
theorem waiting_of_joining (P : List Nat → Entry → Prop)
    (mono : ∀ {seen more e}, seen ⊆ more → P seen e → P more e)
    {seen : List Nat} {a : Entry} {rest : List Entry} (hrest : ∀ e ∈ rest, P seen e)
    (hjoining : ∀ t ∈ a.joining g sources seen, P (t :: seen) ⟨t, a.patterns g sources⟩) :
    ∀ e ∈ rest ++ (a.joining g sources seen).map fun t => (⟨t, a.patterns g sources⟩ : Entry),
      P (a.joining g sources seen ++ seen) e := by
  intro e he
  rcases List.mem_append.1 he with hwaits | hnew
  · exact mono (List.subset_append_right _ _) (hrest e hwaits)
  · rcases List.mem_map.1 hnew with ⟨t, ht, rfl⟩
    have hseen : t :: seen ⊆ a.joining g sources seen ++ seen :=
      List.cons_subset.2 ⟨List.mem_append_left _ ht, List.subset_append_right _ _⟩
    exact mono hseen (hjoining t ht)

/-- Every entry taken from a queue has a property that those waiting have and that each
entry hands on to the components that join because of it. -/
theorem visit_induction (P : List Nat → Entry → Prop) {taken : List Entry}
    (mono : ∀ {seen more e}, seen ⊆ more → P seen e → P more e)
    (step : ∀ {seen e t}, e ∈ taken → P seen e → t ∈ e.targets g sources → t ∉ seen →
      ⟨t, e.patterns g sources⟩ ∈ taken → P (t :: seen) ⟨t, e.patterns g sources⟩)
    {seen : List Nat} {queue : List Entry}
    (htaken : ∀ e ∈ visit g sources seen queue, e ∈ taken) (hqueue : ∀ e ∈ queue, P seen e) :
    ∀ e ∈ visit g sources seen queue, ∃ seen, P seen e := by
  induction seen, queue using visit.induct g sources with
  | case1 seen => simp
  | case2 seen a rest joining patterns ih =>
      rw [visit_cons] at htaken ⊢
      have ha := hqueue a List.mem_cons_self
      have hlater : ∀ e ∈ visit g sources (joining ++ seen)
          (rest ++ joining.map fun t => ⟨t, patterns⟩), e ∈ taken := by
        intro e he
        exact htaken e (List.mem_cons_of_mem _ he)
      have hwaiting : ∀ e ∈ rest ++ joining.map fun t => (⟨t, patterns⟩ : Entry),
          P (joining ++ seen) e := by
        apply waiting_of_joining P mono
        · intro e he
          exact hqueue e (List.mem_cons_of_mem _ he)
        · intro t ht
          rcases mem_fresh.1 ht with ⟨htarget, hunseen⟩
          exact step (htaken a List.mem_cons_self) ha htarget hunseen
            (hlater _ (mem_visit_of_mem_joining ht))
      intro e he
      rcases List.mem_cons.1 he with rfl | he
      · exact ⟨seen, ha⟩
      · exact ih hlater hwaiting e he

/-- The root is walked, and nothing is inherited there. -/
theorem root_mem_entries : ⟨0, ∅⟩ ∈ entries g sources :=
  mem_visit_of_mem List.mem_cons_self

theorem root_mem_included : g.root.moduleId ∈ (outcome g sources).included :=
  mem_included.2 ⟨⟨0, ∅⟩, root_mem_entries, Or.inl g.moduleId?_zero⟩

/-- `visit_induction` for the walk that starts at the root. -/
theorem entries_induction_seen (P : List Nat → Entry → Prop)
    (mono : ∀ {seen more e}, seen ⊆ more → P seen e → P more e)
    (step : ∀ {seen e t}, e ∈ entries g sources → P seen e → t ∈ e.targets g sources →
      t ∉ seen → ⟨t, e.patterns g sources⟩ ∈ entries g sources →
      P (t :: seen) ⟨t, e.patterns g sources⟩)
    (root : P [0] ⟨0, ∅⟩) :
    ∀ e ∈ entries g sources, ∃ seen, P seen e := by
  apply visit_induction P mono step
  · exact fun e he => he
  · simpa using root

/-- `entries_induction_seen` for a property that does not speak of the components seen. -/
theorem entries_induction (P : Entry → Prop)
    (step : ∀ {e t}, e ∈ entries g sources → P e → t ∈ e.targets g sources →
      ⟨t, e.patterns g sources⟩ ∈ entries g sources → P ⟨t, e.patterns g sources⟩)
    (root : P ⟨0, ∅⟩) : ∀ e ∈ entries g sources, P e := by
  intro e he
  have hseen : ∃ seen : List Nat, (fun _ => P) seen e := by
    apply entries_induction_seen (fun _ => P) _ _ root e he
    · exact fun _ h => h
    · exact fun he h ht _ hentry => step he h ht hentry
  rcases hseen with ⟨-, h⟩
  exact h

/-- What an entry leads to was seen before or is taken. -/
theorem seen_or_taken_of_mem_targets {seen : List Nat} {queue : List Entry} {e : Entry} {t : Nat}
    (he : e ∈ visit g sources seen queue) (ht : t ∈ e.targets g sources) :
    t ∈ seen ∨ ∃ e' ∈ visit g sources seen queue, e'.component = t := by
  induction seen, queue using visit.induct g sources with
  | case1 seen => simp at he
  | case2 seen a rest joining patterns ih =>
      rw [visit_cons] at he ⊢
      have hjoined : t ∈ joining → ∃ e' ∈ a :: visit g sources (joining ++ seen)
          (rest ++ joining.map fun t => ⟨t, patterns⟩), e'.component = t := by
        intro hj
        exact ⟨_, List.mem_cons_of_mem _ (mem_visit_of_mem_joining hj), rfl⟩
      rcases List.mem_cons.1 he with rfl | he
      · -- at its own entry the component is new, and joins, or was seen before
        by_cases hseen : t ∈ seen
        · exact Or.inl hseen
        · exact Or.inr (hjoined (mem_fresh.2 ⟨ht, hseen⟩))
      · rcases ih he with hseen | ⟨e', he', hcomponent⟩
        · rcases List.mem_append.1 hseen with hj | hseen
          · exact Or.inr (hjoined hj)
          · exact Or.inl hseen
        · exact Or.inr ⟨e', List.mem_cons_of_mem _ he', hcomponent⟩

/-- What an entry leads to has an entry, though perhaps one that joined elsewhere. -/
theorem exists_entry_of_mem_targets {e : Entry} {t : Nat} (he : e ∈ entries g sources)
    (ht : t ∈ e.targets g sources) : ∃ e' ∈ entries g sources, e'.component = t := by
  rcases seen_or_taken_of_mem_targets he ht with hroot | hentry
  · exact ⟨⟨0, ∅⟩, root_mem_entries, (List.mem_singleton.1 hroot).symm⟩
  · exact hentry

end Walk

end ManagedGraph
