import Mathlib.Data.List.Forall2
import ManagedGraph.Proofs.Walk.FlatRules

/-!
# Walking a pruned graph again

The edges to excluded modules are edges that the walk did not take: at every entry that has
such an edge, the exclusions in force suppress its module. With these edges deleted the walk
takes the same entries, with the same exclusions in force (`entries_pruned`), so it includes
the same modules, and all that is left to exclude is nothing (`outcome_pruned`).
-/

namespace ManagedGraph

/-- Entries that a function drops can be filtered out before it is applied. -/
theorem filterMap_filter_of_eq_none {α β : Type} {f : α → Option β} {p : α → Bool} {l : List α}
    (h : ∀ a ∈ l, p a = false → f a = none) : (l.filter p).filterMap f = l.filterMap f := by
  rw [List.filterMap_filter]
  apply List.filterMap_congr
  intro a ha
  cases hp : p a with
  | true => rfl
  | false => exact (h a ha hp).symm

namespace Walk

variable {g g' : ResolvedGraph} {sources sources' : ExclusionSources}

/-- Two walks take entries that are related one by one, if those that wait are related, and if
related entries lead to the same components and hand on exclusions that relate these. -/
theorem forall₂_visit {S : Entry → Entry → Prop} {seen : List Nat} {queue queue' : List Entry}
    (hstep : ∀ e ∈ visit g sources seen queue, ∀ e', S e e' →
      e'.targets g' sources' = e.targets g sources ∧
        ∀ t, S ⟨t, e.patterns g sources⟩ ⟨t, e'.patterns g' sources'⟩)
    (hqueue : List.Forall₂ S queue queue') :
    List.Forall₂ S (visit g sources seen queue) (visit g' sources' seen queue') := by
  induction seen, queue using visit.induct g sources generalizing queue' with
  | case1 seen =>
      obtain rfl := List.forall₂_nil_left_iff.1 hqueue
      simp
  | case2 seen e rest joining patterns =>
      rename_i ih
      obtain ⟨e', rest', he, hrest, rfl⟩ := List.forall₂_cons_left_iff.1 hqueue
      rw [visit_cons] at hstep
      obtain ⟨htargets, hpatterns⟩ := hstep e List.mem_cons_self e' he
      -- the same components join, each with what its entry hands on
      have hjoining : e'.joining g' sources' seen = joining := by
        unfold Entry.joining
        rw [htargets]
        rfl
      have hjoined : List.Forall₂ S (joining.map fun t => ⟨t, patterns⟩)
          (joining.map fun t => ⟨t, e'.patterns g' sources'⟩) := by
        rw [List.forall₂_map_left_iff, List.forall₂_map_right_iff, List.forall₂_same]
        intro t _
        exact hpatterns t
      rw [visit_cons, visit_cons, hjoining]
      refine .cons he (ih ?_ (List.rel_append hrest hjoined))
      intro a ha
      exact hstep a (List.mem_cons_of_mem _ ha)

/-! ## The edges that are deleted -/

/-- What an entry leads to is included. -/
theorem mem_included_of_mem_targets {e : Entry} {t : Nat} {id : ModuleId}
    (he : e ∈ entries g sources) (ht : t ∈ e.targets g sources) (hid : g.moduleId? t = some id) :
    id ∈ (outcome g sources).included := by
  obtain ⟨e', he', rfl⟩ := exists_entry_of_mem_targets he ht
  exact mem_included.2 ⟨e', he', Or.inl hid⟩

theorem mem_included_of_mem_attempts {e : Entry} {id : ModuleId} (he : e ∈ entries g sources)
    (hid : id ∈ e.attempts g sources) : id ∈ (outcome g sources).included :=
  mem_included.2 ⟨e, he, Or.inr hid⟩

/-- Deleting edges leaves the exclusions in force at an entry. -/
theorem patterns_without (ids : ModuleSet) (e : Entry) :
    e.patterns (g.without ids) sources = e.patterns g sources := by
  unfold Entry.patterns
  rw [ResolvedGraph.moduleId?_without]

/-- No entry leads to a component whose edges are deleted. -/
theorem targets_pruned {e : Entry} (he : e ∈ entries g sources) :
    e.targets (g.without (outcome g sources).excluded) sources = e.targets g sources := by
  unfold Entry.targets
  rw [ResolvedGraph.edges_without]
  simp only [patterns_without, ResolvedGraph.moduleId?_without]
  apply filterMap_filter_of_eq_none
  intro edge hedge hdeleted
  apply Option.eq_none_iff_forall_not_mem.2
  intro t ht
  have htarget : t ∈ e.targets g sources := List.mem_filterMap.2 ⟨edge, hedge, ht⟩
  have hleads : edge.target? = some t := by grind
  have hkept : g.touches (outcome g sources).excluded edge = false := by
    apply (ResolvedGraph.touches_eq_false_iff_of_target hleads).2
    intro id hid
    exact not_mem_excluded_of_mem_included (mem_included_of_mem_targets he htarget hid)
  simp [hkept] at hdeleted

/-- Nor does an entry attempt a module whose edges are deleted. -/
theorem attempts_pruned {e : Entry} (he : e ∈ entries g sources) :
    e.attempts (g.without (outcome g sources).excluded) sources = e.attempts g sources := by
  unfold Entry.attempts
  rw [ResolvedGraph.edges_without]
  simp only [patterns_without]
  apply filterMap_filter_of_eq_none
  intro edge hedge hdeleted
  apply Option.eq_none_iff_forall_not_mem.2
  intro id hid
  have hattempt : id ∈ e.attempts g sources := List.mem_filterMap.2 ⟨edge, hedge, hid⟩
  have hasked : edge.attempted? = some id := by grind
  have hkept : g.touches (outcome g sources).excluded edge = false :=
    (ResolvedGraph.touches_eq_false_iff_of_attempted hasked).2
      (not_mem_excluded_of_mem_included (mem_included_of_mem_attempts he hattempt))
  simp [hkept] at hdeleted

/-! ## The walk through what is left -/

/-- With the edges to excluded modules deleted, the walk takes the same entries. -/
theorem entries_pruned (g : ResolvedGraph) (sources : ExclusionSources) :
    entries (g.without (outcome g sources).excluded) sources = entries g sources := by
  have hsame : List.Forall₂ Eq (entries g sources)
      (entries (g.without (outcome g sources).excluded) sources) := by
    apply forall₂_visit
    · rintro e he e' rfl
      refine ⟨targets_pruned he, ?_⟩
      intro t
      rw [patterns_without]
    · simp
  exact (List.forall₂_eq_eq_eq ▸ hsame).symm

theorem included_pruned (g : ResolvedGraph) (sources : ExclusionSources) :
    included (g.without (outcome g sources).excluded) sources = included g sources := by
  let left := g.without (outcome g sources).excluded
  have hfound :
      ((entries g sources).flatMap fun e =>
        (left.moduleId? e.component).toList ++ e.attempts left sources) =
      (entries g sources).flatMap fun e =>
        (g.moduleId? e.component).toList ++ e.attempts g sources := by
    apply List.flatMap_congr
    intro e he
    rw [ResolvedGraph.moduleId?_without, attempts_pruned he]
  unfold included
  rw [entries_pruned, hfound]

/-- No edge that is left leads to an excluded module or asked for one. -/
theorem candidate_pruned {id : ModuleId}
    (h : (g.without (outcome g sources).excluded).Candidate id) :
    g.Candidate id ∧ id ∉ (outcome g sources).excluded := by
  obtain ⟨i, ⟨t, hleads, hid⟩ | hattempt⟩ := h
  · rw [ResolvedGraph.moduleId?_without] at hid
    obtain ⟨hleads, hspared⟩ := ResolvedGraph.leads_without.1 hleads
    exact ⟨⟨i, Or.inl ⟨t, hleads, hid⟩⟩, hspared id hid⟩
  · obtain ⟨hattempt, hspared⟩ := ResolvedGraph.attempts_without.1 hattempt
    exact ⟨⟨i, Or.inr hattempt⟩, hspared⟩

/-- Walking a graph again, after the edges to the modules that were excluded are deleted, includes
the same modules and excludes none. -/
theorem outcome_pruned (g : ResolvedGraph) (sources : ExclusionSources) :
    outcome (g.without (outcome g sources).excluded) sources =
      ⟨(outcome g sources).included, ∅⟩ := by
  have hincluded : (outcome (g.without (outcome g sources).excluded) sources).included =
      (outcome g sources).included := included_pruned g sources
  have hexcluded : (outcome (g.without (outcome g sources).excluded) sources).excluded = ∅ := by
    apply Std.ExtTreeSet.eq_empty_iff_forall_not_mem.2
    intro id hid
    obtain ⟨hcandidate, hlost⟩ := mem_excluded.1 hid
    obtain ⟨hcandidate, hspared⟩ := candidate_pruned hcandidate
    rw [hincluded] at hlost
    exact hlost (mem_included_of_candidate hcandidate hspared)
  rw [← hincluded, ← hexcluded]

end Walk

end ManagedGraph
