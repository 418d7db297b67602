import ManagedGraph.Proofs.Walk.Entries

/-!
# Flat rules with the effect of paths

A walk decides path by path what is pruned, while the rules it yields apply everywhere.
They come to the same: once the edges to excluded modules are deleted from all components,
what is still reachable from the root is what the walk included
(`mem_included_iff_yields_without`), although a module may be pruned on one path and kept
on another.
-/

namespace ManagedGraph

namespace Walk

variable {g : ResolvedGraph} {sources : ExclusionSources}

theorem not_mem_excluded_of_mem_included {id : ModuleId}
    (h : id ∈ (outcome g sources).included) : id ∉ (outcome g sources).excluded := by
  intro hexcluded
  exact (mem_excluded.1 hexcluded).2 h

/-- A candidate that no rule names is included. -/
theorem mem_included_of_candidate {id : ModuleId} (h : g.Candidate id)
    (hspared : id ∉ (outcome g sources).excluded) : id ∈ (outcome g sources).included := by
  apply Classical.byContradiction
  intro hid
  exact hspared (mem_excluded.2 ⟨h, hid⟩)

/-- The rules leave every component of the walk reachable. -/
theorem reaches_without_of_mem_entries :
    ∀ e ∈ entries g sources, (g.without (outcome g sources).excluded).Reaches e.component := by
  refine entries_induction
    (fun e => (g.without (outcome g sources).excluded).Reaches e.component) ?_ ?_
  · intro e t _ hreach htarget hentry
    rcases mem_targets.1 htarget with ⟨hleads, id, hid, -⟩
    -- the component joins, so its module is included and no rule names it
    have hincluded : id ∈ (outcome g sources).included :=
      mem_included.2 ⟨_, hentry, Or.inl hid⟩
    refine Relation.ReflTransGen.tail hreach (ResolvedGraph.leads_without.2 ⟨hleads, ?_⟩)
    intro id' hid'
    obtain rfl : id = id' := by simpa [hid] using hid'
    exact not_mem_excluded_of_mem_included hincluded
  · exact Relation.ReflTransGen.refl

/-- The component where a remaining path ends belongs to an included module. -/
theorem mem_included_of_reaches_without {i : Nat} {id : ModuleId}
    (h : (g.without (outcome g sources).excluded).Reaches i) (hid : g.moduleId? i = some id) :
    id ∈ (outcome g sources).included := by
  rcases Relation.ReflTransGen.cases_tail h with hroot | ⟨j, -, hleads⟩
  · subst hroot
    obtain rfl : g.root.moduleId = id := by simpa [g.moduleId?_zero] using hid
    exact root_mem_included
  · rcases ResolvedGraph.leads_without.1 hleads with ⟨hleads, hspared⟩
    exact mem_included_of_candidate ⟨j, Or.inl ⟨i, hleads, hid⟩⟩ (hspared id hid)

/-- Deleting every edge to an excluded module leaves reachable from the root, or attempted
there, exactly the included modules. -/
theorem mem_included_iff_yields_without (g : ResolvedGraph) (sources : ExclusionSources)
    (id : ModuleId) :
    id ∈ (outcome g sources).included ↔
      (g.without (outcome g sources).excluded).Yields id := by
  constructor
  · intro hincluded
    rcases mem_included.1 hincluded with ⟨e, he, hfound⟩
    refine Or.inr ⟨e.component, reaches_without_of_mem_entries e he, ?_⟩
    rcases hfound with hid | hattempt
    · exact Or.inl (by simpa using hid)
    · have hspared := not_mem_excluded_of_mem_included hincluded
      exact Or.inr (ResolvedGraph.attempts_without.2 ⟨(mem_attempts.1 hattempt).1, hspared⟩)
  · rintro (hroot | ⟨i, hreach, hid | hattempt⟩)
    · rw [hroot, ResolvedGraph.root_moduleId_without]
      exact root_mem_included
    · exact mem_included_of_reaches_without hreach (by simpa using hid)
    · rcases ResolvedGraph.attempts_without.1 hattempt with ⟨hattempt, hspared⟩
      exact mem_included_of_candidate ⟨i, Or.inr hattempt⟩ hspared

end Walk

end ManagedGraph
