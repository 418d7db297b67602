import ManagedGraph.Proofs.Walk.Paths

/-!
# Where paths agree

The walk looks at each component once, on the path that reached it first. That loses
nothing when all surviving paths to a component gather the same exclusions: then every
surviving path ends in an entry (`exists_entry_of_survives`), and the walk includes exactly
what some surviving path keeps (`outcome_exact_of_agreement`). In a tree there is only one
path to each component, so nothing more is asked of it.
-/

namespace ManagedGraph

namespace Walk

/-- Surviving paths that end in the same component gather the same exclusions. -/
def PathsAgree (g : ResolvedGraph) (sources : ExclusionSources) : Prop :=
  ∀ a b, Survives g sources a → Survives g sources b → a.getLast? = b.getLast? →
    ∀ p, Gathers g sources a p ↔ Gathers g sources b p

variable {g : ResolvedGraph} {sources : ExclusionSources}

/-! ## When paths agree -/

/-- In a tree a path is known by where it ends. -/
theorem eq_of_survives_of_isTree (hg : g.IsTree) {a b : List Nat} (ha : Survives g sources a)
    (hb : Survives g sources b) (hends : a.getLast? = b.getLast?) : a = b := by
  induction ha using Survives.induction generalizing b with
  | root =>
      induction hb using Survives.induction with
      | root => rfl
      | concat _ _ hleads _ _ _ =>
          obtain rfl : 0 = _ := by simpa using hends
          exact absurd hleads (hg.root _)
  | @concat path i t _ hlast hleads _ _ ih =>
      induction hb using Survives.induction with
      | root =>
          obtain rfl : t = 0 := by simpa using hends
          exact absurd hleads (hg.root _)
      | @concat path' i' t' hpath' hlast' hleads' _ _ _ =>
          -- both paths come to their last component from its only parent
          obtain rfl : t = t' := by simpa using hends
          obtain rfl : i = i' := hg.parent i i' t hleads hleads'
          rw [ih hpath' (hlast.trans hlast'.symm)]

theorem pathsAgree_of_isTree (hg : g.IsTree) : PathsAgree g sources := by
  intro a b ha hb hends p
  rw [eq_of_survives_of_isTree hg ha hb hends]

/-- When only the root declares exclusions, all paths gather the same ones. -/
theorem pathsAgree_of_registers_root (h : ∀ i p, Registers g sources i p → i = 0) :
    PathsAgree g sources := by
  have hgathers {path : List Nat} (hpath : Survives g sources path) (p : Exclusion) :
      Gathers g sources path p ↔ Registers g sources 0 p := by
    constructor
    · rintro ⟨i, -, hp⟩
      exact h i p hp ▸ hp
    · intro hp
      exact ⟨0, List.mem_of_head? hpath.head, hp⟩
  intro a b ha hb _ p
  rw [hgathers ha, hgathers hb]

/-! ## The walk is exact -/

/-- Where paths agree, every surviving path ends in an entry whose exclusions are those
gathered on it. -/
theorem exists_entry_of_survives (hg : g.Closed) (hagree : PathsAgree g sources)
    {path : List Nat} (h : Survives g sources path) :
    ∃ e ∈ entries g sources, Follows g sources path e := by
  induction h using Survives.induction with
  | root => exact ⟨⟨0, ∅⟩, root_mem_entries, follows_root⟩
  | @concat path i t hpath hlast hleads hnew hclear ih =>
      rcases ih with ⟨e, he, hfollows⟩
      obtain rfl : e.component = i := by simpa [hfollows.ends] using hlast
      have hsurvives : Survives g sources (path ++ [t]) :=
        (survives_concat_iff hlast).2 ⟨hpath, hleads, hnew, hclear⟩
      -- nothing gathered so far suppresses the component, so the entry leads to it
      have htarget : t ∈ e.targets g sources := by
        rcases hg.moduleId?_of_leads hleads with ⟨id, hid⟩
        refine mem_targets.2 ⟨hleads, id, hid, hfollows.suppresses_eq_false_iff.2 ?_⟩
        intro p hp
        exact hclear p hp id hid
      rcases exists_entry_of_mem_targets he htarget with ⟨e', he', rfl⟩
      -- the walk may have come to the component on another path, which agrees with this one
      rcases exists_path_of_mem_entries he' with ⟨other, hother⟩
      refine ⟨e', he', hsurvives, by simp, ?_⟩
      intro p
      rw [hother.patterns p]
      exact hagree other _ hother.survives hsurvives (by simp [hother.ends]) p

theorem mem_included_of_kept (hg : g.Closed) (hagree : PathsAgree g sources) {id : ModuleId}
    (h : Kept g sources id) : id ∈ (outcome g sources).included := by
  rcases h with ⟨path, i, hpath, hlast, hfound⟩
  rcases exists_entry_of_survives hg hagree hpath with ⟨e, he, hfollows⟩
  obtain rfl : e.component = i := by simpa [hfollows.ends] using hlast
  refine mem_included.2 ⟨e, he, ?_⟩
  rcases hfound with hid | ⟨hattempt, hclear⟩
  · exact Or.inl hid
  · exact Or.inr (mem_attempts.2 ⟨hattempt, hfollows.suppresses_eq_false_iff.2 hclear⟩)

/-- In a tree, and wherever else surviving paths to the same component gather the same
exclusions, the walk includes exactly what some surviving path keeps, and excludes exactly
the candidates that none keeps. -/
theorem outcome_exact_of_agreement (hg : g.Closed) (h : PathsAgree g sources ∨ g.IsTree) :
    (∀ id, id ∈ (outcome g sources).included ↔ Kept g sources id) ∧
      ∀ id, id ∈ (outcome g sources).excluded ↔ g.Candidate id ∧ ¬ Kept g sources id := by
  have hagree : PathsAgree g sources := h.elim (fun h => h) pathsAgree_of_isTree
  have hincluded (id : ModuleId) : id ∈ (outcome g sources).included ↔ Kept g sources id :=
    ⟨kept_of_mem_included, mem_included_of_kept hg hagree⟩
  refine ⟨hincluded, ?_⟩
  intro id
  rw [mem_excluded, hincluded]

theorem pathsAgree_meeting : PathsAgree meeting meetingSources := by
  apply pathsAgree_of_registers_root
  intro i p hp
  exact (registers_meeting_iff.1 hp).1

theorem outcome_exact_meeting :
    meeting.Closed ∧ PathsAgree meeting meetingSources ∧
      (∀ id, id ∈ (outcome meeting meetingSources).included ↔ Kept meeting meetingSources id) ∧
      ∀ id, id ∈ (outcome meeting meetingSources).excluded ↔
        meeting.Candidate id ∧ ¬ Kept meeting meetingSources id :=
  ⟨by decide, pathsAgree_meeting,
    outcome_exact_of_agreement (by decide) (Or.inl pathsAgree_meeting)⟩

end Walk

end ManagedGraph
