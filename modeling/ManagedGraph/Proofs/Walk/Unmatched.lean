import ManagedGraph.Proofs.Walk.FlatRules
import ManagedGraph.Proofs.Walk.Paths

/-!
# Modules that no exclusion matches

The walk may come to a component on any path, with any exclusions in force. A module that no
exclusion of either table matches is suppressed by none of them, so the walk follows every edge
to it from wherever it stands (`exists_entry_of_isChain`). What is excluded elsewhere takes
nothing away from a path of such modules (`included_of_unmatched`).
-/

namespace ManagedGraph

namespace Walk

/-- No exclusion of either table matches a module, whatever its owner. -/
def Unmatched (sources : ExclusionSources) (id : ModuleId) : Prop :=
  ∀ owner p, p ∈ sources.declared.patterns owner ∨ p ∈ sources.fromPoms.patterns owner →
    p.suppresses id = false

variable {g : ResolvedGraph} {sources : ExclusionSources} {id : ModuleId} {i t : Nat}

/-- Whatever was gathered on the way to an entry, it does not suppress such a module. -/
theorem Unmatched.suppresses_eq_false (h : Unmatched sources id) {e : Entry}
    (he : e ∈ entries g sources) : (e.patterns g sources).suppresses id = false := by
  obtain ⟨path, hpath⟩ := exists_path_of_mem_entries he
  apply hpath.suppresses_eq_false_iff.2
  rintro p ⟨j, -, owner, -, hp⟩
  exact h owner p hp

/-- The walk goes on from a component to one of such a module. -/
theorem exists_entry_of_leads (hentry : ∃ e ∈ entries g sources, e.component = i)
    (hleads : g.Leads i t) (hid : g.moduleId? t = some id) (h : Unmatched sources id) :
    ∃ e ∈ entries g sources, e.component = t := by
  obtain ⟨e, he, rfl⟩ := hentry
  apply exists_entry_of_mem_targets he
  exact mem_targets.2 ⟨hleads, id, hid, h.suppresses_eq_false he⟩

/-- The walk follows a path on from a component, if no exclusion matches what comes after it. -/
theorem exists_entry_of_isChain (hg : g.Closed) {rest : List Nat}
    (hentry : ∃ e ∈ entries g sources, e.component = i) (hlinked : (i :: rest).IsChain g.Leads)
    (hclear : ∀ t ∈ rest, ∀ id, g.moduleId? t = some id → Unmatched sources id) :
    ∀ t ∈ i :: rest, ∃ e ∈ entries g sources, e.component = t := by
  induction rest generalizing i with
  | nil =>
      intro t ht
      obtain rfl : t = i := List.mem_singleton.1 ht
      exact hentry
  | cons next rest ih =>
      obtain ⟨hleads, hlinked⟩ := List.isChain_cons_cons.1 hlinked
      obtain ⟨hnext, hrest⟩ := List.forall_mem_cons.1 hclear
      obtain ⟨id, hid⟩ := hg.moduleId?_of_leads hleads
      have hfollowed := ih (exists_entry_of_leads hentry hleads hid (hnext id hid)) hlinked hrest
      exact List.forall_mem_cons.2 ⟨hentry, hfollowed⟩

/-- What an entry at a component contributes. -/
theorem mem_included_of_exists_entry (hentry : ∃ e ∈ entries g sources, e.component = i) :
    (∀ id, g.moduleId? i = some id → id ∈ (outcome g sources).included) ∧
      ∀ id, g.Attempts i id → Unmatched sources id → id ∈ (outcome g sources).included := by
  obtain ⟨e, he, rfl⟩ := hentry
  constructor
  · intro id hid
    exact mem_included.2 ⟨e, he, Or.inl hid⟩
  · intro id hattempt h
    exact mem_included.2 ⟨e, he, Or.inr (mem_attempts.2 ⟨hattempt, h.suppresses_eq_false he⟩)⟩

/-- If no exclusion matches a component after the root on a path, then the modules of all
components on it are included, and so is every module that its last component asked for and no
exclusion matches. If no exclusion matches any component that the root reaches, then no module of
such a component is excluded, nor one that it asked for and no exclusion matches. -/
theorem included_of_unmatched (g : ResolvedGraph) (sources : ExclusionSources) (hg : g.Closed) :
    (∀ rest : List Nat, (0 :: rest).IsChain g.Leads →
      (∀ i ∈ rest, ∀ id, g.moduleId? i = some id → Unmatched sources id) →
        (∀ i ∈ 0 :: rest, ∀ id, g.moduleId? i = some id → id ∈ (outcome g sources).included) ∧
          ∀ id, g.Attempts ((0 :: rest).getLast (List.cons_ne_nil 0 rest)) id →
            Unmatched sources id → id ∈ (outcome g sources).included) ∧
      ((∀ i id, g.Reaches i → g.moduleId? i = some id → Unmatched sources id) →
        ∀ i, g.Reaches i →
          (∀ id, g.moduleId? i = some id → id ∉ (outcome g sources).excluded) ∧
            ∀ id, g.Attempts i id → Unmatched sources id → id ∉ (outcome g sources).excluded) := by
  have hroot : ∃ e ∈ entries g sources, e.component = 0 := ⟨⟨0, ∅⟩, root_mem_entries, rfl⟩
  constructor
  · intro rest hlinked hclear
    have hfollowed := exists_entry_of_isChain hg hroot hlinked hclear
    constructor
    · intro i hi
      exact (mem_included_of_exists_entry (hfollowed i hi)).1
    · exact (mem_included_of_exists_entry (hfollowed _ (List.getLast_mem _))).2
  · intro hclear i hreaches
    -- all components on the way to this one are reached as well
    have hentry : ∃ e ∈ entries g sources, e.component = i := by
      induction hreaches with
      | refl => exact hroot
      | @tail j t hj hleads ih =>
          obtain ⟨id, hid⟩ := hg.moduleId?_of_leads hleads
          exact exists_entry_of_leads ih hleads hid (hclear t id (hj.tail hleads) hid)
    obtain ⟨hmodule, hattempted⟩ := mem_included_of_exists_entry hentry
    constructor
    · intro id hid
      exact not_mem_excluded_of_mem_included (hmodule id hid)
    · intro id hattempt h
      exact not_mem_excluded_of_mem_included (hattempted id hattempt h)

/-- The sources with a single exclusion, declared on the root of `meeting`. -/
def excluding (p : Exclusion) : ExclusionSources :=
  ⟨(∅ : Exclusions).add ⟨"org", "app"⟩ [p], ∅⟩

theorem unmatched_excluding {p : Exclusion} (h : p.suppresses id = false) :
    Unmatched (excluding p) id := by
  intro owner q hq
  obtain ⟨-, rfl⟩ : ⟨"org", "app"⟩ = owner ∧ q = p := by
    simpa [excluding, Exclusions.mem_patterns_add] using hq
  exact h

/-- With one module excluded, a path goes on around the cycle, and what is asked for at its end is
included. An exclusion of another group excludes nothing that the root reaches. -/
theorem included_meeting :
    meeting.Closed ∧ (0 :: [2, 3, 1, 3]).IsChain meeting.Leads ∧ meeting.Reaches 4 ∧
      (∀ id ∈ [⟨"org", "a"⟩, ⟨"org", "b"⟩, ⟨"org", "c"⟩, ⟨"org", "e"⟩],
        id ∈ (outcome meeting (excluding (.pattern "org" "d"))).included) ∧
      ⟨"org", "d"⟩ ∉ (outcome meeting (excluding (.pattern "com" "*"))).excluded := by
  have hclosed : meeting.Closed := by decide
  have hlinked : (0 :: [2, 3, 1, 3]).IsChain meeting.Leads := by
    unfold ResolvedGraph.Leads
    decide
  have hreaches : meeting.Reaches 4 := by
    apply List.relationReflTransGen_of_exists_isChain_cons [1, 3, 4] _ rfl
    unfold ResolvedGraph.Leads
    decide
  have hspared : ∀ i ∈ [2, 3, 1, 3], ∀ id ∈ meeting.moduleId? i,
      (Exclusion.pattern "org" "d").suppresses id = false := by decide
  have hforeign : ∀ c ∈ meeting.components,
      (Exclusion.pattern "com" "*").suppresses c.moduleId = false := by decide
  have hasked : meeting.Attempts 3 ⟨"org", "e"⟩ := by
    unfold ResolvedGraph.Attempts
    decide
  obtain ⟨hmodule, hattempted⟩ := (included_of_unmatched meeting (excluding (.pattern "org" "d"))
    hclosed).1 [2, 3, 1, 3] hlinked fun i hi id hid => unmatched_excluding (hspared i hi id hid)
  obtain ⟨hkept, -⟩ := (included_of_unmatched meeting (excluding (.pattern "com" "*"))
    hclosed).2 (by
      intro i id _ hid
      obtain ⟨c, hc, rfl⟩ := Option.map_eq_some_iff.1 hid
      exact unmatched_excluding (hforeign c (List.mem_of_getElem? hc))) 4 hreaches
  refine ⟨hclosed, hlinked, hreaches, ?_, hkept _ rfl⟩
  simp only [List.forall_mem_cons]
  exact ⟨hmodule 1 (by decide) _ rfl, hmodule 2 (by decide) _ rfl, hmodule 3 (by decide) _ rfl,
    hattempted _ hasked (unmatched_excluding (by decide)), by simp⟩

end Walk

end ManagedGraph
