import ManagedGraph.Proofs.Walk.Entries
import Mathlib.Data.List.Chain

/-!
# Surviving paths

A path of resolved edges from the root survives when nothing registered for a component on
it suppresses a later one. The walk follows such paths: behind every entry there is one
along which exactly the exclusions in force at the entry were gathered
(`exists_path_of_mem_entries`), so every included module is kept by some surviving path,
and a candidate that none keeps is excluded (`kept_of_included_and_excluded_of_not_kept`).
-/

namespace ManagedGraph

namespace Walk

variable (g : ResolvedGraph) (sources : ExclusionSources)

/-- An exclusion is registered for some component of a path. -/
def Gathers (path : List Nat) (p : Exclusion) : Prop :=
  ∃ i ∈ path, Registers g sources i p

/-- A path from the root that repeats no component, and on which nothing registered for a
component suppresses the module of a later one. -/
structure Survives (path : List Nat) : Prop where
  head : path.head? = some 0
  linked : path.IsChain g.Leads
  nodup : path.Nodup
  spared : path.Pairwise fun i j =>
    ∀ p, Registers g sources i p → ∀ id, g.moduleId? j = some id → p.suppresses id = false

/-- A surviving path ends in a component of the module, or in one that asked for it while
nothing registered on the path suppresses it. -/
def Kept (id : ModuleId) : Prop :=
  ∃ path i, Survives g sources path ∧ path.getLast? = some i ∧
    (g.moduleId? i = some id ∨
      (g.Attempts i id ∧ ∀ p, Gathers g sources path p → p.suppresses id = false))

/-- A surviving path ends in an entry, and on it is gathered what is in force there. -/
structure Follows (path : List Nat) (e : Entry) : Prop where
  survives : Survives g sources path
  ends : path.getLast? = some e.component
  patterns : ∀ p, p ∈ e.patterns g sources ↔ Gathers g sources path p

variable {g : ResolvedGraph} {sources : ExclusionSources}

/-! ## Growing a path -/

/-- The path that ends at the root survives. -/
theorem survives_root : Survives g sources [0] := by
  constructor <;> simp

/-- A surviving path goes on to a new component that nothing registered on it suppresses,
and in no other way. -/
theorem survives_concat_iff {path : List Nat} {i t : Nat} (hlast : path.getLast? = some i) :
    Survives g sources (path ++ [t]) ↔
      Survives g sources path ∧ g.Leads i t ∧ t ∉ path ∧
        ∀ p, Gathers g sources path p →
          ∀ id, g.moduleId? t = some id → p.suppresses id = false := by
  have hne : path ≠ [] := by
    rintro rfl
    simp at hlast
  -- each condition splits over the two parts, with a clause for the step between them
  constructor
  · rintro ⟨hhead, hlinked, hnodup, hspared⟩
    rw [List.isChain_append] at hlinked
    rw [List.nodup_append] at hnodup
    rw [List.pairwise_append] at hspared
    refine ⟨⟨?_, hlinked.1, hnodup.1, hspared.1⟩, ?_, ?_, ?_⟩
    · simpa [List.head?_append_of_ne_nil _ hne] using hhead
    · exact hlinked.2.2 i hlast t rfl
    · intro ht
      exact hnodup.2.2 t ht t List.mem_cons_self rfl
    · rintro p ⟨j, hj, hp⟩
      exact hspared.2.2 j hj t List.mem_cons_self p hp
  · rintro ⟨⟨hhead, hlinked, hnodup, hspared⟩, hleads, hnew, hclear⟩
    refine ⟨?_, ?_, ?_, ?_⟩
    · simpa [List.head?_append_of_ne_nil _ hne] using hhead
    · refine List.isChain_append.2 ⟨hlinked, List.isChain_singleton t, ?_⟩
      intro x hx y hy
      obtain rfl : i = x := by simpa [hlast] using hx
      obtain rfl : t = y := by simpa using hy
      exact hleads
    · refine List.nodup_append.2 ⟨hnodup, by simp, ?_⟩
      intro x hx y hy hxy
      obtain rfl : y = t := List.mem_singleton.1 hy
      exact hnew (hxy ▸ hx)
    · refine List.pairwise_append.2 ⟨hspared, List.pairwise_singleton _ t, ?_⟩
      intro x hx y hy p hp
      obtain rfl : y = t := List.mem_singleton.1 hy
      exact hclear p ⟨x, hx, hp⟩

/-- Every surviving path comes from the root by going on to new components. -/
theorem Survives.induction {motive : ∀ path, Survives g sources path → Prop}
    (root : motive [0] survives_root)
    (concat : ∀ {path i t} (hpath : Survives g sources path) (hlast : path.getLast? = some i)
      (hleads : g.Leads i t) (hnew : t ∉ path)
      (hclear : ∀ p, Gathers g sources path p →
        ∀ id, g.moduleId? t = some id → p.suppresses id = false),
      motive path hpath →
        motive (path ++ [t]) ((survives_concat_iff hlast).2 ⟨hpath, hleads, hnew, hclear⟩))
    {path : List Nat} (h : Survives g sources path) : motive path h := by
  induction path using List.reverseRecOn with
  | nil => exact absurd h.head (by simp)
  | append_singleton path t ih =>
      cases hlast : path.getLast? with
      | none =>
          -- nothing before it: a path starts at the root
          obtain rfl : path = [] := List.getLast?_eq_none_iff.1 hlast
          obtain rfl : t = 0 := by simpa using h.head
          exact root
      | some i =>
          rcases (survives_concat_iff hlast).1 h with ⟨hpath, hleads, hnew, hclear⟩
          exact concat hpath hlast hleads hnew hclear (ih hpath)

theorem gathers_concat {path : List Nat} {t : Nat} {p : Exclusion} :
    Gathers g sources (path ++ [t]) p ↔
      Gathers g sources path p ∨ Registers g sources t p := by
  simp [Gathers, or_and_right, exists_or]

/-! ## The path behind an entry -/

/-- What is in force at an entry suppresses a module when something on its path does. -/
theorem Follows.suppresses_eq_false_iff {path : List Nat} {e : Entry}
    (h : Follows g sources path e) {id : ModuleId} :
    (e.patterns g sources).suppresses id = false ↔
      ∀ p, Gathers g sources path p → p.suppresses id = false := by
  simp only [ExclusionSet.suppresses_eq_false_iff, h.patterns]

theorem follows_root : Follows g sources [0] ⟨0, ∅⟩ := by
  refine ⟨survives_root, rfl, ?_⟩
  intro p
  rw [mem_patterns]
  simp [Gathers]

/-- A component that joins at an entry, and is on no path of components seen before,
continues the path behind the entry. -/
theorem Follows.concat {path : List Nat} {e : Entry} {t : Nat}
    (h : Follows g sources path e) (ht : t ∈ e.targets g sources) (hnew : t ∉ path) :
    Follows g sources (path ++ [t]) ⟨t, e.patterns g sources⟩ := by
  rcases mem_targets.1 ht with ⟨hleads, id, hid, hspared⟩
  refine ⟨?_, by simp, ?_⟩
  · refine (survives_concat_iff h.ends).2 ⟨h.survives, hleads, hnew, ?_⟩
    intro p hp id' hid'
    obtain rfl : id = id' := by simpa [hid] using hid'
    exact h.suppresses_eq_false_iff.1 hspared p hp
  · intro p
    rw [mem_patterns, gathers_concat, h.patterns]

/-- Behind every entry of the walk there is a surviving path. -/
theorem exists_path_of_mem_entries {e : Entry} (he : e ∈ entries g sources) :
    ∃ path, Follows g sources path e := by
  -- the path runs through seen components only, so one that joins repeats none of them
  have hseen : ∃ seen path : List Nat, path ⊆ seen ∧ Follows g sources path e := by
    apply entries_induction_seen
      (fun seen e => ∃ path, path ⊆ seen ∧ Follows g sources path e) _ _ _ e he
    · rintro seen more e hmore ⟨path, hpath, h⟩
      exact ⟨path, List.Subset.trans hpath hmore, h⟩
    · rintro seen e t - ⟨path, hpath, h⟩ ht hnew -
      refine ⟨path ++ [t], ?_, h.concat ht fun hmem => hnew (hpath hmem)⟩
      intro i hi
      rcases List.mem_append.1 hi with hi | hi
      · exact List.mem_cons_of_mem _ (hpath hi)
      · exact List.mem_singleton.1 hi ▸ List.mem_cons_self
    · exact ⟨[0], List.Subset.refl _, follows_root⟩
  rcases hseen with ⟨-, path, -, h⟩
  exact ⟨path, h⟩

/-! ## Included modules -/

/-- What an entry contributes is kept by the path behind it. -/
theorem kept_of_mem_included {id : ModuleId} (h : id ∈ (outcome g sources).included) :
    Kept g sources id := by
  rcases mem_included.1 h with ⟨e, he, hfound⟩
  rcases exists_path_of_mem_entries he with ⟨path, hpath⟩
  refine ⟨path, e.component, hpath.survives, hpath.ends, ?_⟩
  rcases hfound with hid | hattempt
  · exact Or.inl hid
  · rcases mem_attempts.1 hattempt with ⟨hattempt, hspared⟩
    exact Or.inr ⟨hattempt, hpath.suppresses_eq_false_iff.1 hspared⟩

/-- What the root excludes no path keeps, the root itself apart. -/
theorem not_kept_of_registers_root {p : Exclusion} {id : ModuleId}
    (hp : Registers g sources 0 p) (hid : p.suppresses id = true) (hne : id ≠ g.root.moduleId) :
    ¬ Kept g sources id := by
  rintro ⟨path, i, hpath, hlast, hend | ⟨-, hclear⟩⟩
  · cases path with
    | nil => simp at hlast
    | cons first rest =>
        obtain rfl : first = 0 := by simpa using hpath.head
        have hi : i ∈ rest := by
          rcases List.mem_cons.1 (List.mem_of_getLast? hlast) with rfl | hi
          · rw [g.moduleId?_zero] at hend
            exact absurd (Option.some.inj hend).symm hne
          · exact hi
        have hspared := (List.pairwise_cons.1 hpath.spared).1 i hi p hp id hend
        simp [hid] at hspared
  · have hspared := hclear p ⟨0, List.mem_of_head? hpath.head, hp⟩
    simp [hid] at hspared

/-- Every included module is kept by a surviving path, and every candidate that no
surviving path keeps is excluded. -/
theorem kept_of_included_and_excluded_of_not_kept (g : ResolvedGraph)
    (sources : ExclusionSources) :
    (∀ id ∈ (outcome g sources).included, Kept g sources id) ∧
      ∀ id, g.Candidate id → ¬ Kept g sources id → id ∈ (outcome g sources).excluded := by
  constructor
  · intro id hid
    exact kept_of_mem_included hid
  · intro id hcandidate hlost
    refine mem_excluded.2 ⟨hcandidate, ?_⟩
    intro hid
    exact hlost (kept_of_mem_included hid)

/-- A graph in which two paths meet and a cycle leads back to one of them. -/
def meeting : ResolvedGraph :=
  let module (artifact : String) : ModuleId := ⟨"org", artifact⟩
  let resolved (artifact : String) (t : Nat) : Edge :=
    .resolved (.module ⟨module artifact, none⟩) t
  ⟨[⟨.project ":" ⟨module "app", "1.0"⟩, [resolved "a" 1, resolved "b" 2]⟩,
    ⟨.module ⟨module "a", "1.0"⟩, [resolved "c" 3]⟩,
    ⟨.module ⟨module "b", "1.0"⟩, [resolved "c" 3]⟩,
    ⟨.module ⟨module "c", "1.0"⟩,
      [resolved "a" 1, resolved "d" 4, .unresolved (.module ⟨module "e", none⟩) "not found"]⟩,
    ⟨.module ⟨module "d", "1.0"⟩, []⟩], by simp⟩

/-- The exclusion of one module, declared on the root of `meeting`. -/
def meetingSources : ExclusionSources where
  declared := (∅ : Exclusions).add ⟨"org", "app"⟩ [.pattern "org" "d"]
  fromPoms := ∅

theorem registers_meeting_iff {i : Nat} {p : Exclusion} :
    Registers meeting meetingSources i p ↔ i = 0 ∧ p = .pattern "org" "d" := by
  constructor
  · rintro ⟨owner, hid, hp⟩
    obtain ⟨rfl, rfl⟩ : ⟨"org", "app"⟩ = owner ∧ p = .pattern "org" "d" := by
      simpa [meetingSources, Exclusions.mem_patterns_add] using hp
    refine ⟨?_, rfl⟩
    rcases i with _ | _ | _ | _ | _ | i <;>
      simp [meeting, ResolvedGraph.moduleId?, Component.moduleId, Identity.moduleId,
        Identity.version] at hid ⊢
  · rintro ⟨rfl, rfl⟩
    refine ⟨⟨"org", "app"⟩, rfl, Or.inl ?_⟩
    exact Exclusions.mem_patterns_add.2 (Or.inr ⟨rfl, List.mem_cons_self⟩)

theorem kept_and_excluded_meeting :
    Kept meeting meetingSources ⟨"org", "app"⟩ ∧
      ¬ Kept meeting meetingSources ⟨"org", "d"⟩ ∧
      ⟨"org", "d"⟩ ∈ (outcome meeting meetingSources).excluded := by
  rcases kept_of_included_and_excluded_of_not_kept meeting meetingSources with ⟨hkept, hlost⟩
  have hd : ¬ Kept meeting meetingSources ⟨"org", "d"⟩ :=
    not_kept_of_registers_root (registers_meeting_iff.2 ⟨rfl, rfl⟩) (by decide) (by decide)
  refine ⟨hkept _ root_mem_included, hd, hlost _ ?_ hd⟩
  exact ⟨3, Or.inl ⟨4, ⟨_, List.mem_cons_of_mem _ List.mem_cons_self, rfl⟩, rfl⟩⟩

end Walk

end ManagedGraph
