import ManagedGraph.Proofs.Operation.Simulation
import ManagedGraph.Proofs.Scopes.Outside

/-!
# Scopes in which nothing was declared

A query finds the same in a scope in which nothing was declared and where there is no scope at
all. Two states of the scopes of a build that differ in nothing else match, and all look-ups for
a configuration are in step along them (`inStep_intercept`, `inStep_exclusions`,
`inStep_hierarchyVersions`). A declaration keeps them matching unless it is taken in one of them
alone (`Matches.declareAll`): a scope without declarations that was resolved takes none.
-/

namespace ManagedGraph

namespace Scope

variable {s : Scope} {poms : PomService} {properties : Properties}

/-- A new scope after it was resolved. -/
def newResolved : Scope :=
  { new with state := .resolved }

/-- Nothing was declared in a scope, which may have been resolved. -/
def IsBlank (s : Scope) : Prop :=
  s = new ∨ s = newResolved

theorem isBlank_new : new.IsBlank := Or.inl rfl

theorem IsBlank.settle_eq (h : s.IsBlank) :
    s.settle poms properties = newResolved := by
  rcases h with rfl | rfl <;> rfl

theorem IsBlank.eq_new (h : s.IsBlank) (hopen : s.isOpen = true) : s = new := by
  rcases h with rfl | rfl
  · rfl
  · exact absurd hopen (by simp [isOpen, newResolved])

theorem IsBlank.declaresAlike {t : Scope} (hs : s.IsBlank) (ht : t.IsBlank) :
    s.DeclaresAlike t := by
  rcases hs with rfl | rfl <;> rcases ht with rfl | rfl <;> exact ⟨rfl, rfl, rfl⟩

end Scope

namespace Scopes

variable {poms : PomService} {scope : Option String} {c d : Scopes} {α β : Type}

/-- There is no scope of a name, or nothing was declared in it. -/
def Vacant (c : Scopes) (scope : Option String) : Prop :=
  ∀ own ∈ c.get? scope, own.IsBlank

theorem Takes.isOpen_getD (h : c.Takes scope) : ((c.get? scope).getD .new).isOpen = true := by
  cases hget : c.get? scope with
  | none => rfl
  | some own => exact h own hget

theorem Vacant.isBlank_getD (h : c.Vacant scope) : ((c.get? scope).getD .new).IsBlank := by
  cases hget : c.get? scope with
  | none => exact Scope.isBlank_new
  | some own => exact h own hget

theorem Vacant.getD_eq_new (h : c.Vacant scope) (htakes : c.Takes scope) :
    (c.get? scope).getD .new = .new :=
  h.isBlank_getD.eq_new htakes.isOpen_getD

theorem Vacant.isBlank_declareAll (h : c.Vacant scope) (htakes : ¬ c.Takes scope)
    (declarations : List Declaration) :
    (((c.get? scope).getD .new).declareAll declarations).IsBlank := by
  obtain ⟨own, hget, hclosed⟩ := exists_of_not_takes htakes
  rw [hget, Option.getD_some, Scope.declareAll_of_not_isOpen hclosed]
  exact h own hget

/-- The scopes are the same, but for those in which nothing was declared. Of these there may be
one on one side and none on the other, and one may be resolved. -/
structure Matches (c d : Scopes) : Prop where
  properties : d.properties = c.properties
  get? : ∀ scope, d.get? scope = c.get? scope ∨ c.Vacant scope ∧ d.Vacant scope

namespace Matches

theorem refl (c : Scopes) : c.Matches c :=
  ⟨rfl, fun _ => Or.inl rfl⟩

theorem symm (h : c.Matches d) : d.Matches c where
  properties := h.properties.symm
  get? := by
    intro scope
    rcases h.get? scope with hsame | ⟨hc, hd⟩
    · exact Or.inl hsame.symm
    · exact Or.inr ⟨hd, hc⟩

/-- The scopes of a name declare the same, if each is taken as new where it does not exist. -/
theorem declaresAlike (h : c.Matches d) (scope : Option String) :
    ((c.get? scope).getD .new).DeclaresAlike ((d.get? scope).getD .new) := by
  rcases h.get? scope with hsame | ⟨hc, hd⟩
  · rw [hsame]
    exact .refl _
  · exact hc.isBlank_getD.declaresAlike hd.isBlank_getD

/-! ## Changes -/

/-- One side creates a scope, if there is none of that name. -/
theorem touch_left (h : c.Matches d) (scope : Option String) : (c.touch scope).Matches d where
  properties := h.properties.trans (properties_change c scope _).symm
  get? := by
    intro other
    unfold touch Vacant
    rw [get?_change]
    split
    · rename_i heq
      subst heq
      cases hget : c.get? scope with
      | some own =>
          rw [Option.getD_some, ← hget]
          exact h.get? scope
      | none =>
          -- a scope that was not there matches the new one
          right
          refine ⟨by simpa using Scope.isBlank_new, ?_⟩
          rcases h.get? scope with hsame | ⟨-, hd⟩
          · simp [hsame, hget]
          · exact hd
    · exact h.get? other

theorem touch (h : c.Matches d) (scope : Option String) :
    (c.touch scope).Matches (d.touch scope) :=
  ((h.touch_left scope).symm.touch_left scope).symm

/-- Both sides take declarations, each in a scope that takes declarations on both sides or on
neither. -/
theorem declareAll {entries : List (Option String × Declaration)} (h : c.Matches d)
    (htakes : ∀ entry ∈ entries, c.Takes entry.1 ↔ d.Takes entry.1) :
    (c.declareAll entries).Matches (d.declareAll entries) where
  properties := by
    rw [properties_declareAll, properties_declareAll, h.properties]
  get? := by
    intro scope
    unfold Vacant
    rw [get?_declareAll, get?_declareAll]
    by_cases hnone : declaredIn scope entries = []
    · rw [if_pos hnone, if_pos hnone]
      exact h.get? scope
    · rw [if_neg hnone, if_neg hnone]
      rcases h.get? scope with hsame | ⟨hc, hd⟩
      · rw [hsame]
        exact Or.inl rfl
      · have hboth : c.Takes scope ↔ d.Takes scope := by
          obtain ⟨declaration, hdeclaration⟩ := List.exists_mem_of_ne_nil _ hnone
          obtain ⟨entry, hentry, -⟩ := List.mem_map.1 hdeclaration
          obtain ⟨hmem, heq⟩ := List.mem_filter.1 hentry
          have hscope : entry.1 = scope := of_decide_eq_true heq
          rw [← hscope]
          exact htakes entry hmem
        by_cases htaken : c.Takes scope
        · -- both are new
          left
          rw [hc.getD_eq_new htaken, hd.getD_eq_new (hboth.1 htaken)]
        · -- neither is changed
          right
          simpa using ⟨hc.isBlank_declareAll htaken _, hd.isBlank_declareAll (mt hboth.2 htaken) _⟩

end Matches

/-! ## Queries of one scope -/

theorem Vacant.eq_of_settled? (h : c.Vacant scope) {own : Scope}
    (hown : c.settled? poms scope = some own) : own = .newResolved := by
  obtain ⟨before, hget, rfl⟩ := Option.map_eq_some_iff.1 hown
  exact (h before hget).settle_eq

theorem Matches.settled? (h : c.Matches d) (poms : PomService) (scope : Option String) :
    d.settled? poms scope = c.settled? poms scope ∨ c.Vacant scope ∧ d.Vacant scope := by
  rcases h.get? scope with hsame | hvacant
  · left
    rw [Scopes.settled?, Scopes.settled?, hsame, h.properties]
  · exact Or.inr hvacant

theorem Matches.ask (h : c.Matches d) (read : Scope → α) (scope : Option String) :
    (ask poms read scope c).state.Matches (Scopes.ask poms read scope d).state where
  properties := by rw [properties_ask, properties_ask, h.properties]
  get? := by
    intro other
    unfold Vacant
    rw [get?_ask, get?_ask]
    split
    · rename_i heq
      subst heq
      rcases h.settled? poms scope with hsame | ⟨hc, hd⟩
      · exact Or.inl hsame
      · right
        exact ⟨fun own hown => Or.inr (hc.eq_of_settled? hown),
          fun own hown => Or.inr (hd.eq_of_settled? hown)⟩
    · exact h.get? other

/-- Two readings are the same, or neither is more than nothing. -/
def ReadAlike (nothing : α) (found found' : Option α) : Prop :=
  found = found' ∨ (∀ a ∈ found, a = nothing) ∧ ∀ a ∈ found', a = nothing

variable {read : Scope → α}

/-- What is read of a scope without declarations is nothing more than of a new one. -/
theorem simulates_ask (hread : read .newResolved = read .new)
    (scope : Option String) :
    (ask poms read scope).Simulates Matches (ReadAlike (read .new)) (ask poms read scope) := by
  intro c d h
  refine ⟨?_, h.ask read scope⟩
  have hvacant {c : Scopes} (hc : c.Vacant scope) :
      ∃ found, (ask poms read scope c).answer = .ok found ∧ ∀ a ∈ found, a = read .new := by
    rw [answer_ask]
    cases hown : c.settled? poms scope with
    | none => exact ⟨none, rfl, by simp⟩
    | some own =>
        obtain rfl := hc.eq_of_settled? hown
        refine ⟨_, rfl, ?_⟩
        rintro a ⟨⟩
        exact hread
  rcases h.settled? poms scope with hsame | ⟨hc, hd⟩
  · rw [answer_ask, answer_ask, hsame]
    apply AnswersAlike.refl
    intro found
    exact Or.inl rfl
  · obtain ⟨found, hfound, hnothing⟩ := hvacant hc
    obtain ⟨found', hfound', hnothing'⟩ := hvacant hd
    rw [hfound, hfound']
    exact .ok (Or.inr ⟨hnothing, hnothing'⟩)

/-- The global scope always exists. -/
theorem inStep_askGlobal (read : Scope → α) : (askGlobal poms read).InStep Matches := by
  apply Operation.inStep_of _ fun c d h => h.ask read none
  intro c d h
  have hanswer (c : Scopes) : (askGlobal poms read c).answer =
      (c.global.settle poms c.properties).verdict read := rfl
  rw [hanswer, hanswer]
  rcases h.settled? poms none with hsame | ⟨hc, hd⟩
  · rw [Option.some.inj hsame]
  · have hc' : c.global.settle poms c.properties = .newResolved := hc.eq_of_settled? rfl
    have hd' : d.global.settle poms d.properties = .newResolved := hd.eq_of_settled? rfl
    rw [hc', hd']

/-! ## Queries of a hierarchy -/

/-- Two lists are the same, but for some of the entries that say nothing. -/
inductive ListedAlike (nothing : α) : List α → List α → Prop
  | nil : ListedAlike nothing [] []
  | cons (a : α) {l l' : List α} (h : ListedAlike nothing l l') : ListedAlike nothing (a :: l) (a :: l')
  | left {l l' : List α} (h : ListedAlike nothing l l') : ListedAlike nothing (nothing :: l) l'
  | right {l l' : List α} (h : ListedAlike nothing l l') : ListedAlike nothing l (nothing :: l')

theorem ListedAlike.append {nothing : α} {found found' : Option α} {l l' : List α}
    (hfound : ReadAlike nothing found found') (h : ListedAlike nothing l l') :
    ListedAlike nothing (found.toList ++ l) (found'.toList ++ l') := by
  rcases hfound with rfl | ⟨hleft, hright⟩
  · cases found with
    | none => exact h
    | some a => exact .cons a h
  · have hboth : ListedAlike nothing (found.toList ++ l) l' := by
      cases found with
      | none => exact h
      | some a =>
          obtain rfl := hleft a rfl
          exact .left h
    cases found' with
    | none => exact hboth
    | some a =>
        obtain rfl := hright a rfl
        exact .right hboth

/-- What says nothing adds nothing to what is gathered from a list. -/
theorem ListedAlike.foldl_eq {nothing : α} {l l' : List α} (h : ListedAlike nothing l l')
    {add : β → α → β} (hadd : ∀ b, add b nothing = b) (b : β) : l.foldl add b = l'.foldl add b := by
  induction h generalizing b with
  | nil => rfl
  | cons a _ ih => exact ih (add b a)
  | left _ ih => rw [List.foldl_cons, hadd, ih]
  | right _ ih => rw [List.foldl_cons, hadd, ih]

theorem simulates_askAll (hread : read .newResolved = read .new) (names : List String) :
    (askAll poms read names).Simulates Matches (ListedAlike (read .new))
      (askAll poms read names) := by
  induction names with
  | nil => exact Operation.simulates_pure .nil
  | cons name rest ih =>
      apply (simulates_ask hread (some name)).bind
      intro here here' hhere
      apply ih.bind
      intro others others' hothers
      exact Operation.simulates_pure (.append hhere hothers)

theorem inStep_firstVersion (poms : PomService) (id : ModuleId) (names : List String) :
    (firstVersion poms id names).InStep Matches := by
  induction names with
  | nil => exact inStep_askGlobal _
  | cons name rest ih =>
      apply (simulates_ask rfl (some name)).bind
      intro found found' hfound
      have hnew : Scope.new.versions[id]? = none := by simp [Scope.new]
      rw [hnew] at hfound
      rcases hfound with rfl | ⟨hleft, hright⟩
      · rcases found with _ | _ | version
        · exact ih
        · exact ih
        · exact Operation.inStep_pure _
      · -- neither side has a version, be there a scope or not
        have hnext {found : Option (Option String)} (hnone : ∀ a ∈ found, a = none) :
            found = none ∨ found = some none := by
          rcases found with _ | a
          · exact Or.inl rfl
          · exact Or.inr (congrArg some (hnone a rfl))
        rcases hnext hleft with rfl | rfl <;> rcases hnext hright with rfl | rfl <;> exact ih

/-- What is gathered from the scopes of a hierarchy, on top of the global one. -/
theorem inStep_gather {names : List String} {add : α → α → α}
    (hread : read .newResolved = read .new) (hadd : ∀ a, add a (read .new) = a) :
    (askGlobal poms read >>= fun base => askAll poms read names >>= fun others =>
      pure (others.foldl add base)).InStep Matches := by
  apply (inStep_askGlobal _).bind
  intro base
  apply (simulates_askAll hread names).bind
  intro others others' hothers
  exact Operation.simulates_pure (hothers.foldl_eq hadd base)

theorem inStep_exclusions (configuration : Option Configuration) (poms : PomService) :
    (exclusions configuration poms).InStep Matches := by
  apply inStep_gather rfl
  intro table
  apply Exclusions.ext_patterns
  intro owner
  apply Std.ExtTreeSet.ext_mem
  intro p
  have hnone : Scope.new.exclusions.patterns owner = ∅ := Exclusions.patterns_empty owner
  rw [Exclusions.mem_patterns_merge, hnone]
  simp

theorem inStep_hierarchyVersions (configuration : Configuration) (poms : PomService) :
    (hierarchyVersions configuration poms).InStep Matches := by
  apply inStep_gather rfl
  intro table
  apply Std.ExtTreeMap.ext_getElem?
  intro id
  rw [Std.ExtTreeMap.getElem?_union]
  simp [Scope.new]

theorem inStep_intercept (v : VersionSelector) (request : Request) :
    (v.intercept request).InStep Matches := by
  unfold VersionSelector.intercept
  cases request.requested with
  | project path => exact Operation.inStep_pure _
  | module coordinates =>
      simp only
      split
      · exact Operation.inStep_pure _
      · apply (inStep_firstVersion v.poms coordinates.id _).bind
        intro version
        cases version <;> exact Operation.inStep_pure _

end Scopes

end ManagedGraph
