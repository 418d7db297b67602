import ManagedGraph.Pom.Repository
import ManagedGraph.Proofs.Text.Parts

/-!
# The layout of a repository

The path of a POM goes from the root through the parts of the group, the artifact and the version
to a file that is named after the last two. As long as all of these can be steps of a path, none of
them replaces what stands before it, and the path tells where one step ends and the next begins.
Hence no two module versions share a path (`pomPath_eq_iff`), although neither the number of steps
nor the place of the dash in the file name is fixed.
-/

namespace ManagedGraph

/-! ## Steps -/

namespace Path

/-- The steps of a path are divided by `/`. -/
abbrev IsStep (text : String) : Prop :=
  Text.IsPart '/' text

/-- A path with what divides it from the next step, if anything has to. -/
def opened (path : String) : String :=
  if isOpen path then path else path ++ "/"

/-- Some steps, one after another. -/
def ofSteps (steps : List String) : String :=
  "/".intercalate steps

variable {base next step : String} {steps more : List String}

theorem exists_opened_eq_append (base : String) : ∃ rest, opened base = base ++ rest := by
  unfold opened
  split
  · exact ⟨"", (String.append_empty).symm⟩
  · exact ⟨"/", rfl⟩

theorem join_of_isAbsolute_eq_false (h : isAbsolute next = false) :
    join base next = opened base ++ next := by
  unfold join opened
  rw [h]
  cases isOpen base <;> rfl

/-- What begins with a step does not begin at the top. -/
theorem IsStep.isAbsolute_append (h : IsStep step) (rest : String) :
    isAbsolute (step ++ rest) = false := by
  obtain ⟨hne, hfree⟩ := h
  obtain ⟨c, others, hchars⟩ := List.exists_cons_of_ne_nil (mt String.toList_eq_nil_iff.1 hne)
  have hc : c ≠ '/' := by
    rintro rfl
    exact hfree (hchars ▸ List.mem_cons_self)
  simp [isAbsolute, hchars, hc]

/-- What ends in a step needs a divider before the next one. -/
theorem IsStep.opened_append (h : IsStep step) (before : String) :
    opened (before ++ step) = before ++ step ++ "/" := by
  obtain ⟨hne, hfree⟩ := h
  obtain hnil | ⟨others, c, hchars⟩ := List.eq_nil_or_concat' step.toList
  · exact absurd (String.toList_eq_nil_iff.1 hnil) hne
  have hc : c ≠ '/' := by
    rintro rfl
    exact hfree (hchars ▸ List.mem_concat_self)
  simp [opened, isOpen, hchars, hc]

/-- Steps do not lead back to the top. -/
theorem isAbsolute_ofSteps (hsteps : steps ≠ []) (h : ∀ step ∈ steps, IsStep step) :
    isAbsolute (ofSteps steps) = false := by
  obtain ⟨first, others, rfl⟩ := List.exists_cons_of_ne_nil hsteps
  have hfirst := h first List.mem_cons_self
  cases others with
  | nil => simpa [ofSteps] using hfirst.isAbsolute_append ""
  | cons second others =>
      rw [ofSteps, String.intercalate_cons_cons, String.append_assoc]
      exact hfirst.isAbsolute_append _

/-- Behind some steps the next one needs a divider. -/
theorem opened_append_ofSteps (hsteps : steps ≠ []) (h : ∀ step ∈ steps, IsStep step) :
    opened (base ++ ofSteps steps) = base ++ ofSteps steps ++ "/" := by
  obtain rfl | ⟨front, last, rfl⟩ := List.eq_nil_or_concat' steps
  · exact absurd rfl hsteps
  · have hlast := h last List.mem_concat_self
    by_cases hfront : front = []
    · subst hfront
      simpa [ofSteps] using hlast.opened_append base
    · rw [ofSteps, String.intercalate_append_of_ne_nil hfront (List.cons_ne_nil last []),
        String.intercalate_singleton, ← String.append_assoc]
      exact hlast.opened_append _

/-- Some steps are joined to a path. -/
theorem join_ofSteps (hsteps : steps ≠ []) (h : ∀ step ∈ steps, IsStep step) :
    join base (ofSteps steps) = opened base ++ ofSteps steps :=
  join_of_isAbsolute_eq_false (isAbsolute_ofSteps hsteps h)

/-- A step that is joined to a path of steps comes last. -/
theorem join_step (hsteps : steps ≠ []) (h : ∀ step ∈ steps, IsStep step) (hstep : IsStep step) :
    join (base ++ ofSteps steps) step = base ++ ofSteps (steps ++ [step]) := by
  have hbelow : isAbsolute step = false := by simpa using hstep.isAbsolute_append ""
  rw [join_of_isAbsolute_eq_false hbelow, opened_append_ofSteps hsteps h, ofSteps, ofSteps,
    String.intercalate_append_of_ne_nil hsteps (List.cons_ne_nil step []),
    String.intercalate_singleton]
  simp only [String.append_assoc]

/-- Steps that are joined to a path of steps follow it in order. -/
theorem foldl_join (hsteps : steps ≠ []) (h : ∀ step ∈ steps, IsStep step)
    (hmore : ∀ step ∈ more, IsStep step) :
    more.foldl join (base ++ ofSteps steps) = base ++ ofSteps (steps ++ more) := by
  induction more generalizing steps with
  | nil => simp
  | cons step rest ih =>
      obtain ⟨hstep, hrest⟩ := List.forall_mem_cons.1 hmore
      have hlonger : ∀ other ∈ steps ++ [step], IsStep other := by
        intro other hother
        rcases List.mem_append.1 hother with hother | hother
        · exact h other hother
        · exact List.mem_singleton.1 hother ▸ hstep
      rw [List.foldl_cons, join_step hsteps h hstep, ih (by simp) hlonger hrest,
        List.append_assoc, List.singleton_append]

/-- Steps can be told apart in their path. -/
theorem ofSteps_injective {steps' : List String} (hsteps : steps ≠ []) (hsteps' : steps' ≠ [])
    (h : ∀ step ∈ steps, IsStep step) (h' : ∀ step ∈ steps', IsStep step)
    (heq : ofSteps steps = ofSteps steps') : steps = steps' := by
  have hparts : Text.partsOf '/' (ofSteps steps) = steps :=
    (Text.partsOf_eq_iff hsteps).2 ⟨fun step hstep => (h step hstep).2, rfl⟩
  have hparts' : Text.partsOf '/' (ofSteps steps') = steps' :=
    (Text.partsOf_eq_iff hsteps').2 ⟨fun step hstep => (h' step hstep).2, rfl⟩
  rw [← hparts, ← hparts', heq]

end Path

/-! ## Paths of POMs -/

namespace Repository

/-- The parts of a group between its dots. -/
def groupSteps (group : String) : List String :=
  Text.partsOf '.' group

/-- The steps from the root to a POM. -/
def pomSteps (m : ModuleVersion) : List String :=
  groupSteps m.id.group ++ [m.id.artifact, m.version, m.id.artifact ++ "-" ++ m.version ++ ".pom"]

/-- A module version has a place below the root if the parts of its group, its artifact and its
version can be steps. -/
structure Locatable (m : ModuleVersion) : Prop where
  group : ∀ part ∈ groupSteps m.id.group, Path.IsStep part
  artifact : Path.IsStep m.id.artifact
  version : Path.IsStep m.version

variable {root : String} {m m' : ModuleVersion}

/-- The path of a group goes through its parts. -/
theorem groupPath_eq (group : String) : groupPath group = Path.ofSteps (groupSteps group) := by
  have hparts : (groupSteps group).map String.toList = group.toList.splitOn '.' := by
    simp [groupSteps, Text.partsOf, Function.comp_def]
  rw [← String.toList_inj, Path.ofSteps, String.toList_intercalate, hparts, groupPath,
    String.toList_ofList]
  exact (Text.intercalate_splitOn_eq_map '.' '/' group.toList).symm

/-- The name of the file can be a step as well. -/
theorem Locatable.isStep (h : Locatable m) : ∀ step ∈ pomSteps m, Path.IsStep step := by
  have hfile : Path.IsStep (m.id.artifact ++ "-" ++ m.version ++ ".pom") := by
    have hartifact := h.artifact.2
    have hversion := h.version.2
    simp [Text.IsPart, hartifact, hversion]
  intro step hstep
  rcases List.mem_append.1 hstep with hgroup | hrest
  · exact h.group step hgroup
  · simp only [List.mem_cons, List.not_mem_nil, or_false] at hrest
    rcases hrest with rfl | rfl | rfl
    · exact h.artifact
    · exact h.version
    · exact hfile

/-- The path goes through the steps, one after another. -/
theorem pomPath_eq (root : String) (h : Locatable m) :
    pomPath root m = Path.opened root ++ Path.ofSteps (pomSteps m) := by
  have hgroup : groupSteps m.id.group ≠ [] := Text.partsOf_ne_nil '.' _
  have hjoined : pomPath root m =
      [m.id.artifact, m.version, m.id.artifact ++ "-" ++ m.version ++ ".pom"].foldl Path.join
        (Path.join root (groupPath m.id.group)) := rfl
  rw [hjoined, groupPath_eq, Path.join_ofSteps hgroup h.group, Path.foldl_join hgroup h.group]
  · rfl
  · intro step hstep
    exact h.isStep step (List.mem_append_right _ hstep)

/-- The steps are those of one module version only: the last three tell the artifact and the
version, and those before them the group. -/
theorem pomSteps_injective (h : pomSteps m = pomSteps m') : m = m' := by
  -- from the end: how many parts a group has is open, but three steps follow it in any case
  obtain ⟨hgroup, hrest⟩ := List.append_inj' h rfl
  obtain ⟨⟨group, artifact⟩, version⟩ := m
  obtain ⟨⟨group', artifact'⟩, version'⟩ := m'
  obtain rfl : group = group' := Text.partsOf_injective hgroup
  simp only [List.cons.injEq] at hrest
  obtain ⟨rfl, rfl, -⟩ := hrest
  rfl

/-- The path of a POM goes on from the root, whatever that is, through the parts of the group, the
artifact and the version to the file. Two module versions have one path only if they are the
same. -/
theorem pomPath_eq_iff (root : String) (m m' : ModuleVersion) (h : Locatable m)
    (h' : Locatable m') :
    pomPath root m = Path.opened root ++ Path.ofSteps (pomSteps m) ∧
      (∃ rest, pomPath root m = root ++ rest) ∧
      (pomPath root m = pomPath root m' ↔ m = m') := by
  refine ⟨pomPath_eq root h, ?_, ?_⟩
  · obtain ⟨rest, hopened⟩ := Path.exists_opened_eq_append root
    refine ⟨rest ++ Path.ofSteps (pomSteps m), ?_⟩
    rw [pomPath_eq root h, hopened, String.append_assoc]
  · constructor
    · intro hsame
      rw [pomPath_eq root h, pomPath_eq root h', String.append_right_inj] at hsame
      exact pomSteps_injective (Path.ofSteps_injective (by simp [pomSteps]) (by simp [pomSteps])
        h.isStep h'.isStep hsame)
    · rintro rfl
      rfl

/-- Two versions of different libraries whose files have the same name. -/
theorem pomPath_eq_iff_dashed :
    let dashed : ModuleVersion := ⟨⟨"org.example", "lib-1"⟩, "2"⟩
    let plain : ModuleVersion := ⟨⟨"org.example", "lib"⟩, "1-2"⟩
    (Locatable dashed ∧ Locatable plain) ∧
      pomPath "/repo" dashed = "/repo/org/example/lib-1/2/lib-1-2.pom" ∧
      pomPath "/repo" plain = "/repo/org/example/lib/1-2/lib-1-2.pom" ∧
      pomPath "/repo" dashed ≠ pomPath "/repo" plain := by
  intro dashed plain
  have hdashed : Locatable dashed := ⟨by decide, by decide, by decide⟩
  have hplain : Locatable plain := ⟨by decide, by decide, by decide⟩
  obtain ⟨hpath, -, hsame⟩ := pomPath_eq_iff "/repo" dashed plain hdashed hplain
  obtain ⟨hpath', -, -⟩ := pomPath_eq_iff "/repo" plain dashed hplain hdashed
  refine ⟨⟨hdashed, hplain⟩, hpath.trans (by decide), hpath'.trans (by decide), ?_⟩
  intro h
  exact absurd (hsame.1 h) (by decide)

end Repository

end ManagedGraph
