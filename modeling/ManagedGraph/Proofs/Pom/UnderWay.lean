import ManagedGraph.Proofs.Pom.Accepted

/-!
# What is under way

The gatherer keeps the declaration, the exclusion and the parent reference that it is within. Each
of them is there only while the element that began it is open (`Sound`), whatever else is open and
however deeply. So nothing is left of them after a whole element (`neutral_of_read`).
-/

namespace ManagedGraph.Pom.Gathering

open Xml

variable {g g' : Gathering} {name : String} {path rest : List String}

/-! ## The ends of elements -/

/-- What the end of an element may do: it is that of a property, or goes to the innermost part
under way, or states something of the document, or nothing. -/
inductive Records (g : Gathering) (name : String) (outer : List String) : Gathering → Prop where
  | property {root : String} (houter : outer = ["properties", root]) :
      Records g name outer
        { g with
          document := { g.document with properties := g.document.properties.insert name g.text } }
  | exclusion {e : DeclaredExclusion} (he : g.exclusion = some e) :
      Records g name outer (g.closeInExclusion name e)
  | declaration {d : Declaration} (he : g.exclusion = none) (hd : g.declaration = some d) :
      Records g name outer (g.closeInDeclaration name d)
  | parent {p : ParentReference} (he : g.exclusion = none) (hd : g.declaration = none)
      (hp : g.parent = some p) : Records g name outer (g.closeInParent p)
  | own (he : g.exclusion = none) (hd : g.declaration = none) (hp : g.parent = none)
      (houter : outer.length = 1) :
      Records g name outer { g with document := setOwn g.document name g.text }
  | nothing (he : g.exclusion = none) (hd : g.declaration = none) (hp : g.parent = none)
      (houter : outer.length ≠ 1) : Records g name outer g

theorem records_record (hpath : g.path = name :: rest) : Records g name rest g.record := by
  obtain ⟨path, text, declaration, exclusion, parent, document⟩ := g
  subst hpath
  unfold record
  dsimp only
  split
  · rename_i hproperty
    obtain ⟨rfl, houter⟩ := List.cons.inj hproperty
    exact Records.property houter
  · rename_i hnil
    exact absurd hnil (by simp)
  · rename_i hcons
    obtain ⟨rfl, rfl⟩ := List.cons.inj hcons
    split
    · exact .exclusion rfl
    split
    · exact .declaration rfl rfl
    split
    · exact .parent rfl rfl rfl
    split
    · rename_i houter
      exact .own rfl rfl rfl houter
    · rename_i houter
      exact .nothing rfl rfl rfl houter

/-! ## Paths -/

theorem isDeclaration_iff :
    isDeclaration path = true ↔ path = dependencyPath ∨ path = managedPath := by
  simp [isDeclaration]

/-- A path in a declaration, or to one. -/
def Declares (path : List String) : Prop :=
  ∃ place, isDeclaration place = true ∧ place <:+ path

theorem Declares.three_le_length (h : Declares path) : 3 ≤ path.length := by
  obtain ⟨place, hplace, hsuffix⟩ := h
  have hle := hsuffix.length_le
  rcases isDeclaration_iff.1 hplace with rfl | rfl
  · exact hle
  · exact Nat.le_trans (by decide) hle

/-- Leaving an element that is not a declaration does not leave a declaration. -/
theorem Declares.of_cons (h : Declares (name :: rest))
    (hnot : isDeclaration (name :: rest) = false) : Declares rest := by
  obtain ⟨place, hplace, hsuffix⟩ := h
  rcases List.suffix_cons_iff.1 hsuffix with rfl | hsuffix
  · rw [hplace] at hnot
    exact absurd hnot (by simp)
  · exact ⟨place, hplace, hsuffix⟩

theorem intercalate_append_singleton {sep last : List Char} {parts : List (List Char)}
    (h : parts ≠ []) :
    sep.intercalate (parts ++ [last]) = sep.intercalate parts ++ sep ++ last := by
  induction parts with
  | nil => exact absurd rfl h
  | cons part parts ih =>
      cases parts with
      | nil => simp [List.intercalate]
      | cons other parts =>
          have hrest := ih (by simp)
          simp only [List.intercalate, List.cons_append, List.intersperse_cons_cons,
            List.flatten_cons] at hrest ⊢
          rw [hrest]
          simp

theorem pathText_cons (h : path ≠ []) :
    pathText (name :: path) = pathText path ++ '>' :: name.toList := by
  unfold pathText
  rw [List.reverse_cons, List.map_append, List.map_singleton,
    intercalate_append_singleton (by simpa using h)]
  simp

/-- A text is cut in one way behind its last `>`. -/
theorem eq_of_append_eq {s t last last' : List Char} (hlast : '>' ∉ last) (hlast' : '>' ∉ last')
    (h : s ++ '>' :: last = t ++ '>' :: last') : last = last' := by
  rcases List.append_eq_append_iff.1 h with ⟨m, -, hm⟩ | ⟨m, -, hm⟩
  · cases m with
    | nil => exact (List.cons.inj hm).2
    | cons c m =>
        obtain ⟨-, rfl⟩ := List.cons.inj hm
        exact absurd (by simp) hlast
  · cases m with
    | nil => exact (List.cons.inj hm).2.symm
    | cons c m =>
        obtain ⟨-, rfl⟩ := List.cons.inj hm
        exact absurd (by simp) hlast'

/-- The innermost step of a path ends its text. -/
theorem eq_of_endsIn (front : List Char) {last : List Char} (hname : '>' ∉ name.toList)
    (hlast : '>' ∉ last)
    (h : endsIn (name :: path) (front ++ '>' :: last) = true) : name.toList = last := by
  obtain ⟨before, hbefore⟩ := List.isSuffixOf_iff_suffix.1 h
  by_cases hpath : path = []
  · subst hpath
    -- a path of one step has no `>`
    have hstep : pathText [name] = name.toList := by simp [pathText, List.intercalate]
    rw [hstep] at hbefore
    exact absurd (hbefore ▸ by simp) hname
  · rw [pathText_cons hpath, ← List.append_assoc] at hbefore
    exact (eq_of_append_eq hlast hname hbefore).symm

/-! ## What each step keeps -/

/-- Declaration, exclusion and parent reference are under way only within their elements. -/
structure Sound (g : Gathering) : Prop where
  declaration : g.declaration ≠ none → Declares g.path
  exclusion : g.exclusion ≠ none → ∃ inner outer, g.path = inner ++ outer ∧ Declares outer ∧
    "exclusion" ∈ inner
  parent : g.parent ≠ none → parentPath <:+ g.path

theorem Sound.opening (h : Sound g) (hname : '>' ∉ name.toList) : Sound (g.opening name) := by
  have hdeclares : Declares g.path → Declares (name :: g.path) := by
    rintro ⟨place, hplace, hsuffix⟩
    exact ⟨place, hplace, hsuffix.trans (List.suffix_cons name g.path)⟩
  have hexclusion : g.exclusion ≠ none → ∃ inner outer, name :: g.path = inner ++ outer ∧
      Declares outer ∧ "exclusion" ∈ inner := by
    intro hsome
    obtain ⟨inner, outer, hpath, houter, hmem⟩ := h.exclusion hsome
    exact ⟨name :: inner, outer, by rw [hpath]; rfl, houter, List.mem_cons_of_mem _ hmem⟩
  have hparent : g.parent ≠ none → parentPath <:+ name :: g.path :=
    fun hsome => (h.parent hsome).trans (List.suffix_cons name g.path)
  unfold Gathering.opening
  dsimp only
  split
  · -- a declaration begins
    rename_i hplace
    exact ⟨fun _ => ⟨_, hplace, List.suffix_rfl⟩, hexclusion, hparent⟩
  split
  · -- an exclusion begins, and the name is its own whatever else the path holds
    rename_i hends
    obtain ⟨hends, hsome⟩ := Bool.and_eq_true_iff.1 hends
    have hdeclaration := h.declaration (Option.isSome_iff_ne_none.1 hsome)
    have hlast : name.toList = "exclusion".toList :=
      eq_of_endsIn ">exclusions".toList hname (by decide) hends
    refine ⟨fun hsome => hdeclares (h.declaration hsome), fun _ => ?_, hparent⟩
    exact ⟨[name], g.path, rfl, hdeclaration, by simp [String.toList_inj.1 hlast]⟩
  split
  · rename_i hplace
    refine ⟨fun hsome => hdeclares (h.declaration hsome), hexclusion, fun _ => ?_⟩
    exact hplace ▸ List.suffix_rfl
  · exact ⟨fun hsome => hdeclares (h.declaration hsome), hexclusion, hparent⟩

/-- The end of a declaration leaves none. -/
theorem declaration_closeInDeclaration {d : Declaration}
    (h : (g.closeInDeclaration name d).declaration ≠ none) : isDeclaration g.path = false := by
  unfold closeInDeclaration at h
  dsimp only at h
  split at h
  · exact absurd rfl h
  · rename_i hmanaged
    split at h
    · exact absurd rfl h
    · rename_i hdependency
      simp [isDeclaration, hmanaged, hdependency]

theorem closeInExclusion_ne_none {e : DeclaredExclusion}
    (h : (g.closeInExclusion name e).exclusion ≠ none) : name ≠ "exclusion" := by
  rintro rfl
  exact h rfl

theorem declaration_closeInExclusion {e : DeclaredExclusion}
    (h : (g.closeInExclusion name e).declaration ≠ none) : g.declaration ≠ none := by
  intro hnone
  unfold closeInExclusion at h
  split at h <;> simp [hnone] at h

theorem parent_closeInParent {p : ParentReference}
    (h : (g.closeInParent p).parent ≠ none) : g.path ≠ parentPath := by
  intro hpath
  unfold closeInParent at h
  simp [hpath, parentPath] at h

/-- An element within an exclusion is no declaration. -/
theorem Sound.of_exclusion (h : Sound g) (hsome : g.exclusion ≠ none) :
    isDeclaration g.path = false ∧ 4 ≤ g.path.length := by
  obtain ⟨inner, outer, hpath, houter, hmem⟩ := h.exclusion hsome
  constructor
  · apply Bool.eq_false_iff.2
    intro hplace
    have hwithin : "exclusion" ∈ g.path := by
      rw [hpath]
      exact List.mem_append_left _ hmem
    rcases isDeclaration_iff.1 hplace with hplace | hplace <;>
    · rw [hplace] at hwithin
      exact absurd hwithin (by decide)
  · have hlength := houter.three_le_length
    have hinner := List.length_pos_of_mem hmem
    rw [hpath, List.length_append]
    omega

theorem Sound.declaration_of_record (h : Sound g) (hpath : g.path = name :: rest)
    (hsome : g.record.declaration ≠ none) :
    g.declaration ≠ none ∧ isDeclaration g.path = false := by
  have hrecord := records_record hpath
  generalize g.record = after at hrecord hsome
  cases hrecord with
  | property houter =>
      refine ⟨hsome, ?_⟩
      rw [hpath, houter]
      simp [isDeclaration, dependencyPath, managedPath]
  | exclusion he =>
      exact ⟨declaration_closeInExclusion hsome, (h.of_exclusion (by simp [he])).1⟩
  | declaration he hd => exact ⟨by simp [hd], declaration_closeInDeclaration hsome⟩
  | parent he hd hp =>
      unfold closeInParent at hsome
      split_ifs at hsome <;> exact absurd hd hsome
  | own he hd => exact absurd hd hsome
  | nothing he hd => exact absurd hd hsome

theorem Sound.exclusion_of_record (h : Sound g) (hpath : g.path = name :: rest)
    (hsome : g.record.exclusion ≠ none) : g.exclusion ≠ none ∧ name ≠ "exclusion" := by
  have hrecord := records_record hpath
  generalize g.record = after at hrecord hsome
  cases hrecord with
  | property houter =>
      have hlength := (h.of_exclusion hsome).2
      rw [hpath, houter] at hlength
      exact absurd hlength (by simp)
  | exclusion he => exact ⟨by simp [he], closeInExclusion_ne_none hsome⟩
  | declaration he hd =>
      unfold closeInDeclaration at hsome
      dsimp only at hsome
      split_ifs at hsome <;> exact absurd he hsome
  | parent he hd hp =>
      unfold closeInParent at hsome
      split_ifs at hsome <;> exact absurd he hsome
  | own he => exact absurd he hsome
  | nothing he => exact absurd he hsome

theorem Sound.parent_of_record (h : Sound g) (hpath : g.path = name :: rest)
    (hsome : g.record.parent ≠ none) : g.parent ≠ none ∧ g.path ≠ parentPath := by
  have hrecord := records_record hpath
  generalize g.record = after at hrecord hsome
  cases hrecord with
  | property houter =>
      refine ⟨hsome, ?_⟩
      rw [hpath, houter]
      simp [parentPath]
  | exclusion he =>
      have hlength := (h.of_exclusion (by simp [he])).2
      refine ⟨?_, ?_⟩
      · unfold closeInExclusion at hsome
        split at hsome <;> exact hsome
      · intro hplace
        rw [hplace] at hlength
        exact absurd hlength (by decide)
  | declaration he hd =>
      have hlength := (h.declaration (by simp [hd])).three_le_length
      refine ⟨?_, ?_⟩
      · unfold closeInDeclaration at hsome
        dsimp only at hsome
        split_ifs at hsome <;> exact hsome
      · intro hplace
        rw [hplace] at hlength
        exact absurd hlength (by decide)
  | parent he hd hp => exact ⟨by simp [hp], parent_closeInParent hsome⟩
  | own he hd hp => exact absurd hp hsome
  | nothing he hd hp => exact absurd hp hsome

theorem Sound.closing (h : Sound g) (hpath : g.path = name :: rest) : Sound g.closing where
  declaration := by
    intro hsome
    obtain ⟨hsome, hplace⟩ := h.declaration_of_record hpath hsome
    have hdeclares := h.declaration hsome
    rw [hpath] at hdeclares hplace
    rw [path_closing, hpath]
    exact hdeclares.of_cons hplace
  exclusion := by
    -- the exclusion goes on, so it is not its element that ends
    intro hsome
    obtain ⟨hsome, hname⟩ := h.exclusion_of_record hpath hsome
    obtain ⟨inner, outer, hparts, houter, hmem⟩ := h.exclusion hsome
    rw [hpath] at hparts
    cases inner with
    | nil => exact absurd hmem (by simp)
    | cons step inner =>
        obtain ⟨rfl, hrest⟩ := List.cons.inj hparts
        have hinner : "exclusion" ∈ inner :=
          (List.mem_cons.1 hmem).resolve_left fun heq => hname heq.symm
        refine ⟨inner, outer, ?_, houter, hinner⟩
        rw [path_closing, hpath]
        exact hrest
  parent := by
    intro hsome
    obtain ⟨hsome, hplace⟩ := h.parent_of_record hpath hsome
    have hsuffix := h.parent hsome
    rw [hpath] at hsuffix hplace
    rw [path_closing, hpath]
    exact (List.suffix_cons_iff.1 hsuffix).resolve_left fun heq => hplace heq.symm

/-- Nothing is left under way after whole elements in the root element. -/
theorem neutral_of_read {root : String} {its : List Item} (hbalanced : Balanced its)
    (hnamed : ∀ name, .opening name ∈ its → '>' ∉ name.toList) (hpath : g.path = [root])
    (hg : Sound g) (h : g.read its = .ok g') :
    g'.path = [root] ∧ g'.declaration = none ∧ g'.exclusion = none ∧ g'.parent = none := by
  have houter : g.path = [] ++ [root] := hpath
  obtain ⟨hsound, hpath'⟩ := read_induction (P := Sound)
    (fun _ _ hg => ⟨hg.declaration, hg.exclusion, hg.parent⟩)
    (fun _ name hname hg => hg.opening (hnamed name hname))
    (fun _ _ _ hpath hg => hg.closing hpath) (openAfter_of_balanced hbalanced) houter hg h
  rw [List.nil_append] at hpath'
  refine ⟨hpath', ?_, ?_, ?_⟩
  · by_contra hsome
    have hlength := (hsound.declaration hsome).three_le_length
    rw [hpath'] at hlength
    exact absurd hlength (by simp)
  · by_contra hsome
    have hlength := (hsound.of_exclusion hsome).2
    rw [hpath'] at hlength
    exact absurd hlength (by simp)
  · by_contra hsome
    have hlength := (hsound.parent hsome).length_le
    rw [hpath'] at hlength
    exact absurd hlength (by simp [parentPath])

end ManagedGraph.Pom.Gathering
