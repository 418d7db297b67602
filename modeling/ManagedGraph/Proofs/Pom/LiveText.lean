import ManagedGraph.Proofs.Pom.UnderWay

/-!
# Where a text counts

The gatherer keeps the last text since the last tag, and only the end of an element can take it.
Where the innermost element takes no text (`takesText`), what was kept makes no difference
(`gives_congr`), and an element that is neither a part nor a field (`notices`) leaves nothing but
an empty text (`closing_opening`).
-/

namespace ManagedGraph.Pom.Gathering

open Xml

/-! ## The fields of parts -/

def exclusionFields : List String := ["groupId", "artifactId"]

def declarationFields : List String :=
  ["groupId", "artifactId", "version", "scope", "optional", "classifier", "type"]

def parentFields : List String := ["groupId", "artifactId", "version"]

def ownFields : List String := ["groupId", "artifactId", "version", "packaging"]

def isProperty (path : List String) : Bool :=
  path.length == 3 && path.tail.head? == some "properties"

/-- Whether an element is a field of the innermost part under way. -/
def isField (g : Gathering) (name : String) : Bool :=
  if g.exclusion.isSome then exclusionFields.contains name
  else if g.declaration.isSome then
    endsIn g.path (">dependency>".toList ++ name.toList) && declarationFields.contains name
  else if g.parent.isSome then g.path.tail == parentPath && parentFields.contains name
  else g.path.tail.length == 1 && ownFields.contains name

/-- Whether the end of the innermost element takes the text before it. -/
def takesText (g : Gathering) : Bool :=
  isProperty g.path || g.path.head?.any g.isField

/-- Whether an element without content would make a difference: it begins or ends a part, or it is
a field. -/
def notices (g : Gathering) (name : String) : Bool :=
  let path := name :: g.path
  isDeclaration path ||
    (endsIn path ">exclusions>exclusion".toList && g.declaration.isSome) ||
    path == parentPath ||
    (g.exclusion.isSome && name == "exclusion") ||
    takesText { g with path := path }

variable {g g' : Gathering} {name text : String} {d : Document} {its more later : List Item}

section Fields

variable {e : DeclaredExclusion} {decl : Declaration} {p : ParentReference}

theorem isField_of_exclusion (he : g.exclusion = some e) :
    g.isField name = exclusionFields.contains name := by
  simp [isField, he]

theorem isField_of_declaration (he : g.exclusion = none) (hd : g.declaration = some decl) :
    g.isField name = (endsIn g.path (">dependency>".toList ++ name.toList) &&
      declarationFields.contains name) := by
  rw [isField, he, hd, if_neg (by simp), if_pos (by simp)]

theorem isField_of_parent (he : g.exclusion = none) (hd : g.declaration = none)
    (hp : g.parent = some p) :
    g.isField name = (g.path.tail == parentPath && parentFields.contains name) := by
  simp [isField, he, hd, hp]

theorem isField_of_none (he : g.exclusion = none) (hd : g.declaration = none)
    (hp : g.parent = none) :
    g.isField name = (g.path.tail.length == 1 && ownFields.contains name) := by
  simp [isField, he, hd, hp]

end Fields

theorem closeInExclusion_of_notMem {e : DeclaredExclusion} (hfield : name ∉ exclusionFields)
    (hend : name ≠ "exclusion") : g.closeInExclusion name e = g := by
  unfold closeInExclusion
  split
  · exact absurd (by decide) hfield
  · exact absurd (by decide) hfield
  · exact absurd rfl hend
  · rfl

theorem setField_of_notMem {decl : Declaration} (hfield : name ∉ declarationFields) :
    setField decl name text = decl := by
  unfold setField
  split <;> first | rfl | exact absurd (by decide) hfield

theorem setOwn_of_notMem (hfield : name ∉ ownFields) : setOwn d name text = d := by
  unfold setOwn
  split <;> first | rfl | exact absurd (by decide) hfield

theorem closeInExclusion_text {e : DeclaredExclusion} (hfield : name ∉ exclusionFields) :
    ({ g with text := text } : Gathering).closeInExclusion name e =
      { g.closeInExclusion name e with text := text } := by
  unfold closeInExclusion
  split
  · exact absurd (by decide) hfield
  · exact absurd (by decide) hfield
  · rfl
  · rfl

theorem closeInDeclaration_text {decl : Declaration}
    (hfield : endsIn g.path (">dependency>".toList ++ name.toList) = true →
      name ∉ declarationFields) :
    ({ g with text := text } : Gathering).closeInDeclaration name decl =
      { g.closeInDeclaration name decl with text := text } := by
  unfold closeInDeclaration
  dsimp only
  by_cases hends : endsIn g.path (">dependency>".toList ++ name.toList) = true
  · rw [if_pos hends, setField_of_notMem (hfield hends), if_pos hends,
      setField_of_notMem (hfield hends)]
    split_ifs <;> rfl
  · rw [if_neg hends, if_neg hends]
    split_ifs <;> rfl

theorem closeInParent_text {p : ParentReference}
    (hfield : ∀ field ∈ parentFields, g.path ≠ field :: parentPath) :
    ({ g with text := text } : Gathering).closeInParent p =
      { g.closeInParent p with text := text } := by
  have hgroup := hfield "groupId" (by decide)
  have hartifact := hfield "artifactId" (by decide)
  have hversion := hfield "version" (by decide)
  unfold closeInParent
  dsimp only
  rw [if_neg hgroup, if_neg hgroup, if_neg hartifact, if_neg hartifact, if_neg hversion,
    if_neg hversion]
  split <;> rfl

/-- The end of an element that takes no text does not depend on the text. -/
theorem record_text (h : g.takesText = false) (text : String) :
    ({ g with text := text } : Gathering).record = { g.record with text := text } := by
  obtain ⟨path, own, declaration, exclusion, parent, document⟩ := g
  obtain ⟨hproperty, hfield⟩ := Bool.or_eq_false_iff.1 h
  unfold record
  dsimp only
  split
  · exact absurd hproperty (by simp [isProperty])
  · rfl
  rename_i name outer _
  -- which field counts depends on what is under way
  replace hfield : isField _ name = false := hfield
  split
  · rw [isField_of_exclusion rfl] at hfield
    exact closeInExclusion_text (g := ⟨name :: outer, own, _, _, _, _⟩) (by simpa using hfield)
  split
  · rw [isField_of_declaration rfl rfl] at hfield
    refine closeInDeclaration_text (g := ⟨name :: outer, own, _, _, _, _⟩) ?_
    intro hends
    rw [hends, Bool.true_and] at hfield
    simpa using hfield
  split
  · rw [isField_of_parent rfl rfl rfl] at hfield
    refine closeInParent_text (g := ⟨name :: outer, own, _, _, _, _⟩) ?_
    rintro field hmem hpath
    obtain ⟨rfl, rfl⟩ := List.cons.inj hpath
    simp [hmem] at hfield
  split
  · rename_i hlength
    rw [isField_of_none rfl rfl rfl] at hfield
    have hown : name ∉ ownFields := by simpa [hlength] using hfield
    rw [setOwn_of_notMem hown, setOwn_of_notMem hown]
  · rfl

theorem closing_text (h : g.takesText = false) (text : String) :
    ({ g with text := text } : Gathering).closing = g.closing := by
  unfold closing
  rw [record_text h]

/-! ## Elements without content -/

theorem closeInDeclaration_eq_self {decl : Declaration}
    (hfield : endsIn g.path (">dependency>".toList ++ name.toList) = true →
      name ∉ declarationFields)
    (hplace : isDeclaration g.path = false) (hd : g.declaration = some decl) :
    g.closeInDeclaration name decl = g := by
  have hset : (if endsIn g.path (">dependency>".toList ++ name.toList) = true then
      setField decl name g.text else decl) = decl := by
    split
    · rename_i hends
      exact setField_of_notMem (hfield hends)
    · rfl
  obtain ⟨hdependency, hmanaged⟩ : g.path ≠ dependencyPath ∧ g.path ≠ managedPath := by
    simpa [isDeclaration] using hplace
  unfold closeInDeclaration
  dsimp only
  rw [hset, if_neg hmanaged, if_neg hdependency, ← hd]

theorem closeInParent_eq_self {p : ParentReference}
    (hfield : ∀ field ∈ parentFields, g.path ≠ field :: parentPath)
    (hparent : g.path ≠ parentPath) : g.closeInParent p = g := by
  unfold closeInParent
  rw [if_neg (hfield "groupId" (by decide)), if_neg (hfield "artifactId" (by decide)),
    if_neg (hfield "version" (by decide)), if_neg hparent]

/-- The end of an element that is neither a part nor a field makes no difference. -/
theorem record_eq_self {outer : List String} (hpath : g.path = name :: outer)
    (htakes : g.takesText = false) (hdeclaration : isDeclaration g.path = false)
    (hparent : g.path ≠ parentPath) (hend : g.exclusion.isSome = true → name ≠ "exclusion") :
    g.record = g := by
  obtain ⟨hproperty, hfield⟩ := Bool.or_eq_false_iff.1 htakes
  rw [hpath] at hproperty hfield
  replace hfield : g.isField name = false := hfield
  have hrecord := records_record hpath
  generalize g.record = after at hrecord
  cases hrecord with
  | property houter =>
      rw [houter] at hproperty
      exact absurd hproperty (by simp [isProperty])
  | exclusion he =>
      rw [isField_of_exclusion he] at hfield
      exact closeInExclusion_of_notMem (by simpa using hfield) (hend (by simp [he]))
  | declaration he hd =>
      rw [isField_of_declaration he hd] at hfield
      refine closeInDeclaration_eq_self ?_ hdeclaration hd
      intro hends
      rw [hends, Bool.true_and] at hfield
      simpa using hfield
  | parent he hd hp =>
      rw [isField_of_parent he hd hp, hpath] at hfield
      refine closeInParent_eq_self ?_ hparent
      rintro field hmem hplace
      rw [hpath] at hplace
      obtain ⟨rfl, rfl⟩ := List.cons.inj hplace
      simp [hmem] at hfield
  | own he hd hp houter =>
      rw [isField_of_none he hd hp, hpath] at hfield
      have hown : name ∉ ownFields := by simpa [houter] using hfield
      rw [setOwn_of_notMem hown]
  | nothing => rfl

/-- An element that is neither a part nor a field leaves nothing but an empty text. -/
theorem closing_opening (h : g.notices name = false) :
    (g.opening name).closing = { g with text := "" } := by
  obtain ⟨path, own, declaration, exclusion, parent, document⟩ := g
  simp only [notices, Bool.or_eq_false_iff] at h
  obtain ⟨⟨⟨⟨hdeclaration, hexclusion⟩, hparent⟩, hend⟩, hfield⟩ := h
  have hplace : name :: path ≠ parentPath := by simpa using hparent
  have hopening : opening ⟨path, own, declaration, exclusion, parent, document⟩ name =
      ⟨name :: path, "", declaration, exclusion, parent, document⟩ := by
    unfold opening
    dsimp only
    rw [if_neg (Bool.eq_false_iff.1 hdeclaration), if_neg (Bool.eq_false_iff.1 hexclusion),
      if_neg hplace]
  have hrecord := record_eq_self (g := ⟨name :: path, "", declaration, exclusion, parent, document⟩)
    rfl hfield hdeclaration hplace (by
      intro hsome
      simpa [hsome] using hend)
  rw [hopening, closing, hrecord]
  rfl

/-! ## What is read after a text -/

/-- Whether some items lead to a document. -/
def Gives (g : Gathering) (its : List Item) (d : Document) : Prop :=
  ∃ g', g.read its = .ok g' ∧ g'.document = d

/-- A text or section replaces the text before it. -/
theorem gives_of_isCharacterData (h : its.head?.any Item.isCharacterData = true) :
    Gives { g with text := text } its d ↔ Gives g its d := by
  cases its with
  | nil => exact absurd h (by simp)
  | cons item rest =>
      cases item with
      | text raw =>
          unfold Gives
          cases hdecode : decode raw with
          | ok value => rw [read_text hdecode, read_text hdecode]
          | error fault => rw [read_text_error hdecode, read_text_error hdecode]
      | cdata => exact Iff.rfl
      | opening | closing | ignored => exact absurd h (by simp [Item.isCharacterData])

/-- The text that data leaves, if all texts can be decoded and there are no tags. -/
def textAfter (text : String) : List Item → Option String
  | [] => some text
  | .text raw :: rest =>
      match decode raw with
      | .ok value => textAfter value rest
      | .error _ => none
  | .cdata content :: rest => textAfter content rest
  | .ignored :: rest => textAfter text rest
  | .opening _ :: _ => none
  | .closing _ :: _ => none

theorem read_of_textAfter (h : textAfter g.text its = some text) :
    g.read its = .ok { g with text := text } := by
  induction its generalizing g with
  | nil =>
      obtain rfl := Option.some.inj h
      rfl
  | cons item rest ih =>
      cases item with
      | text raw =>
          cases hdecode : decode raw with
          | ok value =>
              rw [read_text hdecode]
              exact ih (g := { g with text := value }) (by simpa [textAfter, hdecode] using h)
          | error fault => exact absurd h (by simp [textAfter, hdecode])
      | cdata content => exact ih (g := { g with text := content }) h
      | ignored => exact ih h
      | opening | closing => exact absurd h (by simp [textAfter])

/-- A text that is not taken does not matter to what follows. -/
theorem gives_congr (h : g.takesText = false) (text : String) :
    Gives { g with text := text } its d ↔ Gives g its d := by
  induction its generalizing text with
  | nil =>
      constructor
      · rintro ⟨g', hg, rfl⟩
        obtain rfl := Except.ok.inj hg
        exact ⟨g, rfl, rfl⟩
      · rintro ⟨g', hg, rfl⟩
        obtain rfl := Except.ok.inj hg
        exact ⟨_, rfl, rfl⟩
  | cons item rest ih =>
      cases item with
      | text | cdata => exact gives_of_isCharacterData rfl
      | ignored => exact ih text
      | opening =>
          -- the text is dropped
          exact Iff.rfl
      | closing =>
          -- the text ends here, and is not taken
          have hclosing (g : Gathering) (name : String) :
              g.read (.closing name :: rest) = g.closing.read rest := rfl
          unfold Gives
          rw [hclosing, hclosing, closing_text h]

theorem gives_append : Gives g (its ++ more) d ↔ ∃ g', g.read its = .ok g' ∧ Gives g' more d := by
  constructor
  · rintro ⟨last, hread, hd⟩
    obtain ⟨g', hits, hmore⟩ := exists_of_read_append hread
    exact ⟨g', hits, last, hmore, hd⟩
  · rintro ⟨g', hits, last, hmore, hd⟩
    exact ⟨last, (read_append_of_ok hits).trans hmore, hd⟩

theorem exists_textAfter (hdata : IsData its) (hdecodes : Decodes its) (text : String) :
    ∃ value, textAfter text its = some value := by
  induction its generalizing text with
  | nil => exact ⟨text, rfl⟩
  | cons item rest ih =>
      obtain ⟨hitem, hrest⟩ := List.forall_mem_cons.1 hdata
      obtain ⟨hfirst, hlater⟩ := decodes_cons.1 hdecodes
      cases item with
      | text raw =>
          obtain ⟨value, hvalue⟩ := hfirst raw rfl
          simpa [textAfter, hvalue] using ih hrest hlater value
      | cdata content => exact ih hrest hlater content
      | ignored => exact ih hrest hlater text
      | opening | closing =>
          exact absurd hitem (by simp [Item.isTag, Item.isOpening, Item.isClosing])

/-- Data that leaves a text leads on from that text. -/
theorem gives_append_of_textAfter {text : String} (h : textAfter g.text its = some text) :
    Gives g (its ++ more) d ↔ Gives { g with text := text } more d := by
  rw [gives_append, read_of_textAfter h]
  constructor
  · rintro ⟨g', hg, hmore⟩
    obtain rfl := Except.ok.inj hg
    exact hmore
  · intro hmore
    exact ⟨_, rfl, hmore⟩

theorem textAfter_of_silent (hdata : IsData its)
    (hsilent : ∀ item ∈ its, item.isCharacterData = false) (text : String) :
    textAfter text its = some text := by
  induction its with
  | nil => rfl
  | cons item rest ih =>
      obtain ⟨hitem, hrest⟩ := List.forall_mem_cons.1 hdata
      obtain ⟨hfirst, hlater⟩ := List.forall_mem_cons.1 hsilent
      cases item with
      | ignored => exact ih hrest hlater
      | text | cdata => exact absurd hfirst (by simp [Item.isCharacterData])
      | opening | closing =>
          exact absurd hitem (by simp [Item.isTag, Item.isOpening, Item.isClosing])

/-- Where no text is taken, it does not matter which data stands there, as long as it can be
decoded. -/
theorem gives_of_not_takesText (htakes : g.takesText = false) (hits : IsData its)
    (hmore : IsData more) (hdecodes : Decodes its ↔ Decodes more) :
    Gives g (its ++ later) d ↔ Gives g (more ++ later) d := by
  by_cases h : Decodes its
  · obtain ⟨text, htext⟩ := exists_textAfter hits h g.text
    obtain ⟨text', htext'⟩ := exists_textAfter hmore (hdecodes.1 h) g.text
    rw [gives_append_of_textAfter htext, gives_append_of_textAfter htext',
      gives_congr htakes text, gives_congr htakes text']
  · have hnone (its : List Item) (h : ¬ Decodes its) : ¬ Gives g (its ++ later) d := by
      rw [gives_append]
      rintro ⟨g', hread, -⟩
      exact h (exists_read_iff.1 ⟨g', hread⟩)
    exact iff_of_false (hnone its h) (hnone more fun hdecode => h (hdecodes.2 hdecode))

end ManagedGraph.Pom.Gathering
