import ManagedGraph.Proofs.Pom.LiveText
import ManagedGraph.Proofs.Xml.WellFormed

/-!
# Sections of a project

The elements in the root element of a POM are read independently of each other: what one of them
adds does not depend on those before it (`read_following`), and nothing of it is left under way.
So a document is made up of the documents of its sections, and sections with other names than those
of a POM's own fields and lists add nothing (`parse_sections`).
-/

namespace ManagedGraph.Pom

open Xml Gathering

/-! ## Documents one after the other -/

namespace Document

/-- A document followed by what a later part of its text states. -/
def followedBy (d later : Document) : Document where
  group := later.group.or d.group
  artifact := later.artifact.or d.artifact
  version := later.version.or d.version
  packaging := later.packaging.or d.packaging
  parent := later.parent.or d.parent
  properties := d.properties ∪ later.properties
  dependencies := d.dependencies ++ later.dependencies
  management := d.management ++ later.management

/-- A document whose lists are those of its parts, one after the other. A field, and a property of
each name, is the last one that a part states. -/
structure Collects (parts : List Document) (whole : Document) : Prop where
  group : whole.group = parts.reverse.findSome? Document.group
  artifact : whole.artifact = parts.reverse.findSome? Document.artifact
  version : whole.version = parts.reverse.findSome? Document.version
  packaging : whole.packaging = parts.reverse.findSome? Document.packaging
  parent : whole.parent = parts.reverse.findSome? Document.parent
  properties : whole.properties =
    parts.foldl (fun properties part => properties ∪ part.properties) ∅
  dependencies : whole.dependencies = parts.flatMap Document.dependencies
  management : whole.management = parts.flatMap Document.management

variable {d later part : Document} {parts : List Document}

theorem followedBy_blank (d : Document) : d.followedBy blank = d := by
  have hproperties : d.properties ∪ (∅ : Properties) = d.properties := by
    apply Std.ExtTreeMap.ext_getElem?
    intro name
    simp [Std.ExtTreeMap.getElem?_union]
  simp [followedBy, blank, hproperties]

theorem blank_followedBy (d : Document) : blank.followedBy d = d := by
  have hproperties : (∅ : Properties) ∪ d.properties = d.properties := by
    apply Std.ExtTreeMap.ext_getElem?
    intro name
    simp [Std.ExtTreeMap.getElem?_union]
  simp [followedBy, blank, hproperties]

theorem collects_nil : Collects [] blank :=
  ⟨rfl, rfl, rfl, rfl, rfl, rfl, rfl, rfl⟩

theorem findSome?_reverse_concat {α : Type} (field : Document → Option α) (parts : List Document)
    (part : Document) : (parts ++ [part]).reverse.findSome? field =
      (field part).or (parts.reverse.findSome? field) := by
  rw [List.reverse_append, List.reverse_singleton, List.findSome?_append]
  simp

/-- The last part follows the others. -/
theorem Collects.followedBy {whole : Document} (h : Collects parts whole) (part : Document) :
    Collects (parts ++ [part]) (whole.followedBy part) where
  group := by rw [findSome?_reverse_concat, ← h.group, Document.followedBy]
  artifact := by rw [findSome?_reverse_concat, ← h.artifact, Document.followedBy]
  version := by rw [findSome?_reverse_concat, ← h.version, Document.followedBy]
  packaging := by rw [findSome?_reverse_concat, ← h.packaging, Document.followedBy]
  parent := by rw [findSome?_reverse_concat, ← h.parent, Document.followedBy]
  properties := by simp [Document.followedBy, h.properties]
  dependencies := by simp [Document.followedBy, h.dependencies]
  management := by simp [Document.followedBy, h.management]

theorem Collects.foldl {whole : Document} (h : Collects parts whole) (more : List Document) :
    Collects (parts ++ more) (more.foldl Document.followedBy whole) := by
  induction more generalizing parts whole with
  | nil => simpa using h
  | cons part more ih =>
      have hwhole := ih (h.followedBy part)
      rwa [List.append_assoc] at hwhole

end Document

/-! ## What a section adds -/

namespace Gathering

variable {g g' : Gathering} {its : List Item} {name text : String} {d : Document}

/-- A gatherer whose document follows another one. -/
def following (g : Gathering) (d : Document) : Gathering :=
  { g with document := d.followedBy g.document }

theorem opening_following (g : Gathering) (d : Document) (name : String) :
    (g.following d).opening name = (g.opening name).following d := by
  unfold opening
  dsimp only [following]
  split_ifs <;> rfl

theorem setOwn_followedBy (d later : Document) (name text : String) :
    setOwn (d.followedBy later) name text = d.followedBy (setOwn later name text) := by
  unfold setOwn
  split <;> rfl

theorem union_insert (earlier later : Properties) (name text : String) :
    (earlier ∪ later).insert name text = earlier ∪ later.insert name text := by
  apply Std.ExtTreeMap.ext_getElem?
  intro other
  rw [Std.ExtTreeMap.getElem?_insert, Std.ExtTreeMap.getElem?_union,
    Std.ExtTreeMap.getElem?_union, Std.ExtTreeMap.getElem?_insert]
  split <;> rfl

/-- The end of an element adds the same after any document. -/
theorem record_following (g : Gathering) (d : Document) :
    (g.following d).record = g.record.following d := by
  obtain ⟨path, text, declaration, exclusion, parent, document⟩ := g
  unfold record following
  dsimp only
  split
  · simp only [Document.followedBy, union_insert]
  · rfl
  split
  · unfold closeInExclusion
    split <;> rfl
  split
  · unfold closeInDeclaration
    dsimp only
    split_ifs <;> simp [Document.followedBy]
  split
  · unfold closeInParent
    split_ifs <;> rfl
  split
  · simp only [setOwn_followedBy]
  · rfl

theorem step_following {e : Event} (h : g.step e = .ok g') :
    (g.following d).step e = .ok (g'.following d) := by
  cases e with
  | opening name =>
      obtain rfl := Except.ok.inj h
      rw [step, opening_following]
  | closing =>
      obtain rfl := Except.ok.inj h
      rw [step, closing, record_following]
      rfl
  | text raw =>
      cases hdecode : decode raw with
      | ok text =>
          obtain rfl : ({ g with text := text } : Gathering) = g' := by
            simpa [step, hdecode] using h
          simp [step, hdecode, following]
      | error fault => exact absurd h (by simp [step, hdecode])
  | cdata content =>
      obtain rfl := Except.ok.inj h
      rfl

theorem steps_following {events : List Event} (h : g.steps events = .ok g') :
    (g.following d).steps events = .ok (g'.following d) := by
  induction events generalizing g with
  | nil =>
      obtain rfl := Except.ok.inj h
      rfl
  | cons e rest ih =>
      unfold steps at h ⊢
      cases hstep : g.step e with
      | ok after =>
          rw [hstep] at h
          rw [step_following hstep]
          exact ih h
      | error fault =>
          rw [hstep] at h
          exact absurd h (by simp)

/-- Items add the same after any document. -/
theorem read_following (h : g.read its = .ok g') :
    (g.following d).read its = .ok (g'.following d) :=
  steps_following h

end Gathering

/-! ## Sections -/

section Sections

variable {g g' : Gathering} {s : List Char} {its : List Item} {name : String} {d : Document}

/-- The gatherer within the root element, with nothing under way. -/
def withinRoot (d : Document) : Gathering :=
  ⟨["project"], "", none, none, none, d⟩

theorem withinRoot_eq (d : Document) : withinRoot d = (withinRoot Document.blank).following d := by
  simp [withinRoot, following, Document.followedBy_blank]

theorem sound_withinRoot (d : Document) : Sound (withinRoot d) :=
  ⟨absurd rfl, absurd rfl, absurd rfl⟩

/-- The names of the elements that a POM states something in. -/
def sectionNames : List String :=
  ["groupId", "artifactId", "version", "packaging", "parent", "properties", "dependencies",
    "dependencyManagement"]

theorem ownFields_subset : ownFields ⊆ sectionNames := by
  intro field hfield
  revert field
  decide

/-- Where nothing is under way, within a section of another name. -/
structure Foreign (name : String) (d : Document) (g : Gathering) : Prop where
  within : ∃ inner, g.path = inner ++ [name, "project"]
  declaration : g.declaration = none
  exclusion : g.exclusion = none
  parent : g.parent = none
  document : g.document = d

/-- Paths in such a section are none that mean anything. -/
theorem not_place (hforeign : name ∉ sectionNames) {path inner : List String}
    (hpath : path = inner ++ [name, "project"]) :
    isDeclaration path = false ∧ path ≠ parentPath := by
  have hsection (front : List String) {other : String}
      (h : inner ++ [name, "project"] = front ++ [other, "project"]) : name = other :=
    (List.cons.inj (List.append_inj_right' h rfl)).1
  subst hpath
  constructor
  · apply Bool.eq_false_iff.2
    intro hplace
    rcases isDeclaration_iff.1 hplace with hplace | hplace
    · exact hforeign (hsection ["dependency"] hplace ▸ by decide)
    · exact hforeign (hsection ["dependency", "dependencies"] hplace ▸ by decide)
  · intro hplace
    exact hforeign (hsection [] hplace ▸ by decide)

/-- No declaration and no parent reference begins in such a section. -/
theorem foreign_opening (hforeign : name ∉ sectionNames) (inner : List String) {step : String}
    (hpath : step :: g.path = inner ++ [name, "project"]) (hdeclaration : g.declaration = none)
    (hexclusion : g.exclusion = none) (hparent : g.parent = none) :
    Foreign name g.document (g.opening step) := by
  obtain ⟨hplace, hother⟩ := not_place hforeign hpath
  unfold Gathering.opening
  dsimp only
  rw [hplace, hdeclaration, Option.isSome_none, Bool.and_false, if_neg (by simp),
    if_neg (by simp), if_neg hother]
  exact ⟨⟨inner, hpath⟩, rfl, hexclusion, hparent, rfl⟩

/-- The end of an element in such a section states nothing. -/
theorem foreign_record (hforeign : name ∉ sectionNames) (inner : List String) {step : String}
    {outer : List String} (hparts : step :: outer = inner ++ [name, "project"])
    (hpath : g.path = step :: outer) (hdeclaration : g.declaration = none)
    (hexclusion : g.exclusion = none) (hparent : g.parent = none) : g.record = g := by
  have hrecord := records_record hpath
  generalize g.record = after at hrecord
  cases hrecord with
  | @property root houter =>
      -- the path would be one of a property
      rw [houter] at hparts
      have hpair : [step] ++ ["properties", root] = inner ++ [name, "project"] := hparts
      have hsection : ["properties", root] = [name, "project"] :=
        List.append_inj_right' hpair rfl
      exact absurd (by rw [← (List.cons.inj hsection).1]; decide) hforeign
  | exclusion he => exact absurd (hexclusion.symm.trans he) (by simp)
  | declaration he hd => exact absurd (hdeclaration.symm.trans hd) (by simp)
  | parent he hd hp => exact absurd (hparent.symm.trans hp) (by simp)
  | own he hd hp houter =>
      -- the element is the section itself
      have hinner : inner = [] := by
        have hlength := congrArg List.length hparts
        simp only [List.length_cons, List.length_append, houter, List.length_nil] at hlength
        exact List.length_eq_zero_iff.1 (by omega)
      subst hinner
      obtain ⟨rfl, -⟩ := List.cons.inj hparts
      have hown : step ∉ ownFields := fun hmem => hforeign (ownFields_subset hmem)
      rw [setOwn_of_notMem hown]
  | nothing => rfl

theorem Foreign.closing (hforeign : name ∉ sectionNames) (h : Foreign name d g) {step : String}
    {inner : List String} (hpath : g.path = step :: (inner ++ [name, "project"])) :
    Foreign name d g.closing := by
  have hrecord := foreign_record hforeign (step :: inner) rfl hpath h.declaration h.exclusion
    h.parent
  refine ⟨⟨inner, ?_⟩, ?_, ?_, ?_, ?_⟩
  · rw [path_closing, hpath]
    rfl
  · exact (congrArg Gathering.declaration hrecord).trans h.declaration
  · exact (congrArg Gathering.exclusion hrecord).trans h.exclusion
  · exact (congrArg Gathering.parent hrecord).trans h.parent
  · exact (congrArg Gathering.document hrecord).trans h.document

/-- A section of another name adds nothing, whatever stands in it. -/
theorem document_of_foreign (hforeign : name ∉ sectionNames) (hbalanced : Balanced its)
    (h : (withinRoot d).read (.opening name :: (its ++ [.closing name])) = .ok g') :
    g'.document = d := by
  have hread : (withinRoot d).read ((.opening name :: its) ++ [.closing name]) = .ok g' := h
  obtain ⟨last, hcontent, hclose⟩ := exists_of_read_append hread
  have hstart : Foreign name d ((withinRoot d).opening name) :=
    foreign_opening (g := withinRoot d) hforeign [] rfl rfl rfl rfl
  have hpath : ((withinRoot d).opening name).path = [] ++ [name, "project"] := path_opening _ _
  -- the section itself stays open while its content is read
  obtain ⟨hlast, hlastPath⟩ := read_induction (P := Foreign name d)
    (fun _ _ hg => ⟨hg.within, hg.declaration, hg.exclusion, hg.parent, hg.document⟩)
    (fun g step _ hg => by
      obtain ⟨inner, hinner⟩ := hg.within
      exact hg.document ▸ foreign_opening hforeign (step :: inner)
        (by rw [hinner]; rfl) hg.declaration hg.exclusion hg.parent)
    (fun g step inner hpath hg => hg.closing hforeign hpath)
    (openAfter_of_balanced hbalanced) hpath hstart hcontent
  have hrecord := foreign_record hforeign [] rfl hlastPath hlast.declaration
    hlast.exclusion hlast.parent
  obtain rfl : last.closing = g' := Except.ok.inj hclose
  exact (congrArg Gathering.document hrecord).trans hlast.document

/-- What an element adds to a document does not depend on the document. -/
theorem exists_part (h : Element name s) :
    ∃ its part, IsComplete s its ∧ Balanced its ∧
      (∀ d, (withinRoot d).read its = .ok (withinRoot (d.followedBy part))) ∧
      (name ∉ sectionNames → part = Document.blank) := by
  obtain ⟨hname, its, hcomplete, rfl | ⟨content, hcontent, rfl⟩⟩ := h.exists_items
  · -- an empty element is not told
    refine ⟨_, Document.blank, hcomplete, .data rfl .nil, ?_, fun _ => rfl⟩
    intro d
    rw [Document.followedBy_blank]
    rfl
  · -- nothing is under way after it, so what it adds to no document is all that it adds
    have hproper := hcontent.element hname
    have hreads : ∃ g, (withinRoot Document.blank).read
        (.opening name :: (content ++ [.closing name])) = .ok g :=
      exists_read_iff.2 hproper.decodes
    obtain ⟨g, hg⟩ := hreads
    have hnamed (other : String)
        (hother : .opening other ∈ Item.opening name :: (content ++ [.closing name])) :
        '>' ∉ other.toList := by
      intro hmem
      exact absurd (List.all_eq_true.1 (all_of_isName (hproper.named other hother)) _ hmem)
        (by decide)
    obtain ⟨hpath, hdeclaration, hexclusion, hparent⟩ :=
      neutral_of_read hproper.balanced hnamed rfl (sound_withinRoot _) hg
    have htext : g.text = "" := by
      have hread : (withinRoot Document.blank).read
          ((.opening name :: content) ++ [.closing name]) = .ok g := hg
      obtain ⟨last, -, hclose⟩ := exists_of_read_append hread
      obtain rfl : last.closing = g := Except.ok.inj hclose
      rfl
    have hafter : g = withinRoot g.document := by
      obtain ⟨path, text, declaration, exclusion, parent, document⟩ := g
      simp only at hpath htext hdeclaration hexclusion hparent
      simp [withinRoot, hpath, htext, hdeclaration, hexclusion, hparent]
    refine ⟨_, g.document, hcomplete, hproper.balanced, ?_,
      fun hforeign => document_of_foreign hforeign hcontent.balanced hg⟩
    intro d
    rw [withinRoot_eq, read_following hg, hafter]
    rfl

/-! ## Projects -/

/-- The text of a project that holds a text. -/
def projectOf (s : String) : String :=
  "<project>" ++ s ++ "</project>"

theorem parse_projectOf {text : String} (hcomplete : IsComplete text.toList its)
    (hbalanced : Balanced its)
    (hread : (withinRoot Document.blank).read its = .ok (withinRoot d)) :
    Document.parse (projectOf text) = .ok d := by
  have hname : isName "project" = true := by decide
  have hopen := (isMarkup_openTag hname attributes_nil).isComplete
  have hclose := (isMarkup_closeTag hname (List.forall_mem_nil _)).isComplete
  have hitems := ((hopen.append hcomplete).append hclose).items_eq
  have hdocument : document (projectOf text) =
      ⟨[.opening "project"] ++ its ++ [.closing "project"], none⟩ := by
    rw [document_eq, ← hitems, projectOf, String.toList_append, String.toList_append]
    rfl
  have hnested : Balanced (.opening "project" :: (its ++ [.closing "project"])) :=
    .element hbalanced .nil
  rw [Document.parse_eq_ok_iff, hdocument]
  refine ⟨rfl, ⟨[], openAfter_of_balanced hnested⟩, (withinRoot d).closing, ?_, rfl⟩
  have hstart : start.read [.opening "project"] = .ok (withinRoot Document.blank) := rfl
  rw [List.append_assoc, read_append_of_ok hstart, read_append_of_ok hread]
  rfl

theorem parse_of_foreign {text : String} (h : Element name text.toList)
    (hforeign : name ∉ sectionNames) :
    Document.parse (projectOf text) = .ok Document.blank := by
  obtain ⟨its, part, hcomplete, hbalanced, hread, hpart⟩ := exists_part h
  refine parse_projectOf hcomplete hbalanced ?_
  rw [hread, hpart hforeign, Document.followedBy_blank]

theorem exists_parts {sections : List String}
    (h : ∀ text ∈ sections, ∃ name, Element name text.toList) :
    ∃ its parts, IsComplete (sections.flatMap String.toList) its ∧ Balanced its ∧
      (∀ d, (withinRoot d).read its = .ok (withinRoot (parts.foldl Document.followedBy d))) ∧
      List.Forall₂ (fun text part => Document.parse (projectOf text) = .ok part)
        sections parts := by
  induction sections with
  | nil => exact ⟨[], [], isComplete_nil, .nil, fun _ => rfl, .nil⟩
  | cons text sections ih =>
      obtain ⟨⟨name, hfirst⟩, hrest⟩ := List.forall_mem_cons.1 h
      obtain ⟨its, part, hcomplete, hbalanced, hread, -⟩ := exists_part hfirst
      obtain ⟨more, parts, hmore, hmoreBalanced, hmoreRead, hparts⟩ := ih hrest
      refine ⟨its ++ more, part :: parts, hcomplete.append hmore, hbalanced.append hmoreBalanced,
        ?_, .cons ?_ hparts⟩
      · intro d
        rw [read_append_of_ok (hread d), hmoreRead]
        rfl
      · refine parse_projectOf hcomplete hbalanced ?_
        rw [hread, Document.blank_followedBy]

/-- A project of well-formed elements is read as the document that the documents of its elements
make up. An element whose name is none of those that a POM states something in adds nothing. -/
theorem parse_sections (sections : List String)
    (h : ∀ text ∈ sections, ∃ name, Element name text.toList) :
    (∃ parts whole,
      List.Forall₂ (fun text part => Document.parse (projectOf text) = .ok part) sections parts ∧
        Document.parse (projectOf (String.join sections)) = .ok whole ∧ whole.Collects parts) ∧
      ∀ text ∈ sections, ∀ name, Element name text.toList → name ∉ sectionNames →
        Document.parse (projectOf text) = .ok Document.blank := by
  constructor
  · obtain ⟨its, parts, hcomplete, hbalanced, hread, hparts⟩ := exists_parts h
    rw [← String.toList_join] at hcomplete
    have hwhole := parse_projectOf hcomplete hbalanced (hread Document.blank)
    exact ⟨parts, _, hparts, hwhole, Document.collects_nil.foldl parts⟩
  · intro text _ name helement hforeign
    exact parse_of_foreign helement hforeign

namespace Sample

/-- A group, and the same within a section that is none of a POM's own. -/
def sections : List String :=
  ["<groupId>org</groupId>", "<build><groupId>org</groupId></build>"]

theorem isCharacterData_of_all {run : List Char}
    (h : (run.all fun c => isText c && c != '&') = true) : IsCharacterData run := by
  simp only [List.all_eq_true, Bool.and_eq_true, bne_iff_ne, ne_eq] at h
  exact ⟨fun c hc => (h c hc).1, run, .of_forall_ne fun c hc => (h c hc).2⟩

theorem element_sections : Element "groupId" "<groupId>org</groupId>".toList ∧
    Element "build" "<build><groupId>org</groupId></build>".toList := by
  have hblank : ∀ c ∈ ([] : List Char), isBlank c = true := List.forall_mem_nil _
  have hnone : IsCharacterData [] := isCharacterData_of_all rfl
  have hgroup : Content "org".toList := .text (isCharacterData_of_all (by decide))
  have hname : isName "groupId" = true := by decide
  have hbuild : isName "build" = true := by decide
  have hcontent := Content.element hnone hname attributes_nil hgroup hblank (.text hnone)
  exact ⟨.content hname attributes_nil hgroup hblank,
    .content hbuild attributes_nil hcontent hblank⟩

theorem parse_sections_build :
    (∀ text ∈ sections, ∃ name, Element name text.toList) ∧
      (∃ parts whole,
        List.Forall₂ (fun text part => Document.parse (projectOf text) = .ok part) sections parts ∧
          Document.parse (projectOf (String.join sections)) = .ok whole ∧ whole.Collects parts) ∧
      Document.parse (projectOf "<build><groupId>org</groupId></build>") = .ok Document.blank := by
  have hsections : ∀ text ∈ sections, ∃ name, Element name text.toList := by
    intro text hmem
    simp only [sections, List.mem_cons, List.not_mem_nil, or_false] at hmem
    rcases hmem with rfl | rfl
    · exact ⟨"groupId", element_sections.1⟩
    · exact ⟨"build", element_sections.2⟩
  obtain ⟨hparts, hforeign⟩ := parse_sections sections hsections
  exact ⟨hsections, hparts,
    hforeign _ (by simp [sections]) "build" element_sections.2 (by decide)⟩

end Sample

end Sections

end ManagedGraph.Pom
