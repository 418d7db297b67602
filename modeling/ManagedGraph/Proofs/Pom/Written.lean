import Mathlib.Data.List.Forall2
import ManagedGraph.Pom.Document
import ManagedGraph.Proofs.Xml.Written

/-!
# Written POMs

The ways of writing a document. The children of an element stand in any order, but for the
entries of a list, and an element that holds nothing is written or left out. A value that is
there has its element even if it is the empty text.
-/

namespace ManagedGraph.Pom

open Xml

/-- The values that an element states, by the names of their elements. -/
abbrev Fields := List (String × Option String)

/-- The values that are there. -/
def Fields.texts (fields : Fields) : List String :=
  fields.filterMap Prod.snd

/-- A value as a child. -/
inductive Fields.Child (fields : Fields) : String → List Tag → Prop where
  | leaf {name value : String} (h : (name, some value) ∈ fields) :
      Child fields name [.leaf name value]

/-- The names of the values that are there. -/
def Fields.Requires (fields : Fields) (name : String) : Prop :=
  ∃ value, (name, some value) ∈ fields

/-- An element whose children stand in any order, each at most once; those that are required
do stand. -/
def IsElement (name : String) (Child : String → List Tag → Prop) (Requires : String → Prop)
    (tags : List Tag) : Prop :=
  ∃ children : List (String × List Tag),
    (∀ child ∈ children, Child child.1 child.2) ∧ (children.map Prod.fst).Nodup ∧
      (∀ child, Requires child → child ∈ children.map Prod.fst) ∧
      tags = element name (children.flatMap Prod.snd)

/-- The entries of a list, in its order. -/
def IsList {α : Type} (name : String) (Writes : α → List Tag → Prop) (entries : List α)
    (tags : List Tag) : Prop :=
  ∃ parts, List.Forall₂ Writes entries parts ∧ tags = element name parts.flatten

/-! ## Exclusions and parent references -/

namespace DeclaredExclusion

/-- What an exclusion states. -/
def fields (e : DeclaredExclusion) : Fields :=
  [("groupId", some e.group), ("artifactId", e.artifact)]

theorem names_fields (e : DeclaredExclusion) :
    e.fields.map Prod.fst = ["groupId", "artifactId"] := rfl

def Writes (e : DeclaredExclusion) : List Tag → Prop :=
  IsElement "exclusion" e.fields.Child e.fields.Requires

end DeclaredExclusion

namespace ParentReference

def fields (p : ParentReference) : Fields :=
  [("groupId", some p.group), ("artifactId", some p.artifact), ("version", some p.version)]

theorem names_fields (p : ParentReference) :
    p.fields.map Prod.fst = ["groupId", "artifactId", "version"] := rfl

def Writes (p : ParentReference) : List Tag → Prop :=
  IsElement "parent" p.fields.Child p.fields.Requires

end ParentReference

/-! ## Declarations -/

namespace Declaration

/-- What a declaration states, its exclusions apart. A flag that is not set is not there. -/
def fields (d : Declaration) : Fields :=
  [("groupId", some d.group), ("artifactId", some d.artifact), ("version", d.version),
    ("scope", d.scope), ("optional", if d.optional then some "true" else none),
    ("classifier", d.classifier), ("type", d.type)]

theorem names_fields (d : Declaration) :
    d.fields.map Prod.fst =
      ["groupId", "artifactId", "version", "scope", "optional", "classifier", "type"] := rfl

/-- What can stand in a declaration. -/
inductive Child (d : Declaration) : String → List Tag → Prop where
  | field {name : String} {tags : List Tag} (h : d.fields.Child name tags) : Child d name tags
  | exclusions {tags : List Tag}
      (h : IsList "exclusions" DeclaredExclusion.Writes d.exclusions tags) :
      Child d "exclusions" tags

/-- What must stand in it. -/
inductive Requires (d : Declaration) : String → Prop where
  | field {name : String} (h : d.fields.Requires name) : Requires d name
  | exclusions (h : d.exclusions ≠ []) : Requires d "exclusions"

def Writes (d : Declaration) : List Tag → Prop :=
  IsElement "dependency" d.Child d.Requires

/-- The texts of a declaration. -/
def texts (d : Declaration) : List String :=
  d.fields.texts ++ d.exclusions.flatMap fun e => e.fields.texts

end Declaration

/-! ## Documents -/

namespace Document

/-- What a document states of itself. -/
def fields (d : Document) : Fields :=
  [("groupId", d.group), ("artifactId", d.artifact), ("version", d.version),
    ("packaging", d.packaging)]

theorem names_fields (d : Document) :
    d.fields.map Prod.fst = ["groupId", "artifactId", "version", "packaging"] := rfl

/-- The properties, each under its own name. -/
def propertyFields (d : Document) : Fields :=
  d.properties.toList.map fun entry => (entry.1, some entry.2)

/-- What dependency management holds. -/
inductive ManagementChild (d : Document) : String → List Tag → Prop where
  | dependencies {tags : List Tag}
      (h : IsList "dependencies" Declaration.Writes d.management tags) :
      ManagementChild d "dependencies" tags

/-- What can stand in a document. -/
inductive Child (d : Document) : String → List Tag → Prop where
  | field {name : String} {tags : List Tag} (h : d.fields.Child name tags) : Child d name tags
  | parent {p : ParentReference} {tags : List Tag} (hp : d.parent = some p) (h : p.Writes tags) :
      Child d "parent" tags
  | properties {tags : List Tag}
      (h : IsElement "properties" d.propertyFields.Child d.propertyFields.Requires tags) :
      Child d "properties" tags
  | dependencies {tags : List Tag}
      (h : IsList "dependencies" Declaration.Writes d.dependencies tags) :
      Child d "dependencies" tags
  | management {tags : List Tag}
      (h : IsElement "dependencyManagement" d.ManagementChild
        (fun name => name = "dependencies" ∧ d.management ≠ []) tags) :
      Child d "dependencyManagement" tags

/-- What must stand in it. -/
inductive Requires (d : Document) : String → Prop where
  | field {name : String} (h : d.fields.Requires name) : Requires d name
  | parent (h : d.parent ≠ none) : Requires d "parent"
  | properties (h : d.properties ≠ ∅) : Requires d "properties"
  | dependencies (h : d.dependencies ≠ []) : Requires d "dependencies"
  | management (h : d.management ≠ []) : Requires d "dependencyManagement"

/-- The texts that a document can be written as. -/
def WrittenAs (d : Document) (text : String) : Prop :=
  ∃ tags, IsElement "project" d.Child d.Requires tags ∧ Written tags text.toList

/-- The texts of a document. -/
def texts (d : Document) : List String :=
  d.fields.texts ++ (d.parent.toList.flatMap fun p => p.fields.texts) ++
    d.propertyFields.texts ++ (d.dependencies ++ d.management).flatMap Declaration.texts

/-- A document whose texts come back from an XML text: no blanks at their ends, and names of
properties that can name elements. -/
structure Writable (d : Document) : Prop where
  trimmed : ∀ text ∈ d.texts, isTrimmed text = true
  named : ∀ name ∈ d.properties.keys, isName name = true

end Document

/-! ## Every document can be written

One way of writing a document: the values that are there first, then all lists. -/

namespace Fields

variable {fields : Fields} {name : String} {child : String × List Tag}

/-- The values that are there, each as a child. -/
def children (fields : Fields) : List (String × List Tag) :=
  fields.filterMap fun field => field.2.map fun value => (field.1, [.leaf field.1 value])

theorem child_of_mem_children (h : child ∈ fields.children) : fields.Child child.1 child.2 := by
  obtain ⟨⟨name, value⟩, hmem, hchild⟩ := List.mem_filterMap.1 h
  obtain ⟨text, rfl, rfl⟩ := Option.map_eq_some_iff.1 hchild
  exact .leaf hmem

theorem names_children_sublist : (fields.children.map Prod.fst).Sublist (fields.map Prod.fst) := by
  induction fields with
  | nil => exact .slnil
  | cons field rest ih =>
      obtain ⟨name, value⟩ := field
      cases value with
      | none => exact ih.cons name
      | some text => exact ih.cons_cons name

theorem mem_names_children (h : fields.Requires name) : name ∈ fields.children.map Prod.fst := by
  obtain ⟨value, hmem⟩ := h
  exact List.mem_map.2 ⟨(name, [.leaf name value]), List.mem_filterMap.2 ⟨_, hmem, rfl⟩, rfl⟩

/-- An element with values in it, and nothing else. -/
theorem isElement (hnodup : (fields.map Prod.fst).Nodup) :
    IsElement name fields.Child fields.Requires
      (element name (fields.children.flatMap Prod.snd)) :=
  ⟨fields.children, fun _ => child_of_mem_children, names_children_sublist.nodup hnodup,
    fun _ => mem_names_children, rfl⟩

end Fields

theorem isList_flatMap {α : Type} {Writes : α → List Tag → Prop} {tags : α → List Tag}
    (h : ∀ entry, Writes entry (tags entry)) (name : String) (entries : List α) :
    IsList name Writes entries (element name (entries.flatMap tags)) := by
  refine ⟨entries.map tags, ?_, by rw [List.flatMap_def]⟩
  rw [List.forall₂_map_right_iff, List.forall₂_same]
  exact fun entry _ => h entry

def DeclaredExclusion.tags (e : DeclaredExclusion) : List Tag :=
  element "exclusion" (e.fields.children.flatMap Prod.snd)

theorem DeclaredExclusion.writes_tags (e : DeclaredExclusion) : e.Writes e.tags :=
  Fields.isElement (by rw [names_fields]; decide)

def ParentReference.tags (p : ParentReference) : List Tag :=
  element "parent" (p.fields.children.flatMap Prod.snd)

theorem ParentReference.writes_tags (p : ParentReference) : p.Writes p.tags :=
  Fields.isElement (by rw [names_fields]; decide)

namespace Declaration

def children (d : Declaration) : List (String × List Tag) :=
  d.fields.children ++
    [("exclusions", element "exclusions" (d.exclusions.flatMap DeclaredExclusion.tags))]

def tags (d : Declaration) : List Tag :=
  element "dependency" (d.children.flatMap Prod.snd)

theorem writes_tags (d : Declaration) : d.Writes d.tags := by
  refine ⟨d.children, ?_, ?_, ?_, rfl⟩
  · intro child hmem
    rcases List.mem_append.1 hmem with hmem | hmem
    · exact .field (Fields.child_of_mem_children hmem)
    · obtain rfl := List.mem_singleton.1 hmem
      exact .exclusions (isList_flatMap DeclaredExclusion.writes_tags _ _)
  · have hnames : (d.fields.map Prod.fst ++ ["exclusions"]).Nodup := by
      rw [names_fields]
      decide
    rw [children, List.map_append]
    exact (Fields.names_children_sublist.append (.refl _)).nodup hnames
  · rintro name (hfield | -)
    · simp [children, Fields.mem_names_children hfield]
    · simp [children]

end Declaration

namespace Document

def children (d : Document) : List (String × List Tag) :=
  d.fields.children ++ d.parent.toList.map (fun p => ("parent", p.tags)) ++
    [("properties", element "properties" (d.propertyFields.children.flatMap Prod.snd)),
      ("dependencies", element "dependencies" (d.dependencies.flatMap Declaration.tags)),
      ("dependencyManagement", element "dependencyManagement"
        (element "dependencies" (d.management.flatMap Declaration.tags)))]

theorem names_propertyFields (d : Document) :
    d.propertyFields.map Prod.fst = d.properties.keys := by
  simp [propertyFields, ← Std.ExtTreeMap.map_fst_toList_eq_keys]

theorem child_of_mem_children {d : Document} {child : String × List Tag} (h : child ∈ d.children) :
    d.Child child.1 child.2 := by
  simp only [children, List.mem_append, List.mem_cons, List.not_mem_nil, or_false,
    List.mem_map, Option.mem_toList] at h
  rcases h with (hfield | ⟨p, hp, rfl⟩) | rfl | rfl | rfl
  · exact .field (Fields.child_of_mem_children hfield)
  · exact .parent hp p.writes_tags
  · refine .properties (Fields.isElement ?_)
    rw [names_propertyFields]
    exact Std.ExtTreeMap.nodup_keys
  · exact .dependencies (isList_flatMap Declaration.writes_tags _ _)
  · refine .management ⟨[("dependencies", element "dependencies"
      (d.management.flatMap Declaration.tags))], ?_, by simp, by simp, by simp⟩
    simp only [List.forall_mem_singleton]
    exact .dependencies (isList_flatMap Declaration.writes_tags _ _)

theorem nodup_names_children (d : Document) : (d.children.map Prod.fst).Nodup := by
  have hparent : ((d.parent.toList.map fun p => ("parent", p.tags)).map Prod.fst).Sublist
      ["parent"] := by
    cases d.parent <;> simp
  have hnames : (d.fields.map Prod.fst ++ ["parent"] ++
      ["properties", "dependencies", "dependencyManagement"]).Nodup := by
    rw [names_fields]
    decide
  rw [children, List.map_append, List.map_append]
  exact ((Fields.names_children_sublist.append hparent).append (.refl _)).nodup hnames

theorem isElement_children (d : Document) :
    IsElement "project" d.Child d.Requires (element "project" (d.children.flatMap Prod.snd)) := by
  refine ⟨d.children, fun _ => child_of_mem_children, nodup_names_children d, ?_, rfl⟩
  rintro name (hfield | hparent | - | - | -)
  · simp [children, Fields.mem_names_children hfield]
  · obtain ⟨p, hp⟩ := Option.ne_none_iff_exists'.1 hparent
    simp [children, hp]
  · simp [children]
  · simp [children]
  · simp [children]

/-- The text of a document with a gap before each tag. -/
def write (gap : List Char) (d : Document) : String :=
  String.ofList (spaced gap (element "project" (d.children.flatMap Prod.snd)))

theorem writtenAs_write {gap : List Char} (hgap : Gap gap) (d : Document) :
    d.WrittenAs (d.write gap) := by
  refine ⟨_, isElement_children d, ?_⟩
  rw [write, String.toList_ofList]
  exact written_spaced hgap _

end Document

end ManagedGraph.Pom
