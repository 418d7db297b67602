import ManagedGraph.Proofs.Pom.Gathered

/-!
# Reading written POMs back

Each part of a document is read back, from exclusions to the document itself, wherever it stands:
what holds the gatherer on the way is the part as far as the children that have been read tell it.
So every way of writing a document is read as the document (`Document.parse_of_written`).
-/

namespace ManagedGraph.Pom

open Xml Gathering

/-! ## Places -/

namespace Gathering

/-- Within an element that holds no declaration. -/
def within (path : List String) (d : Document) : Gathering :=
  ⟨path, "", none, none, none, d⟩

/-- Within the parent reference. -/
def inParent (p : ParentReference) (d : Document) : Gathering :=
  ⟨parentPath, "", none, none, some p, d⟩

/-- Within a declaration. -/
def inDeclaration (path : List String) (declaration : Declaration) (d : Document) : Gathering :=
  ⟨path, "", some declaration, none, none, d⟩

/-- Within an exclusion of a declaration. -/
def inExclusion (path : List String) (e : DeclaredExclusion) (declaration : Declaration)
    (d : Document) : Gathering :=
  ⟨"exclusion" :: "exclusions" :: path, "", some declaration, some e, none, d⟩

end Gathering

/-! ## What has been told -/

section Told

variable {α : Type} {seen : List String} {name : String} {value unknown : α}

/-- A value as far as the elements with these names tell it. -/
def told (seen : List String) (name : String) (value unknown : α) : α :=
  if name ∈ seen then value else unknown

theorem told_of_mem (h : name ∈ seen) : told seen name value unknown = value :=
  if_pos h

theorem told_of_requires {value : Option α} (h : ∀ v, value = some v → name ∈ seen) :
    told seen name value none = value := by
  cases value with
  | none => exact ite_self none
  | some v => exact told_of_mem (h v rfl)

theorem told_list {value : List α} (h : value ≠ [] → name ∈ seen) :
    told seen name value [] = value := by
  by_cases hvalue : value = []
  · rw [hvalue]
    exact ite_self []
  · exact told_of_mem (h hvalue)

end Told

/-! ## Exclusions -/

/-- An exclusion as far as some children tell it. -/
def DeclaredExclusion.upTo (e : DeclaredExclusion) (seen : List String) : DeclaredExclusion :=
  ⟨told seen "groupId" e.group "", told seen "artifactId" e.artifact none⟩

theorem DeclaredExclusion.upTo_eq_self {e : DeclaredExclusion} {seen : List String}
    (h : ∀ name, e.fields.Requires name → name ∈ seen) : e.upTo seen = e := by
  have hgroup : "groupId" ∈ seen := h _ ⟨e.group, by simp [fields]⟩
  have hartifact (v : String) (hv : e.artifact = some v) : "artifactId" ∈ seen :=
    h _ ⟨v, by simp [fields, hv]⟩
  rw [upTo, told_of_mem hgroup, told_of_requires hartifact]

section Declarations

variable {path : List String} {d : Document} {decl : Declaration} {seen : List String}
variable {name value : String} {tags : List Tag} {e : DeclaredExclusion}

theorem leaf_inExclusion (hpath : path = dependencyPath ∨ path = managedPath)
    (h : (name, some value) ∈ e.fields) :
    (inExclusion path (e.upTo seen) decl d).leaf name value =
      inExclusion path (e.upTo (name :: seen)) decl d := by
  have hgroup (e : DeclaredExclusion) :
      (inExclusion path e decl d).leaf "groupId" value =
        inExclusion path { e with group := value } decl d := by
    rcases hpath with rfl | rfl <;> rfl
  have hartifact (e : DeclaredExclusion) :
      (inExclusion path e decl d).leaf "artifactId" value =
        inExclusion path { e with artifact := some value } decl d := by
    rcases hpath with rfl | rfl <;> rfl
  simp only [DeclaredExclusion.fields, List.mem_cons, Prod.mk.injEq, List.not_mem_nil,
    or_false] at h
  rcases h with ⟨rfl, h⟩ | ⟨rfl, h⟩
  · rw [hgroup]
    simp_all [DeclaredExclusion.upTo, told]
  · rw [hartifact]
    simp [DeclaredExclusion.upTo, told, h]

/-- An exclusion is added to the declaration it stands in. -/
theorem reads_exclusion (hpath : path = dependencyPath ∨ path = managedPath)
    (htexts : ∀ text ∈ e.fields.texts, isTrimmed text = true) (h : e.Writes tags) :
    Reads (inDeclaration ("exclusions" :: path) decl d) tags
      (inDeclaration ("exclusions" :: path)
        { decl with exclusions := decl.exclusions ++ [e] } d) := by
  let inside (seen : List String) := inExclusion path (e.upTo seen) decl d
  have hopen : (inDeclaration ("exclusions" :: path) decl d).opening "exclusion" = inside [] := by
    rcases hpath with rfl | rfl <;> rfl
  have hclose (e : DeclaredExclusion) : (inExclusion path e decl d).closing =
      inDeclaration ("exclusions" :: path) { decl with exclusions := decl.exclusions ++ [e] } d := by
    rcases hpath with rfl | rfl <;> rfl
  have hchild (seen : List String) (child : String) (tags : List Tag)
      (hwrites : e.fields.Child child tags) (_ : child ∉ seen) :
      Reads (inside seen) tags (inside (child :: seen)) := by
    apply Reads.of_field _ htexts (fun _ => leaf_inExclusion hpath) hwrites
    rw [DeclaredExclusion.names_fields]
    rfl
  obtain ⟨seen, hseen, hread⟩ := Reads.of_isElement inside rfl hopen (fun _ => rfl) hchild h
  rwa [hclose, DeclaredExclusion.upTo_eq_self hseen] at hread

/-! ## Declarations -/

/-- A declaration as far as some children tell it. -/
def Declaration.upTo (decl : Declaration) (seen : List String) : Declaration where
  group := told seen "groupId" decl.group ""
  artifact := told seen "artifactId" decl.artifact ""
  version := told seen "version" decl.version none
  scope := told seen "scope" decl.scope none
  optional := told seen "optional" decl.optional false
  classifier := told seen "classifier" decl.classifier none
  type := told seen "type" decl.type none
  exclusions := told seen "exclusions" decl.exclusions []

theorem Declaration.upTo_eq_self (h : ∀ name, decl.Requires name → name ∈ seen) :
    decl.upTo seen = decl := by
  have hfield (name value : String) (hmem : (name, some value) ∈ decl.fields) : name ∈ seen :=
    h name (.field ⟨value, hmem⟩)
  have hoptional : told seen "optional" decl.optional false = decl.optional := by
    cases hvalue : decl.optional with
    | false => exact ite_self false
    | true => exact told_of_mem (hfield _ "true" (by simp [fields, hvalue]))
  unfold upTo
  rw [hoptional, told_of_mem (hfield _ decl.group (by simp [fields])),
    told_of_mem (hfield _ decl.artifact (by simp [fields])),
    told_of_requires fun v hv => hfield _ v (by simp [fields, hv]),
    told_of_requires fun v hv => hfield _ v (by simp [fields, hv]),
    told_of_requires fun v hv => hfield _ v (by simp [fields, hv]),
    told_of_requires fun v hv => hfield _ v (by simp [fields, hv]),
    told_list fun hne => h _ (.exclusions hne)]

theorem setField_upTo (h : (name, some value) ∈ decl.fields) :
    setField (decl.upTo seen) name value = decl.upTo (name :: seen) := by
  have htrue : Text.trim ['t', 'r', 'u', 'e'] = ['t', 'r', 'u', 'e'] := rfl
  simp only [Declaration.fields, List.mem_cons, Prod.mk.injEq, List.not_mem_nil, or_false] at h
  rcases h with ⟨rfl, h⟩ | ⟨rfl, h⟩ | ⟨rfl, h⟩ | ⟨rfl, h⟩ | ⟨rfl, h⟩ | ⟨rfl, h⟩ | ⟨rfl, h⟩ <;>
    simp_all [setField, Declaration.upTo, told]

theorem leaf_inDeclaration (hpath : path = dependencyPath ∨ path = managedPath)
    (h : (name, some value) ∈ decl.fields) :
    (inDeclaration path (decl.upTo seen) d).leaf name value =
      inDeclaration path (decl.upTo (name :: seen)) d := by
  have hset (decl' : Declaration) : (inDeclaration path decl' d).leaf name value =
      inDeclaration path (setField decl' name value) d := by
    simp only [Declaration.fields, List.mem_cons, Prod.mk.injEq, List.not_mem_nil, or_false] at h
    rcases hpath with rfl | rfl <;>
      rcases h with ⟨rfl, -⟩ | ⟨rfl, -⟩ | ⟨rfl, -⟩ | ⟨rfl, -⟩ | ⟨rfl, -⟩ | ⟨rfl, -⟩ | ⟨rfl, -⟩ <;>
      rfl
  rw [hset, setField_upTo h]

/-- The exclusions of a declaration are read wherever they stand among its other children. -/
theorem reads_exclusions (hpath : path = dependencyPath ∨ path = managedPath)
    (htexts : ∀ e ∈ decl.exclusions, ∀ text ∈ e.fields.texts, isTrimmed text = true)
    (hnew : "exclusions" ∉ seen)
    (h : IsList "exclusions" DeclaredExclusion.Writes decl.exclusions tags) :
    Reads (inDeclaration path (decl.upTo seen) d) tags
      (inDeclaration path (decl.upTo ("exclusions" :: seen)) d) := by
  let inside (read : List DeclaredExclusion) :=
    inDeclaration ("exclusions" :: path) { decl.upTo seen with exclusions := read } d
  -- entries are added to those there are, so none may have been read before
  have hnone : { decl.upTo seen with exclusions := [] } = decl.upTo seen := by
    simp [Declaration.upTo, told, hnew]
  have hall : { decl.upTo seen with exclusions := decl.exclusions } =
      decl.upTo ("exclusions" :: seen) := by
    simp [Declaration.upTo, told]
  have hopen : (inDeclaration path (decl.upTo seen) d).opening "exclusions" = inside [] := by
    simp only [inside, hnone]
    rcases hpath with rfl | rfl <;> rfl
  have hclose (decl : Declaration) : (inDeclaration ("exclusions" :: path) decl d).closing =
      inDeclaration path decl d := by
    rcases hpath with rfl | rfl <;> rfl
  have hread := Reads.of_isList inside rfl hopen rfl
    (fun before e tags he hwrites => reads_exclusion hpath (htexts e he) hwrites) h
  rwa [hclose, hall] at hread

/-- A declaration is read as a whole, whichever list it stands in. -/
theorem reads_declaration (hpath : path = dependencyPath ∨ path = managedPath)
    (htexts : ∀ text ∈ decl.texts, isTrimmed text = true) (h : decl.Writes tags) :
    Reads (within path.tail d) tags (inDeclaration path decl d).closing := by
  have hopen : (within path.tail d).opening "dependency" = inDeclaration path (decl.upTo []) d := by
    rcases hpath with rfl | rfl <;> rfl
  have hfields (text : String) (ht : text ∈ decl.fields.texts) : isTrimmed text = true :=
    htexts text (List.mem_append_left _ ht)
  have hexclusions (e : DeclaredExclusion) (he : e ∈ decl.exclusions) (text : String)
      (ht : text ∈ e.fields.texts) : isTrimmed text = true :=
    htexts text (List.mem_append_right _ (List.mem_flatMap.2 ⟨e, he, ht⟩))
  have hchild (seen : List String) (child : String) (tags : List Tag)
      (hwrites : decl.Child child tags) (hnew : child ∉ seen) :
      Reads (inDeclaration path (decl.upTo seen) d) tags
        (inDeclaration path (decl.upTo (child :: seen)) d) := by
    cases hwrites with
    | field hfield =>
        apply Reads.of_field _ hfields (fun _ => leaf_inDeclaration hpath) hfield
        rw [Declaration.names_fields]
        rfl
    | exclusions hlist => exact reads_exclusions hpath hexclusions hnew hlist
  obtain ⟨seen, hseen, hread⟩ := Reads.of_isElement
    (fun seen => inDeclaration path (decl.upTo seen) d) rfl hopen
    (fun _ => by rcases hpath with rfl | rfl <;> rfl) hchild h
  rwa [Declaration.upTo_eq_self hseen] at hread

end Declarations

/-! ## Documents -/

section Documents

variable {d : Document} {seen : List String} {name value : String} {tags : List Tag}

/-- A parent reference as far as some children tell it. -/
def ParentReference.upTo (p : ParentReference) (seen : List String) : ParentReference :=
  ⟨told seen "groupId" p.group "", told seen "artifactId" p.artifact "",
    told seen "version" p.version ""⟩

theorem ParentReference.upTo_eq_self {p : ParentReference}
    (h : ∀ name, p.fields.Requires name → name ∈ seen) : p.upTo seen = p := by
  have hfield (name value : String) (hmem : (name, some value) ∈ p.fields) : name ∈ seen :=
    h name ⟨value, hmem⟩
  rw [upTo, told_of_mem (hfield _ p.group (by simp [fields])),
    told_of_mem (hfield _ p.artifact (by simp [fields])),
    told_of_mem (hfield _ p.version (by simp [fields]))]

theorem leaf_inParent {p : ParentReference} (h : (name, some value) ∈ p.fields) :
    (inParent (p.upTo seen) d).leaf name value = inParent (p.upTo (name :: seen)) d := by
  have hgroup (p : ParentReference) :
      (inParent p d).leaf "groupId" value = inParent { p with group := value } d := rfl
  have hartifact (p : ParentReference) :
      (inParent p d).leaf "artifactId" value = inParent { p with artifact := value } d := rfl
  have hversion (p : ParentReference) :
      (inParent p d).leaf "version" value = inParent { p with version := value } d := rfl
  simp only [ParentReference.fields, List.mem_cons, Prod.mk.injEq, Option.some.injEq,
    List.not_mem_nil, or_false] at h
  rcases h with ⟨rfl, rfl⟩ | ⟨rfl, rfl⟩ | ⟨rfl, rfl⟩
  · simp [hgroup, ParentReference.upTo, told]
  · simp [hartifact, ParentReference.upTo, told]
  · simp [hversion, ParentReference.upTo, told]

theorem reads_parent {p : ParentReference} (htexts : ∀ text ∈ p.fields.texts, isTrimmed text = true)
    (h : p.Writes tags) :
    Reads (within ["project"] d) tags (within ["project"] { d with parent := some p }) := by
  have hopen : (within ["project"] d).opening "parent" = inParent (p.upTo []) d := rfl
  have hchild (seen : List String) (child : String) (tags : List Tag)
      (hwrites : p.fields.Child child tags) (_ : child ∉ seen) :
      Reads (inParent (p.upTo seen) d) tags (inParent (p.upTo (child :: seen)) d) := by
    apply Reads.of_field _ htexts (fun _ => leaf_inParent) hwrites
    rw [ParentReference.names_fields]
    rfl
  obtain ⟨seen, hseen, hread⟩ := Reads.of_isElement (fun seen => inParent (p.upTo seen) d) rfl
    hopen (fun _ => rfl) hchild h
  rw [ParentReference.upTo_eq_self hseen] at hread
  exact hread

/-- Properties as far as some children tell them. -/
def propertiesUpTo (properties : Properties) (seen : List String) : Properties :=
  properties.filter fun name _ => name ∈ seen

theorem getElem?_propertiesUpTo {properties : Properties} :
    (propertiesUpTo properties seen)[name]? = told seen name properties[name]? none := by
  unfold propertiesUpTo told
  rw [Std.ExtTreeMap.getElem?_filter']
  by_cases hseen : name ∈ seen <;> cases properties[name]? <;> simp [hseen]

theorem insert_propertiesUpTo {properties : Properties} (h : properties[name]? = some value) :
    (propertiesUpTo properties seen).insert name value =
      propertiesUpTo properties (name :: seen) := by
  apply Std.ExtTreeMap.ext_getElem?
  intro other
  rw [Std.ExtTreeMap.getElem?_insert, getElem?_propertiesUpTo, getElem?_propertiesUpTo]
  unfold told
  by_cases hother : name = other
  · subst other
    simp [h]
  · simp [hother, Ne.symm hother]

theorem propertiesUpTo_nil {properties : Properties} : propertiesUpTo properties [] = ∅ := by
  apply Std.ExtTreeMap.ext_getElem?
  intro name
  rw [getElem?_propertiesUpTo]
  simp [told]

theorem propertiesUpTo_eq_self {properties : Properties}
    (h : ∀ name value, properties[name]? = some value → name ∈ seen) :
    propertiesUpTo properties seen = properties := by
  apply Std.ExtTreeMap.ext_getElem?
  intro name
  rw [getElem?_propertiesUpTo, told_of_requires (h name)]

/-- A property is recorded whatever its name, since no other part is under way. -/
theorem leaf_within_properties :
    (within ["properties", "project"] d).leaf name value =
      within ["properties", "project"]
        { d with properties := d.properties.insert name value } := by
  simp [leaf, within, opening, closing, record, isDeclaration, parentPath, dependencyPath,
    managedPath]

theorem reads_properties (htexts : ∀ text ∈ d.propertyFields.texts, isTrimmed text = true)
    (hnames : ∀ name ∈ d.properties.keys, isName name = true) (d' : Document)
    (hd' : d'.properties = ∅)
    (h : IsElement "properties" d.propertyFields.Child d.propertyFields.Requires tags) :
    Reads (within ["project"] d') tags
      (within ["project"] { d' with properties := d.properties }) := by
  let inside (seen : List String) :=
    within ["properties", "project"] { d' with properties := propertiesUpTo d.properties seen }
  have hmem (name value : String) :
      (name, some value) ∈ d.propertyFields ↔ d.properties[name]? = some value := by
    simp [Document.propertyFields, Std.ExtTreeMap.mem_toList_iff_getElem?_eq_some]
  have hopen : (within ["project"] d').opening "properties" = inside [] := by
    simp only [inside, propertiesUpTo_nil, ← hd']
    rfl
  have hfields : (d.propertyFields.map Prod.fst).all isName = true := by
    rw [Document.names_propertyFields]
    exact List.all_eq_true.2 hnames
  have hleaf (seen : List String) (name value : String)
      (h : (name, some value) ∈ d.propertyFields) :
      (inside seen).leaf name value = inside (name :: seen) := by
    simp only [inside]
    rw [leaf_within_properties, insert_propertiesUpTo ((hmem name value).1 h)]
  obtain ⟨seen, hseen, hread⟩ := Reads.of_isElement inside rfl hopen (fun _ => rfl)
    (fun seen child tags hchild _ => Reads.of_field hfields htexts (hleaf seen child) hchild) h
  have hall : propertiesUpTo d.properties seen = d.properties :=
    propertiesUpTo_eq_self fun name value hvalue =>
      hseen name ⟨value, (hmem name value).2 hvalue⟩
  simp only [inside, hall] at hread
  exact hread

/-- A document as far as some children tell it. -/
def Document.upTo (d : Document) (seen : List String) : Document where
  group := told seen "groupId" d.group none
  artifact := told seen "artifactId" d.artifact none
  version := told seen "version" d.version none
  packaging := told seen "packaging" d.packaging none
  parent := told seen "parent" d.parent none
  properties := told seen "properties" d.properties ∅
  dependencies := told seen "dependencies" d.dependencies []
  management := told seen "dependencyManagement" d.management []

theorem Document.upTo_eq_self (h : ∀ name, d.Requires name → name ∈ seen) : d.upTo seen = d := by
  have hfield (name value : String) (hmem : (name, some value) ∈ d.fields) : name ∈ seen :=
    h name (.field ⟨value, hmem⟩)
  have hproperties : told seen "properties" d.properties ∅ = d.properties := by
    by_cases hnone : d.properties = ∅
    · rw [hnone]
      exact ite_self ∅
    · exact told_of_mem (h _ (.properties hnone))
  unfold upTo
  rw [hproperties, told_of_requires fun v hv => hfield _ v (by simp [fields, hv]),
    told_of_requires fun v hv => hfield _ v (by simp [fields, hv]),
    told_of_requires fun v hv => hfield _ v (by simp [fields, hv]),
    told_of_requires fun v hv => hfield _ v (by simp [fields, hv]),
    told_of_requires fun p hp => h _ (.parent (by simp [hp])),
    told_list fun hne => h _ (.dependencies hne), told_list fun hne => h _ (.management hne)]

theorem leaf_within_project (h : (name, some value) ∈ d.fields) :
    (within ["project"] (d.upTo seen)).leaf name value =
      within ["project"] (d.upTo (name :: seen)) := by
  simp only [Document.fields, List.mem_cons, Prod.mk.injEq, List.not_mem_nil, or_false] at h
  have hset (d' : Document) : (within ["project"] d').leaf name value =
      within ["project"] (setOwn d' name value) := by
    rcases h with ⟨rfl, -⟩ | ⟨rfl, -⟩ | ⟨rfl, -⟩ | ⟨rfl, -⟩ <;> rfl
  rw [hset]
  congr 1
  rcases h with ⟨rfl, h⟩ | ⟨rfl, h⟩ | ⟨rfl, h⟩ | ⟨rfl, h⟩ <;>
    simp [setOwn, Document.upTo, told, h]

theorem reads_dependencies (htexts : ∀ decl ∈ d.dependencies, ∀ text ∈ decl.texts,
      isTrimmed text = true) (d' : Document) (hd' : d'.dependencies = [])
    (h : IsList "dependencies" Declaration.Writes d.dependencies tags) :
    Reads (within ["project"] d') tags
      (within ["project"] { d' with dependencies := d.dependencies }) := by
  have hopen : (within ["project"] d').opening "dependencies" =
      within dependencyPath.tail { d' with dependencies := [] } := by
    rw [← hd']
    rfl
  exact Reads.of_isList (fun read => within dependencyPath.tail { d' with dependencies := read })
    rfl hopen rfl
    (fun before decl tags hdecl hwrites =>
      reads_declaration (Or.inl rfl) (htexts decl hdecl) hwrites) h

theorem reads_management (htexts : ∀ decl ∈ d.management, ∀ text ∈ decl.texts,
      isTrimmed text = true) (d' : Document) (hd' : d'.management = [])
    (h : IsElement "dependencyManagement" d.ManagementChild
      (fun name => name = "dependencies" ∧ d.management ≠ []) tags) :
    Reads (within ["project"] d') tags
      (within ["project"] { d' with management := d.management }) := by
  let inside (seen : List String) := within ["dependencyManagement", "project"]
    { d' with management := told seen "dependencies" d.management [] }
  have hopen : (within ["project"] d').opening "dependencyManagement" = inside [] := by
    simp only [inside, told, List.not_mem_nil, if_false, ← hd']
    rfl
  have hchild (seen : List String) (child : String) (tags : List Tag)
      (hwrites : d.ManagementChild child tags) (hnew : child ∉ seen) :
      Reads (inside seen) tags (inside (child :: seen)) := by
    cases hwrites with
    | dependencies hlist =>
        have hfirst : (inside seen).opening "dependencies" =
            within managedPath.tail { d' with management := [] } := by
          simp only [inside, told, if_neg hnew]
          rfl
        have hlast : inside ("dependencies" :: seen) =
            within ["dependencyManagement", "project"] { d' with management := d.management } := by
          simp [inside, told]
        rw [hlast]
        exact Reads.of_isList (fun read => within managedPath.tail { d' with management := read })
          rfl hfirst rfl
          (fun before decl tags hdecl hwrites =>
            reads_declaration (Or.inr rfl) (htexts decl hdecl) hwrites) hlist
  obtain ⟨seen, hseen, hread⟩ := Reads.of_isElement inside rfl hopen (fun _ => rfl) hchild h
  have hall : told seen "dependencies" d.management [] = d.management :=
    told_list fun hne => hseen _ ⟨rfl, hne⟩
  simp only [inside, hall] at hread
  exact hread

/-- A child of a document is read as what it tells, whatever children have been read. -/
theorem reads_child (hd : d.Writable) (hnew : name ∉ seen) (h : d.Child name tags) :
    Reads (within ["project"] (d.upTo seen)) tags
      (within ["project"] (d.upTo (name :: seen))) := by
  have hlists (decl : Declaration) (hdecl : decl ∈ d.dependencies ++ d.management)
      (text : String) (ht : text ∈ decl.texts) : isTrimmed text = true :=
    hd.trimmed text (List.mem_append_right _ (List.mem_flatMap.2 ⟨decl, hdecl, ht⟩))
  cases h with
  | field hfield =>
      have htexts (text : String) (ht : text ∈ d.fields.texts) : isTrimmed text = true :=
        hd.trimmed text (by simp [Document.texts, ht])
      apply Reads.of_field _ htexts (fun _ => leaf_within_project) hfield
      rw [Document.names_fields]
      rfl
  | @parent p _ hp hparent =>
      have htexts (text : String) (ht : text ∈ p.fields.texts) : isTrimmed text = true :=
        hd.trimmed text (by simp [Document.texts, hp, ht])
      have hread := reads_parent (d := d.upTo seen) htexts hparent
      have hall : { d.upTo seen with parent := some p } = d.upTo ("parent" :: seen) := by
        simp [Document.upTo, told, hp]
      rwa [hall] at hread
  | properties hproperties =>
      have htexts (text : String) (ht : text ∈ d.propertyFields.texts) : isTrimmed text = true :=
        hd.trimmed text (by simp [Document.texts, ht])
      have hread := reads_properties htexts hd.named (d.upTo seen) (if_neg hnew) hproperties
      have hall : { d.upTo seen with properties := d.properties } =
          d.upTo ("properties" :: seen) := by
        simp [Document.upTo, told]
      rwa [hall] at hread
  | dependencies hlist =>
      have hread := reads_dependencies
        (fun decl hdecl => hlists decl (List.mem_append_left _ hdecl)) (d.upTo seen)
        (if_neg hnew) hlist
      have hall : { d.upTo seen with dependencies := d.dependencies } =
          d.upTo ("dependencies" :: seen) := by
        simp [Document.upTo, told]
      rwa [hall] at hread
  | management hmanagement =>
      have hread := reads_management
        (fun decl hdecl => hlists decl (List.mem_append_right _ hdecl)) (d.upTo seen)
        (if_neg hnew) hmanagement
      have hall : { d.upTo seen with management := d.management } =
          d.upTo ("dependencyManagement" :: seen) := by
        simp [Document.upTo, told]
      rwa [hall] at hread

theorem reads_document (hd : d.Writable) (h : IsElement "project" d.Child d.Requires tags) :
    Reads .start tags (within [] d) := by
  have hopen : Gathering.start.opening "project" = within ["project"] (d.upTo []) := rfl
  obtain ⟨seen, hseen, hread⟩ := Reads.of_isElement (fun seen => within ["project"] (d.upTo seen))
    rfl hopen (fun _ => rfl) (fun _ _ _ hchild hnew => reads_child hd hnew hchild) h
  rw [Document.upTo_eq_self hseen] at hread
  exact hread

end Documents

/-- Let no text of a document have blanks at its ends, and let its properties have names that
elements can have. However the document is written, with children in any order, lists in theirs,
empty lists written or left out, and blanks and comments between tags and around values, reading
succeeds and gives the document. -/
theorem Document.parse_of_written {d : Document} {text : String} (hd : d.Writable)
    (h : d.WrittenAs text) : Document.parse text = .ok d := by
  obtain ⟨tags, htags, hwritten⟩ := h
  obtain ⟨hsteps, hfault⟩ := Reads.steps_of_written hwritten (reads_document hd htags)
  have hpath : Gathering.start.path = [] := rfl
  rw [hpath, ← events_of_written hwritten] at hsteps hfault
  unfold Document.parse Document.ofEvents
  rw [hsteps]
  dsimp only
  rw [hfault]
  rfl

namespace Sample

/-- A document that manages one dependency, with an empty version and a value to escape. -/
def library : Document where
  group := none
  artifact := some "app"
  version := some ""
  packaging := none
  parent := none
  properties := .ofList [("lib.name", "a & b")]
  dependencies := []
  management := [⟨"org", "lib", none, none, true, none, none, [⟨"com", none⟩]⟩]

/-- A line break and a comment. -/
def gap : List Char :=
  "\n<!-- > -->".toList

theorem gap_gap : Gap gap :=
  .blank rfl (@Gap.comment " > ".toList [] rfl .nil)

theorem writable_library : library.Writable :=
  ⟨by decide, by decide⟩

theorem parse_library :
    library.Writable ∧ library.WrittenAs (library.write gap) ∧
      Document.parse (library.write gap) = .ok library :=
  have hwritten := Document.writtenAs_write gap_gap library
  ⟨writable_library, hwritten, Document.parse_of_written writable_library hwritten⟩

end Sample

end ManagedGraph.Pom
