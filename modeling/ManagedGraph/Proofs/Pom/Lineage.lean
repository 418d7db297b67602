import ManagedGraph.Pom.Repository
import ManagedGraph.Proofs.Operation.Success

/-!
# Lineages

A document with its parent, the parent of that and so on, up to a document without parent, is a
lineage. Loading a module version succeeds exactly when its lineage can be read and is short
enough, and gives the merged lineage (`load_eq_ok_iff`). Of the values of a property the one in
the nearest document counts (`properties_under`), and the declarations of a document stand
before those that it inherits (`management_under`).
-/

namespace ManagedGraph

namespace Pom

/-- The module version that a parent reference names. -/
def ParentReference.module (p : ParentReference) : ModuleVersion :=
  ⟨⟨p.group, p.artifact⟩, p.version⟩

namespace Document

/-- A document merged with its parents, the nearest one first. -/
def under (d : Document) : List Document → Document
  | [] => d
  | parent :: rest => d.inherit (parent.under rest)

/-- A document merged with its parents, under property values that win over all others. -/
def merged (d : Document) (ancestors : List Document) (overrides : Properties) : Document :=
  (d.under ancestors).override overrides

/-- A document merged with its parents and interpolated, under property values that win over all
others. -/
def effective (d : Document) (ancestors : List Document) (overrides : Properties) : Document :=
  ((d.under ancestors).override overrides).resolveProperties

variable {d : Document} {ancestors : List Document} {overrides : Properties}

/-- The nearest document that has a property decides it. -/
theorem properties_under (name : String) :
    (d.under ancestors).properties[name]? =
      (d :: ancestors).findSome? fun e => e.properties[name]? := by
  induction ancestors generalizing d with
  | nil => cases h : d.properties[name]? <;> simp [under, h]
  | cons parent rest ih =>
      rw [under, properties_inherit, ih]
      cases h : d.properties[name]? <;> simp [h]

theorem properties_effective (name : String) :
    (d.effective ancestors overrides).properties[name]? =
      overrides[name]?.or ((d :: ancestors).findSome? fun e => e.properties[name]?) := by
  rw [← properties_under]
  exact Std.ExtTreeMap.getElem?_union

/-- What is inherited is interpolated together with what is not. -/
theorem management_effective (d : Document) (ancestors : List Document) (overrides : Properties) :
    (d.effective ancestors overrides).management = (d.under ancestors).management.map
      (Declaration.mapTexts (d.merged ancestors overrides).interpolate) := rfl

/-- A document keeps its own declarations, in front. What it inherits was declared by a parent
and is written differently from all its own. -/
theorem management_under (d : Document) (ancestors : List Document) :
    ∃ inherited, (d.under ancestors).management = d.management ++ inherited ∧
      ∀ e ∈ inherited, e.key ∉ d.management.map Declaration.key ∧
        ∃ parent ∈ ancestors, e ∈ parent.management := by
  induction ancestors generalizing d with
  | nil => exact ⟨[], by simp [under], by simp⟩
  | cons parent rest ih =>
      obtain ⟨inherited, hmanagement, hinherited⟩ := ih parent
      refine ⟨firsts Declaration.key d.management (parent.under rest).management,
        appendNew_eq_append_firsts, ?_⟩
      intro e he
      obtain ⟨hmem, hnew⟩ := mem_firsts he
      refine ⟨hnew, ?_⟩
      -- the parent declared it, or has inherited it in turn
      rw [hmanagement, List.mem_append] at hmem
      rcases hmem with hmem | hmem
      · exact ⟨parent, List.mem_cons_self, hmem⟩
      · obtain ⟨-, ancestor, hancestor, hdeclared⟩ := hinherited e hmem
        exact ⟨ancestor, List.mem_cons_of_mem _ hancestor, hdeclared⟩

end Document

end Pom

namespace Repository

open Pom

variable {r : Repository} {m : ModuleVersion} {d : Document} {ancestors : List Document}
  {overrides : Properties} {depth : Nat}

/-- The document of a module version and its parents, the nearest one first. -/
inductive Lineage (r : Repository) : ModuleVersion → Document → List Document → Prop where
  | root {m : ModuleVersion} {d : Document} (hread : r.read m = .ok d) (hparent : d.parent = none) :
      Lineage r m d []
  | child {m : ModuleVersion} {d parent : Document} {rest : List Document} {p : ParentReference}
      (hread : r.read m = .ok d) (hparent : d.parent = some p)
      (hrest : Lineage r p.module parent rest) : Lineage r m d (parent :: rest)

/-- A module version has one lineage at most. -/
theorem Lineage.unique {d' : Document} {ancestors' : List Document}
    (h : r.Lineage m d ancestors) (h' : r.Lineage m d' ancestors') :
    d = d' ∧ ancestors = ancestors' := by
  induction h generalizing d' ancestors' with
  | root hread hparent =>
      cases h' with
      | root hread' => exact ⟨Except.ok.inj (hread.symm.trans hread'), rfl⟩
      | child hread' hparent' =>
          obtain rfl := Except.ok.inj (hread.symm.trans hread')
          exact absurd (hparent.symm.trans hparent') (by simp)
  | child hread hparent hrest ih =>
      cases h' with
      | root hread' hparent' =>
          obtain rfl := Except.ok.inj (hread.symm.trans hread')
          exact absurd (hparent'.symm.trans hparent) (by simp)
      | child hread' hparent' hrest' =>
          obtain rfl := Except.ok.inj (hread.symm.trans hread')
          obtain rfl := Option.some.inj (hparent.symm.trans hparent')
          obtain ⟨rfl, rfl⟩ := ih hrest'
          exact ⟨rfl, rfl⟩

/-- The parent that a document names has a lineage too, which is the rest of its own. -/
theorem Lineage.exists_parent {named : Document} {p : ParentReference}
    (h : r.Lineage m d ancestors) (hread : r.read m = .ok named) (hparent : named.parent = some p) :
    ∃ parent rest, ancestors = parent :: rest ∧ r.Lineage p.module parent rest := by
  cases h with
  | root hread' hparent' =>
      obtain rfl := Except.ok.inj (hread.symm.trans hread')
      exact absurd (hparent'.symm.trans hparent) (by simp)
  | child hread' hparent' hrest =>
      obtain rfl := Except.ok.inj (hread.symm.trans hread')
      obtain rfl := Option.some.inj (hparent.symm.trans hparent')
      exact ⟨_, _, rfl, hrest⟩

/-! ## Loading -/

theorem load_of_unreadable {fault : Fault} (hread : r.read m = .error fault) :
    r.load (depth + 1) m = .error fault := by
  rw [load, hread]
  rfl

theorem load_of_root (hread : r.read m = .ok d) (hparent : d.parent = none) :
    r.load (depth + 1) m = .ok d := by
  simp only [load, hread, bind, Except.bind, hparent]
  rfl

theorem load_of_child {p : ParentReference} (hread : r.read m = .ok d)
    (hparent : d.parent = some p) :
    r.load (depth + 1) m = (r.load depth p.module).map d.inherit := by
  simp only [load, hread, bind, Except.bind, hparent]
  rfl

/-- A module version loads exactly if it has a lineage that is short enough. -/
theorem load_eq_ok_iff {merged : Document} :
    r.load depth m = .ok merged ↔
      ∃ d ancestors, r.Lineage m d ancestors ∧ ancestors.length < depth ∧
        merged = d.under ancestors := by
  constructor
  -- success is followed up the parents level by level, and a lineage is loaded from its end
  · intro h
    induction depth generalizing m merged with
    | zero => exact absurd h (by simp [load])
    | succ depth ih =>
        cases hread : r.read m with
        | error fault => exact absurd h (by simp [load_of_unreadable hread])
        | ok d =>
            cases hparent : d.parent with
            | none =>
                rw [load_of_root hread hparent] at h
                exact ⟨d, [], .root hread hparent, Nat.succ_pos depth, (Except.ok.inj h).symm⟩
            | some p =>
                rw [load_of_child hread hparent] at h
                cases hload : r.load depth p.module with
                | error fault => exact absurd h (by simp [hload, Except.map])
                | ok parent =>
                    obtain ⟨nearest, rest, hrest, hlength, rfl⟩ := ih hload
                    rw [hload] at h
                    exact ⟨d, nearest :: rest, .child hread hparent hrest,
                      Nat.succ_lt_succ hlength, (Except.ok.inj h).symm⟩
  · rintro ⟨d, ancestors, hlineage, hlength, rfl⟩
    induction hlineage generalizing depth with
    | root hread hparent =>
        obtain ⟨depth, rfl⟩ := Nat.exists_eq_add_one.2 hlength
        exact load_of_root hread hparent
    | child hread hparent hrest ih =>
        obtain ⟨depth, rfl⟩ := Nat.exists_eq_add_one.2 (Nat.zero_lt_of_lt hlength)
        rw [load_of_child hread hparent, ih (Nat.lt_of_succ_lt_succ hlength)]
        rfl

theorem effective_eq_ok_iff {document : Document} :
    r.effective overrides depth m = .ok document ↔
      ∃ d ancestors, r.Lineage m d ancestors ∧ ancestors.length < depth ∧
        document = d.effective ancestors overrides := by
  unfold effective
  rw [bind_eq_ok_iff]
  constructor
  · rintro ⟨merged, hload, hdocument⟩
    obtain ⟨d, ancestors, hlineage, hlength, rfl⟩ := load_eq_ok_iff.1 hload
    exact ⟨d, ancestors, hlineage, hlength, (Except.ok.inj hdocument).symm⟩
  · rintro ⟨d, ancestors, hlineage, hlength, rfl⟩
    exact ⟨_, load_eq_ok_iff.2 ⟨d, ancestors, hlineage, hlength, rfl⟩, rfl⟩

end Repository

/-! ## Repositories of small texts -/

namespace Repository

open Pom

/-- A repository of POM texts, each given in pieces. -/
def ofTexts (texts : List (ModuleVersion × List String)) : Repository where
  root := ""
  files path :=
    match texts.find? fun text => pomPath "" text.1 = path with
    | some text => .ok (String.ofList (text.2.flatMap String.toList))
    | none => .error .missing

theorem read_ofTexts {texts : List (ModuleVersion × List String)} {m m' : ModuleVersion}
    {pieces : List String} {d : Document}
    (hfind : texts.find? (fun text => pomPath "" text.1 = pomPath "" m) = some (m', pieces))
    (hmark : (pieces.flatMap String.toList).head? ≠ some '\uFEFF')
    (hdocument : let reading := Xml.items (pieces.flatMap String.toList)
      (Document.ofEvents (Xml.nest reading.fault [] reading.items)).toOption = some d) :
    (ofTexts texts).read m = .ok d := by
  have hfile : (ofTexts texts).files (pomPath (ofTexts texts).root m) =
      .ok (String.ofList (pieces.flatMap String.toList)) := by
    simp [ofTexts, hfind]
  have hparse : Document.parse (String.ofList (pieces.flatMap String.toList)) = .ok d := by
    unfold Document.parse Xml.events
    rw [Xml.document_ofList hmark]
    revert hdocument
    simp only
    cases Document.ofEvents _ <;> simp [Except.toOption]
  rw [read, hfile]
  exact hparse

namespace Sample

/-- The text of an element, in pieces. -/
def element (name : String) (content : List String) : List String :=
  ["<", name, ">"] ++ content ++ ["</", name, ">"]

/-- The text of elements that name a module version. -/
def coordinatesText (group artifact version : String) : List String :=
  element "groupId" [group] ++ element "artifactId" [artifact] ++ element "version" [version]

/-- The text of a dependency. -/
def dependencyText (group artifact version : String) (more : List String) : List String :=
  element "dependency" (coordinatesText group artifact version ++ more)

/-- The text of an import of a BOM. -/
def importText (group artifact version : String) : List String :=
  dependencyText group artifact version (element "scope" ["import"] ++ element "type" ["pom"])

/-- The text of a POM that manages some dependencies. -/
def pomText (head : List String) (managed : List (List String)) : List String :=
  element "project"
    (head ++ element "dependencyManagement" (element "dependencies" managed.flatten))

/-- What a dependency is read as. -/
def dependency (group artifact version : String) : Pom.Declaration :=
  ⟨group, artifact, some version, none, false, none, none, []⟩

/-- What an import of a BOM is read as. -/
def bomImport (group artifact version : String) : Pom.Declaration :=
  ⟨group, artifact, some version, some "import", false, none, some "pom", []⟩

/-- The first version of a module of one group. -/
def first (artifact : String) : ModuleVersion :=
  ⟨⟨"org", artifact⟩, "1"⟩

/-- An application manages a library and imports a BOM, whose version is a property of its parent.
The BOM imports another one. A second child of the parent writes the library in another way. One
more POM imports its own child. -/
def repository : Repository := .ofTexts
  [(first "base", pomText (coordinatesText "org" "base" "1" ++
      element "properties" (element "tool" ["0.1"] ++ element "bom" ["1"]))
      [dependencyText "${project.groupId}" "lib" "1.0" []]),
    (first "app", pomText (element "parent" (coordinatesText "org" "base" "1") ++
      element "properties" (element "tool" ["0.2"]))
      [dependencyText "${project.groupId}" "lib" "2.0" [], importText "org" "bom" "${bom}"]),
    (first "other", pomText (element "parent" (coordinatesText "org" "base" "1"))
      [dependencyText "org" "lib" "2.0" []]),
    (first "bom", pomText [] [importText "org" "tools" "1", dependencyText "org" "lib" "9.0" []]),
    (first "tools", pomText (element "properties" (element "tool" ["0.4"]))
      [dependencyText "org" "tool" "${tool}" []]),
    (first "loop", pomText [] [importText "org" "knot" "1"]),
    (first "knot", pomText (element "parent" (coordinatesText "org" "loop" "1")) [])]

def base : Document :=
  ⟨some "org", some "base", some "1", none, none,
    Std.ExtTreeMap.ofList [("tool", "0.1"), ("bom", "1")], [],
    [dependency "${project.groupId}" "lib" "1.0"]⟩

def app : Document :=
  ⟨none, none, none, none, some ⟨"org", "base", "1"⟩, Std.ExtTreeMap.ofList [("tool", "0.2")], [],
    [dependency "${project.groupId}" "lib" "2.0", bomImport "org" "bom" "${bom}"]⟩

def other : Document :=
  ⟨none, none, none, none, some ⟨"org", "base", "1"⟩, ∅, [], [dependency "org" "lib" "2.0"]⟩

def bom : Document :=
  ⟨none, none, none, none, none, ∅, [],
    [bomImport "org" "tools" "1", dependency "org" "lib" "9.0"]⟩

def tools : Document :=
  ⟨none, none, none, none, none, Std.ExtTreeMap.ofList [("tool", "0.4")], [],
    [dependency "org" "tool" "${tool}"]⟩

def loop : Document :=
  ⟨none, none, none, none, none, ∅, [], [bomImport "org" "knot" "1"]⟩

def knot : Document :=
  ⟨none, none, none, none, some ⟨"org", "loop", "1"⟩, ∅, [], []⟩

theorem read_repository :
    repository.read (first "base") = .ok base ∧ repository.read (first "app") = .ok app ∧
      repository.read (first "other") = .ok other ∧ repository.read (first "bom") = .ok bom ∧
      repository.read (first "tools") = .ok tools ∧ repository.read (first "loop") = .ok loop ∧
      repository.read (first "knot") = .ok knot :=
  ⟨read_ofTexts rfl (by decide) (by decide +kernel),
    read_ofTexts rfl (by decide) (by decide +kernel),
    read_ofTexts rfl (by decide) (by decide +kernel),
    read_ofTexts rfl (by decide) (by decide +kernel),
    read_ofTexts rfl (by decide) (by decide +kernel),
    read_ofTexts rfl (by decide) (by decide +kernel),
    read_ofTexts rfl (by decide) (by decide +kernel)⟩

theorem lineage_base : repository.Lineage (first "base") base [] :=
  .root read_repository.1 rfl

theorem lineage_app : repository.Lineage (first "app") app [base] :=
  .child read_repository.2.1 rfl lineage_base

theorem lineage_other : repository.Lineage (first "other") other [base] :=
  .child read_repository.2.2.1 rfl lineage_base

theorem lineage_bom : repository.Lineage (first "bom") bom [] :=
  .root read_repository.2.2.2.1 rfl

theorem lineage_tools : repository.Lineage (first "tools") tools [] :=
  .root read_repository.2.2.2.2.1 rfl

theorem lineage_loop : repository.Lineage (first "loop") loop [] :=
  .root read_repository.2.2.2.2.2.1 rfl

theorem lineage_knot : repository.Lineage (first "knot") knot [loop] :=
  .child read_repository.2.2.2.2.2.2 rfl lineage_loop

/-! ### Effective documents -/

/-- What a caller passes. -/
def caller : Properties :=
  Std.ExtTreeMap.ofList [("util", "caller"), ("extra", "caller")]

/-- A reference to the application, with a property that the caller has as well. -/
def appReference : PomReference :=
  ⟨(first "app").coordinates, Std.ExtTreeMap.ofList [("util", "reference")]⟩

/-- The values that win over those in documents. -/
def given : Properties :=
  caller ∪ appReference.properties

/-- What the parent manages is written as in the child, so it is not inherited. -/
theorem management_app_under : (app.under [base]).management =
    [dependency "${project.groupId}" "lib" "2.0", bomImport "org" "bom" "${bom}"] := rfl

theorem management_app : (app.effective [base] given).management =
    [dependency "org" "lib" "2.0", bomImport "org" "bom" "1"] := by
  have hgroup : (app.merged [base] given).interpolate "${project.groupId}" = "org" :=
    Document.interpolate_of_reference "project.groupId" rfl rfl rfl rfl
  have hbom : (app.merged [base] given).interpolate "${bom}" = "1" :=
    Document.interpolate_of_reference "bom" rfl rfl rfl rfl
  rw [Document.management_effective, management_app_under]
  simp (disch := decide) [dependency, bomImport, Declaration.mapTexts, hgroup, hbom,
    Document.interpolate_of_plain]

/-- What the parent manages is written in another way, so it is inherited. -/
theorem management_other_under : (other.under [base]).management =
    [dependency "org" "lib" "2.0", dependency "${project.groupId}" "lib" "1.0"] := rfl

/-- The entry that is inherited comes to the same module. -/
theorem management_other : (other.effective [base] given).management =
    [dependency "org" "lib" "2.0", dependency "org" "lib" "1.0"] := by
  have hgroup : (other.merged [base] given).interpolate "${project.groupId}" = "org" :=
    Document.interpolate_of_reference "project.groupId" rfl rfl rfl rfl
  rw [Document.management_effective, management_other_under]
  simp (disch := decide) [dependency, Declaration.mapTexts, hgroup,
    Document.interpolate_of_plain]

theorem management_bom : (bom.effective [] given).management =
    [bomImport "org" "tools" "1", dependency "org" "lib" "9.0"] := by
  have hdeclared : (bom.under []).management =
      [bomImport "org" "tools" "1", dependency "org" "lib" "9.0"] := rfl
  rw [Document.management_effective, hdeclared]
  simp (disch := decide) [dependency, bomImport, Declaration.mapTexts,
    Document.interpolate_of_plain]

theorem management_tools : (tools.effective [] given).management =
    [dependency "org" "tool" "0.4"] := by
  have htool : (tools.merged [] given).interpolate "${tool}" = "0.4" :=
    Document.interpolate_of_reference "tool" rfl rfl rfl rfl
  have hdeclared : (tools.under []).management = [dependency "org" "tool" "${tool}"] := rfl
  rw [Document.management_effective, hdeclared]
  simp (disch := decide) [dependency, Declaration.mapTexts, htool,
    Document.interpolate_of_plain]

end Sample

end Repository

end ManagedGraph
