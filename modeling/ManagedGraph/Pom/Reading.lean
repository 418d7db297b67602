import ManagedGraph.Pom.Document
import ManagedGraph.Pom.Fault
import ManagedGraph.Xml.Event

/-!
# Reading a POM

A document is gathered from the events of its XML text. The gatherer keeps the path of
open elements, the last text since the last tag, and the declaration, exclusion and parent
reference that are under way. Sections that are not about dependencies leave no trace.
-/

namespace ManagedGraph.Pom

/-- A document on its way: what is open and what is complete. -/
structure Gathering where
  /-- The open elements, innermost first. -/
  path : List String
  /-- The last text since the last tag. -/
  text : String
  declaration : Option Declaration
  exclusion : Option DeclaredExclusion
  parent : Option ParentReference
  document : Document
deriving DecidableEq

namespace Gathering

/-- Nothing read yet. -/
def start : Gathering :=
  ⟨[], "", none, none, none, Document.blank⟩

/-! ## Where the reader is -/

/-- The path of a declared dependency. -/
def dependencyPath : List String := ["dependency", "dependencies", "project"]

/-- The path of a managed dependency. -/
def managedPath : List String :=
  ["dependency", "dependencies", "dependencyManagement", "project"]

/-- The path of the parent reference. -/
def parentPath : List String := ["parent", "project"]

/-- Whether a path is that of a declaration. -/
def isDeclaration (path : List String) : Bool :=
  path == dependencyPath || path == managedPath

/-- A path as one text, outermost first, with `>` before each step but the first. -/
def pathText (path : List String) : List Char :=
  ['>'].intercalate (path.reverse.map String.toList)

/-- Whether the innermost steps of a path are these, given as one text. -/
def endsIn (path : List String) (tail : List Char) : Bool :=
  tail.isSuffixOf (pathText path)

/-! ## The events -/

/-- An element starts. -/
def opening (g : Gathering) (name : String) : Gathering :=
  let path := name :: g.path
  let g := { g with path := path, text := "" }
  if isDeclaration path then
    { g with declaration := some Declaration.blank }
  -- an exclusion counts wherever it stands below a declaration
  else if endsIn path ">exclusions>exclusion".toList && g.declaration.isSome then
    { g with exclusion := some ⟨"", none⟩ }
  else if path = parentPath then
    { g with parent := some ⟨"", "", ""⟩ }
  else g

/-- The end of an element below an exclusion, or of the exclusion itself. -/
def closeInExclusion (g : Gathering) (name : String) (e : DeclaredExclusion) : Gathering :=
  match name with
  | "groupId" => { g with exclusion := some { e with group := g.text } }
  | "artifactId" => { g with exclusion := some { e with artifact := some g.text } }
  | "exclusion" =>
      { g with
        exclusion := none
        declaration := g.declaration.map fun d => { d with exclusions := d.exclusions ++ [e] } }
  | _ => g

/-- The declaration after the end of one of its fields. -/
def setField (d : Declaration) (name text : String) : Declaration :=
  match name with
  | "groupId" => { d with group := text }
  | "artifactId" => { d with artifact := text }
  | "version" => { d with version := some text }
  | "scope" => { d with scope := some text }
  | "optional" => { d with optional := Text.trim text.toList == "true".toList }
  | "classifier" => { d with classifier := some text }
  | "type" => { d with type := some text }
  | _ => d

/-- The end of an element below a declaration, or of the declaration itself. -/
def closeInDeclaration (g : Gathering) (name : String) (d : Declaration) : Gathering :=
  let d :=
    if endsIn g.path (">dependency>".toList ++ name.toList) then setField d name g.text else d
  if g.path = managedPath then
    { g with
      declaration := none
      document := { g.document with management := g.document.management ++ [d] } }
  else if g.path = dependencyPath then
    { g with
      declaration := none
      document := { g.document with dependencies := g.document.dependencies ++ [d] } }
  else { g with declaration := some d }

/-- The end of an element below the parent reference, or of the reference itself. -/
def closeInParent (g : Gathering) (p : ParentReference) : Gathering :=
  if g.path = "groupId" :: parentPath then
    { g with parent := some { p with group := g.text } }
  else if g.path = "artifactId" :: parentPath then
    { g with parent := some { p with artifact := g.text } }
  else if g.path = "version" :: parentPath then
    { g with parent := some { p with version := g.text } }
  else if g.path = parentPath then
    { g with parent := none, document := { g.document with parent := some p } }
  else g

/-- The document after the end of one of its own fields. -/
def setOwn (d : Document) (name text : String) : Document :=
  match name with
  | "groupId" => { d with group := some text }
  | "artifactId" => { d with artifact := some text }
  | "version" => { d with version := some text }
  | "packaging" => { d with packaging := some text }
  | _ => d

/-- What the end of the innermost element adds, before the element is left. -/
def record (g : Gathering) : Gathering :=
  match g.path with
  | [name, "properties", _] =>
      { g with
        document := { g.document with properties := g.document.properties.insert name g.text } }
  | [] => g
  | name :: outer =>
      -- the innermost part under way takes the text
      match g.exclusion with
      | some e => g.closeInExclusion name e
      | none =>
          match g.declaration with
          | some d => g.closeInDeclaration name d
          | none =>
              match g.parent with
              | some p => g.closeInParent p
              | none =>
                  if outer.length = 1 then
                    { g with document := setOwn g.document name g.text }
                  else g

/-- The innermost element ends. -/
def closing (g : Gathering) : Gathering :=
  { g.record with path := g.path.tail, text := "" }

/-- One event. -/
def step (g : Gathering) : Xml.Event → Except Fault Gathering
  | .opening name => .ok (g.opening name)
  | .closing => .ok g.closing
  | .cdata content => .ok { g with text := content }
  | .text raw =>
      match Xml.decode raw with
      | .ok text => .ok { g with text := text }
      | .error fault => .error (.invalidText fault)

/-- A sequence of events. -/
def steps (g : Gathering) : List Xml.Event → Except Fault Gathering
  | [] => .ok g
  | e :: rest =>
      match g.step e with
      | .ok g => g.steps rest
      | .error fault => .error fault

end Gathering

namespace Document

/-- The document that a reading of events gives; the first fault counts. -/
def ofEvents (reading : Xml.Reading Xml.Event) : Except Fault Document :=
  match Gathering.start.steps reading.items with
  | .error fault => .error fault
  | .ok g =>
      match reading.fault with
      | some fault => .error (.invalidMarkup fault)
      | none => .ok g.document

/-- The document that an XML text holds. -/
def parse (xml : String) : Except Fault Document :=
  ofEvents (Xml.events xml)

end Document

end ManagedGraph.Pom
