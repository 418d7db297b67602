import ManagedGraph.Toml.Value

/-!
# Building TOML tables

A document is a list of statements: headers of tables and keys with their values. Each
table can be defined once: a dotted key extends only tables that came about by dotted keys,
and a header takes up only a table that was implied by other headers.
-/

namespace ManagedGraph.Toml

/-- A statement of a document. -/
inductive Statement where
  /-- A value under a dotted key, given by the steps before its last one and the last. -/
  | entry (path : List String) (key : String) (value : Value)
  /-- The header of a table. -/
  | header (path : List String) (key : String)
  /-- The header of a new element of an array of tables. -/
  | element (path : List String) (key : String)

/-- Puts a value under a key that has none. -/
def addEntry (entries : Entries) (key : String) (value : Value) : Option Entries :=
  match entries.get? key with
  | some _ => none
  | none => some (entries.put key value)

/-- Puts a value under a dotted key; `mayEnd` tells whether the path may end here. -/
def addDotted (key : String) (value : Value) :
    Bool → List String → Entries → Option Entries
  | mayEnd, [], entries => if mayEnd then addEntry entries key value else none
  | _, step :: path, entries =>
      match entries.get? step with
      | none => do
          let inner ← addDotted key value true path []
          some (entries.put step (.table .dotted inner))
      | some (.table .dotted inner) => do
          let inner ← addDotted key value true path inner
          some (entries.put step (.table .dotted inner))
      -- headers own this table: a dotted key may pass through it but not end in it
      | some (.table .implied inner) => do
          let inner ← addDotted key value false path inner
          some (entries.put step (.table .implied inner))
      | some (.tables elements) =>
          match elements.getLast? with
          | none => none
          | some last => do
              let last ← addDotted key value false path last
              some (entries.put step (.tables (elements.dropLast ++ [last])))
      | some _ => none

/-- Changes the table that the steps of a header lead to; missing tables are implied, and
an array of tables stands for its last element. -/
def changeAt (f : Entries → Option Entries) : List String → Entries → Option Entries
  | [], entries => f entries
  | step :: path, entries =>
      match entries.get? step with
      | none => do
          let inner ← changeAt f path []
          some (entries.put step (.table .implied inner))
      | some (.table .inline _) => none
      | some (.table origin inner) => do
          let inner ← changeAt f path inner
          some (entries.put step (.table origin inner))
      | some (.tables elements) =>
          match elements.getLast? with
          | none => none
          | some last => do
              let last ← changeAt f path last
              some (entries.put step (.tables (elements.dropLast ++ [last])))
      | some _ => none

/-- Where the entries of the current header go. -/
inductive Place where
  /-- To the top of the document. -/
  | top
  /-- To a table. -/
  | table (path : List String) (key : String)
  /-- To a new element of an array of tables. -/
  | element (path : List String) (key : String)

/-- A document under way: the tables that are complete and the current one. -/
structure Building where
  complete : Entries
  current : Entries
  place : Place

namespace Building

/-- Nothing read yet. -/
def start : Building :=
  ⟨[], [], .top⟩

/-- The document with the current table put in its place. -/
def finish (b : Building) : Option Entries :=
  match b.place with
  | .top => some b.current
  | .table path key =>
      changeAt (fun entries => some (entries.put key (.table .header b.current))) path b.complete
  | .element path key =>
      changeAt (fun entries =>
        match entries.get? key with
        | none => some (entries.put key (.tables [b.current]))
        | some (.tables elements) => some (entries.put key (.tables (elements ++ [b.current])))
        | some _ => none) path b.complete

/-- The entries that a header takes up: those of an implied table, or none. -/
def takeUp (path : List String) (key : String) (complete : Entries) : Option Entries :=
  match path with
  | [] =>
      match complete.get? key with
      | none => some []
      | some (.table .implied entries) => some entries
      | some _ => none
  | step :: path =>
      match complete.get? step with
      | none => some []
      | some (.table .inline _) => none
      | some (.table _ inner) => takeUp path key inner
      | some (.tables elements) =>
          match elements.getLast? with
          | none => none
          | some last => takeUp path key last
      | some _ => none

/-- Whether an array of tables can have its header here. -/
def takesElement (path : List String) (key : String) (complete : Entries) : Bool :=
  (changeAt (fun entries =>
    match entries.get? key with
    | none => some entries
    | some (.tables _) => some entries
    | some _ => none) path complete).isSome

/-- One statement. -/
def step (b : Building) : Statement → Option Building
  | .entry path key value => do
      let current ← addDotted key value path.isEmpty path b.current
      some { b with current := current }
  | .header path key => do
      let complete ← b.finish
      let taken ← takeUp path key complete
      some ⟨complete, taken, .table path key⟩
  | .element path key => do
      let complete ← b.finish
      if takesElement path key complete then some ⟨complete, [], .element path key⟩ else none

end Building

/-- The top table of a document. -/
def buildTree (statements : List Statement) : Option Entries := do
  let b ← statements.foldlM Building.step Building.start
  b.finish

/-- The table of inline entries, each a dotted key with its value. -/
def buildInline (entries : List (List String × String × Value)) : Option Entries :=
  entries.foldlM (fun table e => addDotted e.2.1 e.2.2 e.1.isEmpty e.1 table) []

end ManagedGraph.Toml
