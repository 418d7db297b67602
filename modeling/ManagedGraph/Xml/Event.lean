import ManagedGraph.Xml.Item

/-!
# The events of an XML text

The items of a text whose closing tags each name the innermost open element. Elements
that are still open at the end are no fault.
-/

namespace ManagedGraph.Xml

/-- What a reader of a document is told. -/
inductive Event where
  /-- An element starts. -/
  | opening (name : String)
  /-- The innermost open element ends. -/
  | closing
  /-- Text, with its entities as written. -/
  | text (raw : String)
  /-- The content of a character data section. -/
  | cdata (content : String)
deriving DecidableEq, Repr

/-- The events of some items inside the given open elements, innermost first. -/
def nest (fault : Option Fault) : List String → List Item → Reading Event
  | _, [] => .ended fault
  | openNames, .opening name :: rest => (nest fault (name :: openNames) rest).cons (.opening name)
  | openNames, .closing name :: rest =>
      match openNames with
      | [] => .ended (some (.unexpectedClosing name))
      | inner :: outer =>
          if inner = name then (nest fault outer rest).cons .closing
          else .ended (some (.mismatchedClosing inner name))
  | openNames, .text raw :: rest => (nest fault openNames rest).cons (.text raw)
  | openNames, .cdata content :: rest => (nest fault openNames rest).cons (.cdata content)
  | openNames, .ignored :: rest => nest fault openNames rest

/-- The events of a document. -/
def events (s : String) : Reading Event :=
  let reading := document s
  nest reading.fault [] reading.items

end ManagedGraph.Xml
