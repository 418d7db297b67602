/-!
# TOML values

A table remembers how it came about, since that decides whether it can be extended.
-/

namespace ManagedGraph.Toml

/-- How a table came about. -/
inductive Origin where
  /-- By a header of its own. -/
  | header
  /-- As a step in the header of another table. -/
  | implied
  /-- As a step in a dotted key. -/
  | dotted
  /-- As an inline table. -/
  | inline
deriving DecidableEq, Repr

/-- A TOML value. -/
inductive Value where
  | string (text : String)
  | integer (value : Int)
  /-- A float, as it is written. -/
  | float (text : String)
  | boolean (value : Bool)
  /-- A date, a time or both, in normal form. -/
  | moment (text : String)
  | array (items : List Value)
  | table (origin : Origin) (entries : List (String × Value))
  /-- An array of tables that each have a header. -/
  | tables (elements : List (List (String × Value)))

/-- The entries of a table. -/
abbrev Entries := List (String × Value)

/-- The value of a key. -/
def Entries.get? (entries : Entries) (key : String) : Option Value :=
  (entries.find? fun entry => entry.1 == key).map Prod.snd

/-- Gives a key a value, in the place of the one it has, if any. -/
def Entries.put (entries : Entries) (key : String) (value : Value) : Entries :=
  match entries with
  | [] => [(key, value)]
  | entry :: rest =>
      if entry.1 = key then (key, value) :: rest else entry :: Entries.put rest key value

end ManagedGraph.Toml
