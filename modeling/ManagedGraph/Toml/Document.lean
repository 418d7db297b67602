import ManagedGraph.Toml.Quoted
import ManagedGraph.Toml.Tree

/-!
# Reading TOML documents

A document is read line by line into statements, from which its tables are built. Arrays,
inline tables and dotted keys are limited in depth.

The readers of nested values and of lists are bounded by a number that starts at the
length of the text and that no text exhausts.
-/

namespace ManagedGraph.Toml

/-- The depth of arrays and inline tables, and the length of dotted keys, stay below this. -/
def depthLimit : Nat := 80

/-! ## Keys -/

/-- The characters of keys without quotes. -/
def isKeyChar (c : Char) : Bool :=
  isDigit c || ('a' ≤ c && c ≤ 'z') || ('A' ≤ c && c ≤ 'Z') || c == '_' || c == '-'

/-- One step of a key. -/
def keyStep (s : List Char) : Option (String × List Char) :=
  match lineString s with
  | some (body, rest) => some (String.ofList body, rest)
  | none =>
      let found := s.takeWhile isKeyChar
      if found.isEmpty then none else some (String.ofList found, s.dropWhile isKeyChar)

/-- The steps of a dotted key, with the blanks around them. -/
def keySteps : Nat → Reader (List String)
  | 0, _ => none
  | bound + 1, s => do
      let (step, rest) ← keyStep (skipSpace s)
      match skipSpace rest with
      | '.' :: rest => do
          let (more, rest) ← keySteps bound rest
          some (step :: more, rest)
      | rest => some ([step], rest)

/-- A dotted key: the steps before the last one, and the last. -/
def key (s : List Char) : Option ((List String × String) × List Char) := do
  let (steps, rest) ← keySteps (s.length + 1) s
  let last ← steps.getLast?
  if steps.length < depthLimit then some ((steps.dropLast, last), rest) else none

/-! ## Blanks and comments -/

/-- The text after a comment, if one starts here. -/
def skipComment (s : List Char) : List Char :=
  match s with
  | '#' :: rest => rest.dropWhile isPlain
  | _ => s

/-- The text after the rest of a line that holds only blanks and a comment. -/
def restOfLine (s : List Char) : Option (List Char) :=
  match skipComment (skipSpace s) with
  | [] => some []
  | rest => lineEnd rest

/-- The text after blanks, comments and line ends. -/
def skipLines : Nat → List Char → List Char
  | 0, s => s
  | bound + 1, s =>
      match lineEnd (skipComment (skipSpace s)) with
      | some rest => skipLines bound rest
      | none => skipSpace s

/-- The text after all blanks, comments and line ends. -/
def skipBlankLines (s : List Char) : List Char :=
  skipLines (s.length + 1) s

/-! ## Values -/

/-- A word and what it stands for. -/
def word (text : String) (value : Value) (s : List Char) : Option (Value × List Char) :=
  (text.toList.isPrefixOf? s).map fun rest => (value, rest)

mutual

/-- A value inside that many arrays and inline tables. -/
def value (bound : Nat) (depth : Nat) (s : List Char) : Option (Value × List Char) :=
  match bound with
  | 0 => none
  | bound + 1 =>
      match s with
      | [] => none
      | c :: rest =>
          if c = '\x22' ∨ c = '\x27' then
            (string s).map fun parts => (.string (String.ofList parts.1), parts.2)
          else if c = '[' then
            if depth + 1 < depthLimit then
              (arrayItems bound (depth + 1) rest).map fun parts => (.array parts.1, parts.2)
            else none
          else if c = '\x7b' then
            if depth + 1 < depthLimit then
              match skipSpace rest with
              | '\x7d' :: rest => some (.table .inline [], rest)
              | rest => do
                  let (entries, rest) ← inlineEntries bound (depth + 1) rest
                  let table ← buildInline entries
                  some (.table .inline table, rest)
            else none
          else if c = '+' ∨ c = '-' ∨ isDigit c then number s
          else if c = 't' then word "true" (.boolean true) s
          else if c = 'f' then word "false" (.boolean false) s
          else specialFloat s

/-- The rest of an array, from its start or from after a comma. -/
def arrayItems (bound : Nat) (depth : Nat) (s : List Char) :
    Option (List Value × List Char) :=
  match bound with
  | 0 => none
  | bound + 1 =>
      match skipBlankLines s with
      | ']' :: rest => some ([], rest)
      | s => do
          let (first, rest) ← value bound depth s
          match skipBlankLines rest with
          | ',' :: rest => do
              let (more, rest) ← arrayItems bound depth rest
              some (first :: more, rest)
          | ']' :: rest => some ([first], rest)
          | _ => none

/-- The rest of an inline table that is not empty, or from after a comma. -/
def inlineEntries (bound : Nat) (depth : Nat) (s : List Char) :
    Option (List (List String × String × Value) × List Char) :=
  match bound with
  | 0 => none
  | bound + 1 => do
      let ((path, last), rest) ← key s
      match rest with
      | '=' :: rest => do
          let (v, rest) ← value bound depth (skipSpace rest)
          match skipSpace rest with
          | ',' :: rest => do
              let (more, rest) ← inlineEntries bound depth rest
              some ((path, last, v) :: more, rest)
          | '\x7d' :: rest => some ([(path, last, v)], rest)
          | _ => none
      | _ => none

end

/-! ## Statements -/

/-- One statement and the text after its line. -/
def statement (s : List Char) : Option (Statement × List Char) :=
  match s with
  | '[' :: '[' :: rest => do
      let ((path, last), rest) ← key rest
      match rest with
      | ']' :: ']' :: rest => do
          let rest ← restOfLine rest
          some (.element path last, rest)
      | _ => none
  | '[' :: rest => do
      let ((path, last), rest) ← key rest
      match rest with
      | ']' :: rest => do
          let rest ← restOfLine rest
          some (.header path last, rest)
      | _ => none
  | _ => do
      let ((path, last), rest) ← key s
      match rest with
      | '=' :: rest => do
          let s := skipSpace rest
          let (v, rest) ← value (2 * s.length + 2) 0 s
          let rest ← restOfLine rest
          some (.entry path last v, rest)
      | _ => none

/-- The statements of a text. -/
def statements : Nat → List Char → Option (List Statement)
  | 0, _ => none
  | bound + 1, s =>
      match restOfLine s with
      | some [] => some []
      | some rest => statements bound rest
      | none => do
          let (first, rest) ← statement (skipSpace s)
          let more ← statements bound rest
          some (first :: more)

/-- The top table of a document, which may start with a byte order mark. -/
def document (s : String) : Option Entries :=
  let cs :=
    match s.toList with
    | '\uFEFF' :: rest => rest
    | cs => cs
  (statements (cs.length + 1) cs).bind buildTree

end ManagedGraph.Toml
