import ManagedGraph.Toml.Number

/-!
# TOML strings

Strings stand in double quotes, where a backslash starts an escape, or in single quotes,
where everything stands for itself. Three quotes enclose a string of several lines; its
line ends are read as line feeds, and one right after the opening quotes is dropped.
-/

namespace ManagedGraph.Toml

/-- The characters of lines: no controls but the tab. -/
def isPlain (c : Char) : Bool :=
  c == '\t' || (0x20 ≤ c.toNat && c.toNat != 0x7F)

/-- Blanks within a line. -/
def isSpace (c : Char) : Bool :=
  c == ' ' || c == '\t'

/-- The text after its blanks. -/
def skipSpace (s : List Char) : List Char :=
  s.dropWhile isSpace

/-- The text after a line end. -/
def lineEnd : List Char → Option (List Char)
  | '\n' :: rest => some rest
  | '\r' :: '\n' :: rest => some rest
  | _ => none

/-! ## Escapes -/

/-- The character with a number written in digits to base 16. -/
def characterOf (digits : List Char) : Option Char :=
  let n := ofDigits 16 digits
  if digits.all (isDigitOf 16) ∧ n.isValidChar then some (Char.ofNat n) else none

/-- A character given by that many digits. -/
def numbered (count : Nat) (s : List Char) : Option (Char × List Char) := do
  let found := s.take count
  if found.length = count then
    let c ← characterOf found
    some (c, s.drop count)
  else none

/-- What follows a backslash. -/
def escape : Reader Char
  | 'b' :: rest => some ('\x08', rest)
  | 't' :: rest => some ('\t', rest)
  | 'n' :: rest => some ('\n', rest)
  | 'f' :: rest => some ('\x0C', rest)
  | 'r' :: rest => some ('\r', rest)
  | '\x22' :: rest => some ('\x22', rest)
  | '\\' :: rest => some ('\\', rest)
  | 'u' :: rest => numbered 4 rest
  | 'U' :: rest => numbered 8 rest
  | _ => none

/-- The text after the blanks and line ends that a backslash at the end of a line drops. -/
def continued (s : List Char) : Option (List Char) := do
  let rest ← lineEnd (skipSpace s)
  some (skip rest)
where
  /-- The text after blanks and line ends. -/
  skip : List Char → List Char
    | ' ' :: rest => skip rest
    | '\t' :: rest => skip rest
    | '\n' :: rest => skip rest
    | '\r' :: '\n' :: rest => skip rest
    | s => s

/-! ## Strings of one line -/

/-- The rest of a string in double quotes; the first argument bounds its length. -/
def basic : Nat → Reader (List Char)
  | 0, _ => none
  | _ + 1, [] => none
  | bound + 1, c :: rest =>
      if c = '\x22' then some ([], rest)
      else if c = '\\' then do
        let (d, rest) ← escape rest
        let (body, rest) ← basic bound rest
        some (d :: body, rest)
      else if isPlain c then do
        let (body, rest) ← basic bound rest
        some (c :: body, rest)
      else none

/-- The rest of a string in single quotes. -/
def literal : Reader (List Char)
  | [] => none
  | c :: rest =>
      if c = '\x27' then some ([], rest)
      else if isPlain c then do
        let (body, rest) ← literal rest
        some (c :: body, rest)
      else none

/-! ## Strings of several lines -/

/-- What follows three quotes that end a string: up to two more belong to the string. -/
def closing (quote : Char) : List Char → List Char × List Char
  | a :: b :: rest =>
      if a = quote then
        if b = quote then ([a, b], rest) else ([a], b :: rest)
      else ([], a :: b :: rest)
  | [a] => if a = quote then ([a], []) else ([], [a])
  | [] => ([], [])

/-- Whether a text starts with three quotes. -/
def startsWithThree (quote : Char) (s : List Char) : Bool :=
  [quote, quote, quote].isPrefixOf s

/-- The rest of a string in three quotes of a kind; escapes are read if `escapes` is set.
The first number bounds its length. -/
def lines (quote : Char) (escapes : Bool) : Nat → Reader (List Char)
  | 0, _ => none
  | _ + 1, [] => none
  | bound + 1, c :: rest =>
      if startsWithThree quote (c :: rest) then some (closing quote (rest.drop 2))
      else if escapes && c = '\\' then
        match continued rest with
        | some rest => lines quote escapes bound rest
        | none => do
            let (d, rest) ← escape rest
            let (body, rest) ← lines quote escapes bound rest
            some (d :: body, rest)
      else
        match lineEnd (c :: rest) with
        | some rest => do
            let (body, rest) ← lines quote escapes bound rest
            some ('\n' :: body, rest)
        | none =>
            if isPlain c then do
              let (body, rest) ← lines quote escapes bound rest
              some (c :: body, rest)
            else none

/-- What follows the opening quotes of a string of several lines. -/
def linesBody (quote : Char) (escapes : Bool) (s : List Char) :
    Option (List Char × List Char) :=
  let s := (lineEnd s).getD s
  lines quote escapes (s.length + 1) s

/-- A string of one line, its quotes included. -/
def lineString : Reader (List Char)
  | '\x22' :: rest => basic (rest.length + 1) rest
  | '\x27' :: rest => literal rest
  | _ => none

/-- A string of any kind. -/
def string (s : List Char) : Option (List Char × List Char) :=
  if startsWithThree '\x22' s then linesBody '\x22' true (s.drop 3)
  else if startsWithThree '\x27' s then linesBody '\x27' false (s.drop 3)
  else lineString s

end ManagedGraph.Toml
