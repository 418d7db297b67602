import ManagedGraph.Toml.Value

/-!
# TOML numbers and moments

Integers have 64 bits. A float must not be too great for a double; a date must exist.
Each reader takes the start of a text and returns the rest.
-/

namespace ManagedGraph.Toml

/-- What reads a value from the start of a text. -/
abbrev Reader (α : Type) := List Char → Option (α × List Char)

/-! ## Digits -/

/-- Whether a character is a decimal digit. -/
def isDigit (c : Char) : Bool :=
  '0' ≤ c && c ≤ '9'

/-- The value of a digit in a number to base 16 or less. -/
def digitValue (c : Char) : Nat :=
  if '0' ≤ c ∧ c ≤ '9' then c.toNat - '0'.toNat
  else if 'a' ≤ c ∧ c ≤ 'f' then c.toNat - 'a'.toNat + 10
  else if 'A' ≤ c ∧ c ≤ 'F' then c.toNat - 'A'.toNat + 10
  else 16

/-- Whether a character is a digit to a base. -/
def isDigitOf (base : Nat) (c : Char) : Bool :=
  digitValue c < base

/-- The number that digits to a base stand for. -/
def ofDigits (base : Nat) (digits : List Char) : Nat :=
  digits.foldl (fun n c => n * base + digitValue c) 0

/-- Further digits, single underscores between digits left out. -/
def moreDigits (base : Nat) : List Char → List Char × List Char
  | [] => ([], [])
  | '_' :: c :: rest =>
      if isDigitOf base c then
        let parts := moreDigits base rest
        (c :: parts.1, parts.2)
      else ([], '_' :: c :: rest)
  | c :: rest =>
      if isDigitOf base c then
        let parts := moreDigits base rest
        (c :: parts.1, parts.2)
      else ([], c :: rest)

/-- One or more digits. -/
def digits (base : Nat) : Reader (List Char)
  | [] => none
  | c :: rest =>
      if isDigitOf base c then
        let parts := moreDigits base rest
        some (c :: parts.1, parts.2)
      else none

/-- Digits that do not start with a zero, or a zero alone. -/
def plainDigits : Reader (List Char)
  | '0' :: rest => some (['0'], rest)
  | s => digits 10 s

/-- A sign, if there is one; the answer tells whether it is a minus. -/
def sign : List Char → Bool × List Char
  | '+' :: rest => (false, rest)
  | '-' :: rest => (true, rest)
  | s => (false, s)

/-! ## Integers -/

/-- The magnitude of the least integer, which is one more than the greatest. -/
def integerBound : Nat := 0x8000000000000000

/-- An integer with a prefix that gives its base. -/
def based (base : Nat) (s : List Char) : Option (Value × List Char) := do
  let (found, rest) ← digits base s
  let n := ofDigits base found
  if n < integerBound then some (.integer n, rest) else none

/-- An integer. -/
def integer : Reader Value
  | '0' :: 'x' :: rest => based 16 rest
  | '0' :: 'o' :: rest => based 8 rest
  | '0' :: 'b' :: rest => based 2 rest
  | s => do
      let (negative, s) := sign s
      let (found, rest) ← plainDigits s
      let n := ofDigits 10 found
      if negative then
        if n ≤ integerBound then some (.integer (-n), rest) else none
      else
        if n < integerBound then some (.integer n, rest) else none

/-! ## Floats -/

/-- Half a step above the greatest double: from here on numbers are too great. -/
def floatBound : Nat := Nat.pow 2 1024 - Nat.pow 2 970

/-- Whether `mantissa` times ten to the `exponent` is too great for a double. -/
def overflows (mantissa : Nat) (exponent : Int) : Bool :=
  if mantissa = 0 then false
  else
    -- the number has `size` digits before its point, and the bound has 309
    let size : Int := (toString mantissa).length + exponent
    if size ≤ 308 then false
    else if 310 ≤ size then true
    else if 0 ≤ exponent then floatBound ≤ mantissa * Nat.pow 10 exponent.toNat
    else floatBound * Nat.pow 10 (-exponent).toNat ≤ mantissa

/-- The exponent of a float, which starts with an E. -/
def exponentPart : Reader Int
  | c :: rest =>
      if c = 'e' ∨ c = 'E' then do
        let (negative, rest) := sign rest
        let (found, rest) ← digits 10 rest
        let n : Int := ofDigits 10 found
        some (if negative then -n else n, rest)
      else none
  | [] => none

/-- A float that is no number. -/
def specialFloat : Reader Value
  | 'i' :: 'n' :: 'f' :: rest => some (.float "inf", rest)
  | 'n' :: 'a' :: 'n' :: rest => some (.float "nan", rest)
  | _ => none

/-- The fraction and the exponent of a float, at least one of which must be there. -/
def floatTail (s : List Char) : Option (List Char × Int × List Char) :=
  match s with
  | '.' :: rest => do
      let (fraction, rest) ← digits 10 rest
      match exponentPart rest with
      | some (e, rest) => some (fraction, e, rest)
      | none => some (fraction, 0, rest)
  | _ => do
      let (e, rest) ← exponentPart s
      some ([], e, rest)

/-- A float. One that is too small is taken for negative infinity. -/
def float (s : List Char) : Option (Value × List Char) :=
  let (negative, body) := sign s
  match specialFloat body with
  | some found => some found
  | none => do
      let (whole, rest) ← plainDigits body
      let (fraction, exponent, rest) ← floatTail rest
      let found := whole ++ fraction
      if !negative && overflows (ofDigits 10 found) (exponent - fraction.length) then none
      else some (.float (String.ofList found), rest)

/-! ## Moments -/

/-- A number of a fixed count of digits within bounds, and its digits. -/
def field (count low high : Nat) (s : List Char) : Option (List Char × List Char) :=
  let found := s.take count
  if found.length = count ∧ found.all isDigit ∧ low ≤ ofDigits 10 found ∧
      ofDigits 10 found ≤ high then
    some (found, s.drop count)
  else none

/-- A given character. -/
def char (c : Char) : Reader Unit
  | d :: rest => if d = c then some ((), rest) else none
  | [] => none

/-- The number of days of a month. -/
def daysIn (year month : Nat) : Nat :=
  if month = 2 then
    if year % 4 = 0 ∧ (year % 100 ≠ 0 ∨ year % 400 = 0) then 29 else 28
  else if month = 4 ∨ month = 6 ∨ month = 9 ∨ month = 11 then 30
  else 31

/-- A date that exists. -/
def date (s : List Char) : Option (List Char × List Char) := do
  let (year, s) ← field 4 0 9999 s
  let ((), s) ← char '-' s
  let (month, s) ← field 2 1 12 s
  let ((), s) ← char '-' s
  let (day, s) ← field 2 1 31 s
  if ofDigits 10 day ≤ daysIn (ofDigits 10 year) (ofDigits 10 month) then
    some (year ++ ['-'] ++ month ++ ['-'] ++ day, s)
  else none

/-- The fraction of a second to nine digits, without zeros at its end. -/
def secondFraction (s : List Char) : List Char × List Char :=
  match s with
  | '.' :: rest =>
      let found := rest.takeWhile isDigit
      if found.isEmpty then ([], s)
      else
        let kept := ((found.take 9).reverse.dropWhile fun c => c == '0').reverse
        (if kept.isEmpty then [] else '.' :: kept, rest.dropWhile isDigit)
  | _ => ([], s)

/-- A time of day. -/
def time (s : List Char) : Option (List Char × List Char) := do
  let (hour, s) ← field 2 0 23 s
  let ((), s) ← char ':' s
  let (minute, s) ← field 2 0 59 s
  let ((), s) ← char ':' s
  let (second, s) ← field 2 0 60 s
  let (fraction, s) := secondFraction s
  some (hour ++ [':'] ++ minute ++ [':'] ++ second ++ fraction, s)

/-- The offset of a time. -/
def offset (s : List Char) : Option (List Char × List Char) :=
  match s with
  | c :: rest =>
      if c = 'Z' ∨ c = 'z' then some (['Z'], rest)
      else if c = '+' ∨ c = '-' then do
        let (hour, rest) ← field 2 0 23 rest
        let ((), rest) ← char ':' rest
        let (minute, rest) ← field 2 0 59 rest
        let shown := if ofDigits 10 hour + ofDigits 10 minute = 0 then '+' else c
        some (shown :: hour ++ [':'] ++ minute, rest)
      else none
  | [] => none

/-- What follows a date: a time and perhaps an offset. -/
def timeAfterDate (s : List Char) : Option (List Char × List Char) :=
  match s with
  | c :: rest =>
      if c = 'T' ∨ c = 't' ∨ c = ' ' then do
        let (clock, rest) ← time rest
        match offset rest with
        | some (shift, rest) => some ('T' :: clock ++ shift, rest)
        | none => some ('T' :: clock, rest)
      else none
  | [] => none

/-- A date, a time or both. -/
def moment (s : List Char) : Option (Value × List Char) :=
  match date s with
  | some (day, rest) =>
      match timeAfterDate rest with
      | some (clock, rest) => some (.moment (String.ofList (day ++ clock)), rest)
      | none => some (.moment (String.ofList day), rest)
  | none => do
      let (clock, rest) ← time s
      some (.moment (String.ofList clock), rest)

/-- A number or a moment. -/
def number (s : List Char) : Option (Value × List Char) :=
  match moment s with
  | some found => some found
  | none =>
      match float s with
      | some found => some found
      | none => integer s

end ManagedGraph.Toml
