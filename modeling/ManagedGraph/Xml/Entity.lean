/-!
# Entities in XML text

Text stands for itself but for references from `&` to `;`: the five named ones and the
characters given by number. Positions in faults count bytes from the start of the text.
-/

namespace ManagedGraph.Xml

/-- Why a character reference gives no character. -/
inductive ReferenceFault where
  /-- The number has a sign. -/
  | signed
  /-- There is no number. -/
  | empty
  /-- Something in the number is no digit. -/
  | invalidDigit
  /-- The number does not fit 32 bits. -/
  | tooLarge
  /-- The number is zero. -/
  | zero
  /-- The number is no character. -/
  | invalidCharacter (code : Nat)
deriving DecidableEq, Repr

namespace ReferenceFault

/-- The text of a fault. -/
def message : ReferenceFault → String
  | signed => "unexpected number sign"
  | empty => "cannot parse integer from empty string"
  | invalidDigit => "invalid digit found in string"
  | tooLarge => "number too large to fit in target type"
  | zero => "0x0 character is not permitted in XML"
  | invalidCharacter code => "`" ++ toString code ++ "` is not a valid codepoint"

end ReferenceFault

/-- Why a text cannot be decoded. -/
inductive EntityFault where
  /-- A reference names no known entity. -/
  | unknown (start stop : Nat) (name : String)
  /-- A reference has no end. -/
  | unterminated (start stop : Nat)
  /-- A reference by number gives no character. -/
  | invalidReference (fault : ReferenceFault)
deriving DecidableEq, Repr

namespace EntityFault

/-- The text of a fault. -/
def message : EntityFault → String
  | unknown start stop name =>
      "at " ++ toString start ++ ".." ++ toString stop ++ ": unrecognized entity `" ++ name ++ "`"
  | unterminated start stop =>
      "Error while escaping character at range " ++ toString start ++ ".." ++ toString stop ++
        ": Cannot find ';' after '&'"
  | invalidReference fault => "invalid character reference: " ++ fault.message

end EntityFault

/-- The number of bytes a text takes. -/
def byteLength : List Char → Nat
  | [] => 0
  | c :: rest => c.utf8Size + byteLength rest

/-! ## References by number -/

/-- The value of a digit in a number to base 10 or 16. -/
def digit? (base : Nat) (c : Char) : Option Nat :=
  if '0' ≤ c ∧ c ≤ '9' then some (c.toNat - '0'.toNat)
  else if base = 16 ∧ 'a' ≤ c ∧ c ≤ 'f' then some (c.toNat - 'a'.toNat + 10)
  else if base = 16 ∧ 'A' ≤ c ∧ c ≤ 'F' then some (c.toNat - 'A'.toNat + 10)
  else none

/-- Numbers of references stay below this. -/
def numberBound : Nat := 0x100000000

/-- The number that digits add to `value`. The first fault from the left counts. -/
def readDigits (base : Nat) (value : Nat) : List Char → Except ReferenceFault Nat
  | [] => .ok value
  | c :: rest =>
      match digit? base c with
      | none => .error .invalidDigit
      | some d =>
          if value * base + d < numberBound then readDigits base (value * base + d) rest
          else .error .tooLarge

/-- An unsigned number. -/
def readNumber (base : Nat) (s : List Char) : Except ReferenceFault Nat :=
  match s with
  | [] => .error .empty
  | c :: _ => if c = '+' ∨ c = '-' then .error .signed else readDigits base 0 s

/-- The character with a number. -/
def characterOf (code : Nat) : Except ReferenceFault Char :=
  if code = 0 then .error .zero
  else if code.isValidChar then .ok (Char.ofNat code)
  else .error (.invalidCharacter code)

/-- The character that `&#` and these digits stand for; an `x` marks base 16. -/
def readReference (s : List Char) : Except ReferenceFault Char :=
  match s with
  | 'x' :: digits => readNumber 16 digits >>= characterOf
  | digits => readNumber 10 digits >>= characterOf

/-! ## Named entities -/

/-- The character a name stands for. -/
def named? (name : List Char) : Option Char :=
  if name = ['l', 't'] then some '<'
  else if name = ['g', 't'] then some '>'
  else if name = ['a', 'm', 'p'] then some '&'
  else if name = ['a', 'p', 'o', 's'] then some '\x27'
  else if name = ['q', 'u', 'o', 't'] then some '\x22'
  else none

/-- What a reference stands for, its name being found at a byte position. -/
def resolveEntity (start : Nat) (name : List Char) : Except EntityFault Char :=
  match name with
  | '#' :: number =>
      match readReference number with
      | .ok c => .ok c
      | .error fault => .error (.invalidReference fault)
  | _ =>
      match named? name with
      | some c => .ok c
      | none => .error (.unknown start (start + byteLength name) (String.ofList name))

/-! ## Decoding -/

/-- Whether a character can stand inside a reference. -/
def isEntityName (c : Char) : Bool :=
  c != '&' && c != ';'

/-- Decodes the rest of a text of `total` bytes that starts at byte `start`. -/
def decodeFrom (total : Nat) (start : Nat) (s : List Char) : Except EntityFault (List Char) :=
  match s with
  | [] => .ok []
  | c :: rest =>
      if c = '&' then
        match _h : rest.dropWhile isEntityName with
        | ';' :: after =>
            let name := rest.takeWhile isEntityName
            match resolveEntity (start + 1) name with
            | .error fault => .error fault
            | .ok d =>
                (decodeFrom total (start + byteLength name + 2) after).map (d :: ·)
        | _ => .error (.unterminated start total)
      else
        (decodeFrom total (start + c.utf8Size) rest).map (c :: ·)
termination_by s.length
decreasing_by
  · have hr := (List.dropWhile_sublist (l := rest) isEntityName).length_le
    rw [_h] at hr
    simp only [List.length_cons] at hr ⊢
    omega
  · simp

@[simp] theorem decodeFrom_nil {total start : Nat} : decodeFrom total start [] = .ok [] := by
  rw [decodeFrom]

/-- A character other than `&` stands for itself. -/
theorem decodeFrom_of_ne {total start : Nat} {c : Char} {rest : List Char} (hc : c ≠ '&') :
    decodeFrom total start (c :: rest) =
      (decodeFrom total (start + c.utf8Size) rest).map (c :: ·) := by
  rw [decodeFrom, if_neg hc]

/-- The text that a written text stands for. -/
def decode (raw : String) : Except EntityFault String :=
  (decodeFrom (byteLength raw.toList) 0 raw.toList).map String.ofList

end ManagedGraph.Xml
