import ManagedGraph.Text.Blank
import ManagedGraph.Text.Search

/-!
# The items of an XML text

An XML text is read as a sequence of items: text between markup, tags, character data
sections, and markup that carries nothing. Blanks after markup and before the next markup
are dropped. Reading stops at the first fault, so a reading is a list of items and the
fault that ended it, if any.

Attributes are not looked into. An empty element `<n/>` carries nothing.
-/

namespace ManagedGraph.Xml

/-- Why a text is not XML. -/
inductive Fault where
  /-- What follows a `<!` starts no markup. -/
  | unknownMarkup
  /-- A processing instruction has no end. -/
  | unclosedInstruction
  /-- A comment has no end. -/
  | unclosedComment
  /-- A document type declaration has no end. -/
  | unclosedDoctype
  /-- A character data section has no end. -/
  | unclosedCdata
  /-- A tag has no end. -/
  | unclosedTag
  /-- A document type declaration names no type. -/
  | missingDoctypeName
  /-- A closing tag does not name the innermost open element. -/
  | mismatchedClosing (expected found : String)
  /-- A closing tag has no open element. -/
  | unexpectedClosing (found : String)
deriving DecidableEq, Repr

namespace Fault

/-- The text of a fault. -/
def message : Fault → String
  | unknownMarkup => "syntax error: unknown or missed symbol in markup"
  | unclosedInstruction =>
      "syntax error: processing instruction or xml declaration not closed: " ++
        "`?>` not found before end of input"
  | unclosedComment => "syntax error: comment not closed: `-->` not found before end of input"
  | unclosedDoctype => "syntax error: DOCTYPE not closed: `>` not found before end of input"
  | unclosedCdata => "syntax error: CDATA not closed: `]]>` not found before end of input"
  | unclosedTag => "syntax error: tag not closed: `>` not found before end of input"
  | missingDoctypeName =>
      "ill-formed document: `<!DOCTYPE>` declaration does not contain a name of a document type"
  | mismatchedClosing expected found =>
      "ill-formed document: expected `</" ++ expected ++ ">`, but `</" ++ found ++ ">` was found"
  | unexpectedClosing found =>
      "ill-formed document: close tag `</" ++ found ++ ">` does not match any open tag"

end Fault

/-- What was read, and the fault that ended it. -/
structure Reading (α : Type) where
  items : List α
  fault : Option Fault
deriving DecidableEq, Repr

namespace Reading

/-- A reading that ends without a fault, or at one, and holds nothing. -/
def ended {α : Type} (fault : Option Fault) : Reading α :=
  ⟨[], fault⟩

/-- A reading with one more item in front. -/
def cons {α : Type} (item : α) (r : Reading α) : Reading α :=
  ⟨item :: r.items, r.fault⟩

end Reading

/-- A piece of an XML text. -/
inductive Item where
  /-- Text between markup, with its entities as written. -/
  | text (raw : String)
  /-- A tag that opens an element. -/
  | opening (name : String)
  /-- A tag that closes an element. -/
  | closing (name : String)
  /-- The content of a character data section. -/
  | cdata (content : String)
  /-- An empty element, a comment, an instruction or a document type declaration. -/
  | ignored
deriving DecidableEq, Repr

/-- The blanks of markup: space, tab, line feed and carriage return. -/
def isBlank (c : Char) : Bool :=
  c == ' ' || c == '\t' || c == '\n' || c == '\r'

/-! ## The ends of markup -/

/-- Splits at the first `>` that is not inside quotes; the first argument is the quote
that is open. -/
def splitTag : Option Char → List Char → Option (List Char × List Char)
  | _, [] => none
  | none, c :: rest =>
      if c = '>' then some ([], rest)
      else
        (splitTag (if c = '\x22' ∨ c = '\x27' then some c else none) rest).map
          fun parts => (c :: parts.1, parts.2)
  | some quote, c :: rest =>
      (splitTag (if c = quote then none else some quote) rest).map
        fun parts => (c :: parts.1, parts.2)

/-- Splits at the `>` that is balanced by no `<`; the first argument counts the `<` that
are open. -/
def splitDoctype : Nat → List Char → Option (List Char × List Char)
  | _, [] => none
  | depth, c :: rest =>
      if c = '>' then
        match depth with
        | 0 => some ([], rest)
        | outer + 1 => (splitDoctype outer rest).map fun parts => (c :: parts.1, parts.2)
      else
        (splitDoctype (if c = '<' then depth + 1 else depth) rest).map
          fun parts => (c :: parts.1, parts.2)

/-- The parts of a tag and the `>` between them are the whole text. -/
theorem eq_append_of_splitTag {quote : Option Char} {s body rest : List Char}
    (h : splitTag quote s = some (body, rest)) : s = body ++ '>' :: rest := by
  induction s generalizing quote body with
  | nil => cases quote <;> simp [splitTag] at h
  | cons c tail ih =>
      cases quote with
      | none =>
          unfold splitTag at h
          split at h
          · rename_i hc
            simp only [Option.some.injEq, Prod.mk.injEq] at h
            rcases h with ⟨rfl, rfl⟩
            rw [hc]
            rfl
          · simp only [Option.map_eq_some_iff, Prod.mk.injEq, Prod.exists] at h
            rcases h with ⟨b, r, hbr, rfl, rfl⟩
            rw [ih hbr]
            rfl
      | some q =>
          unfold splitTag at h
          simp only [Option.map_eq_some_iff, Prod.mk.injEq, Prod.exists] at h
          rcases h with ⟨b, r, hbr, rfl, rfl⟩
          rw [ih hbr]
          rfl

/-- The parts of a declaration and the `>` between them are the whole text. -/
theorem eq_append_of_splitDoctype {depth : Nat} {s body rest : List Char}
    (h : splitDoctype depth s = some (body, rest)) : s = body ++ '>' :: rest := by
  induction s generalizing depth body with
  | nil => simp [splitDoctype] at h
  | cons c tail ih =>
      unfold splitDoctype at h
      split at h
      · rename_i hc
        split at h
        · simp only [Option.some.injEq, Prod.mk.injEq] at h
          rcases h with ⟨rfl, rfl⟩
          rw [hc]
          rfl
        · simp only [Option.map_eq_some_iff, Prod.mk.injEq, Prod.exists] at h
          rcases h with ⟨b, r, hbr, rfl, rfl⟩
          rw [ih hbr]
          rfl
      · simp only [Option.map_eq_some_iff, Prod.mk.injEq, Prod.exists] at h
        rcases h with ⟨b, r, hbr, rfl, rfl⟩
        rw [ih hbr]
        rfl

/-! ## One piece of markup -/

/-- An item and the text after it. -/
abbrev Step := Except Fault (Item × List Char)

/-- What follows `<!-`. -/
def comment (s : List Char) : Step :=
  match s with
  | '-' :: body =>
      match Text.breakOn ['-', '-', '>'] body with
      | some (_, rest) => .ok (.ignored, rest)
      | none => .error .unclosedComment
  | _ => .error .unclosedComment

/-- What follows `<![`. -/
def cdata (s : List Char) : Step :=
  match s with
  | 'C' :: 'D' :: 'A' :: 'T' :: 'A' :: '[' :: body =>
      match Text.breakOn [']', ']', '>'] body with
      | some (content, rest) => .ok (.cdata (String.ofList content), rest)
      | none => .error .unclosedCdata
  | _ => .error .unclosedCdata

/-- What follows `<!`, given that it starts with a letter D. The keyword is read in any
case, and a name must follow it. -/
def doctype (s : List Char) : Step :=
  match splitDoctype 0 s with
  | some (body, rest) =>
      if (body.take 7).map Char.toUpper = "DOCTYPE".toList then
        if (body.drop 7).all isBlank then .error .missingDoctypeName
        else .ok (.ignored, rest)
      else .error .unclosedDoctype
  | none => .error .unclosedDoctype

/-- What follows `<?`. -/
def instruction (s : List Char) : Step :=
  if s.head? = some '>' then .error .unclosedInstruction
  else
    match Text.breakOn ['?', '>'] s with
    | some (_, rest) => .ok (.ignored, rest)
    | none => .error .unclosedInstruction

/-- The name that a closing tag holds. Blanks after a name do not count, but blanks alone
are a name. -/
def closingName (body : List Char) : List Char :=
  if body.all isBlank then body else Text.dropEndWhile isBlank body

/-- A name that does not end in a blank is kept whole. -/
theorem closingName_append_singleton {c : Char} (s : List Char) (h : isBlank c = false) :
    closingName (s ++ [c]) = s ++ [c] := by
  have hall : (s ++ [c]).all isBlank = false := by simp [h]
  rw [closingName, hall, if_neg (by simp), Text.dropEndWhile_append_singleton s h]

/-- What follows `</`. -/
def closingTag (s : List Char) : Step :=
  match splitTag none s with
  | some (body, rest) => .ok (.closing (String.ofList (closingName body)), rest)
  | none => .error .unclosedTag

/-- What follows a `<` that opens or states an element. The name ends at the first blank. -/
def openingTag (s : List Char) : Step :=
  match splitTag none s with
  | some (body, rest) =>
      if body.getLast? = some '/' then .ok (.ignored, rest)
      else .ok (.opening (String.ofList (body.takeWhile fun c => !isBlank c)), rest)
  | none => .error .unclosedTag

/-- What follows a `<`. -/
def markup (s : List Char) : Step :=
  match s with
  | [] => .error .unclosedTag
  | '!' :: '-' :: rest => comment rest
  | '!' :: '[' :: rest => cdata rest
  | '!' :: c :: rest =>
      if c = 'D' ∨ c = 'd' then doctype (c :: rest) else .error .unknownMarkup
  | '!' :: [] => .error .unknownMarkup
  | '?' :: rest => instruction rest
  | '/' :: rest => closingTag rest
  | c :: rest => openingTag (c :: rest)

/-! ## Every piece of markup takes up text -/

/-- What stands after something and a `>` is shorter than the whole. -/
theorem length_lt_of_eq_append {s body rest : List Char} (h : s = body ++ '>' :: rest) :
    rest.length < s.length := by
  rw [h]
  simp only [List.length_append, List.length_cons]
  omega

theorem length_lt_of_comment {s rest : List Char} {item : Item}
    (h : comment s = .ok (item, rest)) : rest.length < s.length := by
  unfold comment at h
  split at h
  · split at h
    · rename_i hb
      simp only [Except.ok.injEq, Prod.mk.injEq] at h
      rcases h with ⟨-, rfl⟩
      exact Nat.lt_succ_of_lt (Text.length_lt_of_breakOn (by simp) hb)
    · simp at h
  · simp at h

theorem length_lt_of_cdata {s rest : List Char} {item : Item}
    (h : cdata s = .ok (item, rest)) : rest.length < s.length := by
  unfold cdata at h
  split at h
  · split at h
    · rename_i hb
      simp only [Except.ok.injEq, Prod.mk.injEq] at h
      rcases h with ⟨-, rfl⟩
      have hlt := Text.length_lt_of_breakOn (by simp) hb
      simp only [List.length_cons]
      omega
    · simp at h
  · simp at h

theorem length_lt_of_doctype {s rest : List Char} {item : Item}
    (h : doctype s = .ok (item, rest)) : rest.length < s.length := by
  unfold doctype at h
  split at h
  · rename_i hb
    split at h
    · split at h
      · simp at h
      · simp only [Except.ok.injEq, Prod.mk.injEq] at h
        rcases h with ⟨-, rfl⟩
        exact length_lt_of_eq_append (eq_append_of_splitDoctype hb)
    · simp at h
  · simp at h

theorem length_lt_of_instruction {s rest : List Char} {item : Item}
    (h : instruction s = .ok (item, rest)) : rest.length < s.length := by
  unfold instruction at h
  split at h
  · simp at h
  · split at h
    · rename_i hb
      simp only [Except.ok.injEq, Prod.mk.injEq] at h
      rcases h with ⟨-, rfl⟩
      exact Text.length_lt_of_breakOn (by simp) hb
    · simp at h

theorem length_lt_of_closingTag {s rest : List Char} {item : Item}
    (h : closingTag s = .ok (item, rest)) : rest.length < s.length := by
  unfold closingTag at h
  split at h
  · rename_i hb
    simp only [Except.ok.injEq, Prod.mk.injEq] at h
    rcases h with ⟨-, rfl⟩
    exact length_lt_of_eq_append (eq_append_of_splitTag hb)
  · simp at h

theorem length_lt_of_openingTag {s rest : List Char} {item : Item}
    (h : openingTag s = .ok (item, rest)) : rest.length < s.length := by
  unfold openingTag at h
  split at h
  · rename_i hb
    have hlt := length_lt_of_eq_append (eq_append_of_splitTag hb)
    split at h <;>
    · simp only [Except.ok.injEq, Prod.mk.injEq] at h
      rcases h with ⟨-, rfl⟩
      exact hlt
  · simp at h

/-- What follows a piece of markup is shorter than what follows its `<`. -/
theorem length_lt_of_markup {s rest : List Char} {item : Item}
    (h : markup s = .ok (item, rest)) : rest.length < s.length := by
  unfold markup at h
  split at h
  · simp at h
  · have hlt := length_lt_of_comment h
    simp only [List.length_cons]
    omega
  · have hlt := length_lt_of_cdata h
    simp only [List.length_cons]
    omega
  · split at h
    · exact Nat.lt_succ_of_lt (length_lt_of_doctype h)
    · simp at h
  · simp at h
  · exact Nat.lt_succ_of_lt (length_lt_of_instruction h)
  · exact Nat.lt_succ_of_lt (length_lt_of_closingTag h)
  · exact length_lt_of_openingTag h

/-! ## The items of a text -/

/-- Whether a character is part of the text between markup. -/
def isText (c : Char) : Bool :=
  c != '<'

/-- The items of a text, from its start or from the end of a piece of markup. -/
def items (s : List Char) : Reading Item :=
  match _h : s.dropWhile isBlank with
  | [] => .ended none
  | c :: rest =>
      if c = '<' then
        match _hm : markup rest with
        | .error fault => .ended (some fault)
        | .ok (item, after) => (items after).cons item
      else
        (items (rest.dropWhile isText)).cons
          (.text (String.ofList (Text.dropEndWhile isBlank (c :: rest.takeWhile isText))))
termination_by s.length
decreasing_by
  · have hs := (List.dropWhile_sublist (l := s) isBlank).length_le
    have hr := length_lt_of_markup _hm
    rw [_h] at hs
    simp only [List.length_cons] at hs
    omega
  · have hs := (List.dropWhile_sublist (l := s) isBlank).length_le
    have hr := (List.dropWhile_sublist (l := rest) isText).length_le
    rw [_h] at hs
    simp only [List.length_cons] at hs
    omega

/-- A text of blanks has no items. -/
theorem items_of_blank {s : List Char} (h : s.dropWhile isBlank = []) :
    items s = .ended none := by
  rw [items]
  split
  · rfl
  · rename_i hs
    rw [h] at hs
    simp at hs

/-- Markup is one item, and reading goes on after it. -/
theorem items_of_markup {s rest after : List Char} {item : Item}
    (h : s.dropWhile isBlank = '<' :: rest) (hm : markup rest = .ok (item, after)) :
    items s = (items after).cons item := by
  rw [items]
  split
  · rename_i hs
    rw [h] at hs
    simp at hs
  · rename_i hs
    rw [h] at hs
    simp only [List.cons.injEq] at hs
    rcases hs with ⟨rfl, rfl⟩
    rw [if_pos rfl]
    split
    · rename_i hfault
      rw [hm] at hfault
      simp at hfault
    · rename_i hok
      rw [hm] at hok
      simp only [Except.ok.injEq, Prod.mk.injEq] at hok
      rcases hok with ⟨rfl, rfl⟩
      rfl

/-- A fault of markup ends the reading. -/
theorem items_of_fault {s rest : List Char} {fault : Fault}
    (h : s.dropWhile isBlank = '<' :: rest) (hm : markup rest = .error fault) :
    items s = .ended (some fault) := by
  rw [items]
  split
  · rename_i hs
    rw [h] at hs
    simp at hs
  · rename_i hs
    rw [h] at hs
    simp only [List.cons.injEq] at hs
    rcases hs with ⟨rfl, rfl⟩
    rw [if_pos rfl]
    split
    · rename_i hfault
      rw [hm] at hfault
      simp only [Except.error.injEq] at hfault
      rw [hfault]
    · rename_i hok
      rw [hm] at hok
      simp at hok

/-- Text up to the next markup is one item. -/
theorem items_of_text {s rest : List Char} {c : Char} (h : s.dropWhile isBlank = c :: rest)
    (hc : c ≠ '<') :
    items s = (items (rest.dropWhile isText)).cons
      (.text (String.ofList (Text.dropEndWhile isBlank (c :: rest.takeWhile isText)))) := by
  rw [items]
  split
  · rename_i hs
    rw [h] at hs
    simp at hs
  · rename_i hs
    rw [h] at hs
    simp only [List.cons.injEq] at hs
    rcases hs with ⟨rfl, rfl⟩
    rw [if_neg hc]

/-- The items of a document, which may start with a byte order mark. -/
def document (s : String) : Reading Item :=
  match s.toList with
  | '\uFEFF' :: rest => items rest
  | cs => items cs

/-- Without a byte order mark the whole text counts. -/
theorem document_ofList {cs : List Char} (h : cs.head? ≠ some '\uFEFF') :
    document (String.ofList cs) = items cs := by
  unfold document
  rw [String.toList_ofList]
  split
  · exact absurd rfl h
  · rfl

end ManagedGraph.Xml
