import Mathlib.Data.List.TakeWhile
import ManagedGraph.Xml.Entity
import ManagedGraph.Xml.Event

/-!
# Written XML

A sequence of tags is written in many ways: blanks and comments stand between the tags and around
a value. A reader is told the same by each of them. The lemmas say so for one tag and whatever
text follows it, so that they can be put together along a text.
-/

namespace ManagedGraph.Xml

/-! ## Ways of writing -/

/-- What is written between gaps. An element with nothing but a value in it is one piece. -/
inductive Tag where
  | opening (name : String)
  | closing (name : String)
  | leaf (name value : String)
deriving DecidableEq, Repr

/-- An element with other elements in it. -/
def element (name : String) (content : List Tag) : List Tag :=
  .opening name :: content ++ [.closing name]

/-- Blanks and comments. -/
inductive Gap : List Char → Prop where
  | nil : Gap []
  | blank {c : Char} {s : List Char} (hc : isBlank c = true) (hs : Gap s) : Gap (c :: s)
  | comment {body s : List Char} (hbody : Text.occurs ['-', '-', '>'] body = false) (hs : Gap s) :
      Gap ('<' :: '!' :: '-' :: '-' :: (body ++ '-' :: '-' :: '>' :: s))

/-- A character of a value, in writing. -/
def escapeChar (c : Char) : List Char :=
  if c = '&' then "&amp;".toList
  else if c = '<' then "&lt;".toList
  else if c = '>' then "&gt;".toList
  else [c]

/-- A value in writing. -/
def escape (value : String) : List Char :=
  value.toList.flatMap escapeChar

/-- The ways of writing tags. -/
inductive Written : List Tag → List Char → Prop where
  | nil : Written [] []
  | gap {gap s : List Char} {tags : List Tag} (hgap : Gap gap) (hs : Written tags s) :
      Written tags (gap ++ s)
  | opening {name : String} {s : List Char} {tags : List Tag} (hs : Written tags s) :
      Written (.opening name :: tags) ('<' :: (name.toList ++ '>' :: s))
  | closing {name : String} {s : List Char} {tags : List Tag} (hs : Written tags s) :
      Written (.closing name :: tags) ('<' :: '/' :: (name.toList ++ '>' :: s))
  | leaf {name value : String} {before after s : List Char} {tags : List Tag}
      (hbefore : Gap before) (hafter : Gap after) (hs : Written tags s) :
      Written (.leaf name value :: tags)
        ('<' :: (name.toList ++ '>' :: (before ++ (escape value ++
          (after ++ '<' :: '/' :: (name.toList ++ '>' :: s))))))

/-- Tags with the same gap before each. -/
def spaced (gap : List Char) : List Tag → List Char
  | [] => []
  | .opening name :: rest => gap ++ '<' :: (name.toList ++ '>' :: spaced gap rest)
  | .closing name :: rest => gap ++ '<' :: '/' :: (name.toList ++ '>' :: spaced gap rest)
  | .leaf name value :: rest =>
      gap ++ '<' :: (name.toList ++ '>' :: (gap ++ (escape value ++
        (gap ++ '<' :: '/' :: (name.toList ++ '>' :: spaced gap rest)))))

theorem written_spaced {gap : List Char} (hgap : Gap gap) (tags : List Tag) :
    Written tags (spaced gap tags) := by
  induction tags with
  | nil => exact .nil
  | cons tag rest ih =>
      cases tag with
      | opening name => exact .gap hgap (.opening ih)
      | closing name => exact .gap hgap (.closing ih)
      | leaf name value => exact .gap hgap (.leaf hgap hgap ih)

example : spaced [' '] (element "a" [.leaf "b" "<"]) = " <a> <b> &lt; </b> </a>".toList := rfl

/-- Whether a character has a meaning of its own within a tag. -/
def endsName (c : Char) : Bool :=
  isBlank c || c == '>' || c == '/' || c == '\x22' || c == '\x27'

/-- Whether a text can name an element. Every name that XML allows can: none of its characters is
among those, and it does not begin like other markup. -/
def isName (name : String) : Bool :=
  name.toList.head?.any (fun c => c != '!' && c != '?') && name.toList.all fun c => !endsName c

/-- Whether a value has no blanks at its ends. -/
def isTrimmed (value : String) : Bool :=
  !value.toList.head?.any isBlank && !value.toList.getLast?.any isBlank

/-! ## Values -/

theorem decodeFrom_entity {total start : Nat} {d : Char} (name after : List Char)
    (hname : name.all isEntityName = true) (hentity : resolveEntity (start + 1) name = .ok d) :
    decodeFrom total start ('&' :: (name ++ ';' :: after)) =
      (decodeFrom total (start + byteLength name + 2) after).map (d :: ·) := by
  have hdrop : (name ++ ';' :: after).dropWhile isEntityName = ';' :: after := by
    rw [List.dropWhile_append_of_pos (List.all_eq_true.1 hname)]
    rfl
  have htake : (name ++ ';' :: after).takeWhile isEntityName = name := by
    rw [List.takeWhile_append_of_pos (List.all_eq_true.1 hname)]
    simp [List.takeWhile, isEntityName]
  rw [decodeFrom, if_pos rfl]
  split
  · rename_i rest hrest
    rw [hdrop] at hrest
    obtain rfl := (List.cons.inj hrest).2
    simp only [htake, hentity]
  · rename_i hnone
    exact absurd hdrop (hnone _)

/-- A character in writing is read as the character. -/
theorem decodeFrom_escapeChar (total start : Nat) (c : Char) (rest : List Char) :
    ∃ next, decodeFrom total start (escapeChar c ++ rest) =
      (decodeFrom total next rest).map (c :: ·) := by
  unfold escapeChar
  split
  · subst c
    exact ⟨_, decodeFrom_entity "amp".toList rest rfl rfl⟩
  split
  · subst c
    exact ⟨_, decodeFrom_entity "lt".toList rest rfl rfl⟩
  split
  · subst c
    exact ⟨_, decodeFrom_entity "gt".toList rest rfl rfl⟩
  · rename_i hc _ _
    exact ⟨_, decodeFrom_of_ne hc⟩

theorem decode_escape (value : String) : decode (String.ofList (escape value)) = .ok value := by
  have hchars (total start : Nat) (cs : List Char) :
      decodeFrom total start (cs.flatMap escapeChar) = .ok cs := by
    induction cs generalizing start with
    | nil => exact decodeFrom_nil
    | cons c rest ih =>
        obtain ⟨next, hnext⟩ := decodeFrom_escapeChar total start c (rest.flatMap escapeChar)
        rw [List.flatMap_cons, hnext, ih]
        rfl
  unfold decode escape
  rw [String.toList_ofList, hchars]
  simp [Except.map]

/-- A character in writing is the character or a reference to it. -/
theorem escapeChar_eq (c : Char) :
    escapeChar c = [c] ∧ c ≠ '<' ∨ ∃ name, escapeChar c = '&' :: (name ++ [';']) := by
  unfold escapeChar
  split
  · exact Or.inr ⟨"amp".toList, rfl⟩
  split
  · exact Or.inr ⟨"lt".toList, rfl⟩
  split
  · exact Or.inr ⟨"gt".toList, rfl⟩
  · rename_i hlt _
    exact Or.inl ⟨rfl, hlt⟩

theorem exists_escape_eq_cons {value : String} (hne : value ≠ "")
    (htrim : isTrimmed value = true) :
    ∃ c rest, escape value = c :: rest ∧ isBlank c = false ∧ c ≠ '<' := by
  obtain ⟨c, rest, hcs⟩ := List.exists_cons_of_ne_nil (mt String.toList_eq_nil_iff.1 hne)
  have hblank : isBlank c = false := by
    have hends := htrim
    simp only [isTrimmed, hcs, Bool.and_eq_true] at hends
    simpa using hends.1
  unfold escape
  rw [hcs, List.flatMap_cons]
  rcases escapeChar_eq c with ⟨hc, hlt⟩ | ⟨name, hc⟩
  · exact ⟨c, _, by rw [hc]; rfl, hblank, hlt⟩
  · exact ⟨'&', _, by rw [hc]; rfl, rfl, by decide⟩

theorem exists_escape_eq_concat {value : String} (hne : value ≠ "")
    (htrim : isTrimmed value = true) :
    ∃ init c, escape value = init ++ [c] ∧ isBlank c = false := by
  obtain ⟨init, c, hcs⟩ :=
    (List.eq_nil_or_concat value.toList).resolve_left (mt String.toList_eq_nil_iff.1 hne)
  have hblank : isBlank c = false := by
    have hends := htrim
    simp only [isTrimmed, hcs, Bool.and_eq_true] at hends
    simpa using hends.2
  unfold escape
  rw [hcs, List.concat_eq_append, List.flatMap_append, List.flatMap_singleton]
  rcases escapeChar_eq c with ⟨hc, -⟩ | ⟨name, hc⟩
  · exact ⟨_, c, by rw [hc], hblank⟩
  · exact ⟨_, ';', by rw [hc, ← List.cons_append, ← List.append_assoc], rfl⟩

/-! ## Gaps -/

/-- Blanks before an item do not count. -/
theorem items_congr {s t : List Char} (h : s.dropWhile isBlank = t.dropWhile isBlank) :
    items s = items t := by
  cases hs : s.dropWhile isBlank with
  | nil => rw [items_of_blank hs, items_of_blank (h ▸ hs)]
  | cons c rest =>
      have ht : t.dropWhile isBlank = c :: rest := h ▸ hs
      by_cases hc : c = '<'
      · subst hc
        cases hm : markup rest with
        | error fault => rw [items_of_fault hs hm, items_of_fault ht hm]
        | ok read => rw [items_of_markup hs hm, items_of_markup ht hm]
      · rw [items_of_text hs hc, items_of_text ht hc]

theorem items_blank_cons {c : Char} {s : List Char} (hc : isBlank c = true) :
    items (c :: s) = items s :=
  items_congr (by rw [List.dropWhile_cons_of_pos hc])

/-- Markup at the start of a text. -/
theorem items_cons_markup {rest after : List Char} {item : Item}
    (hm : markup rest = .ok (item, after)) : items ('<' :: rest) = (items after).cons item :=
  items_of_markup (List.dropWhile_cons_of_neg (by decide)) hm

/-- A comment ends at the first place where it can. -/
theorem breakOn_comment {body : List Char} (s : List Char)
    (h : Text.occurs ['-', '-', '>'] body = false) :
    Text.breakOn ['-', '-', '>'] (body ++ '-' :: '-' :: '>' :: s) = some (body, s) := by
  induction body with
  | nil => rfl
  | cons c rest ih =>
      unfold Text.occurs at h
      rw [Text.breakOn] at h
      split at h
      · exact absurd h (by simp)
      rename_i hhere
      -- what begins with `c` is no end, also if it reaches into the end of the comment
      have hc : ¬ ['-', '-', '>'].isPrefixOf (c :: (rest ++ '-' :: '-' :: '>' :: s)) = true := by
        rcases rest with - | ⟨d, - | ⟨e, tail⟩⟩
        · simp [List.isPrefixOf]
        · simp [List.isPrefixOf]
        · simpa [List.isPrefixOf] using hhere
      rw [List.cons_append, Text.breakOn, if_neg hc, ih (by simpa [Text.occurs] using h)]
      rfl

/-- What a reader is told from some place on, the innermost open element standing first. -/
def eventsIn (openNames : List String) (s : List Char) : Reading Event :=
  nest (items s).fault openNames (items s).items

theorem eventsIn_nil {openNames : List String} : eventsIn openNames [] = .ended none := by
  unfold eventsIn
  rw [items_of_blank rfl]
  rfl

theorem eventsIn_comment {openNames : List String} {body s : List Char}
    (h : Text.occurs ['-', '-', '>'] body = false) :
    eventsIn openNames ('<' :: '!' :: '-' :: '-' :: (body ++ '-' :: '-' :: '>' :: s)) =
      eventsIn openNames s := by
  have hm : markup ('!' :: '-' :: '-' :: (body ++ '-' :: '-' :: '>' :: s)) =
      .ok (.ignored, s) := by
    simp [markup, comment, breakOn_comment s h]
  unfold eventsIn
  rw [items_cons_markup hm]
  rfl

theorem eventsIn_gap {openNames : List String} {gap : List Char} (s : List Char)
    (hgap : Gap gap) : eventsIn openNames (gap ++ s) = eventsIn openNames s := by
  induction hgap with
  | nil => rfl
  | blank hc _ ih =>
      rw [← ih]
      unfold eventsIn
      rw [List.cons_append, items_blank_cons hc]
  | comment hbody _ ih =>
      rw [← ih]
      simp only [List.cons_append, List.append_assoc]
      exact eventsIn_comment hbody

/-! ## Tags -/

/-- A tag ends behind its name, since no character of a name opens a quote. -/
theorem splitTag_name {name : List Char} (s : List Char)
    (h : (name.all fun c => !endsName c) = true) :
    splitTag none (name ++ '>' :: s) = some (name, s) := by
  induction name with
  | nil => rfl
  | cons c rest ih =>
      obtain ⟨hc, hrest⟩ : endsName c = false ∧ (rest.all fun c => !endsName c) = true := by
        simpa using h
      have hchar : c ≠ '>' ∧ c ≠ '\x22' ∧ c ≠ '\x27' := by
        simp only [endsName, Bool.or_eq_false_iff, beq_eq_false_iff_ne] at hc
        exact ⟨hc.1.1.1.2, hc.1.2, hc.2⟩
      rw [List.cons_append, splitTag, if_neg hchar.1, if_neg (by simp [hchar]), ih hrest]
      rfl

theorem all_of_isName {name : String} (hname : isName name = true) :
    (name.toList.all fun c => !endsName c) = true :=
  (Bool.and_eq_true_iff.1 hname).2

theorem not_blank_of_not_endsName {c : Char} (h : endsName c = false) :
    isBlank c = false ∧ c ≠ '/' := by
  simp only [endsName, Bool.or_eq_false_iff, beq_eq_false_iff_ne] at h
  exact ⟨h.1.1.1.1, h.1.1.2⟩

/-- A tag with a name opens an element. -/
theorem markup_name {name : String} (s : List Char) (hname : isName name = true) :
    markup (name.toList ++ '>' :: s) = openingTag (name.toList ++ '>' :: s) := by
  obtain ⟨hhead, hall⟩ := Bool.and_eq_true_iff.1 hname
  cases hcs : name.toList with
  | nil => simp [hcs] at hhead
  | cons c rest =>
      obtain ⟨hbang, hquestion⟩ : c ≠ '!' ∧ c ≠ '?' := by simpa [hcs] using hhead
      have hslash : c ≠ '/' :=
        (not_blank_of_not_endsName (by simpa using List.all_eq_true.1 hall c (by simp [hcs]))).2
      rw [List.cons_append, markup.eq_def]
      split <;> simp_all

theorem exists_name_eq_concat {name : String} (hname : isName name = true) :
    ∃ init c, name.toList = init ++ [c] ∧ isBlank c = false ∧ c ≠ '/' := by
  obtain ⟨hhead, hall⟩ := Bool.and_eq_true_iff.1 hname
  have hne : name.toList ≠ [] := by
    intro hnil
    simp [hnil] at hhead
  obtain ⟨init, c, hcs⟩ := (List.eq_nil_or_concat name.toList).resolve_left hne
  rw [List.concat_eq_append] at hcs
  have hc : endsName c = false := by simpa using List.all_eq_true.1 hall c (by simp [hcs])
  exact ⟨init, c, hcs, not_blank_of_not_endsName hc⟩

theorem eventsIn_opening {openNames : List String} {name : String} (s : List Char)
    (hname : isName name = true) :
    eventsIn openNames ('<' :: (name.toList ++ '>' :: s)) =
      (eventsIn (name :: openNames) s).cons (.opening name) := by
  have hblank : ∀ c ∈ name.toList, (!isBlank c) = true := by
    intro c hc
    have hends := List.all_eq_true.1 (all_of_isName hname) c hc
    simpa using (not_blank_of_not_endsName (by simpa using hends)).1
  have hm : markup (name.toList ++ '>' :: s) = .ok (.opening name, s) := by
    obtain ⟨init, c, hcs, -, hslash⟩ := exists_name_eq_concat hname
    have hfull : name.toList.getLast? ≠ some '/' := by simpa [hcs] using hslash
    simp only [markup_name s hname, openingTag, splitTag_name s (all_of_isName hname),
      if_neg hfull, List.takeWhile_eq_self_iff.2 hblank, String.ofList_toList]
  unfold eventsIn
  rw [items_cons_markup hm]
  rfl

theorem eventsIn_closing {openNames : List String} {name : String} (s : List Char)
    (hname : isName name = true) :
    eventsIn (name :: openNames) ('<' :: '/' :: (name.toList ++ '>' :: s)) =
      (eventsIn openNames s).cons .closing := by
  have hm : markup ('/' :: (name.toList ++ '>' :: s)) = .ok (.closing name, s) := by
    obtain ⟨init, c, hcs, hblank, -⟩ := exists_name_eq_concat hname
    have hkept : closingName name.toList = name.toList := by
      rw [hcs, closingName_append_singleton init hblank]
    simp only [markup, closingTag, splitTag_name s (all_of_isName hname), hkept,
      String.ofList_toList]
  unfold eventsIn
  rw [items_cons_markup hm]
  simp [Reading.cons, nest]

/-- Text ends where a gap begins a comment, or with the gap. -/
theorem Gap.takeWhile_isText {gap : List Char} (s : List Char) (hgap : Gap gap) :
    ∀ c ∈ (gap ++ '<' :: s).takeWhile isText, isBlank c = true := by
  induction hgap with
  | nil => simp [isText]
  | blank hc _ ih =>
      intro c hmem
      rw [List.cons_append, List.takeWhile_cons] at hmem
      split at hmem
      · rcases List.mem_cons.1 hmem with rfl | hmem
        · exact hc
        · exact ih c hmem
      · exact absurd hmem (by simp)
  | comment => simp [isText]

theorem dropEndWhile_append {p : Char → Bool} (s : List Char) {t : List Char}
    (h : ∀ c ∈ t, p c = true) : Text.dropEndWhile p (s ++ t) = Text.dropEndWhile p s := by
  unfold Text.dropEndWhile
  rw [List.reverse_append, List.dropWhile_append_of_pos (by simpa using h)]

theorem all_isText_escapeChar (c : Char) : (escapeChar c).all isText = true := by
  unfold escapeChar
  split
  · rfl
  split
  · rfl
  split
  · rfl
  · rename_i hlt _
    simpa [isText] using hlt

theorem isText_of_mem_escape {value : String} {c : Char} (hc : c ∈ escape value) :
    isText c = true := by
  obtain ⟨d, -, hd⟩ := List.mem_flatMap.1 hc
  exact List.all_eq_true.1 (all_isText_escapeChar d) c hd

/-- A value is told without the gap that follows it. -/
theorem eventsIn_value {openNames : List String} {value : String} {gap : List Char}
    (s : List Char) (hne : value ≠ "") (htrim : isTrimmed value = true) (hgap : Gap gap) :
    eventsIn openNames (escape value ++ (gap ++ '<' :: s)) =
      (eventsIn openNames ('<' :: s)).cons (.text (String.ofList (escape value))) := by
  let tail := gap ++ '<' :: s
  have hblank : ∀ c ∈ tail.takeWhile isText, isBlank c = true := hgap.takeWhile_isText s
  have hitems : items (tail.dropWhile isText) = items tail := by
    apply items_congr
    rw [← List.dropWhile_append_of_pos hblank, List.takeWhile_append_dropWhile]
  obtain ⟨c, rest, hcs, hc, hlt⟩ := exists_escape_eq_cons hne htrim
  obtain ⟨init, last, hlast, hlastBlank⟩ := exists_escape_eq_concat hne htrim
  have hrest : ∀ d ∈ rest, isText d = true := by
    intro d hd
    exact isText_of_mem_escape (hcs ▸ List.mem_cons_of_mem c hd)
  have htext : Text.dropEndWhile isBlank (c :: (rest ++ tail).takeWhile isText) =
      escape value := by
    rw [List.takeWhile_append_of_pos hrest, ← List.cons_append, ← hcs,
      dropEndWhile_append _ hblank, hlast, Text.dropEndWhile_append_singleton init hlastBlank]
  have hread : items (escape value ++ tail) =
      (items tail).cons (.text (String.ofList (escape value))) := by
    have hstart : (escape value ++ tail).dropWhile isBlank = c :: (rest ++ tail) := by
      rw [hcs, List.cons_append, List.dropWhile_cons_of_neg (by simp [hc])]
    rw [items_of_text hstart hlt, List.dropWhile_append_of_pos hrest, hitems, htext]
  rw [← eventsIn_gap ('<' :: s) hgap]
  unfold eventsIn
  rw [hread]
  rfl

/-- An element with nothing but a value in it is told with its value, if that is not empty. -/
theorem eventsIn_leaf {openNames : List String} {name value : String} {before after : List Char}
    (s : List Char) (hname : isName name = true) (htrim : isTrimmed value = true)
    (hbefore : Gap before) (hafter : Gap after) :
    eventsIn openNames ('<' :: (name.toList ++ '>' :: (before ++ (escape value ++
      (after ++ '<' :: '/' :: (name.toList ++ '>' :: s)))))) =
      (if value = "" then (eventsIn openNames s).cons .closing
        else ((eventsIn openNames s).cons .closing).cons
          (.text (String.ofList (escape value)))).cons (.opening name) := by
  rw [eventsIn_opening _ hname, eventsIn_gap _ hbefore]
  split
  · subst value
    have hnone : escape "" = [] := rfl
    rw [hnone, List.nil_append, eventsIn_gap _ hafter, eventsIn_closing s hname]
  · rename_i hne
    rw [eventsIn_value _ hne htrim hafter, eventsIn_closing s hname]

/-! ## Documents -/

theorem Gap.head?_append_ne {gap : List Char} (s : List Char) (hgap : Gap gap)
    (hs : s.head? ≠ some '\uFEFF') : (gap ++ s).head? ≠ some '\uFEFF' := by
  cases hgap with
  | nil => exact hs
  | blank hc =>
      simp only [List.cons_append, List.head?_cons, ne_eq, Option.some.injEq]
      rintro rfl
      exact absurd hc (by decide)
  | comment => simp

/-- Written tags begin with no byte order mark, so all of the text is read. -/
theorem events_of_written {tags : List Tag} {s : String} (h : Written tags s.toList) :
    events s = eventsIn [] s.toList := by
  have hmark {tags : List Tag} {cs : List Char} (h : Written tags cs) :
      cs.head? ≠ some '\uFEFF' := by
    induction h with
    | gap hgap _ ih => exact hgap.head?_append_ne _ ih
    | _ => simp
  have hdocument := document_ofList (hmark h)
  rw [String.ofList_toList] at hdocument
  unfold events eventsIn
  rw [hdocument]

end ManagedGraph.Xml
