import ManagedGraph.Proofs.Pom.LiveText
import ManagedGraph.Proofs.Xml.WellFormed

/-!
# Other spellings

XML allows the same document to be spelled in several ways: an empty element as one tag or two, a
text with a comment in it, or with a part of it as a character data section. Where the gatherer
does not take the text, the spelling makes no difference (`same_in_other_spelling`). Where it takes
it, only the last piece counts of a text that markup divides, and an empty element of one tag is
not there.
-/

namespace ManagedGraph

namespace Pom

open Xml Gathering

namespace Document

/-- Two texts that hold the same documents. -/
def SameDocument (text other : String) : Prop :=
  ∀ d, parse text = .ok d ↔ parse other = .ok d

/-- What stands before a place of a text is read to its end. -/
structure Reaches (before : String) (g : Gathering) : Prop where
  readable : (document before).fault = none
  read : Gathering.start.read (document before).items = .ok g

variable {before after text other : String} {g : Gathering}

theorem Reaches.path_ne_nil (h : Reaches before g) (hpath : g.path ≠ []) : before.toList ≠ [] := by
  intro hempty
  obtain rfl : before = "" := String.toList_eq_nil_iff.1 hempty
  have hitems : document "" = ⟨[], none⟩ := items_of_blank rfl
  have hread := h.read
  rw [hitems] at hread
  obtain rfl := Except.ok.inj hread
  exact hpath rfl

/-- Texts hold the same documents if they differ in items that lead to the same. -/
theorem same_of_items {its own others : List Item} {r : Reading Item}
    (htext : document text = r.prepend (its ++ own))
    (hother : document other = r.prepend (its ++ others))
    (hopen : ∀ openNames, openAfter openNames own = openAfter openNames others)
    (hgives : ∀ g, Gathering.start.read its = .ok g →
      ∀ d, Gives g (own ++ r.items) d ↔ Gives g (others ++ r.items) d) :
    SameDocument text other := by
  have hnested : openAfter [] (its ++ own ++ r.items) =
      openAfter [] (its ++ others ++ r.items) := by
    simp only [openAfter_append, hopen]
  have hstart (d : Document) : Gives Gathering.start (its ++ own ++ r.items) d ↔
      Gives Gathering.start (its ++ others ++ r.items) d := by
    rw [List.append_assoc, List.append_assoc, gives_append, gives_append]
    constructor
    · rintro ⟨g, hread, hd⟩
      exact ⟨g, hread, (hgives g hread d).1 hd⟩
    · rintro ⟨g, hread, hd⟩
      exact ⟨g, hread, (hgives g hread d).2 hd⟩
  intro d
  rw [parse_eq_ok_iff, parse_eq_ok_iff, htext, hother]
  exact and_congr Iff.rfl (and_congr (by rw [Reading.items_prepend, Reading.items_prepend, hnested])
    (hstart d))

/-- Markup at a place follows the items before it. -/
theorem document_markup (hread : (document before).fault = none) {piece : List Char}
    {its : List Item}
    (hpiece : IsComplete ('<' :: piece) its) (after : String) :
    document (before ++ String.ofList ('<' :: piece) ++ after) =
      (items after.toList).prepend ((document before).items ++ its) := by
  rw [document_eq] at hread
  have hmark : withoutMark (before.toList ++ ('<' :: (piece ++ after.toList))) =
      withoutMark before.toList ++ '<' :: (piece ++ after.toList) :=
    withoutMark_append (Or.inr (by simp))
  rw [document_eq, document_eq, String.toList_append, String.toList_append, String.toList_ofList,
    List.append_assoc, List.cons_append, hmark, items_append_markup hread, ← List.cons_append,
    hpiece, Reading.prepend_prepend]

/-- Text at a place goes on from the text before it. -/
theorem document_text {base run raw : List Char} {its : List Item} (hne : before.toList ≠ [])
    (hparts : withoutMark before.toList = base ++ run) (hbase : IsComplete base its)
    (hrun : ∀ c ∈ run, isText c = true) (hraw : ∀ c ∈ raw, isText c = true) (after : String) :
    document (before ++ String.ofList raw ++ after) =
      (items (after.toList.dropWhile isText)).prepend
        (its ++ textItems (run ++ raw ++ after.toList.takeWhile isText)) := by
  have htext : ∀ c ∈ run ++ raw, isText c = true := by
    intro c hc
    rcases List.mem_append.1 hc with hc | hc
    · exact hrun c hc
    · exact hraw c hc
  rw [document_eq, String.toList_append, String.toList_append, String.toList_ofList,
    List.append_assoc, withoutMark_append (Or.inl hne), hparts, ← items_append_text hbase htext]
  simp

/-- An element without content may be spelled in one tag where it is neither a part nor a field. -/
theorem same_empty (h : Reaches before g) {name : String} {attributes others blanks : List Char}
    (hname : isName name = true) (hattributes : Attributes attributes) (hothers : Attributes others)
    (hblanks : ∀ c ∈ blanks, isBlank c = true) (hnotices : g.notices name = false)
    (htext : g.text = "" ∨ g.takesText = false) :
    SameDocument
      (before ++ String.ofList (openTag name attributes ++ closeTag name blanks) ++ after)
      (before ++ String.ofList (emptyTag name others) ++ after) := by
  have htags := (isMarkup_openTag hname hattributes).isComplete.append
    (isMarkup_closeTag hname hblanks).isComplete
  have htag := (isMarkup_emptyTag hname hothers).isComplete
  have hbalanced : Balanced [.opening name, .closing name] := .element .nil .nil
  refine same_of_items (document_markup h.readable htags after)
    (document_markup h.readable htag after) ?_ ?_
  · intro openNames
    exact openAfter_of_balanced hbalanced
  · intro found hfound d
    obtain rfl : g = found := Except.ok.inj (h.read.symm.trans hfound)
    have hclosed : Gives g ([.opening name, .closing name] ++ (items after.toList).items) d ↔
        Gives (g.opening name).closing (items after.toList).items d := Iff.rfl
    rw [List.singleton_append, hclosed, closing_opening hnotices]
    rcases htext with htext | htakes
    · rw [← htext]
      exact Iff.rfl
    · exact gives_congr htakes ""

/-- Where a text is not taken, a part of it may be replaced by markup that is no tag. -/
theorem same_untaken (h : Reaches before g) {raw piece : List Char} {item : Item}
    (hpath : g.path ≠ []) (htakes : g.takesText = false) (hraw : IsCharacterData raw)
    (hpiece : IsMarkup piece item) (htag : item.isTag = false) (hitem : ∀ raw, item ≠ .text raw) :
    SameDocument (before ++ String.ofList raw ++ after)
      (before ++ String.ofList ('<' :: piece) ++ after) := by
  -- the part is in the middle of a text that begins before the place and goes on after it
  have hread := h.readable
  rw [document_eq] at hread
  obtain ⟨base, its, run, hparts, hbase, hrun⟩ := exists_complete hread
  have hbefore : (document before).items = its ++ textItems run := by
    rw [document_eq, hparts, hbase.items_append_run hrun]
  have htext := document_text (h.path_ne_nil hpath) hparts hbase hrun hraw.1 after
  have hmarkup := document_markup h.readable hpiece.isComplete after
  generalize hlast : after.toList.takeWhile isText = last at htext
  rw [items_eq_text after.toList, hlast, Reading.prepend_prepend, hbefore, List.append_assoc its,
    List.append_assoc its] at hmarkup
  have hdata : IsData (textItems run ++ [item] ++ textItems last) :=
    isData_append (isData_append (isData_textItems run) (isData_singleton htag))
      (isData_textItems last)
  have hstart := h.read
  rw [hbefore] at hstart
  obtain ⟨atBase, hbaseRead, hrunRead⟩ := exists_of_read_append hstart
  have hrunDecodes := exists_read_iff.1 ⟨g, hrunRead⟩
  refine same_of_items htext hmarkup ?_ ?_
  · intro openNames
    rw [openAfter_textItems, openAfter_of_isData hdata]
  · intro found hfound d
    obtain rfl : atBase = found := Except.ok.inj (hbaseRead.symm.trans hfound)
    -- whether a text is taken is settled by the tags before it
    have htakes' : atBase.takesText = false := by
      obtain ⟨value, hvalue⟩ := exists_textAfter (isData_textItems run) hrunDecodes atBase.text
      rw [read_of_textAfter hvalue] at hrunRead
      exact (congrArg takesText (Except.ok.inj hrunRead)).trans htakes
    refine gives_of_not_takesText htakes' (isData_textItems _) hdata ?_
    exact decodes_divided hrunDecodes hraw.2 hitem

/-- A whole text may be spelled as a character data section. -/
theorem same_whole {raw content : List Char} {its : List Item} (hne : before.toList ≠ [])
    (hbefore : IsComplete (withoutMark before.toList) its) (hraw : ∀ c ∈ raw, isText c = true)
    (hvalue : CharacterData raw content) (hempty : raw ≠ [])
    (htrim : isTrimmed (String.ofList raw) = true)
    (hcontent : ¬ [']', ']', '>'] <:+: content ++ [']', ']'])
    (hafter : ∀ c ∈ after.toList.takeWhile isText, isBlank c = true) :
    SameDocument (before ++ String.ofList raw ++ after)
      (before ++ String.ofList (sectionOf content) ++ after) := by
  have hnone : ∀ c ∈ ([] : List Char), isText c = true := List.forall_mem_nil _
  have htext := document_text hne (List.append_nil _).symm hbefore hnone hraw after
  rw [List.nil_append, textItems_of_trimmed hempty htrim hafter] at htext
  have hitems : document before = ⟨its, none⟩ := by rw [document_eq, hbefore.items_eq]
  have hsection := document_markup (by rw [hitems]) (isMarkup_section hcontent).isComplete after
  rw [items_eq_text after.toList, textItems_of_blank hafter, Reading.prepend_nil, hitems]
    at hsection
  refine same_of_items htext hsection (fun _ => rfl) ?_
  intro g _ d
  have hdecode : decode (String.ofList raw) = .ok (String.ofList content) := by
    rw [decode_eq_ok_iff, String.toList_ofList]
    exact hvalue
  have hown : textAfter g.text [.text (String.ofList raw)] = some (String.ofList content) := by
    simp [textAfter, hdecode]
  have hother : textAfter g.text [.cdata (String.ofList content)] = some (String.ofList content) :=
    rfl
  exact (gives_append_of_textAfter hown).trans (gives_append_of_textAfter hother).symm

/-- Of the data in an element, only the last text or character data section counts. -/
theorem same_last {filler : String} {its data : List Item} (hne : before.toList ≠ [])
    (hbefore : IsComplete (withoutMark before.toList) its)
    (hfiller : IsComplete filler.toList data) (hdata : IsData data) (hdecodes : Decodes data)
    (hafter : (∀ item ∈ data, item.isCharacterData = false) ∨
      (items after.toList).items.head?.any Item.isCharacterData = true) :
    SameDocument (before ++ filler ++ after) (before ++ after) := by
  have hwith : document (before ++ filler ++ after) =
      (items after.toList).prepend (its ++ data) := by
    rw [document_eq, String.toList_append, String.toList_append, List.append_assoc,
      withoutMark_append (Or.inl hne), hbefore, hfiller, Reading.prepend_prepend]
  have hwithout : document (before ++ after) = (items after.toList).prepend (its ++ []) := by
    rw [document_eq, String.toList_append, withoutMark_append (Or.inl hne), hbefore,
      List.append_nil]
  refine same_of_items hwith hwithout (openAfter_of_isData hdata) ?_
  intro g _ d
  rw [List.nil_append]
  rcases hafter with hsilent | hafter
  · rw [gives_append_of_textAfter (textAfter_of_silent hdata hsilent g.text)]
  · obtain ⟨text, htext⟩ := exists_textAfter hdata hdecodes g.text
    rw [gives_append_of_textAfter htext, gives_of_isCharacterData hafter]

/-! ## The three spellings -/

/-- A text that ends where no text is under way. -/
def EndsInMarkup (before : String) : Prop :=
  ∃ its, IsComplete (withoutMark before.toList) its

/-- A text of an element with nothing but blanks around it. -/
structure IsWholeText (before : String) (raw : List Char) (after : String) : Prop where
  before : EndsInMarkup before
  ne_nil : raw ≠ []
  trimmed : isTrimmed (String.ofList raw) = true
  after : ∀ c ∈ after.toList.takeWhile isText, isBlank c = true

/-- Text, sections, and markup that is no tag, all of it before something that ends it. -/
structure IsFiller (filler after : String) (data : List Item) : Prop where
  complete : IsComplete filler.toList data
  untagged : IsData data
  decodes : Decodes data
  ended : (∀ item ∈ data, item.isCharacterData = false) ∨
    (items after.toList).items.head?.any Item.isCharacterData = true

/-- Where a text is not taken, a document is the same in other spellings: an element without content
in one tag instead of two, a comment in a text, a part of a text as a character data section. A
whole text may be a section anywhere. Where a text is taken, all data in an element is lost but for
the last text or section, and an element of one tag is not there. -/
theorem same_in_other_spelling (h : Reaches before g) (after : String) :
    (∀ name attributes others blanks, isName name = true → Attributes attributes →
      Attributes others → (∀ c ∈ blanks, isBlank c = true) → g.notices name = false →
      g.text = "" ∨ g.takesText = false →
      SameDocument
        (before ++ String.ofList (openTag name attributes ++ closeTag name blanks) ++ after)
        (before ++ String.ofList (emptyTag name others) ++ after)) ∧
    (g.path ≠ [] →
      (∀ body, ¬ ['-', '-', '>'] <:+: body ++ ['-', '-'] → g.takesText = false →
        SameDocument (before ++ after) (before ++ String.ofList (commentOf body) ++ after)) ∧
      (∀ raw content, (∀ c ∈ raw, isText c = true) → CharacterData raw content →
        ¬ [']', ']', '>'] <:+: content ++ [']', ']'] →
        g.takesText = false ∨ IsWholeText before raw after →
        SameDocument (before ++ String.ofList raw ++ after)
          (before ++ String.ofList (sectionOf content) ++ after)) ∧
      (EndsInMarkup before → ∀ filler data, IsFiller filler after data →
        SameDocument (before ++ filler ++ after) (before ++ after))) := by
  refine ⟨?_, fun hpath => ⟨?_, ?_, ?_⟩⟩
  · intro name attributes others blanks hname hattributes hothers hblanks hnotices htext
    exact same_empty h hname hattributes hothers hblanks hnotices htext
  · intro body hbody htakes
    have hnone : IsCharacterData [] := ⟨List.forall_mem_nil _, [], .nil⟩
    have hsame : SameDocument (before ++ String.ofList [] ++ after)
        (before ++ String.ofList (commentOf body) ++ after) :=
      same_untaken h hpath htakes hnone (isMarkup_comment hbody) rfl (by simp)
    rwa [String.ofList_nil, String.append_empty] at hsame
  · rintro raw content hraw hvalue hcontent (htakes | hwhole)
    · exact same_untaken h hpath htakes ⟨hraw, content, hvalue⟩ (isMarkup_section hcontent) rfl
        (by simp)
    · obtain ⟨its, hbefore⟩ := hwhole.before
      exact same_whole (h.path_ne_nil hpath) hbefore hraw hvalue hwhole.ne_nil hwhole.trimmed
        hcontent hwhole.after
  · rintro ⟨its, hbefore⟩ filler data hfiller
    exact same_last (h.path_ne_nil hpath) hbefore hfiller.complete hfiller.untagged hfiller.decodes
      hfiller.ended

namespace Sample

/-- A project up to within its name, which is no part of a document. -/
def named : String := "<project><name>a"

def inName : Gathering :=
  ⟨["name", "project"], "a", none, none, none, blank⟩

/-- A project up to its version. -/
def versioned : String := "<project><version>"

def inVersion : Gathering :=
  ⟨["version", "project"], "", none, none, none, blank⟩

example : inName.takesText = false ∧ inVersion.takesText = true := by decide +kernel

theorem reaches_named : Reaches named inName :=
  ⟨by decide +kernel, by decide +kernel⟩

theorem reaches_versioned : Reaches versioned inVersion :=
  ⟨by decide +kernel, by decide +kernel⟩

theorem endsInMarkup_versioned : EndsInMarkup versioned := by
  have hproject : isName "project" = true := by decide
  have hversion : isName "version" = true := by decide
  exact ⟨_, (isMarkup_openTag hproject attributes_nil).isComplete.append
    (isMarkup_openTag hversion attributes_nil).isComplete⟩

theorem isFiller_comment :
    IsFiller "1<!-- -->" ".2</version></project>" (textItems ['1'] ++ [.ignored]) where
  complete := by
    have hbody : ¬ ['-', '-', '>'] <:+: [' '] ++ ['-', '-'] := by decide
    have hrun : ∀ c ∈ ['1'], isText c = true := List.all_eq_true.1 rfl
    exact (isMarkup_comment hbody).isComplete.text_append hrun
  untagged := isData_append (isData_textItems _) (isData_singleton rfl)
  decodes := by
    have hone : CharacterData ['1'] ['1'] := .of_forall_ne (by simp)
    exact decodes_append.2 ⟨decodes_textItems.2 ⟨_, hone⟩, fun _ hraw => absurd hraw (by simp)⟩
  ended := Or.inr (by decide +kernel)

theorem same_in_other_spelling_named :
    SameDocument
      (named ++ String.ofList (openTag "br" [] ++ closeTag "br" []) ++ "b</name></project>")
      (named ++ String.ofList (emptyTag "br" []) ++ "b</name></project>") ∧
    SameDocument (named ++ "b</name></project>")
      (named ++ String.ofList (commentOf [' ']) ++ "b</name></project>") ∧
    SameDocument (named ++ String.ofList ['b'] ++ "</name></project>")
      (named ++ String.ofList (sectionOf ['b']) ++ "</name></project>") ∧
    SameDocument (versioned ++ String.ofList ['2'] ++ "</version></project>")
      (versioned ++ String.ofList (sectionOf ['2']) ++ "</version></project>") ∧
    SameDocument (versioned ++ "1<!-- -->" ++ ".2</version></project>")
      (versioned ++ ".2</version></project>") := by
  have hb : CharacterData ['b'] ['b'] := .of_forall_ne (by simp)
  have htwo : CharacterData ['2'] ['2'] := .of_forall_ne (by simp)
  obtain ⟨hempty, hnamed⟩ := same_in_other_spelling reaches_named "b</name></project>"
  obtain ⟨-, hend⟩ := same_in_other_spelling reaches_named "</name></project>"
  obtain ⟨-, hversioned⟩ := same_in_other_spelling reaches_versioned "</version></project>"
  obtain ⟨-, hrest⟩ := same_in_other_spelling reaches_versioned ".2</version></project>"
  refine ⟨?_, ?_, ?_, ?_, ?_⟩
  · exact hempty "br" [] [] [] (by decide) attributes_nil attributes_nil (List.forall_mem_nil _)
      (by decide +kernel) (Or.inr (by decide +kernel))
  · exact (hnamed (by decide)).1 [' '] (by decide) (by decide +kernel)
  · have hname : ∀ c ∈ ['b'], isText c = true := List.all_eq_true.1 rfl
    exact (hend (by decide)).2.1 ['b'] ['b'] hname hb (by decide) (Or.inl (by decide +kernel))
  · have hversion : ∀ c ∈ ['2'], isText c = true := List.all_eq_true.1 rfl
    have hwhole : IsWholeText versioned ['2'] "</version></project>" :=
      ⟨endsInMarkup_versioned, by simp, by decide +kernel, List.all_eq_true.1 (by decide +kernel)⟩
    exact (hversioned (by decide)).2.1 ['2'] ['2'] hversion htwo (by decide) (Or.inr hwhole)
  · exact (hrest (by decide)).2.2 endsInMarkup_versioned _ _ isFiller_comment

/-- A text in pieces is not that text, and an empty element is there in two tags only. -/
theorem spellings_differ :
    parse "<project><version>1.2</version></project>" = .ok { blank with version := some "1.2" } ∧
    parse "<project><version>1<!-- -->.2</version></project>" =
      .ok { blank with version := some ".2" } ∧
    parse "<project><version>1<![CDATA[.]]>2</version></project>" =
      .ok { blank with version := some "2" } ∧
    parse "<project><version></version></project>" = .ok { blank with version := some "" } ∧
    parse "<project><version/></project>" = .ok blank :=
  ⟨parse_of_toOption (by decide +kernel), parse_of_toOption (by decide +kernel),
    parse_of_toOption (by decide +kernel), parse_of_toOption (by decide +kernel),
    parse_of_toOption (by decide +kernel)⟩

end Sample

end Document

end Pom

end ManagedGraph
