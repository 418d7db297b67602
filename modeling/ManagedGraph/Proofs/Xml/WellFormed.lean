import ManagedGraph.Proofs.Xml.Nesting

/-!
# Well-formed elements

The elements that XML allows, as a grammar: tags with attributes, and between them text, comments,
character data sections, instructions and other elements, to any depth. An element is read whatever
follows it (`Element.exists_items`), and all of its tags are balanced.
-/

namespace ManagedGraph.Xml

/-! ## Grammar -/

/-- What a tag holds after its name: attributes, and blanks before and after them. -/
inductive Attributes : List Char → Prop where
  | blanks {s : List Char} (hs : ∀ c ∈ s, isBlank c = true) : Attributes s
  | one {name : String} {gap before after value rest : List Char} {quote : Char}
      (hgap : gap ≠ []) (hblank : ∀ c ∈ gap, isBlank c = true) (hname : isName name = true)
      (hbefore : ∀ c ∈ before, isBlank c = true) (hafter : ∀ c ∈ after, isBlank c = true)
      (hquote : quote = '\x22' ∨ quote = '\x27') (hvalue : quote ∉ value)
      (hrest : Attributes rest) :
      Attributes (gap ++ (name.toList ++
        (before ++ '=' :: (after ++ quote :: (value ++ quote :: rest)))))

def openTag (name : String) (attributes : List Char) : List Char :=
  '<' :: (name.toList ++ attributes ++ ['>'])

def closeTag (name : String) (blanks : List Char) : List Char :=
  '<' :: '/' :: (name.toList ++ blanks ++ ['>'])

def emptyTag (name : String) (attributes : List Char) : List Char :=
  '<' :: (name.toList ++ attributes ++ ['/', '>'])

def commentOf (body : List Char) : List Char :=
  '<' :: '!' :: '-' :: '-' :: (body ++ ['-', '-', '>'])

def sectionOf (content : List Char) : List Char :=
  '<' :: '!' :: '[' :: 'C' :: 'D' :: 'A' :: 'T' :: 'A' :: '[' :: (content ++ [']', ']', '>'])

/-- Text without markup, all references in it being valid. -/
def IsCharacterData (run : List Char) : Prop :=
  (∀ c ∈ run, isText c = true) ∧ ∃ value, CharacterData run value

/-- Markup that nothing can stand in: each ends where it can end first. -/
inductive Plain : List Char → Prop where
  | comment {body : List Char} (hbody : ¬ ['-', '-', '>'] <:+: body ++ ['-', '-']) :
      Plain (commentOf body)
  | cdata {content : List Char} (hcontent : ¬ [']', ']', '>'] <:+: content ++ [']', ']']) :
      Plain (sectionOf content)
  | instruction {content : List Char} (hcontent : ¬ ['?', '>'] <:+: content ++ ['?'])
      (hhead : content.head? ≠ some '>') : Plain ('<' :: '?' :: (content ++ ['?', '>']))
  | empty {name : String} {attributes : List Char} (hname : isName name = true)
      (hattributes : Attributes attributes) : Plain (emptyTag name attributes)

/-- What can stand in an element. -/
inductive Content : List Char → Prop where
  | text {run : List Char} (hrun : IsCharacterData run) : Content run
  | plain {run piece rest : List Char} (hrun : IsCharacterData run) (hpiece : Plain piece)
      (hrest : Content rest) : Content (run ++ (piece ++ rest))
  | element {name : String} {run attributes content blanks rest : List Char}
      (hrun : IsCharacterData run) (hname : isName name = true)
      (hattributes : Attributes attributes) (hcontent : Content content)
      (hblanks : ∀ c ∈ blanks, isBlank c = true) (hrest : Content rest) :
      Content (run ++ (openTag name attributes ++ (content ++ closeTag name blanks) ++ rest))

/-- An element with a name. -/
inductive Element (name : String) : List Char → Prop where
  | empty {attributes : List Char} (hname : isName name = true)
      (hattributes : Attributes attributes) : Element name (emptyTag name attributes)
  | content {attributes content blanks : List Char} (hname : isName name = true)
      (hattributes : Attributes attributes) (hcontent : Content content)
      (hblanks : ∀ c ∈ blanks, isBlank c = true) :
      Element name (openTag name attributes ++ (content ++ closeTag name blanks))

theorem attributes_nil : Attributes [] :=
  .blanks (List.forall_mem_nil _)

/-! ## Tags -/

/-- Text after which a tag goes on: it ends no tag, and all quotes in it are closed. -/
def StaysInTag (body : List Char) : Prop :=
  ∀ tail, splitTag none (body ++ tail) =
    (splitTag none tail).map fun parts => (body ++ parts.1, parts.2)

variable {body more attributes s run : List Char} {name : String}

theorem StaysInTag.append (h : StaysInTag body) (hmore : StaysInTag more) :
    StaysInTag (body ++ more) := by
  intro tail
  rw [List.append_assoc, h, hmore, Option.map_map]
  simp [Function.comp_def]

theorem stays_cons {c : Char} (hend : c ≠ '>') (hquote : c ≠ '\x22' ∧ c ≠ '\x27')
    (h : StaysInTag body) : StaysInTag (c :: body) := by
  intro tail
  rw [List.cons_append, splitTag, if_neg hend, if_neg (by simp [hquote]), h, Option.map_map]
  simp [Function.comp_def]

theorem stays_nil : StaysInTag [] := by
  intro tail
  simp

theorem stays_of_blank (h : ∀ c ∈ body, isBlank c = true) : StaysInTag body := by
  induction body with
  | nil => exact stays_nil
  | cons c body ih =>
      obtain ⟨hc, hbody⟩ := List.forall_mem_cons.1 h
      have hchar : c ≠ '>' ∧ c ≠ '\x22' ∧ c ≠ '\x27' := by
        refine ⟨?_, ?_, ?_⟩ <;>
        · rintro rfl
          exact absurd hc (by decide)
      exact stays_cons hchar.1 hchar.2 (ih hbody)

theorem stays_name (h : isName name = true) : StaysInTag name.toList := by
  have hall := all_of_isName h
  generalize name.toList = cs at hall
  induction cs with
  | nil => exact stays_nil
  | cons c rest ih =>
      obtain ⟨hc, hrest⟩ : endsName c = false ∧ (rest.all fun c => !endsName c) = true := by
        simpa using hall
      simp only [endsName, Bool.or_eq_false_iff, beq_eq_false_iff_ne] at hc
      exact stays_cons hc.1.1.1.2 ⟨hc.1.2, hc.2⟩ (ih hrest)

/-- A quote ends where it is closed. -/
theorem stays_quoted {quote : Char} {value : List Char} (hquote : quote = '\x22' ∨ quote = '\x27')
    (hvalue : quote ∉ value) : StaysInTag (quote :: (value ++ [quote])) := by
  have hinside (tail : List Char) : splitTag (some quote) (value ++ quote :: tail) =
      (splitTag none tail).map fun parts => (value ++ quote :: parts.1, parts.2) := by
    induction value with
    | nil =>
        rw [List.nil_append, splitTag, if_pos rfl]
        rfl
    | cons c value ih =>
        obtain ⟨hc, hrest⟩ : quote ≠ c ∧ quote ∉ value := by simpa using hvalue
        rw [List.cons_append, splitTag, if_neg (Ne.symm hc), ih hrest, Option.map_map]
        rfl
  intro tail
  have hend : quote ≠ '>' := by
    rintro rfl
    exact absurd hquote (by decide)
  rw [List.cons_append, List.append_assoc, List.singleton_append, splitTag, if_neg hend,
    if_pos hquote, hinside, Option.map_map]
  simp [Function.comp_def]

theorem Attributes.stays (h : Attributes attributes) : StaysInTag attributes := by
  induction h with
  | blanks hs => exact stays_of_blank hs
  | @one name gap before after value rest quote _ hblank hname hbefore hafter hquote hvalue
      _ ih =>
      have hequals : StaysInTag ['='] := stays_cons (by decide) (by decide) stays_nil
      have hstays := (stays_of_blank hblank).append ((stays_name hname).append
        ((stays_of_blank hbefore).append (hequals.append ((stays_of_blank hafter).append
          ((stays_quoted hquote hvalue).append ih)))))
      simpa using hstays

/-- A name ends where attributes begin. -/
theorem Attributes.takeWhile_eq_nil (h : Attributes attributes) :
    attributes.takeWhile (fun c => !isBlank c) = [] := by
  cases h with
  | blanks hs =>
      cases attributes with
      | nil => rfl
      | cons c rest => simp [hs c List.mem_cons_self]
  | @one _ gap _ _ _ _ _ hgap hblank =>
      cases gap with
      | nil => exact absurd rfl hgap
      | cons c gap => simp [hblank c List.mem_cons_self]

/-- Attributes do not end like the tag of an empty element. -/
theorem Attributes.getLast?_ne (h : Attributes attributes) : attributes.getLast? ≠ some '/' := by
  induction h with
  | blanks hs =>
      intro hlast
      exact absurd (hs _ (List.mem_of_getLast? hlast)) (by decide)
  | @one _ _ _ _ _ rest quote _ _ _ _ _ hquote _ _ ih =>
      have hne : quote ≠ '/' := by
        rintro rfl
        exact absurd hquote (by decide)
      cases hrest : rest.getLast? with
      | none => simp [List.getLast?_append, List.getLast?_cons, hrest, hne]
      | some c =>
          have hc : c ≠ '/' := by
            rintro rfl
            exact ih hrest
          simp [List.getLast?_append, List.getLast?_cons, hrest, hc]

theorem splitTag_name_append (hname : isName name = true) (hbody : StaysInTag body)
    (after : List Char) :
    splitTag none (name.toList ++ body ++ '>' :: after) = some (name.toList ++ body, after) := by
  rw [(stays_name hname).append hbody, splitTag, if_pos rfl]
  simp

/-- What follows a name and a `<` is a tag of an element. -/
theorem markup_name_append (hname : isName name = true) :
    markup (name.toList ++ body) = openingTag (name.toList ++ body) := by
  obtain ⟨hhead, hall⟩ := Bool.and_eq_true_iff.1 hname
  cases hcs : name.toList with
  | nil => simp [hcs] at hhead
  | cons c rest =>
      obtain ⟨hbang, hquestion⟩ : c ≠ '!' ∧ c ≠ '?' := by simpa [hcs] using hhead
      have hc : endsName c = false := by simpa using List.all_eq_true.1 hall c (by simp [hcs])
      exact markup_of_ne hbang hquestion (not_blank_of_not_endsName hc).2

theorem isMarkup_openTag (hname : isName name = true) (hattributes : Attributes attributes) :
    IsMarkup (name.toList ++ attributes ++ ['>']) (.opening name) := by
  intro after
  obtain ⟨init, c, hcs, -, hslash⟩ := exists_name_eq_concat hname
  have hlast : (name.toList ++ attributes).getLast? ≠ some '/' := by
    rw [List.getLast?_append, hcs]
    cases hend : attributes.getLast? with
    | none => simpa using hslash
    | some d =>
        rintro hd
        exact hattributes.getLast?_ne (hend.trans hd)
  have hblank : ∀ d ∈ name.toList, (!isBlank d) = true := by
    intro d hd
    have hends := List.all_eq_true.1 (all_of_isName hname) d hd
    simpa using (not_blank_of_not_endsName (by simpa using hends)).1
  have htake : (name.toList ++ attributes).takeWhile (fun d => !isBlank d) = name.toList := by
    rw [List.takeWhile_append_of_pos hblank, hattributes.takeWhile_eq_nil, List.append_nil]
  rw [List.append_assoc, List.append_assoc, markup_name_append hname, ← List.append_assoc,
    List.singleton_append, openingTag, splitTag_name_append hname hattributes.stays]
  dsimp only
  rw [if_neg hlast, htake, String.ofList_toList]

theorem isMarkup_emptyTag (hname : isName name = true) (hattributes : Attributes attributes) :
    IsMarkup (name.toList ++ attributes ++ ['/', '>']) .ignored := by
  intro after
  have hslash : StaysInTag (attributes ++ ['/']) :=
    hattributes.stays.append (stays_cons (by decide) (by decide) stays_nil)
  have hlast : (name.toList ++ (attributes ++ ['/'])).getLast? = some '/' := by simp
  have hparts : name.toList ++ attributes ++ ['/', '>'] ++ after =
      name.toList ++ (attributes ++ ['/']) ++ '>' :: after := by simp
  rw [hparts, List.append_assoc, markup_name_append hname, ← List.append_assoc, openingTag,
    splitTag_name_append hname hslash]
  dsimp only
  rw [if_pos hlast]

theorem isMarkup_closeTag {blanks : List Char} (hname : isName name = true)
    (hblanks : ∀ c ∈ blanks, isBlank c = true) :
    IsMarkup ('/' :: (name.toList ++ blanks ++ ['>'])) (.closing name) := by
  intro after
  obtain ⟨init, c, hcs, hblank, -⟩ := exists_name_eq_concat hname
  have hkept : closingName (name.toList ++ blanks) = name.toList := by
    have hall : (name.toList ++ blanks).all isBlank = false := by simp [hcs, hblank]
    rw [closingName, hall, if_neg (by simp), dropEndWhile_append _ hblanks, hcs,
      Text.dropEndWhile_append_singleton init hblank]
  rw [List.cons_append, List.append_assoc _ ['>'], List.singleton_append, markup, closingTag,
    splitTag_name_append hname (stays_of_blank hblanks)]
  dsimp only
  rw [hkept, String.ofList_toList]

/-! ## Other markup -/

theorem isMarkup_comment (hbody : ¬ ['-', '-', '>'] <:+: body ++ ['-', '-']) :
    IsMarkup (commentOf body).tail .ignored := by
  intro after
  simp only [commentOf, List.tail_cons, List.cons_append]
  rw [markup, comment, Text.breakOn_append (by simp) hbody]

theorem isMarkup_section {content : List Char}
    (hcontent : ¬ [']', ']', '>'] <:+: content ++ [']', ']']) :
    IsMarkup (sectionOf content).tail (.cdata (String.ofList content)) := by
  intro after
  simp only [sectionOf, List.tail_cons, List.cons_append]
  rw [markup, cdata, Text.breakOn_append (by simp) hcontent]

theorem isMarkup_instruction {content : List Char}
    (hcontent : ¬ ['?', '>'] <:+: content ++ ['?']) (hhead : content.head? ≠ some '>') :
    IsMarkup ('?' :: (content ++ ['?', '>'])) .ignored := by
  intro after
  have hstart : (content ++ ['?', '>'] ++ after).head? ≠ some '>' := by
    cases content with
    | nil => simp
    | cons c content => simpa using hhead
  rw [List.cons_append, markup, instruction, if_neg hstart,
    Text.breakOn_append (by simp) hcontent]

/-- Markup that nothing can stand in tells neither of a tag nor of text. -/
theorem Plain.exists_isMarkup {piece : List Char} (h : Plain piece) :
    ∃ part item, piece = '<' :: part ∧ IsMarkup part item ∧ item.isTag = false ∧
      ∀ raw, item ≠ .text raw := by
  cases h with
  | comment hbody => exact ⟨_, .ignored, rfl, isMarkup_comment hbody, rfl, by simp⟩
  | cdata hcontent => exact ⟨_, .cdata _, rfl, isMarkup_section hcontent, rfl, by simp⟩
  | instruction hcontent hhead =>
      exact ⟨_, .ignored, rfl, isMarkup_instruction hcontent hhead, rfl, by simp⟩
  | empty hname hattributes =>
      exact ⟨_, .ignored, rfl, isMarkup_emptyTag hname hattributes, rfl, by simp⟩

/-! ## Reading elements -/

/-- Items of whole elements: tags are balanced, and texts can be decoded. -/
structure Proper (its : List Item) : Prop where
  balanced : Balanced its
  decodes : Decodes its
  named : ∀ name, .opening name ∈ its → isName name = true

variable {its later : List Item}

theorem proper_nil : Proper [] where
  balanced := .nil
  decodes := fun _ hraw => absurd hraw (by simp)
  named := fun _ hname => absurd hname (by simp)

theorem Proper.append (h : Proper its) (hlater : Proper later) : Proper (its ++ later) where
  balanced := h.balanced.append hlater.balanced
  decodes := decodes_append.2 ⟨h.decodes, hlater.decodes⟩
  named := by
    intro name hname
    rcases List.mem_append.1 hname with hname | hname
    · exact h.named name hname
    · exact hlater.named name hname

theorem proper_singleton {item : Item} (htag : item.isTag = false)
    (htext : ∀ raw, item = .text raw → ∃ value, decode raw = .ok value) : Proper [item] where
  balanced := .data htag .nil
  decodes := decodes_cons.2 ⟨htext, proper_nil.decodes⟩
  named := by
    intro name hname
    obtain rfl := List.mem_singleton.1 hname
    exact absurd htag (by simp [Item.isTag, Item.isOpening])

theorem proper_textItems (hrun : IsCharacterData run) : Proper (textItems run) := by
  have hdecodes := decodes_textItems.2 hrun.2
  rcases textItems_cases run with hitems | ⟨raw, hitems⟩
  · rw [hitems]
    exact proper_nil
  · rw [hitems] at hdecodes ⊢
    exact proper_singleton rfl (decodes_cons.1 hdecodes).1

theorem Proper.element (hname : isName name = true) (h : Proper its) :
    Proper (.opening name :: (its ++ [.closing name])) where
  balanced := .element h.balanced .nil
  decodes := by
    refine decodes_cons.2 ⟨by simp, decodes_append.2 ⟨h.decodes, ?_⟩⟩
    exact decodes_cons.2 ⟨by simp, proper_nil.decodes⟩
  named := by
    intro other hother
    simp only [List.mem_cons, List.mem_append, Item.opening.injEq, List.not_mem_nil, or_false,
      reduceCtorEq] at hother
    rcases hother with rfl | hother
    · exact hname
    · exact h.named other hother

/-- Tags around what is read in any place are read with it. -/
theorem isComplete_element {content blanks : List Char} (hname : isName name = true)
    (hattributes : Attributes attributes) (hblanks : ∀ c ∈ blanks, isBlank c = true)
    (hcontent : ∀ more later, IsComplete ('<' :: more) later →
      IsComplete (content ++ '<' :: more) (its ++ later)) :
    IsComplete (openTag name attributes ++ (content ++ closeTag name blanks))
      (.opening name :: (its ++ [.closing name])) :=
  (isMarkup_openTag hname hattributes).isComplete.append
    (hcontent _ _ (isMarkup_closeTag hname hblanks).isComplete)

/-- What stands in an element is read up to the tag that follows it. -/
theorem Content.exists_items (h : Content s) :
    ∃ its, Proper its ∧ ∀ more later, IsComplete ('<' :: more) later →
      IsComplete (s ++ '<' :: more) (its ++ later) := by
  induction h with
  | @text run hrun =>
      exact ⟨textItems run, proper_textItems hrun, fun more later h => h.text_append hrun.1⟩
  | @plain run piece rest hrun hpiece _ ih =>
      obtain ⟨its, hproper, hrest⟩ := ih
      obtain ⟨part, item, rfl, hmarkup, htag, htext⟩ := hpiece.exists_isMarkup
      have hitem : Proper [item] :=
        proper_singleton htag fun raw hraw => absurd hraw (htext raw)
      have hitems := (proper_textItems hrun).append (hitem.append hproper)
      refine ⟨textItems run ++ ([item] ++ its), hitems, ?_⟩
      intro more later h
      have hpart := (hmarkup.isComplete.append (hrest more later h)).text_append hrun.1
      simpa using hpart
  | @element name run attributes content blanks rest hrun hname hattributes _ hblanks _ ihcontent
      ihrest =>
      obtain ⟨its, hproper, hcontent⟩ := ihcontent
      obtain ⟨others, hothers, hrest⟩ := ihrest
      refine ⟨textItems run ++ (.opening name :: (its ++ [.closing name]) ++ others),
        (proper_textItems hrun).append ((hproper.element hname).append hothers), ?_⟩
      intro more later h
      have helement := isComplete_element hname hattributes hblanks hcontent
      have hpart := (helement.append (hrest more later h)).text_append hrun.1
      simpa [openTag] using hpart

/-- An element is read whatever follows it: as its tags and what is between them, or as nothing if
it is empty. -/
theorem Element.exists_items (h : Element name s) :
    isName name = true ∧ ∃ its, IsComplete s its ∧
      (its = [.ignored] ∨ ∃ content, Proper content ∧
        its = .opening name :: (content ++ [.closing name])) := by
  cases h with
  | empty hname hattributes =>
      exact ⟨hname, _, (isMarkup_emptyTag hname hattributes).isComplete, Or.inl rfl⟩
  | content hname hattributes hcontent hblanks =>
      obtain ⟨its, hproper, hitems⟩ := hcontent.exists_items
      exact ⟨hname, _, isComplete_element hname hattributes hblanks hitems,
        Or.inr ⟨its, hproper, rfl⟩⟩

end ManagedGraph.Xml
